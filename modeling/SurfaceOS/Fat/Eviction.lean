import SurfaceOS.Fat.Cached

/-! Whether the vnode cache (fs/vfs.cpp) can make room. `find_evictable` takes a vnode that only the cache
holds, and a clean one; nothing cleans the vnode of a directory once a call has changed the directory. So a
place is lost when the last other reference to a dirty vnode goes, and in no other way. -/
namespace SurfaceOS.Fat.Mounted
open Lib Function Option Nat List

variable {a : Move} {id newDir oldDir slot : Nat}

def maxVnodes : Nat := 256

inductive Move
  | lookup (dir : Nat) (name : Name)
  | create (dir : Nat) (name : Name)
  | mkdir (dir : Nat) (name : Name)
  | unlink (dir : Nat) (name : Name)
  | rmdir (dir : Nat) (name : Name)
  | rename (oldDir : Nat) (oldName : Name) (newDir : Nat) (newName : Name) (noReplace : Bool)
  | call (id : Nat) (c : Call)
  | ref (id : Nat)
  | unref (id : Nat)
  | clock (now : Nat)
  | memory (free : Bool)

def act (sb : Super) (s : Mounted) : Move → Mounted
  | .lookup dir name => (s.lookup sb dir name).2
  | .create dir name => (s.create sb dir name).2
  | .mkdir dir name => (s.mkdir sb dir name).2
  | .unlink dir name => (s.unlink sb dir name).2
  | .rmdir dir name => (s.rmdir sb dir name).2
  | .rename oldDir oldName newDir newName noReplace => (s.rename sb oldDir oldName newDir newName noReplace).2
  | .call id c => (s.call sb id c).2
  | .ref id => s.ref id
  | .unref id => s.unref sb id
  | .clock now => {s with now := now}
  | .memory free => {s with memory := free}

def Busy (s : Mounted) (i : Nat) : Prop := some i ∈ s.pool → ∀ v, s.vnodes i = some v → 2 ≤ v.refcnt

/-- A call has references to the vnodes it works on, and a reference that is dropped was there. -/
def Proper (s : Mounted) : Move → Prop
  | .lookup dir _ | .create dir _ | .mkdir dir _ | .unlink dir _ | .rmdir dir _ => s.Busy dir
  | .rename oldDir _ newDir _ _ => s.Busy oldDir ∧ s.Busy newDir
  | .call id _ | .ref id | .unref id => s.Busy id
  | .clock _ | .memory _ => True

/-- The last reference besides the cache's goes only from a clean vnode. -/
def LeftClean (s : Mounted) : Move → Prop
  | .unref id => ∀ v, s.vnodes id = some v → v.refcnt = 2 → v.node.dirty = false
  | _ => True

def Unchanged (s : Mounted) : Prop :=
  s.pool.length = maxVnodes ∧ ∀ i v, some i ∈ s.pool → s.vnodes i = some v → v.node.dirty = false

/-- A place of the cache that nobody else refers to. -/
def Unreferenced (s : Mounted) : Option Nat → Prop
  | none => True
  | some i => ∃ v, s.vnodes i = some v ∧ v.refcnt = 1

/-- Where a place is unreferenced, `get_cached` succeeds, but for memory; it never says that the cache is full. -/
def MakesRoom (sb : Super) (s : Mounted) : Prop :=
  (∃ place ∈ s.pool, s.Unreferenced place) → ∀ v,
    (s.memory → ∃ i, (s.getCached sb v).1 = .ok i) ∧ (s.getCached sb v).1 ≠ .error .enfile

def Tidy (s : Mounted) : Prop :=
  ∀ i v, some i ∈ s.pool → s.vnodes i = some v → v.refcnt ≤ 1 → v.node.dirty = false

/-- What is in the cache in `t` is held, or was there in `s`, not held more and no cleaner. -/
def Tame (s t : Mounted) : Prop :=
  ∀ i v, some i ∈ t.pool → t.vnodes i = some v → 2 ≤ v.refcnt ∨
    ∃ u, some i ∈ s.pool ∧ s.vnodes i = some u ∧ u.refcnt ≤ v.refcnt ∧ (v.node.dirty → u.node.dirty)

def Away (s : Mounted) (i : Nat) (t : Mounted) : Prop :=
  (∀ j, some j ∈ t.pool → some j ∈ s.pool) ∧ ∀ j, j ≠ i → t.vnodes j = s.vnodes j

section
variable {s t u : Mounted} {i : Nat} (sb : Super)

theorem Tame.refl (s : Mounted) : Tame s s := fun _ v pooled here => .inr ⟨v,pooled,here,le_refl _,id⟩

theorem Tame.trans (first : Tame s t) (second : Tame t u) : Tame s u := by
  intro i v pooled here
  obtain held | ⟨w,before,there,less,dirty⟩ := second i v pooled here
  · exact .inl held
  · obtain held | ⟨x,first,origin,fewer,dirtier⟩ := first i w before there
    · exact .inl (le_trans held less)
    · exact .inr ⟨x,first,origin,le_trans fewer less,dirtier ∘ dirty⟩

theorem Tame.busy (tame : Tame s t) (busy : s.Busy i) : t.Busy i := by
  intro pooled v here
  obtain held | ⟨u,before,there,less,-⟩ := tame i v pooled here
  · exact held
  · exact le_trans (busy before u there) less

theorem Tame.tidy (tame : Tame s t) (tidy : s.Tidy) : t.Tidy := by
  intro i v pooled here free
  obtain held | ⟨u,before,there,less,dirty⟩ := tame i v pooled here
  · omega
  have clean := tidy i u before there (le_trans less free)
  cases marked : v.node.dirty with
  | false => rfl
  | true => exact absurd (dirty marked) (by simp [clean])

theorem Tame.alter (change : Vnode → Vnode) (count : ∀ v, v.refcnt ≤ (change v).refcnt)
    (kept : s.Busy i ∨ ∀ v, (change v).node.dirty → v.node.dirty) : Tame s (s.alter i change) := by
  intro j v pooled here
  by_cases same : j = i
  · subst same
    have whole : (s.alter j change).vnodes j = (s.vnodes j).map change := update_self ..
    obtain ⟨u,there,rfl⟩ := map_eq_some_iff.mp (whole.symm.trans here)
    rcases kept with busy | dirty
    · exact .inl (le_trans (busy pooled u there) (count u))
    · exact .inr ⟨u,pooled,there,count u,dirty u⟩
  · rw [alter_other s change same] at here
    exact Tame.refl s j v pooled here

theorem Tame.keep (busy : s.Busy i) (io : Io) : Tame s (s.keep i io) :=
  Tame.alter (s := {s with vol := io.vol}) _ (fun _ => le_refl _) (.inl busy)

theorem Tame.touch (busy : s.Busy i) : Tame s (s.touch i) := .alter _ (fun _ => le_refl _) (.inl busy)

theorem Away.tame (away : Away s i t) (gone : some i ∉ t.pool) : Tame s t := by
  intro j v pooled here
  have other : j ≠ i := fun same => gone (same ▸ pooled)
  exact .inr ⟨v,away.1 j pooled,(away.2 j other).symm.trans here,le_refl _,id⟩

theorem Away.trans (first : Away s i t) (second : Away t i u) : Away s i u :=
  ⟨fun j pooled => first.1 j (second.1 j pooled),fun j other => (second.2 j other).trans (first.2 j other)⟩

section
variable (s) (i)

theorem Tame.ref : Tame s (s.ref i) := .alter _ (fun _ => le_succ _) (.inr fun _ => id)

theorem Tame.written : Tame s (s.written i) := by
  unfold Mounted.written
  split
  · unfold updateEntry
    split
    · exact .refl s
    · split
      · exact .refl s
      · exact Tame.alter (s := s.edit _ _) _ (fun _ => le_refl _) (.inr fun _ => nofun)
  · exact .refl s

theorem Away.refl : Away s i s := ⟨fun _ => id,fun _ _ => rfl⟩

theorem Away.alter (change : Vnode → Vnode) : Away s i (s.alter i change) :=
  ⟨fun _ => id,fun _ other => alter_other s change other⟩

theorem Away.drop : Away s i (s.drop i) := ⟨fun _ => id,fun _ other => update_of_ne other ..⟩

theorem Away.unpool : Away s i (s.unpool i) :=
  ⟨fun _ pooled => (mem_unpool.mp pooled).1,fun _ _ => rfl⟩

end

theorem Away.release (s : Mounted) (i : Nat) : Away s i (s.release sb i) := by
  have updated : Away s i (s.updateEntry i) := by
    fun_cases updateEntry s i with
    | case3 => exact Away.alter (s.edit _ _) i _
    | _ => exact .refl s i
  unfold Mounted.release
  split
  · exact .refl s i
  dsimp only
  split
  · split
    · exact updated
    · exact .refl s i
  · split
    · exact updated
    · exact .refl s i

theorem Away.invalidate (s : Mounted) (i : Nat) : Away s i (s.invalidate sb i) ∧ some i ∉ (s.invalidate sb i).pool := by
  unfold Mounted.invalidate
  split
  · have left : Away s i ((s.unpool i).deref i) := (Away.unpool s i).trans (.alter _ i _)
    have gone : some i ∉ ((s.unpool i).deref i).pool := fun pooled => (mem_unpool.mp pooled).2 rfl
    dsimp only
    split
    · have freed : Away ((s.unpool i).deref i) i ((((s.unpool i).deref i).release sb i).drop i) :=
        (Away.release sb _ i).trans (.drop _ i)
      exact ⟨left.trans freed,fun pooled => gone (freed.1 i pooled)⟩
    · exact ⟨left,gone⟩
  · next out => exact ⟨.refl s i,out⟩

theorem Away.unref (s : Mounted) (i : Nat) : Away s i (s.unref sb i) := by
  unfold Mounted.unref
  split
  · exact .refl s i
  · split
    · exact .alter s i _
    · exact (((Away.alter s i _).trans (.unpool _ i)).trans (.release sb _ i)).trans (.drop _ i)

theorem Away.orphan (s : Mounted) (i : Nat) (isDir : Bool) :
    Away s i (s.orphan sb i isDir) ∧ some i ∉ (s.orphan sb i isDir).pool := by
  unfold Mounted.orphan
  generalize s.alter i _ = m,Away.alter s i _ = marked
  obtain ⟨away,gone⟩ := Away.invalidate sb m i
  exact ⟨(marked.trans away).trans (.unref sb _ i),fun pooled => gone ((Away.unref sb _ i).1 i pooled)⟩

theorem Tame.getCached (s : Mounted) (v : Vnode) : Tame s (s.getCached sb v).2 := by
  have entered (m : Mounted) (tame : Tame s m) (place : Nat) : Tame s (m.enter place v) := by
    intro j x pooled here
    by_cases new : j = m.fresh
    · subst new
      have whole : (m.enter place v).vnodes m.fresh = some {v with refcnt := 2} := update_self ..
      obtain rfl := some.inj (whole.symm.trans here)
      exact .inl (le_refl 2)
    have whole : (m.enter place v).vnodes j = m.vnodes j := update_of_ne new ..
    refine tame j x ?_ (whole.symm.trans here)
    rcases List.mem_or_eq_of_mem_set pooled with before | same
    · exact before
    · exact absurd (some.inj same) new
  unfold Mounted.getCached
  split
  · exact .ref s _
  split
  · split
    · exact entered s (.refl s) _
    · exact .refl s
  · exact .refl s
  · next victim _ found =>
    have freed : Away s victim (s.evict sb victim) := ((Away.release sb s victim).trans (.drop _ victim)).trans (.unpool _ victim)
    have tame := freed.tame fun pooled => (mem_unpool.mp pooled).2 rfl
    dsimp only
    split
    · exact entered _ tame _
    · exact tame

theorem Tame.orphan (s : Mounted) (i : Nat) (isDir : Bool) : Tame s (s.orphan sb i isDir) :=
  (Away.orphan sb s i isDir).1.tame (Away.orphan sb s i isDir).2

theorem Tame.forgets (s : Mounted) (key : Nat) (isDir : Bool) : Tame s (match s.findCached key with
      | (some v,m) => m.orphan sb v isDir
      | (none,m) => m) := by
  unfold findCached
  cases s.hit key with
  | none => exact .refl s
  | some v => exact (Tame.ref s v).trans (.orphan sb _ v isDir)

theorem Tame.returned {m : Mounted} (others : ∀ j, j ≠ i → some j ∈ m.pool → some j ∈ s.pool ∧ m.vnodes j = s.vnodes j)
    (itself : ∀ x, some i ∈ m.pool → m.vnodes i = some x → ∃ u, some i ∈ s.pool ∧ s.vnodes i = some u ∧
      x.refcnt = u.refcnt + 1 ∧ x.node.dirty = u.node.dirty) : Tame s (m.unref sb i) := by
  intro j v pooled here
  have away := Away.unref sb m i
  by_cases same : j = i
  · subst same
    have before := away.1 j pooled
    cases origin : m.vnodes j with
    | none =>
      have dead : m.refcnt j = 0 := by simp [Mounted.refcnt,origin]
      rw [Mounted.unref,if_pos dead,origin] at here
      cases here
    | some x =>
      obtain ⟨u,first,there,count,dirty⟩ := itself x before origin
      by_cases last : x.refcnt = 1
      · rw [unref_last sb origin last] at here
        have whole : ((((m.deref j).unpool j).release sb j).drop j).vnodes j = none := update_self ..
        rw [whole] at here
        cases here
      · rw [unref_held sb origin (by omega),deref_here origin] at here
        obtain rfl := some.inj here
        exact .inr ⟨u,first,there,by dsimp only; omega,fun marked => dirty ▸ marked⟩
  · obtain ⟨before,origin⟩ := others j same (away.1 j pooled)
    exact .inr ⟨v,before,by rw [← origin,← away.2 j same,here],le_refl _,id⟩

theorem rekey_spec (s : Mounted) (i key : Nat) :
    (∀ j, j ≠ i → some j ∈ (s.rekey sb i key).pool → some j ∈ s.pool ∧ (s.rekey sb i key).vnodes j = s.vnodes j) ∧
      (some i ∈ (s.rekey sb i key).pool → some i ∈ s.pool) ∧
      ∃ k, (s.rekey sb i key).vnodes i = (s.vnodes i).map fun v => {v with fsKey := k} := by
  unfold Mounted.rekey
  split
  · refine ⟨fun _ _ pooled => ⟨pooled,rfl⟩,id,?_⟩
    cases here : s.vnodes i with
    | none => exact ⟨key,rfl⟩
    | some v => exact ⟨v.fsKey,rfl⟩
  dsimp only
  split
  · next other found =>
    have apart : i ≠ other := by
      split at found
      · exact fun same => (mem_unpool.mp (hit_some (s := s.unpool i) found).1).2 same.symm
      · cases found
    obtain ⟨⟨less,rest⟩,gone⟩ := Away.invalidate sb s other
    refine ⟨fun j apart pooled => ⟨less j pooled,?_⟩,less i,key,?_⟩
    · rw [alter_other _ _ apart]
      exact rest j fun same => gone (same ▸ pooled)
    · rw [← rest i apart]
      exact update_self ..
  · exact ⟨fun j apart pooled => ⟨pooled,alter_other s _ apart⟩,id,key,update_self ..⟩

theorem Tame.follow (s : Mounted) (src : Entry) (oldKey newCluster : Nat) (new : Fatdir.Created) :
    Tame s (s.follow sb src oldKey newCluster new) := by
  unfold Mounted.follow
  dsimp only
  unfold findCached
  cases found : s.hit _ with
  | none => exact .refl s
  | some i =>
    obtain ⟨pooled,v,here,-⟩ := hit_some found
    dsimp only
    generalize placing : (s.ref i).alter i (fun fn =>
      {fn with parentCluster := newCluster, entryIndex := new.index, entry := new.spot}) = m
    have others : Away s i m := placing ▸ (Away.alter s i _).trans (.alter _ i _)
    have there := alter_here (alter_here here (fun v => {v with refcnt := v.refcnt + 1})) (fun fn =>
      {fn with parentCluster := newCluster, entryIndex := new.index, entry := new.spot})
    have placed : m.vnodes i = _ := placing ▸ there
    split
    · refine .returned sb (fun j other inside => ⟨others.1 j inside,others.2 j other⟩) fun x _ origin => ?_
      obtain rfl := some.inj (placed.symm.trans origin)
      exact ⟨v,pooled,here,rfl,rfl⟩
    obtain ⟨rest,-,k,moved⟩ := rekey_spec sb m i (fileKey newCluster new.index)
    refine .returned sb (fun j other inside => ?_) fun x _ origin => ?_
    · obtain ⟨before,same⟩ := rest j other inside
      exact ⟨others.1 j before,same.trans (others.2 j other)⟩
    · rw [placed] at moved
      obtain rfl := some.inj (moved.symm.trans origin)
      exact ⟨v,pooled,here,rfl,rfl⟩

theorem Tame.dirVnode (s : Mounted) (cluster : Nat) : Tame s (s.dirVnode sb cluster).2 := by
  unfold Mounted.dirVnode
  split
  · exact .getCached sb s _
  · exact .getCached sb s _

theorem Tame.lookup (s : Mounted) (dir : Nat) (name : Name) : Tame s (s.lookup sb dir name).2 := by
  unfold Mounted.lookup
  split
  · exact .refl s
  · exact .refl s
  unfold vnodeFromRecord
  split
  · exact .dirVnode sb s _
  · exact .getCached sb s _

variable {dir : Nat}

theorem Tame.removeRecord (busy : s.Busy dir) (slot : Nat) : Tame s (s.removeRecord sb dir slot).2 := .keep busy _

theorem Tame.freeFile (s : Mounted) (cluster : Nat) : Tame s (s.freeFile sb cluster).2 := by
  unfold Mounted.freeFile
  split
  · exact .refl s
  · exact .refl s

theorem Tame.disown (s : Mounted) (key cluster : Nat) : Tame s (s.disown sb key cluster).2 := by
  have forgotten := Tame.forgets sb s key false
  unfold Mounted.disown
  split
  · next found =>
    rw [found] at forgotten
    exact forgotten
  · next missed =>
    rw [missed] at forgotten
    exact forgotten.trans (.freeFile sb _ cluster)

theorem Tame.removed {m n : Mounted} (tame : Tame s m) (busy : s.Busy dir) {rc : Except Errno Unit}
    (ran : m.removeRecord sb dir slot = (rc,n)) : Tame s n := by
  have removed := tame.trans (.removeRecord sb (tame.busy busy) slot)
  rw [ran] at removed
  exact removed

theorem Tame.clear (busy : s.Busy dir) (noReplace : Bool) (src : Entry) (target : Option Entry) :
    Tame s (s.clear sb noReplace src dir target).2 := by
  unfold Mounted.clear
  split
  · exact .refl s
  rename_i dst
  split
  · exact .refl s
  unfold Mounted.replace
  dsimp only
  have forgotten (key : Nat) := Tame.forgets sb s key dst.slot.isDirectory
  split
  · next kept => exact (forgotten _).removed sb busy kept
  rename_i m gone
  have removed := (forgotten _).removed sb busy gone
  split
  · exact removed
  · split
    · exact removed.trans (.freeFile sb m _)
    · exact removed

theorem Tame.rename (old : s.Busy oldDir) (new : s.Busy newDir) (oldName newName : Name)
    (noReplace : Bool) : Tame s (s.rename sb oldDir oldName newDir newName noReplace).2 := by
  unfold Mounted.rename
  split
  · exact .refl s
  split
  · exact .refl s
  · exact .refl s
  dsimp only
  split
  · exact .refl s
  · exact .refl s
  split
  · exact .refl s
  next src _ _ _ _ target _ =>
  have cleared := Tame.clear sb new noReplace src target
  split
  · next failed =>
    rw [failed] at cleared
    exact cleared
  next m done =>
  rw [done] at cleared
  split
  · exact cleared.trans (.keep (cleared.busy new) _)
  next made io _ =>
  have kept : Tame s (m.keep newDir io) := cleared.trans (.keep (cleared.busy new) io)
  split
  · next kept' => exact Tame.removed sb (by split <;> split <;> exact kept) old kept'
  rename_i n gone
  have removed : Tame s n := Tame.removed sb (by split <;> split <;> exact kept) old gone
  have followed (key cluster : Nat) := removed.trans (.follow sb n src key cluster made)
  have touched (key cluster : Nat) := (followed key cluster).trans (.touch ((followed key cluster).busy old))
  exact (touched _ _).trans (.touch ((touched _ _).busy new))

theorem Tame.call (busy : s.Busy id) (c : Call) : Tame s (s.call sb id c).2 := by
  cases c with
  | write off src =>
    rw [Mounted.call]
    split
    · exact .refl s
    · split
      · exact .keep busy _
      · exact (Tame.keep busy _).trans (.written _ id)
  | truncate size =>
    rw [Mounted.call]
    split
    · exact .refl s
    · split
      · exact .keep busy _
      · exact (Tame.keep busy _).trans (.written _ id)
  | fsync =>
    rw [Mounted.call]
    split
    · exact .written s id
    · exact .refl s

theorem Proper.unref (busy : s.Busy i) : s.Proper (.unref i) := busy

theorem Tidy.unref (tidy : s.Tidy) (proper : s.Busy id)
    (clean : ∀ v, s.vnodes id = some v → v.refcnt = 2 → v.node.dirty = false) : (s.unref sb id).Tidy := by
  intro j v pooled here free
  have away := Away.unref sb s id
  by_cases same : j = id
  · subst same
    cases origin : s.vnodes j with
    | none =>
      have dead : s.refcnt j = 0 := by simp [Mounted.refcnt,origin]
      rw [Mounted.unref,if_pos dead,origin] at here
      cases here
    | some u =>
      have held := proper (away.1 j pooled) u origin
      rw [unref_held sb origin held,deref_here origin] at here
      obtain rfl := some.inj here
      dsimp only at free
      exact clean u origin (by omega)
  · rw [away.2 j same] at here
    exact tidy j v (away.1 j pooled) here free

theorem Tidy.makesRoom (tidy : s.Tidy) : s.MakesRoom sb := by
  rintro ⟨place,inside,unreferenced⟩ v
  fun_cases Mounted.getCached sb s v with
  | case4 _ stuck full =>
    cases place with
    | none => exact absurd (List.findIdx?_eq_none_iff.mp full none inside) (by simp)
    | some i =>
      obtain ⟨u,here,alone⟩ := unreferenced
      have member : i ∈ s.pool.filterMap id := List.mem_filterMap.mpr ⟨some i,inside,rfl⟩
      have refused := List.find?_eq_none.mp stuck i member
      rw [here] at refused
      exact absurd (by simp [alone,tidy i u inside here (by omega)]) refused
  | case3 | case6 => exact ⟨fun memory => absurd memory ‹_›,nofun⟩
  | _ => exact ⟨fun _ => ⟨_,rfl⟩,nofun⟩

section
variable (busy : s.Busy dir) (name : Name)
include busy name

theorem Tame.create : Tame s (s.create sb dir name).2 := by
  unfold Mounted.create
  split
  · exact .keep busy _
  rename_i new io _
  have kept := Tame.keep busy io
  have got := Tame.getCached sb (s.keep dir io) {
    fsKey := fileKey (s.cluster dir) new.index, regular := true, node := ⟨0,0,0,0,false⟩, parentCluster := s.cluster dir,
    entryIndex := new.index, entry := new.spot, mtime := s.now, atime := s.now, unlinked := false, refcnt := 2}
  split
  · next failed =>
    rw [failed] at got
    exact kept.trans got
  · next made =>
    rw [made] at got
    exact (kept.trans got).trans (.touch ((kept.trans got).busy busy))

theorem Tame.mkdir : Tame s (s.mkdir sb dir name).2 := by
  unfold Mounted.mkdir
  split
  · exact .refl s
  dsimp only
  split
  · exact .refl s
  · split
    · exact Tame.keep (s := {s with vol := _}) busy _
    · exact (Tame.keep (s := {s with vol := _}) busy _).trans (.touch ((Tame.keep (s := {s with vol := _}) busy _).busy busy))

theorem Tame.unlink : Tame s (s.unlink sb dir name).2 := by
  unfold Mounted.unlink
  split
  · exact .refl s
  · exact .refl s
  rename_i e _
  split
  · exact .refl s
  have disowned := Tame.disown sb s (fileKey (s.cluster dir) e.index) e.slot.cluster
  split
  · next failed =>
    rw [failed] at disowned
    exact disowned
  rename_i done
  rw [done] at disowned
  split
  · next kept => exact disowned.removed sb busy kept
  · next gone =>
    have removed := disowned.removed sb busy gone
    exact removed.trans (.touch (removed.busy busy))

theorem Tame.rmdir : Tame s (s.rmdir sb dir name).2 := by
  have forgotten (e : Entry) := Tame.forgets sb s (dirKey e.slot.cluster) true
  fun_cases Mounted.rmdir sb s dir name with
  | case6 e _ _ _ _ _ _ _ _ _ ran | case7 e _ _ _ _ _ _ _ _ _ ran =>
    have removed := (forgotten e).removed sb busy ran
    exact removed
  | case8 e _ _ _ _ _ _ _ _ m ran =>
    have removed := (forgotten e).removed sb busy ran
    exact removed.trans (Tame.touch (s := {m with vol := _}) (removed.busy busy))
  | _ => exact .refl s

end

theorem Tame.act (proper : s.Proper a) (other : ∀ id, a ≠ .unref id) : Tame s (s.act sb a) := by
  cases a with
  | lookup dir name => exact .lookup sb s dir name
  | create dir name => exact .create sb proper name
  | mkdir dir name => exact .mkdir sb proper name
  | unlink dir name => exact .unlink sb proper name
  | rmdir dir name => exact .rmdir sb proper name
  | rename oldDir oldName newDir newName noReplace => exact .rename sb proper.1 proper.2 oldName newName noReplace
  | call id c => exact .call sb proper c
  | ref id => exact .ref s id
  | unref id => exact absurd rfl (other id)
  | clock now => exact .refl s
  | memory free => exact .refl s

theorem Tidy.act (tidy : s.Tidy) (proper : s.Proper a) (clean : s.LeftClean a) : (s.act sb a).Tidy := by
  cases a with
  | unref id => exact tidy.unref sb proper clean
  | _ => exact (Tame.act sb proper nofun).tidy tidy

end

/-- While no vnode is dirty when its last reference but the cache's goes, an unreferenced place is enough. -/
theorem room_while_left_clean (sb : Super) (s : Mounted)
    (reached : Reach Unchanged (fun s a => s.Proper a ∧ s.LeftClean a) (fun s a t => t = s.act sb a) s) :
    s.MakesRoom sb := by
  have tidy : s.Tidy := by
    refine Reach.invariant Tidy ?_ ?_ s reached
    · exact fun s start i v pooled here _ => start.2 i v pooled here
    · rintro s a t tidy ⟨proper,clean⟩ rfl
      exact tidy.act sb proper clean
  exact tidy.makesRoom sb

def wideVolume : Super := {smallVolume with totalSectors := 53, totalClusters := 20}

def wideDisk : Disk := fun sector i =>
  if sector = 32 then
    if i / 4 = 17 ∨ i / 4 = 18 then (if i % 4 = 3 then 0x0F else 0xFF)
    else if 2 ≤ i / 4 ∧ i / 4 < 17 ∧ i % 4 = 0 then .ofNat (i / 4 + 1) else 0
  else if 33 ≤ sector ∧ sector < 49 then
    let k := (sector - 33) * 16 + i / 32
    if k = 0 then shortSlot (68 :: replicate 10 32) 0 ⟨true,18,0,0⟩ (i % 32)
    else if k < 255 then
      shortSlot ([70,.ofNat (65 + k / 16),.ofNat (65 + k % 16)] ++ replicate 8 32) 0 ⟨false,0,0,0⟩ (i % 32)
    else 0
  else if sector = 49 ∧ i < 32 then dotSlot [46] 18 0 0 i
  else if sector = 49 ∧ i < 64 then dotSlot [46,46] 0 0 0 (i - 32)
  else 0

def crowdedCache : Mounted where
  vol := {blank.vol with disk := wideDisk}
  vnodes k :=
    if k = 0 then some ⟨dirKey 18,false,⟨18,0,0,0,false⟩,0,dirMark,(0,0),0,0,false,2⟩
    else if k < 255 then
      some ⟨fileKey 2 k,true,⟨0,0,0,0,false⟩,2,k,Fatdir.spot wideVolume (2 + k / 16) (k % 16),0,0,false,2⟩
    else none
  pool := (range 255).map some ++ [none]
  fresh := 255
  now := 0

theorem crowded_unchanged : crowdedCache.Unchanged := by
  refine ⟨by simp [crowdedCache,maxVnodes],fun i v _ here => ?_⟩
  simp only [crowdedCache] at here
  split at here
  · exact some.inj here ▸ rfl
  · split at here
    · exact some.inj here ▸ rfl
    · cases here

/-- What a reference to the vnode needs, and what its last drop leaves. -/
theorem held_clean (s : Mounted) (id : Nat)
    (held : (s.vnodes id).map (fun v => (v.refcnt,v.node.dirty)) = some (2,false)) :
    s.Busy id ∧ s.LeftClean (.unref id) := by
  obtain ⟨v,here,both⟩ := map_eq_some_iff.mp held
  have count : v.refcnt = 2 := congrArg Prod.fst both
  refine ⟨fun _ u there => ?_,fun u there _ => ?_⟩
  · obtain rfl := some.inj (here.symm.trans there)
    exact count.ge
  · obtain rfl := some.inj (here.symm.trans there)
    exact congrArg Prod.snd both

/-- Two files are closed, the root comes into the cache, and a file made in the directory takes the first one's place. -/
def closing : List Move := [.unref 5,.unref 7,.lookup 0 [46,46],.create 0 [90]]

def reopened : Mounted := closing.foldl (act wideVolume) crowdedCache

theorem room_while_left_clean_crowded : ((reopened.vnodes 5).isNone ∧ reopened.hit (fileKey 18 3) = some 256) ∧
    reopened.Unreferenced (some 7) ∧ reopened.MakesRoom wideVolume := by
  have first := crowdedCache.held_clean 5 (by decide +kernel)
  have second := (crowdedCache.act wideVolume (.unref 5)).held_clean 7 (by decide +kernel)
  have third := ((crowdedCache.act wideVolume (.unref 5)).act wideVolume (.unref 7)).held_clean 0 (by decide +kernel)
  have busy := (Tame.lookup wideVolume _ 0 [46,46]).busy third.1
  have alone : (reopened.vnodes 7).map Vnode.refcnt = some 1 := by decide +kernel
  refine ⟨by decide +kernel,map_eq_some_iff.mp alone,room_while_left_clean wideVolume reopened ?_⟩
  exact .next _ _ (.create 0 [90]) (.next _ _ (.lookup 0 [46,46]) (.next _ _ (.unref 7) (.next _ _ (.unref 5)
    (.start crowdedCache crowded_unchanged) first rfl) second rfl) ⟨third.1,trivial⟩ rfl) ⟨busy,trivial⟩ rfl

def closedDirty : Mounted := (crowdedCache.act wideVolume (.create 0 [65])).act wideVolume (.unref 0)

/-- The directory is nobody's now, and still the next one does not get its place. -/
theorem not_every_place_reusable : ¬ ∀ (sb : Super) (s : Mounted),
    Reach Unchanged Proper (fun s a t => t = s.act sb a) s → s.MakesRoom sb := by
  intro always
  have busy : crowdedCache.Busy 0 := by
    intro _ v here
    simp only [crowdedCache,if_true,some.injEq] at here
    exact here ▸ le_refl 2
  have made : Reach Unchanged Proper (fun s a t => t = s.act wideVolume a) (crowdedCache.act wideVolume (.create 0 [65])) :=
    .next crowdedCache _ (.create 0 [65]) (.start crowdedCache crowded_unchanged) busy rfl
  have held : Proper (crowdedCache.act wideVolume (.create 0 [65])) (.unref 0) :=
    Proper.unref ((Tame.act (a := .create 0 [65]) wideVolume busy nofun).busy busy)
  have closed : Reach Unchanged Proper (fun s a t => t = s.act wideVolume a) closedDirty :=
    .next _ _ (.unref 0) made held rfl
  have alone : (closedDirty.vnodes 0).map Vnode.refcnt = some 1 := by decide +kernel
  obtain ⟨v,here,count⟩ := map_eq_some_iff.mp alone
  have room := always wideVolume closedDirty closed ⟨some 0,by decide +kernel,v,here,count⟩
    (closedDirty.dirNode (dirKey 19) 19 0 dirMark)
  have refused : (closedDirty.getCached wideVolume (closedDirty.dirNode (dirKey 19) 19 0 dirMark)).1 = .error .enfile := by
    decide +kernel
  exact room.2 refused

end SurfaceOS.Fat.Mounted
