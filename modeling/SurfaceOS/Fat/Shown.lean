import SurfaceOS.Fat.Eviction
import SurfaceOS.Fat.Identity

/-! The vnode cache of a mounted volume, as the one that only counts references by key shows it. What the calls of
fat32/vnode.cpp do to the cache they do through the functions here; the rest of a vnode does not show. -/
namespace SurfaceOS.Fat.Mounted
open Lib Function Identity

variable {m n : Mounted} {s u : State} {change : Fat.Vnode → Fat.Vnode} {i j key place victim : Nat}

def shown (m : Mounted) (i : Nat) : Option Identity.Vnode :=
  (m.vnodes i).map fun v => ⟨v.fsKey,v.refcnt,m.pool.contains (some i)⟩

structure Shows (m : Mounted) (s : State) : Prop where
  vnodes : ∀ i, s.vnodes i = m.shown i
  fresh : s.fresh = m.fresh
  pooled : ∀ i, some i ∈ m.pool → ∃ v, m.vnodes i = some v

/-- What the cache's functions rely on. -/
structure Kept (s : State) : Prop where
  known : ∀ i v, s.vnodes i = some v → i < s.fresh
  held : ∀ i v, s.vnodes i = some v → 0 < v.refcnt
  unique : ∀ i j v w, s.vnodes i = some v → s.vnodes j = some w → v.cached → w.cached → v.key = w.key → i = j

theorem Kept.of (inv : Identity.Inv s) : Kept s :=
  ⟨fun i v here => (inv.fits i v here).known.1,fun i v here => (inv.fits i v here).count.2,inv.unique⟩

/-- A change that caches nothing and renames nothing. -/
theorem Kept.less (kept : Kept s) (fresh : u.fresh = s.fresh) (before : ∀ i w, u.vnodes i = some w →
    ∃ v, s.vnodes i = some v ∧ v.key = w.key ∧ (w.cached → v.cached) ∧ 0 < w.refcnt) : Kept u where
  known i w here := by
    obtain ⟨v,there,-⟩ := before i w here
    exact fresh ▸ kept.known i v there
  held i w here := by
    obtain ⟨v,-,-,-,held⟩ := before i w here
    exact held
  unique i j w x here there cached also same := by
    obtain ⟨v,first,named,was,-⟩ := before i w here
    obtain ⟨y,second,titled,had,-⟩ := before j x there
    exact kept.unique i j v y first second (was cached) (had also) (by rw [named,titled,same])

theorem Kept.alter (kept : Kept s) {change : Identity.Vnode → Identity.Vnode} (key : ∀ v, (change v).key = v.key)
    (cached : ∀ v, (change v).cached → v.cached) (count : ∀ v, v.refcnt ≤ (change v).refcnt) :
    Kept (s.alter i change) := by
  refine kept.less rfl fun j w here => ?_
  by_cases this : j = i
  · subst this
    rw [State.alter,State.set_self] at here
    obtain ⟨v,there,rfl⟩ := Option.map_eq_some_iff.mp here
    exact ⟨v,there,(key v).symm,cached v,Nat.lt_of_lt_of_le (kept.held j v there) (count v)⟩
  · rw [State.alter,State.set_other s i _ this] at here
    exact ⟨w,here,rfl,id,kept.held j w here⟩

theorem Kept.set_missed (kept : Kept s) (victim : Nat) (missed : s.hit key = none) : (s.set victim none).hit key = none := by
  cases other : (s.set victim none).hit key with
  | none => rfl
  | some j =>
    obtain ⟨v,there,cached,named⟩ := State.hit_some other
    have before : s.vnodes j = some v := by
      by_cases this : j = victim
      · rw [this,State.set_self] at there
        cases there
      · rwa [State.set_other s victim _ this] at there
    have refused := List.find?_eq_none.mp missed j (List.mem_range.mpr (kept.known j v before))
    simp [before,cached,named] at refused

theorem shown_some (here : m.vnodes i = some v) : m.shown i = some ⟨v.fsKey,v.refcnt,m.pool.contains (some i)⟩ := by
  rw [shown,here]
  rfl

theorem contains_of (inside : some i ∈ m.pool) : m.pool.contains (some i) = true := List.contains_iff_mem.mpr inside

theorem contains_not (out : some i ∉ m.pool) : m.pool.contains (some i) = false := by simpa using out

theorem shown_congr (vnode : n.vnodes j = m.vnodes j) (pool : some j ∈ n.pool ↔ some j ∈ m.pool) :
    n.shown j = m.shown j := by
  have same : n.pool.contains (some j) = m.pool.contains (some j) := by simp [pool]
  simp only [shown,vnode,same]

theorem alter_shown (same : ∀ v, (change v).fsKey = v.fsKey ∧ (change v).refcnt = v.refcnt) (j : Nat) :
    (m.alter i change).shown j = m.shown j := by
  by_cases here : j = i
  · subst here
    cases there : m.vnodes j with
    | none => simp [shown,alter,there]
    | some v => simp [shown,alter,there,same]
  · exact shown_congr (alter_other m change here) Iff.rfl

/-- The vnode of one number changes, the others do not show it. -/
theorem Shows.set (shows : m.Shows s) (others : ∀ j, j ≠ i → n.shown j = m.shown j) (fresh : n.fresh = m.fresh)
    (pooled : ∀ j, some j ∈ n.pool → ∃ v, n.vnodes j = some v) : n.Shows (s.set i (n.shown i)) := by
  refine ⟨fun j => ?_,shows.fresh.trans fresh.symm,pooled⟩
  by_cases here : j = i
  · subst here
    exact s.set_self j _
  · rw [s.set_other i _ here,shows.vnodes j,others j here]

theorem Shows.alter_pooled (shows : m.Shows s) (i : Nat) (change : Fat.Vnode → Fat.Vnode) (j : Nat)
    (inside : some j ∈ m.pool) : ∃ v, (m.alter i change).vnodes j = some v := by
  obtain ⟨v,here⟩ := shows.pooled j inside
  by_cases this : j = i
  · subst this
    exact ⟨_,alter_here here change⟩
  · exact ⟨v,(alter_other m change this).trans here⟩

theorem Shows.alter (shows : m.Shows s) (same : ∀ v, (change v).fsKey = v.fsKey ∧ (change v).refcnt = v.refcnt) :
    (m.alter i change).Shows s where
  vnodes j := (shows.vnodes j).trans (alter_shown same j).symm
  fresh := shows.fresh
  pooled := shows.alter_pooled i change

theorem Shows.volume (shows : m.Shows s) (vol : Vol) : {m with vol := vol}.Shows s :=
  ⟨shows.vnodes,shows.fresh,shows.pooled⟩

theorem Shows.release (sb : Super) (shows : m.Shows s) : (m.release sb i).Shows s := by
  have updated : (m.updateEntry i).Shows s := by
    fun_cases updateEntry m i with
    | case3 => exact (shows.volume _).alter fun _ => ⟨rfl,rfl⟩
    | _ => exact shows
  unfold Mounted.release
  split
  · exact shows
  dsimp only
  split
  · split
    · exact updated.volume _
    · exact shows.volume _
  · split
    · exact updated
    · exact shows

theorem Shows.drop (shows : m.Shows s) (out : some i ∉ m.pool) : (m.drop i).Shows (s.set i none) := by
  have other (j : Nat) (apart : j ≠ i) : (m.drop i).vnodes j = m.vnodes j := update_of_ne apart ..
  have empty : (m.drop i).vnodes i = none := update_self ..
  have now := shows.set (n := m.drop i) (fun j apart => shown_congr (other j apart) Iff.rfl) rfl fun j inside => by
    rw [other j fun same => out (same ▸ inside)]
    exact shows.pooled j inside
  rwa [show (m.drop i).shown i = none by rw [shown,empty]; rfl] at now

section
variable {v : Fat.Vnode} (shows : m.Shows s) (here : m.vnodes i = some v)
include shows here

theorem Shows.at : s.vnodes i = some ⟨v.fsKey,v.refcnt,m.pool.contains (some i)⟩ := (shows.vnodes i).trans (shown_some here)

theorem Shows.changed (change : Fat.Vnode → Fat.Vnode) : (m.alter i change).Shows
    (s.set i (some ⟨(change v).fsKey,(change v).refcnt,m.pool.contains (some i)⟩)) := by
  have now := shows.set (n := m.alter i change) (fun j other => shown_congr (alter_other m _ other) Iff.rfl) rfl
    (shows.alter_pooled i change)
  rwa [shown_some (alter_here here change)] at now

theorem Shows.unpool : (m.unpool i).Shows (s.set i (some ⟨v.fsKey,v.refcnt,false⟩)) := by
  have out : some i ∉ (m.unpool i).pool := fun inside => (mem_unpool.mp inside).2 rfl
  have now := shows.set (i := i) (n := m.unpool i) (fun j other => shown_congr rfl (by simp [mem_unpool,other])) rfl
    fun j inside => shows.pooled j (mem_unpool.mp inside).1
  rw [shown_some (m := m.unpool i) here] at now
  simpa [out] using now

omit shows in
theorem ref_here : (m.ref i).vnodes i = some {v with refcnt := v.refcnt + 1} := alter_here here _

theorem Shows.deref : (m.deref i).Shows (s.set i (some ⟨v.fsKey,v.refcnt - 1,m.pool.contains (some i)⟩)) :=
  shows.changed here _

theorem Shows.ref : (m.ref i).Shows (s.ref i) := by
  rw [State.ref_eq (shows.at here)]
  exact shows.changed here _

theorem Shows.unref (sb : Super) (held : 0 < v.refcnt) : (m.unref sb i).Shows (s.unref i) := by
  rw [State.unref_eq (shows.at here)]
  by_cases last : v.refcnt = 1
  · have less := (shows.deref here).unpool (deref_here here)
    have out : some i ∉ (((m.deref i).unpool i).release sb i).pool := fun inside =>
      (mem_unpool.mp ((Away.release sb _ i).1 i inside)).2 rfl
    rw [unref_last sb here last]
    simpa [State.set_set,last] using (less.release sb).drop out
  · rw [unref_held sb here (by omega),if_neg (by simp; omega)]
    exact shows.changed here _

theorem Shows.invalidate (sb : Super) (held : 0 < v.refcnt) : (m.invalidate sb i).Shows (s.invalidate i) := by
  by_cases pooled : some i ∈ m.pool
  · have less := (shows.unpool here).deref (m := m.unpool i) here
    have out : some i ∉ ((m.unpool i).deref i).pool := fun inside => (mem_unpool.mp inside).2 rfl
    have left : ((m.unpool i).deref i).refcnt i = v.refcnt - 1 := refcnt_eq (deref_here (s := m.unpool i) here)
    have absent : (m.unpool i).pool.contains (some i) = false := contains_not out
    simp only [State.set_set,absent] at less
    unfold Mounted.invalidate State.invalidate
    rw [if_pos pooled,shows.at here]
    simp only [contains_of pooled,Option.any_some,if_true,State.alter,shows.at here,Option.map_some]
    rw [State.unref_eq (State.set_self ..),State.set_set,left]
    split
    · next last =>
      rw [if_pos (show v.refcnt ≤ 1 by omega)]
      have gone : some i ∉ (((m.unpool i).deref i).release sb i).pool := fun inside =>
        out ((Away.release sb _ i).1 i inside)
      simpa only [State.set_set] using (less.release sb).drop gone
    · rw [if_neg (show ¬ v.refcnt ≤ 1 by omega)]
      exact less
  · unfold Mounted.invalidate State.invalidate
    rw [if_neg pooled,shows.at here]
    simpa [pooled] using shows

end

section
variable {v : Fat.Vnode} (shows : m.Shows s) (here : m.vnodes i = some v)
include shows here

/-- A cached vnode that loses its name. -/
theorem Shows.letGo (sb : Super) (pooled : some i ∈ m.pool) (more : 2 ≤ v.refcnt)
    (same : ∀ v, (change v).fsKey = v.fsKey ∧ (change v).refcnt = v.refcnt) :
    (((m.alter i change).invalidate sb i).unref sb i).Shows ((s.invalidate i).unref i) := by
  have there := alter_here here change
  have count := (same v).2
  have left := (shows.alter same).invalidate there sb (by omega)
  refine left.unref ?_ sb (v := {change v with refcnt := (change v).refcnt - 1}) (by dsimp only; omega)
  rw [invalidate_held (s := m.alter i change) sb pooled there (by omega)]
  exact deref_here (s := (m.alter i change).unpool i) there

end

/-- With one vnode for a key the order of the search does not matter. -/
theorem Shows.hit (shows : m.Shows s) (kept : Kept s) (key : Nat) : m.hit key = s.hit key := by
  cases found : s.hit key with
  | none =>
    cases other : m.hit key with
    | none => rfl
    | some i =>
      obtain ⟨pooled,v,here,same⟩ := hit_some other
      have there := shows.at here
      have refused := List.find?_eq_none.mp found i (List.mem_range.mpr (kept.known i _ there))
      simp [there,pooled,same] at refused
  | some i =>
    obtain ⟨w,there,cached,same⟩ := State.hit_some found
    cases here : m.vnodes i with
    | none =>
      have empty := shows.vnodes i
      rw [shown,here,there] at empty
      cases empty
    | some v =>
      obtain rfl := Option.some.inj (there.symm.trans (shows.at here))
      have pooled : some i ∈ m.pool := List.contains_iff_mem.mp cached
      cases other : m.hit key with
      | none => exact absurd same (hit_none other pooled here)
      | some j =>
        obtain ⟨inside,x,place,also⟩ := hit_some other
        exact congrArg some (kept.unique j i _ _ (shows.at place) there (contains_of inside) cached (also.trans same.symm))

section
variable (sb : Super) (shows : m.Shows s)
include shows

theorem Shows.enter (v : Fat.Vnode) (free : m.pool[place]? = some none) (f : Nat) : (m.enter place v).Shows
    {s.set s.fresh (some ⟨v.fsKey,2,true⟩) with owner := update s.owner s.fresh f, fresh := s.fresh + 1} := by
  have entered (j : Nat) : some j ∈ (m.enter place v).pool ↔ some j ∈ m.pool ∨ j = m.fresh := by
    obtain ⟨inside,empty⟩ := List.getElem?_eq_some_iff.mp free
    constructor
    · intro member
      exact (List.mem_or_eq_of_mem_set member).imp_right Option.some.inj
    · rintro (member | rfl)
      · obtain ⟨spot,here⟩ := List.mem_iff_getElem?.mp member
        refine List.mem_iff_getElem?.mpr ⟨spot,?_⟩
        have other : place ≠ spot := fun same => by simp [← same,free] at here
        exact (List.getElem?_set_ne other).trans here
      · exact List.mem_set inside (some m.fresh)
  have made : (m.enter place v).vnodes m.fresh = some {v with refcnt := 2} := update_self ..
  have others (j : Nat) (other : j ≠ m.fresh) : (m.enter place v).vnodes j = m.vnodes j := update_of_ne other ..
  refine ⟨fun j => ?_,congrArg (· + 1) shows.fresh,fun j member => ?_⟩
  · by_cases new : j = m.fresh
    · subst new
      rw [shown_some made]
      simp [State.set,shows.fresh,entered]
    · rw [shown_congr (others j new) (by simp [entered,new]),← shows.vnodes j]
      exact State.set_other s _ _ (shows.fresh ▸ new)
  · by_cases new : j = m.fresh
    · subst new
      exact ⟨_,made⟩
    · rw [others j new]
      exact shows.pooled j (((entered j).mp member).resolve_right new)

theorem Shows.evict (here : m.vnodes victim = some v) (pooled : some victim ∈ m.pool) :
    (m.evict sb victim).Shows (s.set victim none) ∧ none ∈ (m.evict sb victim).pool := by
  have released := shows.release (i := victim) sb
  have shown := (released.vnodes victim).symm.trans (shows.at here)
  obtain ⟨w,there,-⟩ := Option.map_eq_some_iff.mp shown
  have out : some victim ∉ ((m.release sb victim).unpool victim).pool := fun inside => (mem_unpool.mp inside).2 rfl
  have gone := (released.unpool there).drop out
  rw [State.set_set] at gone
  have still : some victim ∈ (m.release sb victim).pool := by
    have same := (shown_some there).symm.trans shown
    simp only [Option.some.injEq,Identity.Vnode.mk.injEq] at same
    exact List.contains_iff_mem.mp (same.2.2.trans (contains_of pooled))
  exact ⟨gone,List.mem_map.mpr ⟨some victim,still,if_pos rfl⟩⟩

variable (kept : Kept s)
include kept

theorem Shows.held (here : m.vnodes i = some v) : 0 < v.refcnt := kept.held i _ (shows.at here)

theorem Shows.orphan (key : Nat) (isDir : Bool) : Shows (match m.findCached key with
    | (some i,m) => m.orphan sb i isDir
    | (none,m) => m) (s.orphan key) := by
  unfold Mounted.findCached State.orphan
  rw [← shows.hit kept key]
  cases found : m.hit key with
  | none => exact shows
  | some i =>
    obtain ⟨pooled,v,here,-⟩ := hit_some found
    have held := shows.held kept here
    exact (shows.ref here).letGo (ref_here here) sb pooled (by dsimp only; omega) fun _ => ⟨rfl,rfl⟩

/-- `rekey` of a cached vnode. -/
theorem Shows.rekey (here : m.vnodes i = some v) (key : Nat) : (m.rekey sb i key).Shows (s.rekey i key) := by
  unfold Mounted.rekey State.rekey
  rw [here,shows.at here]
  by_cases same : v.fsKey = key
  · simpa [same] using shows
  have others : (m.unpool i).Shows (s.alter i fun v => {v with cached := false}) := by
    rw [State.alter,shows.at here]
    exact shows.unpool here
  have search : (m.unpool i).hit key = (s.alter i fun v => {v with cached := false}).hit key :=
    others.hit (kept.alter (fun _ => rfl) (by rintro _ ⟨⟩) fun _ => le_refl _) key
  have renamed (n : Mounted) (u : State) (shows : n.Shows u) (still : n.vnodes i = some v) :
      (n.alter i fun v => {v with fsKey := key}).Shows (u.alter i fun v => {v with key := key}) := by
    rw [State.alter,shows.at still]
    exact shows.changed still _
  rw [if_neg (by simpa using same),if_neg (by simpa using same)]
  dsimp only [Option.any_some]
  by_cases pooled : some i ∈ m.pool
  · simp only [pooled,if_true,contains_of pooled]
    rw [← search]
    rw [show Mounted.hit {m with pool := m.pool.map fun place => if place = some i then none else place} key =
      (m.unpool i).hit key from rfl]
    cases found : (m.unpool i).hit key with
    | none => exact renamed m s shows here
    | some other =>
      obtain ⟨inside,w,there,-⟩ := hit_some found
      have apart := (mem_unpool.mp inside).2
      exact renamed _ _ (shows.invalidate there sb (shows.held kept there)) (((Away.invalidate sb m other).1.2 i apart.symm).trans here)
  · simp only [pooled,if_false,contains_not pooled,Bool.false_eq_true]
    exact renamed m s shows here

/-- `rename` ends so for a file. -/
theorem Shows.follow (src : Entry) (file : src.slot.isDirectory = false) (key cluster : Nat) (new : Fatdir.Created) :
    (m.follow sb src key cluster new).Shows (s.follow key (fileKey cluster new.index)) := by
  unfold Mounted.follow Mounted.findCached State.follow
  simp only [file,Bool.false_eq_true,if_false]
  rw [← shows.hit kept key]
  cases found : m.hit key with
  | none => exact shows
  | some i =>
    obtain ⟨pooled,v,here,-⟩ := hit_some found
    have more : Kept (s.ref i) := kept.alter (fun _ => rfl) (fun _ => id) fun _ => Nat.le_succ _
    have placed : ((m.ref i).alter i fun fn =>
        {fn with parentCluster := cluster, entryIndex := new.index, entry := new.spot}).Shows (s.ref i) :=
      (shows.ref here).alter fun _ => ⟨rfl,rfl⟩
    have there := alter_here (ref_here here) fun fn : Fat.Vnode =>
      {fn with parentCluster := cluster, entryIndex := new.index, entry := new.spot}
    obtain ⟨-,-,k,after⟩ := rekey_spec sb ((m.ref i).alter i _) i (fileKey cluster new.index)
    rw [there] at after
    exact (placed.rekey sb more there _).unref after sb (Nat.succ_pos _)

/-- `get_cached`, where it succeeds; a vnode that goes for the new one was evictable. -/
theorem Shows.getCached (v : Fat.Vnode) (got : m.getCached sb v = (.ok i,n)) (f : Nat) :
    ∃ u, (u = s ∨ ∃ victim, s.act (.evict victim) = some u) ∧ (u.getCached v.fsKey f).1 = i ∧
      n.Shows (u.getCached v.fsKey f).2 := by
  unfold Mounted.getCached at got
  have same := shows.hit kept v.fsKey
  cases found : m.hit v.fsKey with
  | some j =>
    obtain ⟨-,w,here,-⟩ := hit_some found
    rw [found] at got same
    obtain ⟨⟨⟩,rfl⟩ := Prod.mk.inj got
    refine ⟨s,.inl rfl,?_⟩
    rw [State.getCached,← same]
    exact ⟨rfl,shows.ref here⟩
  | none =>
    rw [found] at got same
    dsimp only at got
    split at got
    · next place _ free =>
      split at got
      · obtain ⟨⟨⟩,rfl⟩ := Prod.mk.inj got
        obtain ⟨inside,empty,-⟩ := List.findIdx?_eq_some_iff_getElem.mp free
        refine ⟨s,.inl rfl,?_⟩
        rw [State.getCached,← same]
        exact ⟨shows.fresh,shows.enter v (by simpa [inside] using empty) f⟩
      · cases got
    · cases got
    · next victim _ chosen =>
      obtain ⟨place,member,rfl⟩ := List.mem_filterMap.mp (List.mem_of_find?_eq_some chosen)
      obtain ⟨w,here⟩ := shows.pooled victim member
      have free := List.find?_some chosen
      simp only [here,Option.any_some,decide_eq_true_eq] at free
      obtain ⟨evicted,empty⟩ := shows.evict sb here member
      have missed := kept.set_missed victim same.symm
      split at got
      · obtain ⟨⟨⟩,rfl⟩ := Prod.mk.inj got
        refine ⟨s.set victim none,.inr ⟨victim,?_⟩,?_⟩
        · simp [State.act,shows.at here,member,free.1]
        · rw [State.getCached,missed]
          exact ⟨evicted.fresh,evicted.enter v (List.getElem?_idxOf empty) f⟩
      · cases got

end

end SurfaceOS.Fat.Mounted
