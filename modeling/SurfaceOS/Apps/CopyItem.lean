import SurfaceOS.Apps.Explorer

/-! What CopyItem does to the item it copies. The tests on the two paths look at their letters; where a
path leads is up to the names and aliases on the volume. -/
namespace SurfaceOS.Apps
open Fat List Option Nat

variable {j : Job} {name short : Name} {f q : Place} {t v : Tree} {off slot : Nat}

/-- A copy to path `p` would write at or below `f`: there is a file that can be written, or a free place in a folder. -/
def Exposed (t : Tree) (f : Place) (p : Path) : Prop :=
  (∃ g, t.resolve p = some g ∧ t.isFolder g = false ∧ t.isReadOnly g = false ∧ f <+: g) ∨
  ∃ d name, p.getLast? = some name ∧ t.resolve p.dropLast = some d ∧ f <+: d ∧ t.isFolder d ∧ validName name ∧
    t.find d name = none ∧ ∃ k < t.slots, t.entry (d ++ [k]) = none

/-- An item at or below `a`, that no test stops the copy from reaching, has its destination at or below `f`. -/
inductive Endangers (t : Tree) (f : Place) : Path → Path → Prop
  | direct {a b : Path} (real : (t.resolve a).isSome) (differ : compareNoCase a b = false) (exposed : Exposed t f b) :
      Endangers t f a b
  | within {a b : Path} {d : Place} {k : Nat} {e : Entry} (real : t.resolve a = some d) (folder : t.isFolder d)
      (differ : compareNoCase a b = false) (outside : inside b a = false) (item : t.entry (d ++ [k]) = some e)
      (short : fits a e.long) (also : fits b e.long) (later : Endangers t f (a ++ [e.long]) (b ++ [e.long])) :
      Endangers t f a b

/-- `u` is `t`, but for items that are neither at or below `f` nor on the way to it. -/
structure Agrees (f : Place) (t u : Tree) : Prop where
  slots : u.slots = t.slots
  below : ∀ q, f <+: q → u.entry q = t.entry q
  above : ∀ q, q <+: f → u.entry q = t.entry q
  sound : Sound u

variable {k n rounds : Nat} {a b dest p source : Path} {copy : Path → Path → Job → Option Job}
  {d dst g src : Place}

namespace Agrees
variable {f : Place} {t u : Tree}

section
variable (agrees : Agrees f t u)
include agrees

theorem near (close : q <+: f ∨ f <+: q) : u.entry q = t.entry q :=
  close.elim (agrees.above q) (agrees.below q)

theorem symm (sound : Sound t) : Agrees f u t :=
  ⟨agrees.slots.symm,fun q less => (agrees.below q less).symm,fun q less => (agrees.above q less).symm,sound⟩

theorem isFolder (close : q <+: f ∨ f <+: q) : u.isFolder q = t.isFolder q := by
  rw [Tree.isFolder,Tree.isFolder,agrees.near close]

theorem isReadOnly (close : q <+: f ∨ f <+: q) : u.isReadOnly q = t.isReadOnly q := by
  rw [Tree.isReadOnly,Tree.isReadOnly,agrees.near close]

theorem walk (close : d <+: f ∨ f <+: d) (walked : t.walk d p = some g) (below : f <+: g) : u.walk d p = some g := by
  induction p generalizing d with
  | nil => exact walked
  | cons n p ih =>
    rw [Tree.walk] at walked ⊢
    rw [agrees.isFolder close]
    split at walked
    · next folder =>
      obtain ⟨k,found,rest⟩ := bind_eq_some_iff.mp walked
      obtain ⟨e,here,answers⟩ := t.find_some found
      have onTheWay : d ++ [k] <+: f ∨ f <+: d ++ [k] := prefix_or_prefix_of_prefix (t.walk_begins rest) below
      have there : u.entry (d ++ [k]) = some e := (agrees.near onTheWay).trans here
      rw [if_pos folder,Tree.find_of_entry agrees.sound there answers]
      exact ih onTheWay rest
    · simp at walked

theorem resolve (resolved : t.resolve p = some g) (below : f <+: g) :
    u.resolve p = some g := agrees.walk (.inl nil_prefix) resolved below

theorem find (below : f <+: d) (n : Name) : u.find d n = t.find d n :=
  Tree.find_congr agrees.slots (fun k => by rw [agrees.below _ (below.trans (prefix_append d [k]))]) n

theorem exposed (sound : Sound t) (danger : Exposed u f p) : Exposed t f p := by
  have back := agrees.symm sound
  rcases danger with ⟨g,resolved,file,writable,below⟩ | ⟨d,name,last,parent,below,folder,valid,fresh,k,small,free⟩
  · exact .inl ⟨g,back.resolve resolved below,back.isFolder (.inr below) ▸ file,back.isReadOnly (.inr below) ▸ writable,below⟩
  · refine .inr ⟨d,name,last,back.resolve parent below,below,back.isFolder (.inr below) ▸ folder,valid,
      (back.find below name).trans fresh,k,agrees.slots ▸ small,?_⟩
    exact (back.below _ (below.trans (prefix_append d [k]))).trans free

theorem set {p : Place} {e : Option Entry} (notBelow : ¬ f <+: p) (notAbove : ¬ p <+: f)
    (sound : Sound (u.set p e)) : Agrees f t (u.set p e) := by
  refine ⟨agrees.slots,fun q below => ?_,fun q above => ?_,sound⟩
  · rw [Tree.entry_set,if_neg fun same : q = p => notBelow (same ▸ below)]
    exact agrees.below q below
  · rw [Tree.entry_set,if_neg fun same : q = p => notAbove (same ▸ above)]
    exact agrees.above q above

end

end Agrees

section
variable {f : Place} {t u : Tree} (sound : Sound t) (real : f = [] ∨ (t.entry f).isSome) (agrees : Agrees f t u)
include sound real agrees

theorem file_not_above (file : u.isFolder g = false) (notBelow : ¬ f <+: g) : ¬ g <+: f := by
  intro above
  have folder := Tree.folder_above sound real above fun same => notBelow (same ▸ prefix_rfl)
  rw [← agrees.isFolder (.inl above),file] at folder
  simp at folder

theorem new_elsewhere (free : u.entry (d ++ [k]) = none) (notBelow : ¬ f <+: d) :
    ¬ f <+: d ++ [k] ∧ ¬ d ++ [k] <+: f := by
  have never (same : d ++ [k] = f) : False := by
    have there := real.resolve_left fun empty => Tree.append_ne d k (same.trans empty)
    rw [← agrees.below f prefix_rfl,← same,free] at there
    simp at there
  refine ⟨fun below => ?_,fun above => ?_⟩
  · rcases prefix_concat_iff.mp below with same | less
    · exact never same.symm
    · exact notBelow less
  · have folder := Tree.folder_above sound real above never
    rw [← agrees.isFolder (.inl above),Tree.isFolder_of_none free (Tree.append_ne d k)] at folder
    simp at folder

theorem make_agrees {content : Content}
    (safe : ¬ Exposed t f p) (made : u.make p content slot short = some (v,g)) :
    Agrees f t v ∧ ¬ f <+: g ∧ ¬ g <+: f ∧ v.resolve p = some g ∧ v.isFolder g = decide (content = .folder) := by
  obtain ⟨d,name,last,parent,folder,valid,fresh,alsoFresh,small,free,rfl,rfl⟩ := Tree.make_spec made
  have notBelow : ¬ f <+: d := fun below => safe (agrees.exposed sound
    (.inr ⟨d,name,last,parent,below,folder,valid,fresh,slot,small,free⟩))
  obtain ⟨one,two⟩ := new_elsewhere sound real agrees free notBelow
  have after : Sound (u.set (d ++ [slot]) (some ⟨name,short,content,false⟩)) :=
    Tree.sound_new agrees.sound folder valid fresh alsoFresh small free
  have here : (u.set (d ++ [slot]) (some ⟨name,short,content,false⟩)).entry (d ++ [slot]) = some ⟨name,short,content,false⟩ := by
    rw [Tree.entry_set,if_pos rfl]
  exact ⟨agrees.set one two after,one,two,Tree.resolve_new after last parent folder free,
    Tree.isFolder_of_entry here (Tree.append_ne d slot)⟩

end

theorem render_snoc (p : Path) {n : Name} (named : n ≠ []) : (render p).length < (render (p ++ [n])).length := by
  have long := length_pos_iff.mpr named
  have more : p ++ [n] ≠ [] := by simp
  unfold render
  rw [if_neg more]
  by_cases empty : p = []
  · subst empty
    simpa using long
  · rw [if_neg empty]
    simp

namespace Job

@[simp] theorem next_tree (j : Job) : j.next.tree = j.tree := rfl

@[simp] theorem problem_tree (j : Job) : j.problem.tree = j.tree := rfl

@[simp] theorem infoRead_tree (j : Job) : j.infoRead.tree = j.tree := rfl

@[simp] theorem checkStop_tree (j : Job) : j.checkStop.tree = j.tree := by
  unfold checkStop
  split
  · rfl
  · split <;> rfl

@[simp] theorem mayOverwrite_tree (j : Job) : j.mayOverwrite.2.tree = j.tree := by
  unfold mayOverwrite
  repeat' split
  all_goals rfl

@[simp] theorem kind_tree (j : Job) (p : Path) : (j.kind p).2.tree = j.tree := by
  unfold kind
  split <;> rfl

theorem bytes_fill (t : Tree) (data : List UInt8) (other : src ≠ dst) :
    (t.fill dst data).bytes src = t.bytes src := by
  simp [Tree.bytes,Tree.entry_fill,other]

theorem copyBytes_total (other : src ≠ dst) (n off : Nat) (j : Job) (within : off ≤ (j.tree.bytes src).length)
    (enough : (j.tree.bytes src).length < n + off) : ∃ failed k, copyBytes src dst n off j = some (failed,k) := by
  fun_induction copyBytes src dst n off j with
  | case1 => omega
  | case6 n off j now _ _ piece later some _ ih =>
    have length : 0 < piece.length := length_pos_iff.mpr some
    have atMost : piece.length ≤ (now.tree.bytes src).length - off := by
      rw [length_take,length_drop]
      exact min_le_right ..
    have tree : later.tree = j.tree := checkStop_tree j
    simp only [now,checkStop_tree] at atMost
    apply ih <;>
    · rw [bytes_fill _ _ other,tree]
      omega
  | _ => exact ⟨_,_,rfl⟩

section
variable {f : Place} {t : Tree} {j : Job}

theorem copyBytes_agrees (notBelow : ¬ f <+: dst) (notAbove : ¬ dst <+: f) {failed : Bool}
    {k : Job} (agrees : Agrees f t j.tree) (file : j.tree.isFolder dst = false)
    (done : copyBytes src dst n off j = some (failed,k)) :
    Agrees f t k.tree ∧ ∀ x, k.tree.resolve x = j.tree.resolve x := by
  have filled (data : List UInt8) : Agrees f t (j.tree.fill dst data) :=
    agrees.set notBelow notAbove (Tree.sound_fill agrees.sound data file)
  have same : ∀ j : Job, j.checkStop.next.tree = j.tree := checkStop_tree
  fun_induction copyBytes src dst n off j with
  | case1 => cases done
  | case5 n off j now _ _ piece later =>
    obtain ⟨-,rfl⟩ := Prod.mk.inj (some.inj done)
    simp only [later,now,same]
    exact ⟨filled _,Tree.resolve_fill _ file⟩
  | case6 n off j now _ _ piece later _ _ ih =>
    simp only [later,now,same] at ih done
    obtain ⟨after,kept⟩ := ih (filled _) ((Tree.isFolder_fill _ file dst).trans file) done
      (fun data => (filled _).set notBelow notAbove
        (Tree.sound_fill (filled _).sound data ((Tree.isFolder_fill _ file dst).trans file)))
    exact ⟨after,fun x => (kept x).trans (Tree.resolve_fill _ file x)⟩
  | _ =>
    obtain ⟨-,rfl⟩ := Prod.mk.inj (some.inj done)
    exact ⟨by simpa +zetaDelta using agrees,fun x => by simp +zetaDelta⟩

theorem deleteTo_agrees (agrees : Agrees f t j.tree) (resolved : j.tree.resolve dest = some g)
    (notBelow : ¬ f <+: g) (notAbove : ¬ g <+: f) : Agrees f t (j.deleteTo dest).tree := by
  have removed {u : Tree} (done : j.tree.remove dest = some u) : Agrees f t u := by
    obtain ⟨h,also,other,empty,rfl⟩ := Tree.remove_spec done
    obtain rfl := some.inj (resolved.symm.trans also)
    exact agrees.set notBelow notAbove (Tree.sound_gone agrees.sound other empty)
  unfold deleteTo delete
  cases j.reply.status.isNone with
  | false => exact agrees
  | true =>
    cases done : j.tree.remove dest with
    | none => simpa [done] using agrees
    | some u => simpa [done,resolved] using removed done

variable (sound : Sound t) (real : f = [] ∨ (t.entry f).isSome)
include sound real

section
variable (agrees : Agrees f t j.tree)
include agrees

theorem openWrite_agrees (safe : ¬ Exposed t f dest) :
    Agrees f t (j.openWrite dest).2.tree ∧ ∀ dst, (j.openWrite dest).1 = some dst →
      ¬ f <+: dst ∧ ¬ dst <+: f ∧ (j.openWrite dest).2.tree.resolve dest = some dst ∧
      (j.openWrite dest).2.tree.isFolder dst = false := by
  unfold openWrite
  split
  · exact ⟨agrees,by simp⟩
  split
  · next g here =>
    split
    · exact ⟨agrees,by simp⟩
    rename_i other
    obtain ⟨file,writable⟩ : j.tree.isFolder g = false ∧ j.tree.isReadOnly g = false := by simpa using other
    have notBelow : ¬ f <+: g := fun below => safe (agrees.exposed sound (.inl ⟨g,here,file,writable,below⟩))
    have notAbove := file_not_above sound real agrees file notBelow
    refine ⟨agrees.set notBelow notAbove (Tree.sound_fill agrees.sound [] file),fun dst same => ?_⟩
    obtain rfl := some.inj same
    exact ⟨notBelow,notAbove,(Tree.resolve_fill [] file dest).trans here,(Tree.isFolder_fill [] file g).trans file⟩
  · split
    · exact ⟨agrees,by simp⟩
    rename_i u g made
    obtain ⟨after,notBelow,notAbove,found,kind⟩ := make_agrees sound real agrees safe made
    refine ⟨after,fun dst same => ?_⟩
    obtain rfl := some.inj same
    exact ⟨notBelow,notAbove,found,by simpa using kind⟩

theorem copyInto_agrees (own : f <+: src)
    (safe : ¬ Exposed t f dest) : ∃ k, copyInto src dest j = some k ∧ Agrees f t k.tree := by
  obtain ⟨after,which⟩ := openWrite_agrees sound real agrees safe
  unfold copyInto
  split
  · next k opened => exact ⟨k.problem,rfl,by simpa [opened] using after⟩
  rename_i dst k opened
  obtain ⟨notBelow,notAbove,found,file⟩ := which dst (by rw [opened])
  rw [opened] at after found file
  have other : src ≠ dst := fun same => notBelow (same ▸ own)
  obtain ⟨failed,l,done⟩ := copyBytes_total other ((k.tree.bytes src).length + 1) 0 k (zero_le _) (by omega)
  obtain ⟨copied,kept⟩ := copyBytes_agrees notBelow notAbove after file done
  have removed := deleteTo_agrees copied ((kept dest).trans found) notBelow notAbove
  simp only [done]
  refine ⟨_,rfl,?_⟩
  unfold Job.copied
  cases failed with
  | false =>
    cases l.stop with
    | false => exact copied
    | true => exact removed
  | true => simpa using removed

theorem copyFile_agrees (own : f <+: src)
    (safe : ¬ Exposed t f dest) : ∃ k, copyFile src dest j = some k ∧ Agrees f t k.tree := by
  have kept := kind_tree j dest
  unfold copyFile
  split
  · next k asked =>
    rw [asked] at kept
    exact ⟨k.problem,rfl,kept ▸ agrees⟩
  · next k asked =>
    rw [asked] at kept
    have also := mayOverwrite_tree k
    split
    · next l may =>
      rw [may] at also
      exact copyInto_agrees sound real (also ▸ kept ▸ agrees) own safe
    · next l may =>
      rw [may] at also
      exact ⟨l,rfl,also ▸ kept ▸ agrees⟩
  · next k asked =>
    rw [asked] at kept
    exact copyInto_agrees sound real (kept ▸ agrees) own safe

theorem enterFolder_agrees (safe : ¬ Exposed t f dest) : Agrees f t (j.enterFolder dest).2.tree := by
  have made : Agrees f t (j.createDirectory dest).2.tree := by
    unfold createDirectory
    split
    · exact agrees
    rename_i u g done
    split at done
    · exact (make_agrees sound real agrees safe done).1
    · simp at done
  unfold enterFolder
  split
  · next k done => simpa [done] using made
  · next k done => simpa [done] using made

end

omit sound real in
theorem copyEntries_agrees (own : f <+: d)
    (each : ∀ k e, t.entry (d ++ [k]) = some e → fits source e.long → fits dest e.long → ∀ j : Job, Agrees f t j.tree →
      ∃ l, copy (source ++ [e.long]) (dest ++ [e.long]) j = some l ∧ Agrees f t l.tree)
    (n k : Nat) (j : Job) (agrees : Agrees f t j.tree) :
    ∃ l, copyEntries copy source dest d n k j = some l ∧ Agrees f t l.tree := by
  induction n generalizing k j with
  | zero => exact ⟨j,rfl,agrees⟩
  | succ n ih =>
    rw [copyEntries]
    split
    · exact ⟨j,rfl,agrees⟩
    split
    · exact ih (k + 1) j agrees
    rename_i e here
    rw [agrees.below _ (own.trans (prefix_append d [k]))] at here
    split
    · exact ⟨_,rfl,agrees⟩
    by_cases room : fits source e.long && fits dest e.long
    · obtain ⟨one,two⟩ := Bool.and_eq_true_iff.mp room
      obtain ⟨l,done,after⟩ := each k e here one two j.next agrees
      simp only [room,if_true,done]
      exact ih (k + 1) l after
    · simp only [room]
      exact ih (k + 1) j.next.problem agrees

theorem copyItem_agrees (resolved : t.resolve source = some d) (own : f <+: d) (safe : ¬ Endangers t f source dest)
    (enough : pathSize < rounds + (render source).length) (short : 0 < rounds) (j : Job) (agrees : Agrees f t j.tree) :
    ∃ k, copyItem rounds source dest j = some k ∧ Agrees f t k.tree := by
  induction rounds generalizing source dest d j with
  | zero => omega
  | succ rounds ih =>
    have here : j.checkStop.tree.resolve source = some d := by
      rw [checkStop_tree]
      exact agrees.resolve resolved own
    rw [copyItem]
    simp only
    split
    · exact ⟨_,rfl,by simpa using agrees⟩
    split
    · exact ⟨_,rfl,by simpa using agrees⟩
    rename_i differ
    have hidden : ¬ Exposed t f dest := fun exposed =>
      safe (.direct (by simp [resolved]) (by simpa using differ) exposed)
    unfold opened
    cases j.checkStop.reply.status.isNone with
    | false => exact ⟨_,rfl,by simpa using agrees⟩
    | true =>
      simp only [if_true,here]
      have read : Agrees f t j.checkStop.next.infoRead.tree := by simpa using agrees
      cases kind : j.checkStop.next.infoFolder d with
      | false => exact copyFile_agrees sound real read own hidden
      | true =>
        simp only [Bool.not_true,Bool.false_eq_true,if_false]
        split
        · exact ⟨_,rfl,by simpa using agrees⟩
        rename_i outside
        have entered := enterFolder_agrees sound real read hidden
        split
        · next k asked => exact ⟨k.problem,rfl,by simpa [asked] using entered⟩
        rename_i k asked
        rw [asked] at entered
        refine copyEntries_agrees own (fun i e item one two l after => ?_) _ 0 k entered
        have folder := (sound.rooted d i e item).2
        have longer := render_snoc source (sound.named _ e item)
        have found := Tree.find_of_entry sound item (Tree.answers_long e)
        have inner : t.resolve (source ++ [e.long]) = some (d ++ [i]) := by
          rw [Tree.resolve,Tree.walk_append,show t.walk [] source = some d from resolved]
          simp [Tree.walk,folder,found]
        have room : (render source).length + e.long.length + 2 ≤ pathSize := by simpa [fits] using one
        refine ih inner (own.trans (prefix_append d [i])) (fun danger => safe ?_) (by omega) (by omega) l after
        exact .within resolved folder (by simpa using differ) (by simpa using outside) item one two danger

end

def cons (r : Reply) (w : Nat → Reply) : Nat → Reply
  | 0 => r
  | n + 1 => w n

def facing (j : Job) (w : Nat → Reply) : Job := {j with world := w}

def go : Reply := ⟨none,false,0,false,0,[],0⟩

def fail : Reply := {go with status := some .other}

def escape : Reply := {go with escape := true}

def silent : Nat → Reply := fun _ => fail

@[simp] theorem facing_reply (j : Job) (r : Reply) (w : Nat → Reply) : (j.facing (cons r w)).reply = r := rfl

@[simp] theorem facing_next (j : Job) (r : Reply) (w : Nat → Reply) : (j.facing (cons r w)).next = j.facing w := rfl

theorem checkStop_go (running : j.stop = false) (w : Nat → Reply) :
    (j.facing (cons go w)).checkStop = j.facing w := by
  simp [checkStop,facing,running,reply,cons,go,next]

theorem problem_go (running : j.stop = false) (w : Nat → Reply) :
    (j.facing (cons go w)).problem = {j with skipped := j.skipped + 1}.facing w := by
  simp [problem,facing,running,reply,cons,go,next]

@[simp] theorem facing_stop (j : Job) (w : Nat → Reply) : (j.facing w).stop = j.stop := rfl

@[simp] theorem facing_tree (j : Job) (w : Nat → Reply) : (j.facing w).tree = j.tree := rfl

theorem copyItem_skip (running : j.stop = false) (positive : 0 < rounds) (a b : Path) :
    ∃ before : (Nat → Reply) → Nat → Reply, ∀ w,
      copyItem rounds a b (j.facing (before w)) = some ({j with skipped := j.skipped + 1}.facing w) := by
  obtain ⟨rounds,rfl⟩ := exists_eq_add_one_of_ne_zero (ne_of_gt positive)
  by_cases alike : compareNoCase a b
  · refine ⟨fun w => cons go (cons go w),fun w => ?_⟩
    rw [copyItem]
    simp [checkStop_go running,running,alike,problem_go running]
  refine ⟨fun w => cons go (cons fail (cons go w)),fun w => ?_⟩
  have refused (w : Nat → Reply) : (j.facing (cons fail w)).opened a = none := by simp [opened,fail]
  rw [copyItem]
  simp [checkStop_go running,running,alike,refused,problem_go running]

theorem copyEntries_silent (n k : Nat) (j : Job)
    (quiet : j.world = silent) : ∃ l, copyEntries copy a b d n k j = some l ∧ l.world = silent ∧ l.tree = j.tree := by
  induction n generalizing k with
  | zero => exact ⟨j,rfl,quiet,rfl⟩
  | succ n ih =>
    have refused : j.reply.status.isSome := by simp [reply,quiet,silent,fail]
    rw [copyEntries]
    split
    · exact ⟨j,rfl,quiet,rfl⟩
    · split
      · exact ih (k + 1)
      · exact ⟨_,rfl,by simp [next,quiet]; rfl,rfl⟩

theorem copyEntries_item {e : Entry} (running : j.stop = false) (item : j.tree.entry (d ++ [k]) = some e)
    (w : Nat → Reply) : copyEntries copy a b d (n + 1) k (j.facing (cons go w)) =
      (if fits a e.long && fits b e.long then copy (a ++ [e.long]) (b ++ [e.long]) (j.facing w)
        else some (j.facing w).problem).bind fun l => copyEntries copy a b d n (k + 1) l := by
  have works : (j.facing (cons go w)).reply.status.isSome = false := rfl
  rw [copyEntries,if_neg (by simp [running])]
  simp only [facing_tree,item,works,Bool.false_eq_true,if_false,facing_next]
  generalize (if fits a e.long && fits b e.long then copy (a ++ [e.long]) (b ++ [e.long]) (j.facing w)
    else some (j.facing w).problem) = result
  cases result with
  | none => rfl
  | some l => rfl

def Harmed (t : Tree) (f : Place) (run : (Nat → Reply) → Option Job) : Prop :=
  ∃ w l q, run w = some l ∧ l.world = silent ∧ f <+: q ∧ l.tree.entry q ≠ t.entry q

theorem reach_entry (positive : 0 < rounds)
    (m i n : Nat) (j : Job) (running : j.stop = false) (tree : j.tree = t) (later : i + m = k) (more : m < n)
    (there : ∀ j : Job, j.stop = false → j.tree = t →
      Harmed t f fun w => copyEntries (copyItem rounds) a b d (n - m) k (j.facing w)) :
    Harmed t f fun w => copyEntries (copyItem rounds) a b d n i (j.facing w) := by
  induction m generalizing i n j with
  | zero =>
    obtain rfl : i = k := later
    exact there j running tree
  | succ m ih =>
    obtain ⟨n,rfl⟩ := exists_eq_add_one_of_ne_zero (by omega : n ≠ 0)
    have rest (j : Job) (running : j.stop = false) (tree : j.tree = t) :=
      ih (i + 1) n j running tree (by omega) (by omega) (by simpa using there)
    cases item : t.entry (d ++ [i]) with
    | none =>
      obtain ⟨w,l,q,done,harm⟩ := rest j running tree
      refine ⟨w,l,q,?_,harm⟩
      simpa [copyEntries,running,tree,item] using done
    | some e =>
      let skipped : Job := {j with skipped := j.skipped + 1}
      obtain ⟨w,l,q,done,harm⟩ := rest skipped running tree
      by_cases room : fits a e.long && fits b e.long
      · obtain ⟨before,skips⟩ := copyItem_skip running positive (a ++ [e.long]) (b ++ [e.long])
        refine ⟨cons go (before w),l,q,?_,harm⟩
        simp only [copyEntries_item running (tree ▸ item),room,if_true,skips,bind_some]
        exact done
      refine ⟨cons go (cons go w),l,q,?_,harm⟩
      simp only [copyEntries_item running (tree ▸ item),room,Bool.false_eq_true,if_false,bind_some,
        problem_go running]
      exact done

section
variable {f : Place} {t : Tree}

theorem exposed_parent {n : Name} (exposed : Exposed t f (b ++ n :: p)) :
    ∃ d, t.resolve b = some d ∧ t.isFolder d := by
  have onward {q : Path} {g : Place} (resolved : t.resolve (b ++ n :: q) = some g) :
      ∃ d, t.resolve b = some d ∧ t.isFolder d := by
    rw [Tree.resolve,Tree.walk_append] at resolved
    obtain ⟨d,first,rest⟩ := bind_eq_some_iff.mp resolved
    rw [Tree.walk] at rest
    split at rest
    · next folder => exact ⟨d,first,folder⟩
    · simp at rest
  rcases exposed with ⟨g,resolved,-,-⟩ | ⟨d,name,-,parent,-,folder,-⟩
  · exact onward resolved
  cases p with
  | nil => exact ⟨d,by simpa using parent,folder⟩
  | cons m p =>
    have shape : (b ++ n :: m :: p).dropLast = b ++ n :: (m :: p).dropLast := by
      rw [dropLast_append_of_ne_nil (by simp)]
      rfl
    rw [shape] at parent
    exact onward parent

theorem endangers_exposed (danger : Endangers t f a b) : ∃ p, Exposed t f (b ++ p) := by
  induction danger with
  | direct real differ exposed => exact ⟨[],by simpa using exposed⟩
  | @within a b d k e real folder differ outside item short also later ih =>
    obtain ⟨p,exposed⟩ := ih
    exact ⟨e.long :: p,by simpa using exposed⟩

section
variable {j : Job} (running : j.stop = false)
include running

theorem copyItem_blind (real : j.tree.resolve a = some d) (differ : compareNoCase a b = false) (w : Nat → Reply) :
    copyItem (rounds + 1) a b (j.facing (cons go (cons go (cons fail (cons fail w))))) =
      copyInto d b ({j with trace := .blind :: j.trace}.facing w) := by
  have seen (w : Nat → Reply) : (j.facing (cons go w)).opened a = some d := by simpa [opened,go] using real
  have kind : (j.facing (cons fail (cons fail w))).infoFolder d = false := rfl
  have read : (j.facing (cons fail (cons fail w))).infoRead =
      {j with trace := .blind :: j.trace}.facing (cons fail w) := rfl
  rw [copyItem]
  simp only [checkStop_go running,facing_stop,running,differ,seen,facing_next,kind,read,Bool.false_eq_true,if_false,
    Bool.not_false,if_true]
  rfl

theorem copyBytes_escape (w : Nat → Reply) :
    copyBytes src dst (n + 1) 0 (j.facing (cons escape w)) = some (false,{j with stop := true}.facing w) := by
  have stopped : (j.facing (cons escape w)).checkStop = {j with stop := true}.facing w := by
    simp [checkStop,running]
    rfl
  simp only [copyBytes,stopped,facing_stop,if_true]

theorem harm_file (tree : j.tree = t)
    (real : (t.resolve a).isSome) (differ : compareNoCase a b = false) (resolved : t.resolve b = some g)
    (file : t.isFolder g = false) (writable : t.isReadOnly g = false) (below : f <+: g) :
    Harmed t f fun w => copyItem (rounds + 1) a b (j.facing w) := by
  subst tree
  obtain ⟨d,source⟩ := isSome_iff_exists.mp real
  have other : g ≠ [] := fun root => by simp [Tree.isFolder,root] at file
  have there : (j.tree.entry g).isSome := (Tree.walk_real resolved (.inl rfl)).resolve_left other
  let marked : Job := {j with trace := .blind :: j.trace}
  let emptied : Job := {marked with tree := j.tree.fill g [], trace := .wrote g :: marked.trace}
  have written (w : Nat → Reply) : (marked.facing (cons go w)).openWrite b = (some g,emptied.facing w) := by
    simp only [openWrite,facing_tree]
    simp only [show marked.tree.resolve b = some g from resolved,
      show marked.tree.isFolder g = false from file,show marked.tree.isReadOnly g = false from writable]
    rfl
  let stopped : Job := {emptied with stop := true}
  have found : stopped.tree.resolve b = some g := (Tree.resolve_fill [] file b).trans resolved
  have removed : stopped.tree.remove b = some (stopped.tree.set g none) := by
    have still : stopped.tree.isFolder g = false := (Tree.isFolder_fill [] file g).trans file
    simp [Tree.remove,found,still,other]
  let cleaned : Job := {stopped with tree := stopped.tree.set g none, trace := .removed g :: stopped.trace}
  have deleted : (stopped.facing (cons go silent)).deleteTo b = cleaned.facing silent := by
    simp only [deleteTo,delete,facing_tree,removed,found]
    rfl
  have run : copyItem (rounds + 1) a b (j.facing (cons go (cons go (cons fail (cons fail
      (cons go (cons escape (cons go silent)))))))) = some (cleaned.facing silent) := by
    rw [copyItem_blind running source differ,← deleted]
    change copyInto d b (marked.facing _) = _
    simp only [copyInto,written,copyBytes_escape (j := emptied) running]
    rfl
  refine ⟨_,_,g,run,rfl,below,?_⟩
  rw [facing_tree,Tree.entry_set]
  intro gone
  rw [← gone] at there
  simp at there

theorem harm_new (tree : j.tree = t) (real : (t.resolve a).isSome) (differ : compareNoCase a b = false)
    (last : b.getLast? = some name) (parent : t.resolve b.dropLast = some d) (below : f <+: d) (folder : t.isFolder d)
    (valid : validName name) (fresh : t.find d name = none) (small : k < t.slots) (free : t.entry (d ++ [k]) = none) :
    Harmed t f fun w => copyItem (rounds + 1) a b (j.facing w) := by
  subst tree
  obtain ⟨s,source⟩ := isSome_iff_exists.mp real
  have missing : j.tree.resolve b = none := by
    have split : b = b.dropLast ++ [name] := (dropLast_append_getLast? name last).symm
    rw [split,Tree.resolve,Tree.walk_append,show j.tree.walk [] b.dropLast = some d from parent]
    simp [Tree.walk,fresh]
  let chosen : Reply := {go with slot := k, short := name}
  let marked : Job := {j with trace := .blind :: j.trace}
  let grown : Job := {marked with
    tree := j.tree.set (d ++ [k]) (some ⟨name,name,.file [],false⟩), trace := .wrote (d ++ [k]) :: marked.trace}
  have made : j.tree.make b (.file []) k name = some (j.tree.set (d ++ [k]) (some ⟨name,name,.file [],false⟩),d ++ [k]) := by
    simp [Tree.make,last,parent,folder,valid,fresh,small,free]
  have written (w : Nat → Reply) : (marked.facing (cons chosen w)).openWrite b = (some (d ++ [k]),grown.facing w) := by
    simp only [openWrite,facing_reply,facing_tree]
    simp only [chosen,show marked.tree.resolve b = none from missing,
      show marked.tree.make b (.file []) k name = _ from made]
    rfl
  let stopped : Job := {grown with stop := true}
  have run : copyItem (rounds + 1) a b (j.facing (cons go (cons go (cons fail (cons fail
      (cons chosen (cons escape silent))))))) = some (stopped.facing silent) := by
    rw [copyItem_blind running source differ]
    change copyInto s b (marked.facing _) = _
    simp only [copyInto,written,copyBytes_escape (j := grown) running]
    rfl
  refine ⟨_,_,d ++ [k],run,rfl,below.trans (prefix_append d [k]),?_⟩
  rw [facing_tree,Tree.entry_set,free]
  simp

end

theorem endangers_harm (sound : Sound t) (danger : Endangers t f a b)
    (enough : pathSize < rounds + (render a).length) (positive : 0 < rounds) (running : j.stop = false) (tree : j.tree = t) :
    Harmed t f fun w => copyItem rounds a b (j.facing w) := by
  induction danger generalizing rounds j with
  | direct real differ exposed =>
    obtain ⟨rounds,rfl⟩ := exists_eq_add_one_of_ne_zero (ne_of_gt positive)
    rcases exposed with ⟨g,resolved,file,writable,below⟩ | ⟨d,name,last,parent,below,folder,valid,fresh,k,small,free⟩
    · exact harm_file running tree real differ resolved file writable below
    · exact harm_new running tree real differ last parent below folder valid fresh small free
  | @within a b d k e real folder differ outside item short also later ih =>
    obtain ⟨rounds,rfl⟩ := exists_eq_add_one_of_ne_zero (ne_of_gt positive)
    have longer := render_snoc a (sound.named _ e item)
    have room : (render a).length + e.long.length + 2 ≤ pathSize := by simpa [fits] using short
    have inner : 0 < rounds := by omega
    obtain ⟨p,exposed⟩ := endangers_exposed later
    obtain ⟨h,destination,isFolder⟩ := exposed_parent (by simpa using exposed)
    have small := (sound.rooted d k e item).1
    -- the item is reached, and the listing ends after it
    have there (j : Job) (running : j.stop = false) (tree : j.tree = t) :
        Harmed t f fun w => copyEntries (copyItem rounds) a b d (t.slots - k) k (j.facing w) := by
      obtain ⟨w,l,q,done,quiet,below,changed⟩ := ih (by omega) inner running tree
      obtain ⟨n,remaining⟩ := exists_eq_add_one_of_ne_zero (sub_ne_zero_of_lt small)
      obtain ⟨m,ended,still,same⟩ := @copyEntries_silent a b (copyItem rounds) d n (k + 1) l quiet
      refine ⟨cons go w,m,q,?_,still,below,same ▸ changed⟩
      simp only [remaining,copyEntries_item running (tree ▸ item),short,also,Bool.and_self,if_true,done,bind_some,ended]
    obtain ⟨w,l,q,done,harm⟩ := reach_entry inner k 0 t.slots j running tree (by omega) small there
    refine ⟨cons go (cons go (cons go (cons fail (cons go (cons go w))))),l,q,?_,harm⟩
    subst tree
    have seen (w : Nat → Reply) : (j.facing (cons go w)).opened a = some d := by simpa [opened,go] using real
    have kind (w : Nat → Reply) : (j.facing (cons go w)).infoFolder d := folder
    have read (w : Nat → Reply) : (j.facing (cons go w)).infoRead = j.facing w := rfl
    have entered : (j.facing (cons fail (cons go (cons go w)))).enterFolder b = (true,j.facing w) := by
      have refused : (j.facing (cons fail (cons go (cons go w)))).createDirectory b =
          (false,j.facing (cons go (cons go w))) := rfl
      have asked : (j.facing (cons go (cons go w))).kind b = (.folder,j.facing w) := by
        have found : (j.facing (cons go (cons go w))).opened b = some h := by simpa [opened,go] using destination
        simp only [Job.kind,found,facing_tree,isFolder]
        rfl
      simp only [enterFolder,refused,asked]
      rfl
    change copyItem (rounds + 1) a b _ = _
    rw [copyItem]
    simp only [checkStop_go running,facing_stop,running,differ,seen,facing_next,kind,read,
      Bool.not_true,outside,entered,facing_tree]
    exact done

end

/-- Whatever happens on the way, the copy ends, nothing at or below its source has changed or is new, and
the tree has an end. -/
def Harmless (t : Tree) (source dest : Path) : Prop :=
  ∀ j : Job, j.tree = t → ∃ k, copyItem (pathSize + 1) source dest j = some k ∧
    (∀ f, t.resolve source = some f → ∀ q, f <+: q → k.tree.entry q = t.entry q) ∧
    ∃ depth, ∀ p : Place, depth < p.length → k.tree.entry p = none

theorem copyItem_nothing (missing : t.resolve source = none)
    (tree : j.tree = t) : ∃ k, copyItem (rounds + 1) source dest j = some k ∧ k.tree = t := by
  have unseen : j.checkStop.opened source = none := by
    unfold opened
    rw [checkStop_tree,tree,missing,ite_self]
  rw [copyItem]
  simp only [unseen]
  split
  · exact ⟨_,rfl,by simpa using tree⟩
  · split
    · exact ⟨_,rfl,by simpa using tree⟩
    · exact ⟨_,rfl,by simpa using tree⟩

def oneFile : Tree := ⟨1,fun p => if p = [0] then some ⟨[97,43,98],[65,95,66,126,49],.file [1,2,3],false⟩ else none⟩

theorem sound_oneFile : Sound oneFile := by
  have only {p : Place} {e : Entry} (here : oneFile.entry p = some e) : p = [0] ∧ e.long = [97,43,98] := by
    unfold oneFile at here
    simp only at here
    split at here
    · next same => exact ⟨same,by rw [← some.inj here]⟩
    · simp at here
  have single {d : Place} {k : Nat} (same : d ++ [k] = [0]) : d = [] ∧ k = 0 := by
    rw [show ([0] : Place) = [] ++ [0] from rfl] at same
    simpa using append_inj' same rfl
  refine ⟨rfl,fun d k e here => ?_,fun d j k e g n one two _ _ => ?_,fun p e here => by simp [(only here).2],1,fun p deep => ?_⟩
  · obtain ⟨rfl,rfl⟩ := single (only here).1
    exact ⟨by decide,rfl⟩
  · rw [(single (only one).1).2,(single (only two).1).2]
  · cases here : oneFile.entry p with
    | none => rfl
    | some e => simp [(only here).1] at deep

end Job

end SurfaceOS.Apps
