import SurfaceOS.Vfs.Beneath

/-! The references a lookup leaves behind (fs/vfs.cpp). A walk holds one reference, on the vnode it
stands on, and `step` moves it along. Out of a mount it is moved before the driver is asked, and `walk`
does not learn of it when the driver then fails. -/
namespace SurfaceOS.Vfs
open Fat Function

/-- A lookup that fails changes no count, one that succeeds adds a reference to what it returns. -/
def Balanced (refs : Refs) : Except Errno Vnode × Refs → Prop
  | (.ok v,after) => after = ref refs v
  | (.error _,after) => after = refs

/-- ".." leads out of the mount whose root is `cur`, to `point`, and there the driver fails. -/
structure Leaves (m : Mounts) (fault : Option Errno) (cur : Vnode) (comp : Name) (point : Vnode) : Prop where
  up : comp = dotdot
  root : cur = rootOf cur.mnt
  mounted : m.point cur.mnt = some point
  other : point ≠ cur
  failed : fault.isSome

inductive Strands (m : Mounts) (faults : Nat → Option Errno) (beneath : Bool) : List Name → Nat → Vnode → Nat → Prop
  | here (comp : Name) (rest : List Name) (i : Nat) (cur point : Vnode) (depth : Nat)
      (allowed : ¬ (beneath ∧ comp = dotdot ∧ depth = 0)) (leaves : Leaves m (faults i) cur comp point) :
      Strands m faults beneath (comp :: rest) i cur depth
  | later (comp : Name) (rest : List Name) (i : Nat) (cur next : Vnode) (depth : Nat) (refs : Refs)
      (allowed : ¬ (beneath ∧ comp = dotdot ∧ depth = 0))
      (stepped : (step m (faults i) cur comp refs).1 = .ok next)
      (after : Strands m faults beneath rest (i + 1) next (depthAfter comp depth)) :
      Strands m faults beneath (comp :: rest) i cur depth

def startOf (m : Mounts) (path : List UInt8) (cwd : Option Vnode) : Option Vnode :=
  if path.head? = some slash then m.rootMount.map rootOf else cwd

def Stranded (m : Mounts) (w : World) (path : List UInt8) (cwd : Option Vnode) (beneath : Bool) : Prop :=
  path ≠ [] ∧ ¬ (beneath ∧ path.head? = some slash) ∧ path.length < pathMax ∧ w.memory ∧
    ∃ start, startOf m path cwd = some start ∧ Strands m w.faults beneath (components path) 0 start 0

section
variable {m : Mounts} {fault : Option Errno} {cur next point : Vnode} {comp : Name} {refs : Refs}

theorem unref_ref (refs : Refs) (v : Vnode) : unref (ref refs v) v = refs := by
  funext u
  by_cases same : u = v
  · subst same
    simp [unref,ref]
  · simp [unref,ref]

theorem ref_comm (refs : Refs) (u v : Vnode) : ref (ref refs u) v = ref (ref refs v) u := by
  by_cases same : u = v
  · rw [same]
  · simp [ref,update_of_ne same,update_of_ne (Ne.symm same),update_comm same]

theorem unref_ref_ref (refs : Refs) (u v : Vnode) : unref (ref (ref refs v) u) v = ref refs u := by
  rw [ref_comm,unref_ref]

theorem unref_ref_ne (refs : Refs) (other : point ≠ cur) : unref (ref refs point) cur ≠ refs := by
  intro same
  have count := congrFun same point
  simp [unref,ref,other] at count

theorem leaveMount_moves (m : Mounts) (cur : Vnode) (refs : Refs) :
    (leaveMount m cur (ref refs cur)).2 = ref refs (leaveMount m cur (ref refs cur)).1 := by
  unfold leaveMount
  split
  · split
    · exact unref_ref_ref refs _ cur
    · rfl
  · rfl

theorem enterMount_moves (m : Mounts) (child : Vnode) (refs : Refs) :
    (enterMount m child (ref refs child)).2 = ref refs (enterMount m child (ref refs child)).1 := by
  unfold enterMount
  split
  · split
    · rw [unref_ref]
    · rfl
  · rfl

theorem leaveMount_place (m : Mounts) (cur : Vnode) (refs refs' : Refs) :
    (leaveMount m cur refs).1 = (leaveMount m cur refs').1 := by
  unfold leaveMount
  split
  · split <;> rfl
  · rfl

theorem enterMount_place (m : Mounts) (child : Vnode) (refs refs' : Refs) :
    (enterMount m child refs).1 = (enterMount m child refs').1 := by
  unfold enterMount
  split
  · split <;> rfl
  · rfl

section
variable (m) (fault) (cur)

theorem step_place (comp : Name) (refs refs' : Refs) :
    (step m fault cur comp refs).1 = (step m fault cur comp refs').1 := by
  unfold step
  split
  · rfl
  split
  · rfl
  split
  · dsimp only
    cases fault with
    | some e => rfl
    | none => dsimp only; rw [leaveMount_place m cur refs refs']
  split
  · rfl
  cases fault with
  | some e => rfl
  | none =>
    cases m.lookup cur comp with
    | error e => rfl
    | ok found => dsimp only; rw [enterMount_place m found (ref refs found) (ref refs' found)]

theorem step_moves (comp : Name) (refs : Refs) :
    (∃ next, step m fault cur comp (ref refs cur) = (.ok next,ref refs next) ∧ ∀ point, ¬ Leaves m fault cur comp point) ∨
    (∃ e, step m fault cur comp (ref refs cur) = (.error e,ref refs cur) ∧ ∀ point, ¬ Leaves m fault cur comp point) ∨
    ∃ e point, step m fault cur comp (ref refs cur) = (.error e,ref refs point) ∧ Leaves m fault cur comp point := by
  unfold step
  split
  · next long =>
    refine .inr (.inl ⟨_,rfl,fun point leaves => ?_⟩)
    rw [leaves.up] at long
    simp [dotdot,nameMax] at long
  split
  · next here =>
    refine .inl ⟨_,rfl,fun point leaves => ?_⟩
    rw [leaves.up] at here
    simp [dotdot,dot] at here
  split
  · next up =>
    have moved := leaveMount_moves m cur refs
    cases fault with
    | none =>
      refine .inl ⟨m.getparent (leaveMount m cur (ref refs cur)).1,?_,fun point leaves => ?_⟩
      · dsimp only
        rw [moved,unref_ref_ref]
      · exact absurd leaves.failed (by simp)
    | some e =>
      dsimp only
      rw [moved]
      -- the place before the driver is asked: the point, or still `cur`
      cases mounted : m.point cur.mnt with
      | none =>
        refine .inr (.inl ⟨e,by simp [leaveMount,mounted],fun point leaves => ?_⟩)
        rw [leaves.mounted] at mounted
        cases mounted
      | some point =>
        by_cases root : cur = rootOf cur.mnt
        · by_cases other : point = cur
          · refine .inr (.inl ⟨e,by simp [leaveMount,mounted,← root,other],fun point' leaves => ?_⟩)
            rw [leaves.mounted] at mounted
            exact leaves.other ((Option.some.inj mounted).trans other)
          · refine .inr (.inr ⟨e,point,?_,up,root,mounted,other,rfl⟩)
            simp only [leaveMount,mounted,if_pos root]
        · refine .inr (.inl ⟨e,by simp [leaveMount,mounted,root],fun point' leaves => root leaves.root⟩)
  · next notUp =>
    have stays : ∀ point, ¬ Leaves m fault cur comp point := fun point leaves => notUp leaves.up
    split
    · exact .inr (.inl ⟨_,rfl,stays⟩)
    cases fault with
    | some e => exact .inr (.inl ⟨e,rfl,stays⟩)
    | none =>
      cases found : m.lookup cur comp with
      | error e => exact .inr (.inl ⟨e,rfl,stays⟩)
      | ok child =>
        refine .inl ⟨(enterMount m child (ref (ref refs cur) child)).1,?_,stays⟩
        dsimp only
        rw [enterMount_moves,unref_ref_ref]

end

theorem Strands.cons_cases {faults : Nat → Option Errno} {beneath : Bool} {rest : List Name} {i depth : Nat}
    (strands : Strands m faults beneath (comp :: rest) i cur depth) : ¬ (beneath ∧ comp = dotdot ∧ depth = 0) ∧
    ((∃ point, Leaves m (faults i) cur comp point) ∨ ∃ next, (∀ refs, (step m (faults i) cur comp refs).1 = .ok next) ∧
      Strands m faults beneath rest (i + 1) next (depthAfter comp depth)) := by
  cases strands with
  | here _ _ _ _ point _ allowed leaves => exact ⟨allowed,.inl ⟨point,leaves⟩⟩
  | later _ _ _ _ next _ refs allowed stepped after =>
    refine ⟨allowed,.inr ⟨next,fun refs' => ?_,after⟩⟩
    rw [step_place m (faults i) cur comp refs' refs]
    exact stepped

theorem walkLoop_balanced (m : Mounts) (faults : Nat → Option Errno) (beneath : Bool) (comps : List Name) (i : Nat)
    (cur : Vnode) (depth : Nat) (refs : Refs) :
    (∃ v d, walkLoop m faults beneath comps i cur depth (ref refs cur) = (.ok (v,d),ref refs v) ∧
      ¬ Strands m faults beneath comps i cur depth) ∨
    ∃ e after, walkLoop m faults beneath comps i cur depth (ref refs cur) = (.error e,after) ∧
      (after = refs ↔ ¬ Strands m faults beneath comps i cur depth) := by
  induction comps generalizing i cur depth with
  | nil => exact .inl ⟨cur,depth,rfl,fun strands => by cases strands⟩
  | cons comp rest ih =>
    unfold walkLoop
    split
    · next stopped =>
      have stopped : beneath ∧ comp = dotdot ∧ depth = 0 := by simpa [and_assoc] using stopped
      refine .inr ⟨_,_,rfl,fun _ strands => strands.cons_cases.1 stopped,fun _ => unref_ref refs cur⟩
    rename_i allowed
    have allowed : ¬ (beneath ∧ comp = dotdot ∧ depth = 0) := by simpa using allowed
    rcases step_moves m (faults i) cur comp refs with ⟨next,stepped,stays⟩ | ⟨e,failed,stays⟩ | ⟨e,point,failed,leaves⟩
    · rw [stepped]
      have same : Strands m faults beneath (comp :: rest) i cur depth ↔
          Strands m faults beneath rest (i + 1) next (depthAfter comp depth) := by
        refine ⟨fun strands => ?_,fun strands => ?_⟩
        · rcases strands.cons_cases.2 with ⟨point,leaves⟩ | ⟨other,went,after⟩
          · exact (stays point leaves).elim
          · have := went (ref refs cur)
            rw [stepped] at this
            exact Except.ok.inj this ▸ after
        · exact .later comp rest i cur next depth _ allowed (by rw [stepped]) strands
      rw [same]
      exact ih (i + 1) next (depthAfter comp depth)
    · rw [failed]
      refine .inr ⟨_,_,rfl,fun _ strands => ?_,fun _ => unref_ref refs cur⟩
      rcases strands.cons_cases.2 with ⟨point,leaves⟩ | ⟨other,went,after⟩
      · exact stays point leaves
      · have := went (ref refs cur)
        rw [failed] at this
        cases this
    · rw [failed]
      refine .inr ⟨_,_,rfl,fun same => (unref_ref_ne refs leaves.other same).elim,fun safe => ?_⟩
      exact (safe (.here comp rest i cur point depth allowed leaves)).elim

end

/-- A lookup is balanced unless a ".." out of a mount meets a failing driver. -/
theorem lookup_balanced_iff (m : Mounts) (w : World) (path : List UInt8) (cwd : Option Vnode) (mustBeDir beneath : Bool)
    (refs : Refs) : Balanced refs (lookup m w path cwd mustBeDir beneath refs) ↔ ¬ Stranded m w path cwd beneath := by
  unfold lookup walk Stranded
  split
  · next empty => exact ⟨fun _ stranded => stranded.1 empty,fun _ => rfl⟩
  split
  · next absolute => exact ⟨fun _ stranded => stranded.2.1 (by simpa using absolute),fun _ => rfl⟩
  split
  · next long => exact ⟨fun _ stranded => by have := stranded.2.2.1; omega,fun _ => rfl⟩
  split
  · next noMemory =>
    refine ⟨fun _ stranded => ?_,fun _ => rfl⟩
    rw [stranded.2.2.2.1] at noMemory
    cases noMemory
  rename_i given absolute long memory
  rw [← startOf]
  cases begins : startOf m path cwd with
  | none =>
    refine ⟨fun _ stranded => ?_,fun _ => rfl⟩
    obtain ⟨-,-,-,-,start,there,-⟩ := stranded
    cases there
  | some start =>
    have reached : (path ≠ [] ∧ ¬ (beneath ∧ path.head? = some slash) ∧ path.length < pathMax ∧
        w.memory ∧ ∃ first, some start = some first ∧
        Strands m w.faults beneath (components path) 0 first 0) ↔
        Strands m w.faults beneath (components path) 0 start 0 := by
      refine ⟨fun ⟨_,_,_,_,first,same,strands⟩ => Option.some.inj same ▸ strands,fun strands => ?_⟩
      exact ⟨given,by simpa using absolute,by omega,by simpa using memory,start,rfl,strands⟩
    rw [reached]
    dsimp only
    rcases walkLoop_balanced m w.faults beneath (components path) 0 start 0 refs with
      ⟨v,depth,went,safe⟩ | ⟨e,after,went,same⟩
    · rw [went]
      dsimp only
      refine iff_of_true ?_ safe
      split
      · exact unref_ref refs v
      · rfl
    · rw [went]
      exact same

/-- The root of volume 1, mounted on "a" of volume 0, is the start; the disk of volume 0 fails. -/
def brokenWorld : World := ⟨true,fun _ => some .eio⟩

/-- ".." from a mounted root: the point keeps a reference and the root has lost one. -/
theorem not_every_lookup_balanced : ¬ ∀ m w path cwd mustBeDir beneath refs,
    Balanced refs (lookup m w path cwd mustBeDir beneath refs) := by
  intro always
  have balanced := always twoVolumes brokenWorld dotdot (some (rootOf 1)) false false (fun _ => 1)
  have count := congrFun (show _ = _ from balanced) ⟨0,.dir 5⟩
  revert count
  decide

end SurfaceOS.Vfs
