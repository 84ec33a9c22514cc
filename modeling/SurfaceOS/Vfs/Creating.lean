import SurfaceOS.Vfs.Paths
import SurfaceOS.Vfs.References

/-! Opening with `O_CREAT` (fs/fileio.cpp) against opening without. Without, `walk` takes every component.
With it, `walk` stops at the parent and the driver is asked for the last name: it knows no mounts, and in
the root directory of a FAT volume no "." and "..". -/
namespace SurfaceOS.Vfs
open Fat Function List Option Nat

variable {after refs' : Refs} {n slot : Nat} {r : Record}

/-- A tree with mounts: whatever a mount lies on is a directory of the tree, so is what ".." leads to, and
every directory but a root has its "." and ".." records. -/
structure Dotted (m : Mounts) (directory : Nat → Nat → Prop) : Prop where
  forest : Forest m directory
  points : ∀ i p, m.active i → m.point i = some p → Directory m directory p
  up : ∀ i c, m.active i → directory i c → directory i ((m.vol i).dotdotCluster c)
  dots : ∀ i c name, m.active i → directory i c → name = dot ∨ name = dotdot →
    match (m.vol i).find c name with
    | some (_,r) => c ≠ (m.vol i).rootCluster ∧ r.isDir ∧ r.name = name
    | none => c = (m.vol i).rootCluster

def InTree (m : Mounts) (directory : Nat → Nat → Prop) (v : Vnode) : Prop :=
  m.active v.mnt ∧
    match v.key with
    | .file parent _ => directory v.mnt parent
    | key => key.Names (m.vol v.mnt) (directory v.mnt)

def Quiet (w : OpenWorld) : Prop := w.memory ∧ (∀ i, w.faults i = none) ∧ w.lookupFault = none

def Resolves (m : Mounts) (base : Vnode) (path : List UInt8) (beneath : Bool) (v : Vnode) : Prop :=
  (lookup m calm.toWorld path (some base) false beneath (fun _ => 0)).1 = .ok v

/-- An open that may create finds what one that may not finds, and never makes a "." or "..". The driver
says ENOENT only of a name it does not have. -/
structure CreateAgrees (m : Mounts) (base : Vnode) (path : List UInt8) (beneath : Bool) : Prop where
  same : ∀ v, Resolves m base path beneath v → ∀ w (flags : Flags) refs, Quiet w → flags.excl = false →
    (doOpenat m w base path {flags with creat := true} beneath refs).result =
      (doOpenat m w base path {flags with creat := false} beneath refs).result
  noDots : ∀ w flags refs, w.lookupFault ≠ some .enoent → ∀ i c slot r,
    (slot,r) ∈ ((doOpenat m w base path flags beneath refs).mounts.vol i).scan c → r.name = dot ∨ r.name = dotdot →
    (slot,r) ∈ (m.vol i).scan c

def parentOf (m : Mounts) (base : Vnode) (path : List UInt8) (beneath : Bool) : Except Errno (Vnode × Nat) :=
  match startOf m path (some base) with
  | none => .error .enoent
  | some start =>
    (walkLoop m (fun _ => none) beneath (components (path.take (cutAt path))) 0 start 0 (fun _ => 0)).1

/-- A last component that `walk` and the driver take differently: "." or ".." of a file, or of a volume's
root, or the name of a directory something is mounted on. -/
inductive Twisted (m : Mounts) (d : Vnode) (name : Name) : Prop
  | file (kind : d.isDir = false)
  | dots (named : name = dot ∨ name = dotdot) (root : d.key = .root)
  | mounted (plain : name ≠ dot ∧ name ≠ dotdot) (found : Vnode) (i : Nat) (there : m.lookup d name = .ok found)
      (isDir : found.isDir) (covered : m.mountOver found = some i)

/-- A path whose last component no record answers to and the driver takes, while what is stored of it displays
as "." or "..": an overlong zero ends the long name behind the dots. -/
structure Disguised (m : Mounts) (base : Vnode) (path : List UInt8) (beneath : Bool) (d : Vnode) (depth : Nat) :
    Prop where
  parent : parentOf m base path beneath = .ok (d,depth)
  isDir : d.isDir
  whole : path ≠ [] ∧ ¬ (beneath ∧ path.head? = some slash) ∧ path.length < pathMax ∧ path.getLast? ≠ some slash
  plain : lastName path ≠ dot ∧ lastName path ≠ dotdot
  valid : validName (lastName path)
  missing : m.lookup d (lastName path) = .error .enoent
  shown : shownName (lastName path) = dot ∨ shownName (lastName path) = dotdot

/-- A path that leads somewhere and ends in a slash or a twisted component, or a disguised one. -/
def Crooked (m : Mounts) (base : Vnode) (path : List UInt8) (beneath : Bool) : Prop :=
  (∃ v, Resolves m base path beneath v ∧ (path.getLast? = some slash ∨
    ∃ d depth, parentOf m base path beneath = .ok (d,depth) ∧ Twisted m d (lastName path))) ∨
  ∃ d depth, Disguised m base path beneath d depth

variable {flags : Flags} {comp name : Name} {c depth i : Nat} {w : OpenWorld} {fault : Option Errno}
  {refs : Refs} {cur d next v : Vnode}

section
variable {m : Mounts} {directory : Nat → Nat → Prop} {base : Vnode} {path : List UInt8} {beneath : Bool}

theorem dirVnode_names {vol : Volume} {here : Nat → Prop} (inside : here c) : (vol.dirVnode c).Names vol here := by
  unfold Volume.dirVnode
  split
  · trivial
  · next other =>
    rw [not_or] at other
    exact ⟨inside,by omega,other.1⟩

theorem Directory.inTree (above : Directory m directory v) : InTree m directory v := by
  obtain ⟨active,names⟩ := above
  refine ⟨active,?_⟩
  cases key : v.key with
  | file parent slot => rw [key] at names; exact names.elim
  | root => trivial
  | dir c => rw [key] at names; exact names

theorem InTree.above (inside : InTree m directory v) (isDir : v.isDir) : Directory m directory v := by
  obtain ⟨active,names⟩ := inside
  refine ⟨active,?_⟩
  unfold Vnode.isDir at isDir
  cases key : v.key with
  | file parent slot => rw [key] at isDir; cases isDir
  | root => trivial
  | dir c => rw [key] at names; exact names

theorem Dotted.enterMount (refs : Refs) (inside : InTree m directory v) :
    InTree m directory (enterMount m v refs).1 := by
  obtain same | ⟨i,active,_,same⟩ := enterMount_cases m v refs
  · rw [same]
    exact inside
  · rw [same]
    exact ⟨active,trivial⟩

section
variable (dotted : Dotted m directory)
include dotted

theorem Dotted.getparent (inside : InTree m directory v) :
    Directory m directory (m.getparent v) := by
  obtain ⟨active,names⟩ := inside
  refine ⟨active,?_⟩
  change ((m.vol v.mnt).getparent v.key).Names (m.vol v.mnt) (directory v.mnt)
  cases key : v.key with
  | root => trivial
  | dir c =>
    rw [key] at names
    exact dirVnode_names (dotted.up v.mnt c active names.1)
  | file parent slot =>
    rw [key] at names
    exact dirVnode_names names

theorem Dotted.leaveMount (refs : Refs) (inside : InTree m directory v) :
    InTree m directory (leaveMount m v refs).1 := by
  unfold Vfs.leaveMount
  split
  · next point mounted =>
    split
    · exact (dotted.points v.mnt point inside.1 mounted).inTree
    · exact inside
  · exact inside

theorem Dotted.lookup (above : Directory m directory d) (found : m.lookup d name = .ok v) : InTree m directory v := by
  obtain child | ⟨_,rfl⟩ | ⟨_,_,rfl⟩ := lookup_cases dotted.forest above name found
  · obtain ⟨slot,r,kind,listed,plain⟩ := child
    have tree := dotted.forest d.mnt above.1
    refine ⟨above.1,?_⟩
    have names := (tree.record_kind d.key above.2 slot r listed plain).2
    cases key : (m.vol d.mnt).vnodeFromRecord r ((m.vol d.mnt).cluster d.key) slot with
    | root => trivial
    | dir c =>
      rw [key] at names
      exact names rfl
    | file parent s =>
      have same : parent = (m.vol d.mnt).cluster d.key := by
        unfold Volume.vnodeFromRecord Volume.dirVnode at key
        split at key
        · split at key <;> cases key
        · cases key
          rfl
      rw [same]
      exact tree.directory d.key above.2
  · exact above.inTree
  · exact (dotted.getparent above.inTree).inTree

theorem Dotted.step (inside : InTree m directory cur)
    (ok : step m fault cur comp refs = (.ok next,refs')) : InTree m directory next := by
  obtain ⟨-,rfl⟩ | ⟨-,rfl⟩ | ⟨-,-,isDir,found,looked,rfl⟩ := step_ok ok
  · exact inside
  · exact (dotted.getparent (dotted.leaveMount refs inside)).inTree
  · exact Dotted.enterMount _ (dotted.lookup (inside.above isDir) looked)

theorem Dotted.walkLoop (faults : Nat → Option Errno) (comps : List Name) (i : Nat)
    (cur : Vnode) (depth : Nat) (refs : Refs) (inside : InTree m directory cur)
    (ok : walkLoop m faults beneath comps i cur depth refs = (.ok (v,n),after)) : InTree m directory v := by
  fun_induction Vfs.walkLoop m faults beneath comps i cur depth refs with
  | case1 =>
    cases ok
    exact inside
  | case4 _ _ _ _ _ _ _ _ _ stepped ih => exact ih (dotted.step inside stepped) ok
  | _ => cases ok

end

theorem walkLoop_append (faults : Nat → Option Errno) (comps more : List Name) (i : Nat) (cur : Vnode) (depth : Nat)
    (refs : Refs) : walkLoop m faults beneath (comps ++ more) i cur depth refs =
      match walkLoop m faults beneath comps i cur depth refs with
      | (.error e,after) => (.error e,after)
      | (.ok (v,n),after) => walkLoop m faults beneath more (i + comps.length) v n after := by
  induction comps generalizing i cur depth refs with
  | nil => rfl
  | cons comp rest ih =>
    rw [cons_append,walkLoop,walkLoop]
    split
    · rfl
    · split
      · rfl
      · rw [ih,length_cons,add_right_comm,add_assoc]

theorem walkLoop_place (faults : Nat → Option Errno) (comps : List Name) (i : Nat) (cur : Vnode) (depth : Nat)
    (refs refs' : Refs) : (walkLoop m faults beneath comps i cur depth refs).1 =
      (walkLoop m faults beneath comps i cur depth refs').1 := by
  induction comps generalizing i cur depth refs refs' with
  | nil => rfl
  | cons comp rest ih =>
    rw [walkLoop,walkLoop]
    split
    · rfl
    rw [Prod.fst_eq_iff.mp (step_place m (faults i) cur comp refs refs')]
    rcases step m (faults i) cur comp refs' with ⟨e | next,after⟩
    · rfl
    · exact ih (i + 1) next _ _ after

theorem step_calm
    (ok : step m fault cur comp refs = (.ok next,refs')) : step m none cur comp refs = (.ok next,refs') := by
  revert ok
  fun_cases step m fault cur comp refs with
  | case2 _ short here =>
    rw [step,if_neg short,if_pos here]
    exact id
  | case4 short away up _ _ left =>
    rw [step,if_neg short,if_neg away,if_pos up,left]
    exact id
  | case8 => simp [step, *]
  | _ => nofun

theorem walkLoop_calm {faults : Nat → Option Errno} {comps : List Name}
    (ok : walkLoop m faults beneath comps i cur depth refs = (.ok (v,n),after)) :
    walkLoop m (fun _ => none) beneath comps i cur depth refs = (.ok (v,n),after) := by
  fun_induction walkLoop m faults beneath comps i cur depth refs with
  | case1 => exact ok
  | case4 _ _ _ _ _ _ allowed _ _ stepped ih =>
    rw [walkLoop,if_neg allowed,step_calm stepped]
    exact ih ok
  | _ => cases ok

theorem walk_place (w : World) (cwd : Option Vnode) (mustBeDir : Bool) (refs : Refs) (given : path ≠ [])
    (relative : ¬ (beneath ∧ path.head? = some slash)) (short : path.length < pathMax) (memory : w.memory) :
    (walk m w path cwd mustBeDir beneath refs).1 =
      match startOf m path cwd with
      | none => .error .enoent
      | some start =>
        match (walkLoop m w.faults beneath (components path) 0 start 0 (ref refs start)).1 with
        | .error e => .error e
        | .ok (v,depth) =>
          if (mustBeDir || (path.length > 1 && path.getLast? = some slash)) && !v.isDir then .error .enotdir
          else .ok (v,depth) := by
  unfold walk
  rw [if_neg given,if_neg (by simpa using relative),if_neg (by omega),if_neg (by simp [memory]),← startOf]
  cases startOf m path cwd with
  | none => rfl
  | some start =>
    dsimp only
    rcases walkLoop m w.faults beneath (components path) 0 start 0 (ref refs start) with ⟨e | arrived,after⟩
    · rfl
    · dsimp only
      split <;> rfl

theorem lookupParent_place (w : World) (isDir : base.isDir) (refs : Refs) (given : path ≠ [])
    (relative : ¬ (beneath ∧ path.head? = some slash)) (short : path.length < pathMax)
    (memory : 0 < cutAt path → w.memory) (named : lastName path ≠ [] ∧ (lastName path).length ≤ nameMax) :
    (lookupParent m w path (some base) beneath refs).1 =
      match startOf m path (some base) with
      | none => .error .enoent
      | some start =>
        match (walkLoop m w.faults beneath (components (path.take (cutAt path))) 0 start 0 (ref refs start)).1 with
        | .error e => .error e
        | .ok (d,depth) =>
          if !d.isDir then .error .enotdir
          else if beneath && lastName path = dotdot && depth = 0 then .error .exdev
          else .ok (d,lastName path) := by
  obtain ⟨stopSmall,-,stopSome,-⟩ := trimSlashes_spec path path.length (Nat.le_refl _)
  obtain ⟨cutSmall,clean,before⟩ := lastCut_spec path (trimSlashes path path.length) stopSmall
  obtain ⟨plenSmall,-,plenSome,plenLast⟩ := trimSlashes_spec path (cutAt path) (Nat.le_trans cutSmall stopSmall)
  have long : 0 < path.length := length_pos_iff.mpr given
  unfold lookupParent
  rw [if_neg given,if_neg (by simpa using relative),if_neg (by omega)]
  dsimp only
  rw [← lastName,← cutAt,if_neg (by simpa using named)]
  rcases Nat.eq_zero_or_pos (cutAt path) with zero | positive
  · -- no slash before the last name: the parent is the base
    have first : path.head? ≠ some slash := by
      intro same
      rw [cutAt] at zero
      rw [zero] at clean
      apply clean
      cases path with
      | nil => cases same
      | cons b rest =>
        obtain ⟨n,stop⟩ : ∃ n, trimSlashes (b :: rest) (b :: rest).length = n + 1 := ⟨_,(Nat.succ_pred_eq_of_pos (stopSome long)).symm⟩
        rw [stop]
        simp only [head?_cons,some.injEq] at same
        exact mem_cons.mpr (.inl same.symm)
    have early : ((decide ((lastName path).length = path.length) ||
        (decide (trimSlashes path (cutAt path) = 0) && decide (path.head? ≠ some slash))) = true) := by
      simp [zero,trimSlashes,first]
    rw [if_pos early]
    have start : startOf m path (some base) = some base := by rw [startOf,if_neg first]
    rw [start,zero,take_zero]
    simp only [components,splitPath,emit,if_true,walkLoop,isDir]
    by_cases up : beneath = true ∧ lastName path = dotdot
    · simp [up]
    simp only [not_and] at up
    by_cases flag : beneath = true
    · simp [up flag]
    · simp [flag]
  · have late : ¬ ((decide ((lastName path).length = path.length) ||
        (decide (trimSlashes path (cutAt path) = 0) && decide (path.head? ≠ some slash))) = true) := by
      have length : (lastName path).length = trimSlashes path path.length - cutAt path := by
        rw [lastName,length_drop,length_take,Nat.min_eq_left stopSmall,cutAt]
      simp only [Bool.or_eq_true,Bool.and_eq_true,decide_eq_true_eq,not_or]
      exact ⟨by omega,fun zero => by omega⟩
    rw [if_neg late,if_neg (by simp [memory positive]),if_neg (by have := plenSome positive; omega)]
    have parts : path.take (trimSlashes path (cutAt path)) ≠ [] := by
      rw [← length_pos_iff,length_take]
      omega
    have head : (path.take (trimSlashes path (cutAt path))).head? = path.head? := by
      rw [head?_take,if_neg (by have := plenSome positive; omega)]
    have start : startOf m (path.take (trimSlashes path (cutAt path))) (some base) = startOf m path (some base) := by
      rw [startOf,startOf,head]
    have walked := @walk_place m (path.take (trimSlashes path (cutAt path))) beneath w (some base) true refs parts
      (by rw [head]; exact relative) (by rw [length_take]; omega) (memory positive)
    rw [start,components_trim path (cutAt path) (Nat.le_trans cutSmall stopSmall)] at walked
    rw [Prod.fst_eq_iff.mp walked]
    cases startOf m path (some base) with
    | none => rfl
    | some first =>
      dsimp only
      rcases (walkLoop m w.faults beneath (components (path.take (cutAt path))) 0 first 0 (ref refs first)).1 with
        e | ⟨d,depth⟩
      · rfl
      dsimp only
      cases d.isDir with
      | false => simp
      | true =>
        simp only [Bool.not_true,Bool.and_false,Bool.false_eq_true,if_false]
        split <;> rfl

theorem parentOf_ok (parent : parentOf m base path beneath = .ok (d,depth)) : ∃ start,
    startOf m path (some base) = some start ∧ ∀ refs,
      (walkLoop m (fun _ => none) beneath (components (path.take (cutAt path))) 0 start 0 refs).1 = .ok (d,depth) := by
  unfold parentOf at parent
  split at parent
  · cases parent
  · next start begins => exact ⟨start,begins,fun refs => (walkLoop_place _ _ _ _ _ refs _).trans parent⟩

theorem step_short (ok : (step m fault cur comp refs).1 = .ok next) : comp.length ≤ nameMax := by
  by_contra long
  unfold step at ok
  rw [if_pos (by omega)] at ok
  cases ok

section
variable (resolves : Resolves m base path beneath v)
include resolves

theorem Resolves.walked : path ≠ [] ∧ ¬ (beneath ∧ path.head? = some slash) ∧ path.length < pathMax ∧
    ∃ start depth, startOf m path (some base) = some start ∧
      (walkLoop m (fun _ => none) beneath (components path) 0 start 0 (ref (fun _ => 0) start)).1 = .ok (v,depth) := by
  unfold Resolves lookup at resolves
  revert resolves
  fun_cases walk m calm.toWorld path (some base) false beneath (fun _ => 0) with
  | case8 given relative long _ start begins _ _ depth _ went =>
    intro resolves
    obtain rfl := Except.ok.inj resolves
    exact ⟨given,by simpa using relative,by omega,start,depth,begins,congrArg Prod.fst went⟩
  | _ => rintro ⟨⟩

theorem Resolves.lookup (last : path.getLast? ≠ some slash) (quiet : Quiet w) (mustBeDir : Bool) (refs : Refs) :
    (lookup m w.toWorld path (some base) mustBeDir beneath refs).1 =
      if mustBeDir && !v.isDir then .error .enotdir else .ok v := by
  obtain ⟨given,relative,short,start,depth,begins,went⟩ := resolves.walked
  have calmly : w.faults = fun _ => none := funext quiet.2.1
  unfold Vfs.lookup
  rw [walk_place w.toWorld (some base) mustBeDir refs given relative short quiet.1,begins,calmly]
  dsimp only
  rw [walkLoop_place _ _ _ _ _ (ref refs start) (ref (fun _ => 0) start),went]
  simp only [last,decide_false,Bool.and_false,Bool.or_false]
  split <;> rfl

theorem Resolves.last (last : path.getLast? ≠ some slash) : ∃ d depth, parentOf m base path beneath = .ok (d,depth) ∧
      ¬ (beneath ∧ lastName path = dotdot ∧ depth = 0) ∧ ∀ refs, (step m none d (lastName path) refs).1 = .ok v := by
  obtain ⟨given,-,-,start,depth,begins,went⟩ := resolves.walked
  rw [components_last,emit,if_neg (lastName_ne_nil given last),walkLoop_append] at went
  unfold parentOf
  rw [begins]
  dsimp only
  rw [walkLoop_place _ _ _ _ _ (fun _ => 0) (ref (fun _ => 0) start)]
  rcases first : walkLoop m (fun _ => none) beneath (components (path.take (cutAt path))) 0 start 0
    (ref (fun _ => 0) start) with ⟨e | ⟨d,n⟩,after⟩ <;> rw [first] at went
  · cases went
  dsimp only at went
  rw [walkLoop] at went
  split at went
  · cases went
  rename_i allowed
  refine ⟨d,n,rfl,by simpa using allowed,fun refs => ?_⟩
  rw [step_place m none d (lastName path) refs after]
  rcases stepped : step m none d (lastName path) after with ⟨e | next,after'⟩ <;> rw [stepped] at went
  · cases went
  · simp only [walkLoop,Except.ok.injEq,Prod.mk.injEq] at went
    rw [went.1]

end

theorem resolves_of_last (given : path ≠ [])
    (relative : ¬ (beneath ∧ path.head? = some slash)) (short : path.length < pathMax)
    (last : path.getLast? ≠ some slash) (parent : parentOf m base path beneath = .ok (d,depth))
    (allowed : ¬ (beneath ∧ lastName path = dotdot ∧ depth = 0))
    (stepped : ∀ refs, (step m none d (lastName path) refs).1 = .ok v) : Resolves m base path beneath v := by
  unfold Resolves Vfs.lookup
  rw [walk_place calm.toWorld (some base) false _ given relative short rfl]
  obtain ⟨start,begins,went⟩ := parentOf_ok parent
  rw [begins]
  dsimp only [calm]
  rw [components_last,emit,if_neg (lastName_ne_nil given last),walkLoop_append,Prod.fst_eq_iff.mp (went _)]
  dsimp only
  rw [walkLoop,if_neg (by simpa using allowed),Prod.fst_eq_iff.mp (stepped _)]
  simp [walkLoop,last,Except.map]

theorem lookupParent_quiet (quiet : Quiet w) (isDir : base.isDir) (resolves : Resolves m base path beneath v)
    (last : path.getLast? ≠ some slash) (parent : parentOf m base path beneath = .ok (d,depth)) (refs : Refs) :
    (lookupParent m w.toWorld path (some base) beneath refs).1 =
      if !d.isDir then .error .enotdir else .ok (d,lastName path) := by
  obtain ⟨given,relative,short,-⟩ := resolves.walked
  obtain ⟨start,begins,went⟩ := parentOf_ok parent
  obtain ⟨d',depth',same,allowed,stepped⟩ := resolves.last last
  obtain ⟨rfl,rfl⟩ : d' = d ∧ depth' = depth := by
    rw [same] at parent
    simpa using parent
  have calmly : w.faults = fun _ => none := funext quiet.2.1
  rw [lookupParent_place w.toWorld isDir refs given relative short (fun _ => quiet.1)
    ⟨lastName_ne_nil given last,step_short (stepped refs)⟩,begins,calmly]
  dsimp only
  rw [went]
  dsimp only
  split
  · rfl
  · rw [if_neg (by simpa using allowed)]

theorem openTarget_result (w : OpenWorld) (target : Vnode) {flags' : Flags} (created : Bool) (refs refs' : Refs)
    (access : flags.access = flags'.access) (trunc : flags.trunc = flags'.trunc) :
    (openTarget m w target flags created refs).result = (openTarget m w target flags' created refs').result := by
  unfold openTarget
  rw [access,trunc]
  split
  · rfl
  split
  · rfl
  dsimp only
  split
  · rfl
  · split
    · rfl
    · split <;> rfl

theorem doOpenat_creat (creat : flags.creat)
    (found : (lookupParent m w.toWorld path (some base) beneath refs).1 = .ok (d,name))
    (last : path.getLast? ≠ some slash) :
    ∃ refs', doOpenat m w base path flags beneath refs = openIn m w d name flags refs' := by
  unfold doOpenat
  rw [if_pos creat,Prod.fst_eq_iff.mp found]
  exact ⟨_,if_neg (by simp [last])⟩

theorem doOpenat_refused (creat : flags.creat) {e : Errno}
    (refused : (lookupParent m w.toWorld path (some base) beneath refs).1 = .error e) :
    (doOpenat m w base path flags beneath refs).result = .error e := by
  unfold doOpenat
  rw [if_pos creat,Prod.fst_eq_iff.mp refused]

theorem openIn_found (quiet : Quiet w) {target : Vnode}
    (found : m.lookup d name = .ok target) (excl : flags.excl = false) (refs : Refs) :
    ∃ refs', (openIn m w d name flags refs).result = if flags.directory && !target.isDir then .error .enotdir
      else (openTarget m w target flags false refs').result := by
  unfold openIn
  rw [quiet.2.2,elim_none,found]
  dsimp only
  rw [excl,if_neg (by simp)]
  refine ⟨unref (ref refs target) d,?_⟩
  split <;> rfl

section
variable (dotted : Dotted m directory) (above : Directory m directory d)
include dotted above

theorem Dotted.lookup_root
    (root : d.key = .root) (named : name = dot ∨ name = dotdot) : m.lookup d name = .error .enoent := by
  have inside := (dotted.forest d.mnt above.1).root.1
  have found := dotted.dots d.mnt _ name above.1 inside named
  unfold Mounts.lookup Volume.lookup
  rw [root]
  split at found
  · exact absurd rfl found.1
  · next missing =>
    rw [show (m.vol d.mnt).cluster .root = (m.vol d.mnt).rootCluster from rfl,missing]
    rfl

theorem Dotted.lookup_dots (lower : d.key ≠ .root) (named : name = dot ∨ name = dotdot)
    (stepped : (Vfs.step m none d name refs).1 = .ok next) : m.lookup d name = .ok next := by
  have tree := dotted.forest d.mnt above.1
  have inside := tree.directory d.key above.2
  have found := dotted.dots d.mnt _ name above.1 inside named
  obtain ⟨c,key⟩ : ∃ c, d.key = .dir c := by
    have names := above.2
    cases key : d.key with
    | root => exact absurd key lower
    | dir c => exact ⟨c,rfl⟩
    | file parent slot => rw [key] at names; exact names.elim
  have other : c ≠ (m.vol d.mnt).rootCluster := by
    have names := above.2
    rw [key] at names
    exact names.2.2
  have cluster : (m.vol d.mnt).cluster d.key = c := by rw [key]; rfl
  rw [cluster] at inside found
  unfold Mounts.lookup Volume.lookup
  rw [cluster]
  split at found
  · next slot r hit =>
    rw [hit]
    have listed := mem_of_find?_eq_some hit
    obtain ⟨-,isDir,called⟩ := found
    have key' : (m.vol d.mnt).vnodeFromRecord r c slot = (m.vol d.mnt).dirVnode r.firstCluster := by
      rw [Volume.vnodeFromRecord,if_pos isDir]
    rcases named with rfl | rfl
    · have same := (tree.self c inside slot r listed isDir called).2
      obtain rfl := Except.ok.inj stepped
      simp only [Except.map,key',same]
      have back := dirVnode_cluster d.key above.2
      rw [cluster] at back
      rw [back]
    · have up := (tree.parent c inside slot r listed isDir called).2.2
      have parent : (Vfs.step m none d dotdot refs).1 = .ok (m.getparent d) := by
        unfold Vfs.step
        rw [if_neg (by decide),if_neg (by decide),if_pos rfl]
        dsimp only
        rw [leaveMount_of_ne_root m d refs lower]
      rw [parent] at stepped
      obtain rfl := Except.ok.inj stepped
      simp only [Except.map,key',up,Mounts.getparent,key]
  · next missing => exact absurd found other

end

theorem openIn_mounts
    (fresh : (slot,r) ∈ ((openIn m w d name flags refs).mounts.vol i).scan c) (old : (slot,r) ∉ (m.vol i).scan c) :
    r.name = shownName name ∧ d.isDir ∧ w.lookupFault.elim (m.lookup d name) .error = .error .enoent ∧
      validName name := by
  have created {short place} (made : (slot,r) ∈ ((m.create d name short place).2.vol i).scan c) :
      r.name = shownName name := by
    unfold Mounts.create Volume.create at made
    dsimp only at made
    by_cases mount : i = d.mnt
    · subst mount
      rw [update_self] at made
      dsimp only at made
      by_cases cluster : c = (m.vol d.mnt).cluster d.key
      · subst cluster
        rw [update_self] at made
        rcases mem_append.mp made with before | new
        · exact absurd before old
        · obtain ⟨-,rfl⟩ := Prod.mk.inj (mem_singleton.mp new)
          rfl
      · rw [update_of_ne cluster] at made
        exact absurd made old
    · rw [update_of_ne mount] at made
      exact absurd made old
  have taken {made : Nat × Option Name} (ok : (if validName name then w.create else .error .einval) = .ok made) :
      validName name := by
    by_contra invalid
    rw [if_neg invalid] at ok
    cases ok
  revert fresh
  fun_cases openIn m w d name flags refs with
  | case3 =>
    rw [openTarget_mounts]
    exact fun fresh => absurd fresh old
  | case7 _ looked missing isDir _ _ ok _ _ made | case8 _ looked missing isDir _ _ ok _ _ made =>
    cases made
    exact fun fresh => ⟨created fresh,by simpa using isDir,not_not.mp missing ▸ looked,taken ok⟩
  | case9 _ looked missing isDir _ _ ok _ _ made =>
    rw [openTarget_mounts]
    cases made
    exact fun fresh => ⟨created fresh,by simpa using isDir,not_not.mp missing ▸ looked,taken ok⟩
  | _ => exact fun fresh => absurd fresh old

theorem lookupParent_checked {w : World} {found : Vnode × Name}
    (ok : (lookupParent m w path (some base) beneath refs).1 = .ok found) :
    path ≠ [] ∧ ¬ (beneath ∧ path.head? = some slash) ∧ path.length < pathMax ∧
    (lastName path ≠ [] ∧ (lastName path).length ≤ nameMax) ∧ (0 < cutAt path → w.memory) := by
  unfold lookupParent at ok
  split at ok
  · cases ok
  rename_i given
  split at ok
  · cases ok
  rename_i relative
  split at ok
  · cases ok
  dsimp only at ok
  rw [← lastName,← cutAt] at ok
  split at ok
  · cases ok
  rename_i named
  refine ⟨given,by simpa using relative,by omega,by simpa using named,fun positive => ?_⟩
  split at ok
  · next early =>
    -- a slash before the last name, so this is not one of the early returns
    obtain ⟨stopSmall,-,-,-⟩ := trimSlashes_spec path path.length (le_refl _)
    have cutSmall := (lastCut_spec path (trimSlashes path path.length) stopSmall).1
    have plenSome := (trimSlashes_spec path (cutAt path) (le_trans cutSmall stopSmall)).2.2.1 positive
    have length : (lastName path).length = trimSlashes path path.length - cutAt path := by
      rw [lastName,length_drop,length_take,min_eq_left stopSmall,cutAt]
    simp only [Bool.or_eq_true,Bool.and_eq_true,decide_eq_true_eq] at early
    change cutAt path ≤ _ at cutSmall
    omega
  · split at ok
    · cases ok
    · next memory => simpa using memory

theorem lookupParent_parent {w : World} (isDir : base.isDir)
    (ok : (lookupParent m w path (some base) beneath refs).1 = .ok (d,name)) :
    name = lastName path ∧ ∃ depth, parentOf m base path beneath = .ok (d,depth) ∧
      ¬ (beneath ∧ lastName path = dotdot ∧ depth = 0) := by
  obtain ⟨given,relative,short,named,memory⟩ := lookupParent_checked ok
  rw [lookupParent_place w isDir refs given relative short memory named] at ok
  unfold parentOf
  cases begins : startOf m path (some base) with
  | none =>
    rw [begins] at ok
    cases ok
  | some start =>
    rw [begins] at ok
    dsimp only at ok ⊢
    rcases went : walkLoop m w.faults beneath (components (path.take (cutAt path))) 0 start 0 (ref refs start) with
      ⟨e | ⟨v,depth⟩,after⟩ <;> rw [went] at ok
    · cases ok
    dsimp only at ok
    split at ok
    · cases ok
    split at ok
    · cases ok
    rename_i allowed
    obtain ⟨rfl,rfl⟩ : v = d ∧ lastName path = name := by simpa using ok
    refine ⟨rfl,depth,?_,by simpa using allowed⟩
    rw [walkLoop_place _ _ _ _ _ _ (ref refs start),walkLoop_calm went]

theorem long_of_ends (given : path ≠ []) (filled : lastName path ≠ []) (ends : path.getLast? = some slash) :
    1 < path.length := by
  have some := length_pos_iff.mpr given
  by_contra one
  obtain ⟨b,rfl⟩ := length_eq_one_iff.mp (show path.length = 1 by omega)
  obtain rfl : b = slash := by simpa using ends
  exact filled rfl

theorem step_dots (m : Mounts) (d : Vnode) (named : name = dot ∨ name = dotdot) :
    ∃ next, ∀ refs, (step m none d name refs).1 = .ok next := by
  rcases named with rfl | rfl
  · refine ⟨d,fun refs => ?_⟩
    unfold step
    rw [if_neg (by decide),if_pos rfl]
  refine ⟨m.getparent (leaveMount m d (fun _ => 0)).1,fun refs => ?_⟩
  unfold step
  rw [if_neg (by decide),if_neg (by decide),if_pos rfl]
  dsimp only
  rw [leaveMount_place m d refs (fun _ => 0)]

def reading (creat : Bool) : Flags := ⟨.rdonly,creat,false,false,false⟩

theorem openTarget_reading (m : Mounts) (v : Vnode) (creat : Bool) (refs : Refs) :
    (openTarget m calm v (reading creat) false refs).result = .ok v := by
  simp [openTarget,reading,calm]

theorem create_slash (ends : path.getLast? = some slash) (w : OpenWorld) (refs : Refs) :
    ∃ e, (doOpenat m w base path (reading true) beneath refs).result = .error e := by
  rcases looked : lookupParent m w.toWorld path (some base) beneath refs with ⟨e | found,after⟩
  · exact ⟨e,doOpenat_refused rfl (by rw [looked])⟩
  refine ⟨.eisdir,?_⟩
  obtain ⟨given,-,-,⟨filled,-⟩,-⟩ := lookupParent_checked (congrArg Prod.fst looked)
  unfold doOpenat
  rw [if_pos (show (reading true).creat from rfl),looked]
  dsimp only
  rw [if_pos (by simp [ends,long_of_ends given filled ends])]

section
variable (dotted : Dotted m directory) (above : Directory m directory base)
include dotted above

theorem Dotted.parent
    (parent : parentOf m base path beneath = .ok (d,depth)) : InTree m directory d := by
  obtain ⟨start,begins,went⟩ := parentOf_ok parent
  have first : InTree m directory start := by
    unfold startOf at begins
    split at begins
    · obtain ⟨i,found,rfl⟩ := map_eq_some_iff.mp begins
      have active : m.active i ∧ m.point i = none := by simpa using find?_some found
      exact ⟨active.1,trivial⟩
    · obtain rfl := some.inj begins
      exact above.inTree
  exact dotted.walkLoop _ _ _ _ _ _ first (Prod.fst_eq_iff.mp (went fun _ => 0))

theorem open_agrees
    (straight : ¬ Crooked m base path beneath) (resolves : Resolves m base path beneath v) (w : OpenWorld)
    (flags : Flags) (refs : Refs) (quiet : Quiet w) (excl : flags.excl = false) :
    (doOpenat m w base path {flags with creat := true} beneath refs).result =
      (doOpenat m w base path {flags with creat := false} beneath refs).result := by
  have last : path.getLast? ≠ some slash := fun ends => straight (.inl ⟨v,resolves,.inl ends⟩)
  obtain ⟨d,depth,parent,allowed,stepped⟩ := resolves.last last
  have untwisted : ¬ Twisted m d (lastName path) := fun twisted => straight (.inl ⟨v,resolves,.inr ⟨d,depth,parent,twisted⟩⟩)
  have isDir : d.isDir := by
    by_contra file
    exact untwisted (.file (by simpa using file))
  have directory := (dotted.parent above parent).above isDir
  -- the driver has the name, and for the same vnode
  have found : m.lookup d (lastName path) = .ok v := by
    by_cases named : lastName path = dot ∨ lastName path = dotdot
    · exact dotted.lookup_dots directory (fun root => untwisted (.dots named root)) named (stepped refs)
    obtain ⟨here,-⟩ | ⟨up,-⟩ | ⟨notHere,notUp,-,child,looked,rfl⟩ := step_ok (Prod.fst_eq_iff.mp (stepped refs))
    · exact absurd (.inl here) named
    · exact absurd (.inr up) named
    rw [looked]
    unfold enterMount
    split
    · next kind =>
      cases covered : m.mountOver child with
      | none => rfl
      | some i => exact (untwisted (.mounted ⟨notHere,notUp⟩ child i looked kind covered)).elim
    · rfl
  have parentFound := lookupParent_quiet quiet above.isDir resolves last parent refs
  rw [isDir] at parentFound
  let creating : Flags := {flags with creat := true}
  obtain ⟨refs',creates⟩ := doOpenat_creat (show creating.creat from rfl) parentFound last
  obtain ⟨refs'',opens⟩ := openIn_found quiet found (show creating.excl = false from excl) refs'
  rw [creates,opens]
  unfold doOpenat
  rw [Prod.fst_eq_iff.mp (resolves.lookup last quiet flags.directory refs)]
  split
  · rfl
  · exact openTarget_result w v false _ _ rfl rfl

theorem open_noDots
    (straight : ¬ Crooked m base path beneath) (w : OpenWorld) (flags : Flags) (refs : Refs)
    (honest : w.lookupFault ≠ some .enoent)
    (fresh : (slot,r) ∈ ((doOpenat m w base path flags beneath refs).mounts.vol i).scan c)
    (named : r.name = dot ∨ r.name = dotdot) : (slot,r) ∈ (m.vol i).scan c := by
  by_contra old
  revert fresh
  fun_cases doOpenat m w base path flags beneath refs with
  | case3 _ d _ _ looked whole =>
    intro fresh
    obtain ⟨shown,isDir,missing,valid⟩ := openIn_mounts fresh old
    have ok := congrArg Prod.fst looked
    obtain ⟨given,relative,short,⟨filled,-⟩,-⟩ := lookupParent_checked ok
    obtain ⟨rfl,depth,parent,allowed⟩ := lookupParent_parent above.isDir ok
    have directory := (dotted.parent above parent).above isDir
    have absent : m.lookup d (lastName path) = .error .enoent := by
      cases fault : w.lookupFault with
      | none => rwa [fault] at missing
      | some e =>
        rw [fault] at missing
        rw [fault,Except.error.inj missing] at honest
        exact absurd rfl honest
    have last : path.getLast? ≠ some slash := fun ends => whole (by simp [ends,long_of_ends given filled ends])
    by_cases dots : lastName path = dot ∨ lastName path = dotdot
    · obtain ⟨next,stepped⟩ := step_dots m d dots
      have resolves := resolves_of_last given relative short last parent allowed stepped
      refine straight (.inl ⟨next,resolves,.inr ⟨d,depth,parent,.dots dots ?_⟩⟩)
      by_contra lower
      rw [dotted.lookup_dots directory lower dots (stepped refs)] at absent
      cases absent
    · rw [shown] at named
      exact straight (.inr ⟨d,depth,parent,isDir,⟨given,relative,short,last⟩,not_or.mp dots,valid,absent,named⟩)
  | case5 =>
    rw [openTarget_mounts]
    exact old
  | _ => exact old

theorem create_twisted
    (resolves : Resolves m base path beneath v) (last : path.getLast? ≠ some slash)
    (parent : parentOf m base path beneath = .ok (d,depth)) (twisted : Twisted m d (lastName path)) (refs : Refs) :
    (doOpenat m calm base path (reading true) beneath refs).result ≠ .ok v := by
  have quiet : Quiet calm := ⟨rfl,fun _ => rfl,rfl⟩
  have found := lookupParent_quiet quiet above.isDir resolves last parent refs
  cases kind : d.isDir with
  | false =>
    rw [kind] at found
    rw [doOpenat_refused rfl found]
    exact nofun
  | true =>
    rw [kind] at found
    obtain ⟨refs',creates⟩ := doOpenat_creat (show (reading true).creat from rfl) found last
    have directory := (dotted.parent above parent).above kind
    rw [creates]
    cases twisted with
    | file notDir =>
      rw [kind] at notDir
      cases notDir
    | dots named root =>
      have missing := dotted.lookup_root directory root named
      unfold openIn
      rw [missing]
      cases validName (lastName path) <;> simp [kind,calm]
    | mounted plain child i there isDir covered =>
      obtain ⟨refs'',opens⟩ := openIn_found quiet there (show (reading true).excl = false from rfl) refs'
      rw [opens,if_neg (by simp [reading]),openTarget_reading]
      intro same
      obtain rfl := Except.ok.inj same
      obtain ⟨d',depth',parent',-,stepped⟩ := resolves.last last
      obtain ⟨rfl,-⟩ : d' = d ∧ depth' = depth := by
        rw [parent] at parent'
        simpa [eq_comm] using parent'
      -- the walk enters the mount, whose root is no record's
      obtain ⟨here,-⟩ | ⟨up,-⟩ | ⟨-,-,-,found,looked,same⟩ := step_ok (Prod.fst_eq_iff.mp (stepped refs))
      · exact plain.1 here
      · exact plain.2 up
      obtain rfl : found = child := by
        rw [there] at looked
        exact (Except.ok.inj looked).symm
      have root : found.key = .root := by
        rw [same]
        unfold enterMount
        rw [if_pos isDir,covered]
        rfl
      obtain record | ⟨here,-⟩ | ⟨up,-,-⟩ := lookup_cases dotted.forest directory (lastName path) there
      · obtain ⟨slot,r,-,listed,ordinary⟩ := record
        exact ((dotted.forest d'.mnt directory.1).record_kind d'.key directory.2 slot r listed ordinary).1 root
      · exact plain.1 here
      · exact plain.2 up

end

theorem validName_spec (valid : validName name) : name ≠ [] ∧ name.length ≤ nameMax := by
  simp only [validName,Bool.and_eq_true,decide_eq_true_eq] at valid
  exact ⟨by simpa using valid.1.1,valid.2⟩

/-- The driver makes the record, in whatever slot is free. -/
theorem create_disguised (isDir : base.isDir) (disguised : Disguised m base path beneath d depth) (slot : Nat) :
    let w := {calm with create := .ok (slot,none)}
    (slot,⟨shownName (lastName path),none,false,false,0⟩) ∈
      ((doOpenat m w base path (reading true) beneath (fun _ => 0)).mounts.vol d.mnt).scan
        ((m.vol d.mnt).cluster d.key) := by
  intro w
  obtain ⟨given,relative,short,last⟩ := disguised.whole
  obtain ⟨start,begins,went⟩ := parentOf_ok disguised.parent
  have found : (lookupParent m w.toWorld path (some base) beneath (fun _ => 0)).1 = .ok (d,lastName path) := by
    rw [lookupParent_place w.toWorld isDir _ given relative short (fun _ => rfl) (validName_spec disguised.valid),begins]
    dsimp only [w,calm]
    rw [went]
    simp [disguised.isDir,disguised.plain.2]
  obtain ⟨refs',creates⟩ := doOpenat_creat (show (reading true).creat from rfl) found last
  rw [creates,openIn,show w.lookupFault = none from rfl,elim_none,disguised.missing]
  simp [disguised.isDir,disguised.valid,w,calm,reading,openTarget_mounts,Mounts.create,Volume.create]

end

theorem twoVolumes_dotted : Dotted twoVolumes twoTrees := by
  have few {i : Nat} (active : twoVolumes.active i) : i = 0 ∨ i = 1 := by
    have : i < 2 := by simpa [twoVolumes] using active
    omega
  refine ⟨twoVolumes_forest,fun i p active mounted => ?_,fun i c active inside => ?_,fun i c name active inside named => ?_⟩
  · obtain rfl | rfl := few active
    · cases mounted
    · obtain rfl := some.inj mounted
      exact ⟨by decide,.inr ⟨rfl,rfl⟩,by decide,by decide⟩
  · obtain rfl | rfl := few active
    · rcases inside with rfl | ⟨-,rfl⟩
      · exact .inl rfl
      · exact .inl rfl
    · rcases inside with rfl | ⟨one,-⟩
      · exact .inl rfl
      · cases one
  · obtain rfl | rfl := few active
    · rcases inside with rfl | ⟨-,rfl⟩
      · rcases named with rfl | rfl <;> exact rfl
      · rcases named with rfl | rfl <;> exact ⟨by decide,rfl,rfl⟩
    · rcases inside with rfl | ⟨one,-⟩
      · rcases named with rfl | rfl <;> exact rfl
      · cases one

theorem twoVolumes_top : Directory twoVolumes twoTrees (rootOf 0) := ⟨by decide,trivial⟩

end SurfaceOS.Vfs
