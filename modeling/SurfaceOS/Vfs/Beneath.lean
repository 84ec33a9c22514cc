import SurfaceOS.Lib.Transition
import SurfaceOS.Vfs.Open

/-! With `LOOKUP_BENEATH` a path cannot leave the directory it starts in. The walk keeps a
stack it never sees: the directories it came down through. Each ".." pops that stack, also
across mounts, because a directory's parent is the one its record was found in. -/
namespace SurfaceOS.Vfs
open Fat Function List Nat

variable {fault : Option Errno} {cur next parent target f : Vnode} {comp name : Name} {refs' : Refs} {m : Mounts}

/-- Every active mount holds a tree; `directory i` are the directories of the one in slot `i`. -/
def Forest (m : Mounts) (directory : Nat → Nat → Prop) : Prop :=
  ∀ i, m.active i → Tree (m.vol i) (directory i)

def Directory (m : Mounts) (directory : Nat → Nat → Prop) (v : Vnode) : Prop :=
  m.active v.mnt ∧ v.key.Names (m.vol v.mnt) (directory v.mnt)

inductive Child (m : Mounts) : Vnode → Vnode → Prop
  | record (d : Vnode) (slot : Nat) (r : Record) (isDir : d.isDir)
      (listed : (slot,r) ∈ (m.vol d.mnt).scan ((m.vol d.mnt).cluster d.key)) (plain : r.Plain) :
      Child m d ⟨d.mnt,(m.vol d.mnt).vnodeFromRecord r ((m.vol d.mnt).cluster d.key) slot⟩

/-- The start directory and what child steps and mounts lead to from there. -/
inductive Below (m : Mounts) (start : Vnode) : Vnode → Prop
  | here : Below m start start
  | child (d v : Vnode) (above : Below m start d) (step : Child m d v) : Below m start v
  | mount (i : Nat) (d : Vnode) (above : Below m start d) (active : m.active i)
      (mounted : m.point i = some d) : Below m start (rootOf i)

inductive Under (m : Mounts) (start : Vnode) : Nat → Vnode → Prop
  | here : Under m start 0 start
  | down (n : Nat) (d v : Vnode) (refs : Refs) (above : Under m start n d) (step : Child m d v) :
      Under m start (n + 1) (enterMount m v refs).1

variable {n : Nat} {refs : Refs} {d v : Vnode}

section
variable {m : Mounts} {directory : Nat → Nat → Prop} {start : Vnode}

theorem mountOver_some {i : Nat} (mounted : m.mountOver d = some i) :
    m.active i ∧ m.point i = some d := by
  simpa using find?_some mounted

theorem enterMount_cases (m : Mounts) (v : Vnode) (refs : Refs) : (enterMount m v refs).1 = v ∨
    ∃ i, m.active i ∧ m.point i = some v ∧ (enterMount m v refs).1 = rootOf i := by
  unfold enterMount
  split
  · split
    · rename_i i mounted
      exact .inr ⟨i,(mountOver_some mounted).1,(mountOver_some mounted).2,rfl⟩
    · exact .inl rfl
  · exact .inl rfl

theorem Under.isBelow (under : Under m start n v) : Below m start v := by
  induction under with
  | here => exact .here
  | down n d v refs above step ih =>
    have child := Below.child d v ih step
    obtain same | ⟨i,active,mounted,same⟩ := enterMount_cases m v refs
    · exact same.symm ▸ child
    · exact same.symm ▸ .mount i v child active mounted

theorem leaveMount_of_ne_root (m : Mounts) (v : Vnode) (refs : Refs) (other : v.key ≠ .root) :
    (leaveMount m v refs).1 = v := by
  have : v ≠ rootOf v.mnt := fun same => other (congrArg Vnode.key same)
  unfold leaveMount
  split <;> simp [this]

theorem Directory.isDir (above : Directory m directory d) : d.isDir := by
  obtain ⟨_,names⟩ := above
  unfold Vnode.isDir
  cases key : d.key <;> simp_all [Key.Names,Key.isDir]

section
variable (forest : Forest m directory)
include forest

theorem Under.isDirectory (base : Directory m directory start)
    (under : Under m start n v) (isDir : v.isDir) : Directory m directory v := by
  induction under with
  | here => exact base
  | down n d v refs above step ih =>
    obtain ⟨slot,r,kind,listed,plain⟩ := step
    obtain ⟨active,names⟩ := ih kind
    obtain same | ⟨i,mounted,_,same⟩ := enterMount_cases m ⟨d.mnt,_⟩ refs
    · rw [same] at isDir ⊢
      exact ⟨active,((forest d.mnt active).record_kind d.key names slot r listed plain).2 isDir⟩
    · rw [same]
      exact ⟨mounted,trivial⟩

theorem getparent_leave_enter (above : Directory m directory d) (step : Child m d v)
    (refs refs' : Refs) : m.getparent (leaveMount m (enterMount m v refs).1 refs').1 = d := by
  obtain ⟨slot,r,kind,listed,plain⟩ := step
  have tree := forest d.mnt above.1
  have back := tree.getparent_record d.key above.2 slot r listed plain
  have notRoot := (tree.record_kind d.key above.2 slot r listed plain).1
  obtain same | ⟨i,_,mounted,same⟩ := enterMount_cases m ⟨d.mnt,_⟩ refs
  · rw [same,leaveMount_of_ne_root m _ refs' notRoot]
    simp only [Mounts.getparent,back]
  · rw [same]
    simp only [leaveMount,rootOf,mounted,if_true,Mounts.getparent,back]

theorem Under.up (base : Directory m directory start)
    (under : Under m start (n + 1) v) (refs : Refs) : Under m start n (m.getparent (leaveMount m v refs).1) := by
  cases under with
  | down n d v refs' above step =>
    have isDir : d.isDir := by
      cases step
      assumption
    rw [getparent_leave_enter forest (above.isDirectory forest base isDir) step]
    exact above

theorem lookup_cases (above : Directory m directory d)
    (name : Name) (found : m.lookup d name = .ok v) :
    Child m d v ∨ (name = dot ∧ v = d) ∨ (name = dotdot ∧ d.key ≠ .root ∧ v = m.getparent d) := by
  obtain ⟨k,inner,found⟩ := Lib.bind_ok found
  obtain rfl : v = ⟨d.mnt,k⟩ := (Except.ok.inj found).symm
  obtain ⟨slot,r,listed,plain,rfl⟩ | ⟨named,rfl⟩ | ⟨named,lower,rfl⟩ :=
    (forest d.mnt above.1).lookup_cases d.key above.2 name k inner
  · exact .inl (.record d slot r above.isDir listed plain)
  · exact .inr (.inl ⟨named,rfl⟩)
  · exact .inr (.inr ⟨named,lower,rfl⟩)

end

theorem step_ok (ok : step m fault cur comp refs = (.ok next,refs')) : (comp = dot ∧ next = cur) ∨
    (comp = dotdot ∧ next = m.getparent (leaveMount m cur refs).1) ∨
    (comp ≠ dot ∧ comp ≠ dotdot ∧ cur.isDir ∧ ∃ found, m.lookup cur comp = .ok found ∧
      next = (enterMount m found (ref refs found)).1) := by
  revert ok
  fun_cases step m fault cur comp refs with
  | case2 _ _ here =>
    rintro ⟨⟩
    exact .inl ⟨here,rfl⟩
  | case4 _ _ up above refs left =>
    intro ok
    exact .inr (.inl ⟨up,by rw [left]; exact (Except.ok.inj (Prod.mk.inj ok).1).symm⟩)
  | case8 _ notHere notUp isDir found looked child refs entered =>
    rintro ⟨⟩
    exact .inr (.inr ⟨notHere,notUp,by simpa using isDir,found,looked,by rw [entered]⟩)
  | _ => nofun

section
variable (forest : Forest m directory) (base : Directory m directory start)
include forest base

theorem step_under (under : Under m start n cur) (small : n + 1 < 2 ^ 32) (inside : ¬ (comp = dotdot ∧ n = 0))
    (ok : step m fault cur comp refs = (.ok next,refs')) :
    Under m start (depthAfter comp n) next ∧ depthAfter comp n ≤ n + 1 := by
  obtain ⟨rfl,rfl⟩ | ⟨rfl,rfl⟩ | ⟨notHere,notUp,isDir,found,looked,rfl⟩ := step_ok ok
  · have same : depthAfter dot n = n := by simp [depthAfter,dot,dotdot]
    exact ⟨under,le_succ n⟩
  · cases n with
    | zero => exact absurd ⟨rfl,rfl⟩ inside
    | succ n =>
      have up : depthAfter dotdot (n + 1) = n := by
        simp only [depthAfter,if_true]
        omega
      rw [up]
      exact ⟨under.up forest base refs,by omega⟩
  · have down : depthAfter comp n = n + 1 := by
      simp only [depthAfter,notUp,notHere,if_false]
      omega
    rw [down]
    obtain child | ⟨here,_⟩ | ⟨up,_⟩ :=
      lookup_cases forest (under.isDirectory forest base isDir) comp looked
    · exact ⟨.down n cur found _ under child,le_refl _⟩
    · exact absurd here notHere
    · exact absurd up notUp

theorem walkLoop_under (faults : Nat → Option Errno) (comps : List Name) (i n : Nat) (cur v : Vnode) (depth : Nat)
    (refs refs' : Refs) (under : Under m start n cur) (small : n + comps.length < 2 ^ 32)
    (ok : walkLoop m faults true comps i cur n refs = (.ok (v,depth),refs')) : Under m start depth v := by
  fun_induction walkLoop m faults true comps i cur n refs with
  | case1 =>
    cases ok
    exact under
  | case4 comp rest i cur n refs inside next refs'' stepped ih =>
    simp only [length_cons] at small
    obtain ⟨under',near⟩ := step_under forest base under (by omega) (by simpa using inside) stepped
    exact ih under' (by omega) ok
  | _ => cases ok

end

theorem splitPath_length (part : Name) (path : List UInt8) : (splitPath part path).length ≤ path.length + 1 := by
  have one (part : Name) : (emit part).length ≤ 1 := by
    unfold emit
    split <;> simp
  induction path generalizing part with
  | nil => exact one part
  | cons b rest ih =>
    unfold splitPath
    split
    · have := one part
      have := ih []
      simp only [length_append,length_cons]
      omega
    · have := ih (part ++ [b])
      simp only [length_cons]
      omega

section
variable (forest : Forest m directory) (base : Directory m directory start) (w : World) (path : List UInt8)
include forest base w path

theorem walk_under (mustBeDir : Bool) (v : Vnode) (depth : Nat) (refs refs' : Refs)
    (ok : walk m w path (some start) mustBeDir true refs = (.ok (v,depth),refs')) :
    Under m start depth v ∧ (mustBeDir → v.isDir) := by
  revert ok
  fun_cases walk m w path (some start) mustBeDir true refs with
  | case8 _ relative short _ cur begins slashes cur' depth' refs'' walked kind =>
    have relative : path.head? ≠ some slash := by simpa using relative
    rintro ⟨⟩
    cases (if_neg relative).symm.trans begins
    have few := splitPath_length [] path
    refine ⟨walkLoop_under forest base w.faults _ 0 0 start _ _ _ _ .here ?_ walked,?_⟩
    · simp only [components,pathMax] at *
      omega
    · intro must
      simpa [must] using kind
  | _ => nofun

theorem lookup_below (mustBeDir : Bool) (v : Vnode) (refs refs' : Refs)
    (ok : lookup m w path (some start) mustBeDir true refs = (.ok v,refs')) : Below m start v := by
  unfold lookup at ok
  rcases walked : walk m w path (some start) mustBeDir true refs with ⟨e | found,after⟩ <;> rw [walked] at ok
  · simp [Except.map] at ok
  obtain ⟨v',depth⟩ := found
  obtain ⟨rfl,_⟩ := ok
  exact (walk_under forest base w path mustBeDir _ depth refs after walked).1.isBelow

theorem lookupParent_under (parent : Vnode) (name : Name) (refs refs' : Refs)
    (ok : lookupParent m w path (some start) true refs = (.ok (parent,name),refs')) :
    ∃ n, Under m start n parent ∧ parent.isDir ∧ (name = dotdot → n ≠ 0) := by
  unfold lookupParent at ok
  split at ok
  · simp at ok
  split at ok
  · simp at ok
  split at ok
  · simp at ok
  dsimp only at ok
  split at ok
  · simp at ok
  split at ok
  · split at ok
    · simp at ok
    rename_i notUp
    obtain ⟨⟨rfl,rfl⟩,_⟩ := ok
    exact ⟨0,.here,base.isDir,fun up => absurd up (by simpa using notUp)⟩
  split at ok
  · simp at ok
  split at ok
  · simp at ok
  rename_i dir depth refs'' walked
  split at ok
  · simp at ok
  rename_i notUp
  obtain ⟨⟨rfl,rfl⟩,_⟩ := ok
  obtain ⟨under,kind⟩ := walk_under forest base w _ true _ depth refs _ walked
  exact ⟨depth,under,kind rfl,by simpa using notUp⟩

end

theorem openTarget_ok {w : OpenWorld} {flags : Flags} {created : Bool}
    (ok : (openTarget m w target flags created refs).result = .ok v) : v = target := by
  unfold openTarget at ok
  dsimp only at ok
  repeat' split at ok
  all_goals first | exact (Except.ok.inj ok).symm | cases ok

theorem openTarget_mounts (m : Mounts) (w : OpenWorld) (target : Vnode) (flags : Flags)
    (created : Bool) (refs : Refs) : (openTarget m w target flags created refs).mounts = m := by
  unfold openTarget
  dsimp only
  repeat' split
  all_goals rfl

theorem Child.create (child : Child m d v) (dir : Vnode) (name : Name)
    (short : Option Name) (slot : Nat) : Child (m.create dir name short slot).2 d v := by
  obtain ⟨slot',r,isDir,listed,plain⟩ := child
  by_cases same : d.mnt = dir.mnt
  · have cluster : ((m.create dir name short slot).2.vol d.mnt).cluster d.key =
        (m.vol d.mnt).cluster d.key := by
      unfold Vnode.isDir at isDir
      cases key : d.key <;> simp_all [Mounts.create,Volume.create,Volume.cluster,Key.isDir]
    have named : ∀ parent, ((m.create dir name short slot).2.vol d.mnt).vnodeFromRecord r parent slot' =
        (m.vol d.mnt).vnodeFromRecord r parent slot' := by
      intro parent
      simp [Mounts.create,Volume.create,Volume.vnodeFromRecord,Volume.dirVnode,same]
    rw [← named,← cluster]
    refine .record d slot' r isDir ?_ plain
    rw [cluster]
    simp only [Mounts.create,Volume.create,same,update_self]
    by_cases here : (m.vol dir.mnt).cluster d.key = (m.vol dir.mnt).cluster dir.key
    · rw [here,update_self]
      exact mem_append_left _ (here ▸ same ▸ listed)
    · rw [update_of_ne here]
      exact same ▸ listed
  · have other : (m.create dir name short slot).2.vol d.mnt = m.vol d.mnt := by
      simp [Mounts.create,same]
    rw [← other]
    exact .record d slot' r isDir (other.symm ▸ listed) plain

theorem Below.create (below : Below m start v) (dir : Vnode) (name : Name)
    (short : Option Name) (slot : Nat) : Below (m.create dir name short slot).2 start v := by
  induction below with
  | here => exact .here
  | child d v above step ih => exact .child d v ih (step.create dir name short slot)
  | mount i d above active mounted ih => exact .mount i d ih active mounted

theorem child_created (dir : Vnode) (isDir : dir.isDir) (name : Name) (short : Option Name)
    (slot : Nat) : Child (m.create dir name short slot).2 dir (m.create dir name short slot).1 := by
  have cluster : ((m.create dir name short slot).2.vol dir.mnt).cluster dir.key =
      (m.vol dir.mnt).cluster dir.key := by
    unfold Vnode.isDir at isDir
    cases key : dir.key <;> simp_all [Mounts.create,Volume.create,Volume.cluster,Key.isDir]
  have made := Child.record (m := (m.create dir name short slot).2) dir slot ⟨shownName name,short,false,false,0⟩
    isDir (by rw [cluster]; simp [Mounts.create,Volume.create]) (by simp [Record.Plain])
  rw [cluster] at made
  exact made

section
variable (forest : Forest m directory) (base : Directory m directory start)
include forest base

theorem lookup_last (under : Under m start n parent) (isDir : parent.isDir) (inside : name = dotdot → n ≠ 0)
    (found : m.lookup parent name = .ok target) : Below m start target := by
  obtain child | ⟨_,rfl⟩ | ⟨up,lower,rfl⟩ :=
    lookup_cases forest (under.isDirectory forest base isDir) name found
  · exact .child parent target under.isBelow child
  · exact under.isBelow
  obtain ⟨k,rfl⟩ := exists_eq_succ_of_ne_zero (inside up)
  have upper := under.up forest base (fun _ => 0)
  rw [leaveMount_of_ne_root m parent _ lower] at upper
  exact upper.isBelow

theorem openIn_below (w : OpenWorld) (under : Under m start n parent)
    (isDir : parent.isDir) (inside : name = dotdot → n ≠ 0) (flags : Flags) (refs : Refs)
    (ok : (openIn m w parent name flags refs).result = .ok v) :
    Below (openIn m w parent name flags refs).mounts start v := by
  revert ok
  fun_cases openIn m w parent name flags refs with
  | case3 target looked =>
    intro ok
    have found : m.lookup parent name = .ok target := by
      cases fault : w.lookupFault with
      | none => simpa [fault] using looked
      | some e => simp [fault] at looked
    rw [openTarget_mounts,openTarget_ok ok]
    exact lookup_last forest base under isDir inside found
  | case9 _ _ _ _ slot short _ _ _ made =>
    intro ok
    rw [openTarget_mounts,openTarget_ok ok]
    cases made
    exact .child parent _ (under.isBelow.create parent name short slot)
      (child_created parent isDir name short slot)
  | _ => nofun

theorem doOpenat_below (w : OpenWorld) (path : List UInt8) (flags : Flags) (refs : Refs) (v : Vnode)
    (ok : (doOpenat m w start path flags true refs).result = .ok v) :
    Below (doOpenat m w start path flags true refs).mounts start v := by
  revert ok
  fun_cases doOpenat m w start path flags true refs with
  | case3 _ parent name refs' found =>
    intro ok
    obtain ⟨n,under,isDir,inside⟩ :=
      lookupParent_under forest base w.toWorld path parent name refs refs' found
    exact openIn_below forest base w under isDir inside flags refs' ok
  | case5 _ target refs' found =>
    intro ok
    rw [openTarget_mounts,openTarget_ok ok]
    exact lookup_below forest base w.toWorld path flags.directory target refs refs' found
  | _ => nofun

theorem openBelow_below (w : OpenWorld) (path : List UInt8) (mode : Nat) (forbid : Option Vnode) (refs : Refs)
    (v : Vnode) (ok : (openBelow m w start path mode forbid refs).1 = .ok v) :
    Below (openBelow m w start path mode forbid refs).2.1 start v := by
  revert ok
  fun_cases openBelow m w start path mode forbid refs with
  | case5 flags _ _ _ opened =>
    rintro ⟨⟩
    exact doOpenat_below forest base w _ flags refs v opened
  | _ => nofun

end

/-- Lookups, parent lookups and opens with `LOOKUP_BENEATH` fail or stay inside. -/
theorem beneath_contained (forest : Forest m directory) (base : Directory m directory start)
    (w : OpenWorld) (path : List UInt8) (refs : Refs) :
    (∀ mustBeDir v refs', lookup m w.toWorld path (some start) mustBeDir true refs = (.ok v,refs') →
      Below m start v) ∧
    (∀ parent name refs', lookupParent m w.toWorld path (some start) true refs =
      (.ok (parent,name),refs') → Below m start parent) ∧
    (∀ flags v, (doOpenat m w start path flags true refs).result = .ok v →
      Below (doOpenat m w start path flags true refs).mounts start v) ∧
    (∀ mode forbid v, (openBelow m w start path mode forbid refs).1 = .ok v →
      Below (openBelow m w start path mode forbid refs).2.1 start v) := by
  refine ⟨?_,?_,?_,?_⟩
  · intro mustBeDir v refs' ok
    exact lookup_below forest base w.toWorld path mustBeDir v refs refs' ok
  · intro parent name refs' ok
    obtain ⟨n,under,_⟩ := lookupParent_under forest base w.toWorld path parent name refs refs' ok
    exact under.isBelow
  · intro flags v ok
    exact doOpenat_below forest base w path flags refs v ok
  · intro mode forbid v ok
    exact openBelow_below forest base w path mode forbid refs v ok

end

/-- A volume with the directory "a" at cluster 5 and the file "f", whose bytes at cluster 7
would read as a directory record "x" of the root. -/
def outerVolume : Volume where
  rootCluster := 2
  scan c :=
    if c = 2 then [(0,⟨[97],none,true,false,5⟩),(1,⟨[102],none,false,false,7⟩)]
    else if c = 5 then [(0,⟨dot,none,true,false,5⟩),(1,⟨dotdot,none,true,false,0⟩)]
    else if c = 7 then [(0,⟨[120],none,true,false,0⟩)]
    else []
  dotdot _ := 0
  fileCluster _ _ := 7

def innerVolume : Volume where
  rootCluster := 2
  scan c := if c = 2 then [(0,⟨[103],none,false,false,3⟩)] else []
  dotdot _ := 0
  fileCluster _ _ := 3

def twoVolumes : Mounts where
  active i := i < 2
  point i := if i = 1 then some ⟨0,.dir 5⟩ else none
  vol i := if i = 1 then innerVolume else outerVolume

def twoTrees (i c : Nat) : Prop := c = 2 ∨ i = 0 ∧ c = 5

def calm : OpenWorld where
  memory := true
  faults _ := none
  lookupFault := none
  create := .error .enospc
  vnodeFault := none
  truncateFault := none
  fileFree := true
  handleFault := none
  copied := true

theorem outerVolume_tree : Tree outerVolume (fun c => c = 2 ∨ c = 5) := by
  refine ⟨by decide,?_,?_,?_⟩
  all_goals
    rintro d (rfl | rfl) slot r listed
    all_goals
      simp [outerVolume] at listed
      obtain ⟨rfl,rfl⟩ | ⟨rfl,rfl⟩ := listed
      all_goals decide

theorem innerVolume_tree : Tree innerVolume (fun c => c = 2) := by
  refine ⟨by decide,?_,?_,?_⟩
  all_goals
    rintro d rfl slot r listed
    simp [innerVolume] at listed
    obtain ⟨rfl,rfl⟩ := listed
    decide

theorem twoVolumes_forest : Forest twoVolumes twoTrees := by
  intro i active
  have bound : i < 2 := by simpa [twoVolumes] using active
  obtain rfl | rfl : i = 0 ∨ i = 1 := by omega
  · have same : twoTrees 0 = fun c => c = 2 ∨ c = 5 := by
      funext c
      simp [twoTrees]
    exact same ▸ outerVolume_tree
  have same : twoTrees 1 = fun c => c = 2 := by
    funext c
    simp [twoTrees]
  exact same ▸ innerVolume_tree

theorem beneath_contained_mount : Directory twoVolumes twoTrees (rootOf 0) ∧
    (lookup twoVolumes calm.toWorld [97,47,46,46,47,97,47,46,47,103] (some (rootOf 0)) false true
      (fun _ => 0)).1 = .ok ⟨1,.file 2 0⟩ ∧
    Below twoVolumes (rootOf 0) ⟨1,.file 2 0⟩ := by
  have base : Directory twoVolumes twoTrees (rootOf 0) := ⟨by decide,trivial⟩
  refine ⟨base,by decide,?_⟩
  exact (beneath_contained twoVolumes_forest base calm [97,47,46,46,47,97,47,46,47,103]
    (fun _ => 0)).1 false ⟨1,.file 2 0⟩ _ rfl

end SurfaceOS.Vfs
