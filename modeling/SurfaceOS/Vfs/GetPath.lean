import SurfaceOS.Vfs.Creating

/-! The path of a vnode (fs/vfs.cpp `get_path`): from parent to parent, and in each the parent's records are
searched for the name (fat32/vnode.cpp `fat_getparent`). A walk over these names leads back, unless
something is mounted on the way that hides the vnode. -/
namespace SurfaceOS.Vfs
open Fat List Nat

variable {bufsize top depth n : Nat} {path : List UInt8}

/-- What `get_path` meets. The vnode of a directory that was renamed knows the place of its record, as a
file's does; `raw` is what is left on the disk of a record that is gone. -/
structure PathWorld where
  memory : Bool
  faults : Nat → Option Errno
  moved : Vnode → Option (Nat × Nat)
  raw : Vnode → Name

def Mounts.nameAt (m : Mounts) (w : PathWorld) (v : Vnode) (p slot : Nat) : Name :=
  ((((m.vol v.mnt).scan p).find? fun entry => entry.1 == slot).map fun entry => entry.2.name).getD (w.raw v)

def Mounts.nameOf (m : Mounts) (v : Vnode) (p c : Nat) : Name :=
  ((((m.vol v.mnt).scan p).find? fun entry => entry.2.isDir && entry.2.firstCluster == c).map
    fun entry => entry.2.name).getD []

def Mounts.parentName (m : Mounts) (w : PathWorld) (v : Vnode) : Vnode × Name :=
  match v.key with
  | .root => (v,[])
  | .file p slot => (⟨v.mnt,(m.vol v.mnt).dirVnode p⟩,m.nameAt w v p slot)
  | .dir c =>
    match w.moved v with
    | some (p,slot) => (⟨v.mnt,(m.vol v.mnt).dirVnode p⟩,m.nameAt w v p slot)
    | none =>
      let p := (m.vol v.mnt).dotdotCluster c
      (⟨v.mnt,(m.vol v.mnt).dirVnode p⟩,m.nameOf v p c)

/-- The loop of `get_path`; the guard runs down. -/
def pathLoop (m : Mounts) (w : PathWorld) : Nat → Vnode → List UInt8 → Except Errno (List UInt8)
  | 0, _, built => .ok built
  | guard + 1, cur, built =>
    let cur := (leaveMount m cur (fun _ => 0)).1
    if m.point cur.mnt = none ∧ cur = rootOf cur.mnt then .ok built
    else match w.faults guard with
      | some e => .error e
      | none =>
        let (parent,name) := m.parentName w cur
        if parent = cur then .ok built
        else if built.length + name.length + 1 ≥ pathMax then .error .enametoolong
        else pathLoop m w guard parent (slash :: name ++ built)

def getPath (m : Mounts) (w : PathWorld) (v : Vnode) (bufsize : Nat) : Except Errno (List UInt8) :=
  if bufsize < 2 then .error .einval
  else if !w.memory then .error .enomem
  else match pathLoop m w (pathMax / 2) v [] with
    | .error e => .error e
    | .ok [] => .ok [slash]
    | .ok built => if built.length + 1 > bufsize then .error .erange else .ok built

def Proper (name : Name) : Prop :=
  name ≠ [] ∧ slash ∉ name ∧ name.length ≤ nameMax ∧ name ≠ dot ∧ name ≠ dotdot

/-- A tree with mounts, one record for a directory; `rank` is how deep a directory lies in its volume. -/
structure Branching (m : Mounts) (directory : Nat → Nat → Prop) (rank : Nat → Nat → Nat) : Prop where
  forest : Forest m directory
  single : ∀ i d slot r slot' r', m.active i → directory i d → (slot,r) ∈ (m.vol i).scan d → r.Plain →
    (slot',r') ∈ (m.vol i).scan d → r'.Plain → r.isDir → r'.isDir → r'.firstCluster = r.firstCluster → slot' = slot
  slots : ∀ i d slot r r', m.active i → directory i d → (slot,r) ∈ (m.vol i).scan d →
    (slot,r') ∈ (m.vol i).scan d → r' = r
  higher : ∀ i d, m.active i → directory i d → d ≠ (m.vol i).rootCluster →
    rank i ((m.vol i).dotdotCluster d) < rank i d

/-- The names that are shown tell the records of a directory apart: each is a proper one, and no other record
answers to it. `create` does not see to that: what it shows may differ from the name it was given. -/
structure Labelled (m : Mounts) (directory : Nat → Nat → Prop) (rank : Nat → Nat → Nat) : Prop
    extends Branching m directory rank where
  proper : ∀ i d slot r, m.active i → directory i d → (slot,r) ∈ (m.vol i).scan d → r.Plain → Proper r.name
  unique : ∀ i d slot r slot' r', m.active i → directory i d → (slot,r) ∈ (m.vol i).scan d → r.Plain →
    (slot',r') ∈ (m.vol i).scan d → r'.Plain → r'.answers r.name → slot' = slot

def Remembers (m : Mounts) (directory : Nat → Nat → Prop) (w : PathWorld) : Prop :=
  ∀ v c p slot, v.key = .dir c → w.moved v = some (p,slot) → directory v.mnt p ∧
    ∃ r, (slot,r) ∈ (m.vol v.mnt).scan p ∧ r.Plain ∧ r.isDir ∧ r.firstCluster = c

def Visible (m : Mounts) (v : Vnode) : Prop := ∃ r n, m.rootMount = some r ∧ Under m (rootOf r) n v

inductive Named (m : Mounts) : Vnode → List Name → Prop
  | root (r : Nat) (first : m.rootMount = some r) : Named m (rootOf r) []
  | child (d : Vnode) (names : List Name) (slot : Nat) (r : Record) (above : Named m d names) (isDir : d.isDir)
      (listed : (slot,r) ∈ (m.vol d.mnt).scan ((m.vol d.mnt).cluster d.key)) (plain : r.Plain) :
      Named m ⟨d.mnt,(m.vol d.mnt).vnodeFromRecord r ((m.vol d.mnt).cluster d.key) slot⟩ (names ++ [r.name])
  | mount (i : Nat) (d : Vnode) (names : List Name) (active : m.active i) (mounted : m.point i = some d)
      (above : Named m d names) : Named m (rootOf i) names

def render (names : List Name) : List UInt8 := names.flatMap (slash :: ·)

variable {names : List Name} {i slot : Nat} {r : Record} {d v : Vnode}

section
variable {m : Mounts} {directory : Nat → Nat → Prop} {rank : Nat → Nat → Nat} {w : PathWorld}

theorem answers_self (r : Record) : r.answers r.name := by
  rw [Record.answers,eqNocase,beq_self_eq_true,Bool.true_or]

theorem rootMount_some {r : Nat} (first : m.rootMount = some r) : m.active r ∧ m.point r = none := by
  simpa using find?_some first

theorem plain_of_answers (tree : Tree (m.vol i) (directory i)) {d : Nat}
    (inside : directory i d) (listed : (slot,r) ∈ (m.vol i).scan d) {name : Name} (proper : Proper name)
    (answered : r.answers name) : r.Plain := by
  by_contra special
  simp only [Record.Plain,Classical.not_imp,not_and_or,not_not] at special
  obtain ⟨kind,here | above⟩ := special
  · obtain ⟨short,-⟩ := tree.self d inside slot r listed kind here
    simp only [Record.answers,here,short,Bool.or_false] at answered
    exact proper.2.2.2.1 (eqNocase_dots 1 name answered)
  · obtain ⟨short,-⟩ := tree.parent d inside slot r listed kind above
    simp only [Record.answers,above,short,Bool.or_false] at answered
    exact proper.2.2.2.2 (eqNocase_dots 2 name answered)

namespace Labelled

section
variable (labelled : Labelled m directory rank)
include labelled

section
variable {d : Nat} (active : m.active i) (inside : directory i d) (listed : (slot,r) ∈ (m.vol i).scan d)
include active inside listed

theorem find (wanted : Nat × Record → Bool) (itself : wanted (slot,r))
    (only : ∀ slot' r', (slot',r') ∈ (m.vol i).scan d → wanted (slot',r') → slot' = slot) :
    ((m.vol i).scan d).find? wanted = some (slot,r) := by
  cases found : ((m.vol i).scan d).find? wanted with
  | none => exact absurd itself (find?_eq_none.mp found _ listed)
  | some entry =>
    obtain ⟨slot',r'⟩ := entry
    have there := mem_of_find?_eq_some found
    obtain rfl := only slot' r' there (find?_some found)
    rw [labelled.slots i d slot' r r' active inside listed there]

theorem nameAt (key : Key) : m.nameAt w ⟨i,key⟩ d slot = r.name := by
  have found := labelled.find active inside listed (fun entry => entry.1 == slot) (beq_self_eq_true slot)
    (fun slot' r' there same => eq_of_beq same)
  rw [Mounts.nameAt,found]
  rfl

theorem nameOf (isDir : r.isDir) (plain : r.Plain) (key : Key) : m.nameOf ⟨i,key⟩ d r.firstCluster = r.name := by
  have tree := labelled.forest i active
  obtain ⟨below,large,other,back⟩ := tree.child d inside slot r listed isDir plain
  have deeper := labelled.higher i r.firstCluster active below other
  rw [back] at deeper
  have found := labelled.find active inside listed
    (fun entry => entry.2.isDir && entry.2.firstCluster == r.firstCluster) (by simp [isDir]) (by
      intro slot' r' there wanted
      obtain ⟨kind,same⟩ := Bool.and_eq_true_iff.mp wanted
      have same : r'.firstCluster = r.firstCluster := eq_of_beq same
      refine labelled.single i d slot r slot' r' active inside listed plain there (fun _ => ⟨?_,?_⟩) isDir kind same
      · intro here
        obtain ⟨-,itself⟩ := tree.self d inside slot' r' there kind here
        rw [← same,itself] at deeper
        exact lt_irrefl _ deeper
      intro dots
      obtain ⟨-,inner,parent⟩ := tree.parent d inside slot' r' there kind dots
      rw [same,dirVnode_dir _ _ large other,Volume.getparent,Volume.dirVnode] at parent
      split at parent
      · cases parent
      · have higher := labelled.higher i d active inside inner
        rw [← Key.dir.inj parent] at higher
        omega)
  rw [Mounts.nameOf,found]
  rfl

end

variable (above : Directory m directory d) (listed : (slot,r) ∈ (m.vol d.mnt).scan ((m.vol d.mnt).cluster d.key))
  (plain : r.Plain)
include above listed plain

theorem lookup :
    m.lookup d r.name = .ok ⟨d.mnt,(m.vol d.mnt).vnodeFromRecord r ((m.vol d.mnt).cluster d.key) slot⟩ := by
  have tree := labelled.forest d.mnt above.1
  have inside := tree.directory d.key above.2
  have proper := labelled.proper d.mnt _ slot r above.1 inside listed plain
  have found := labelled.find above.1 inside listed (fun entry => entry.2.answers r.name) (answers_self r) (by
    intro slot' r' there answered
    exact labelled.unique d.mnt _ slot r slot' r' above.1 inside listed plain there
      (plain_of_answers tree inside there proper answered) answered)
  unfold Mounts.lookup Volume.lookup Volume.find
  rw [found]
  rfl

theorem parentName (remembers : Remembers m directory w) :
    m.parentName w ⟨d.mnt,(m.vol d.mnt).vnodeFromRecord r ((m.vol d.mnt).cluster d.key) slot⟩ = (d,r.name) := by
  have tree := labelled.forest d.mnt above.1
  have inside := tree.directory d.key above.2
  have back := dirVnode_cluster d.key above.2
  cases kind : r.isDir with
  | false =>
    simp only [Volume.vnodeFromRecord,kind,Bool.false_eq_true,if_false,Mounts.parentName,back]
    rw [labelled.nameAt above.1 inside listed]
  | true =>
    obtain ⟨-,large,other,up⟩ := tree.child _ inside slot r listed kind plain
    simp only [Volume.vnodeFromRecord,kind,if_true,dirVnode_dir _ _ large other,Mounts.parentName]
    cases moved : w.moved ⟨d.mnt,.dir r.firstCluster⟩ with
    | none =>
      rw [up,back,labelled.nameOf above.1 inside listed kind plain]
    | some place =>
      obtain ⟨p,slot'⟩ := place
      obtain ⟨known,r',there,plain',kind',same⟩ := remembers ⟨d.mnt,.dir r.firstCluster⟩ _ p slot' rfl moved
      obtain ⟨-,-,-,up'⟩ := tree.child p known slot' r' there kind' plain'
      obtain rfl : (m.vol d.mnt).cluster d.key = p := by rw [← up,← up',same]
      obtain rfl := labelled.single d.mnt _ slot r slot' r' above.1 inside listed plain there plain' kind kind' same
      dsimp only
      rw [back,labelled.nameAt above.1 inside listed]

theorem child_ne :
    d ≠ ⟨d.mnt,(m.vol d.mnt).vnodeFromRecord r ((m.vol d.mnt).cluster d.key) slot⟩ := by
  have tree := labelled.forest d.mnt above.1
  have inside := tree.directory d.key above.2
  intro same
  have key : d.key = (m.vol d.mnt).vnodeFromRecord r ((m.vol d.mnt).cluster d.key) slot := congrArg Vnode.key same
  cases kind : r.isDir with
  | false =>
    have names := above.2
    rw [key,Volume.vnodeFromRecord,if_neg (by simp [kind])] at names
    exact names
  | true =>
    obtain ⟨below,large,other,up⟩ := tree.child _ inside slot r listed kind plain
    have deeper := labelled.higher d.mnt r.firstCluster above.1 below other
    rw [Volume.vnodeFromRecord,if_pos kind,dirVnode_dir _ _ large other] at key
    rw [up,key] at deeper
    exact lt_irrefl _ deeper

theorem pathLoop_child (remembers : Remembers m directory w)
    (left : (leaveMount m v (fun _ => 0)).1 =
      ⟨d.mnt,(m.vol d.mnt).vnodeFromRecord r ((m.vol d.mnt).cluster d.key) slot⟩) (guard : Nat) (built : List UInt8) :
    pathLoop m w (guard + 1) v built =
      match w.faults guard with
      | some e => .error e
      | none =>
        if built.length + r.name.length + 1 ≥ pathMax then .error .enametoolong
        else pathLoop m w guard d (slash :: r.name ++ built) := by
  have inner := ((labelled.forest d.mnt above.1).record_kind d.key above.2 slot r listed plain).1
  rw [pathLoop,left]
  dsimp only
  rw [if_neg (fun top => inner (congrArg Vnode.key top.2))]
  cases w.faults guard with
  | some e => rfl
  | none =>
    rw [labelled.parentName above listed plain remembers]
    rw [if_neg (labelled.child_ne above listed plain)]

theorem step_child (refs refs' : Refs) : (step m none d r.name refs).1 =
      .ok (enterMount m ⟨d.mnt,(m.vol d.mnt).vnodeFromRecord r ((m.vol d.mnt).cluster d.key) slot⟩ refs').1 := by
  have inside := (labelled.forest d.mnt above.1).directory d.key above.2
  obtain ⟨-,-,short,here,dots⟩ := labelled.proper d.mnt _ slot r above.1 inside listed plain
  unfold step
  rw [if_neg (by omega),if_neg here,if_neg dots,if_neg (by simp [above.isDir])]
  rw [labelled.lookup above listed plain]
  dsimp only
  rw [enterMount_place m _ _ refs']

end

end Labelled

theorem leave_enter (m : Mounts) (inner : v.key ≠ .root) (refs refs' : Refs) :
    (leaveMount m (enterMount m v refs).1 refs').1 = v := by
  obtain same | ⟨i,-,mounted,same⟩ := enterMount_cases m v refs
  · rw [same]
    exact leaveMount_of_ne_root m v refs' inner
  · rw [same]
    simp only [leaveMount,rootOf,mounted,if_true]

theorem pathLoop_root {r : Nat} (bare : m.point r = none) (guard : Nat) (built : List UInt8) :
    pathLoop m w guard (rootOf r) built = .ok built := by
  cases guard with
  | zero => rfl
  | succ guard => simp [pathLoop,leaveMount,rootOf,bare]

theorem render_append (names : List Name) (name : Name) : render (names ++ [name]) = render names ++ slash :: name := by
  simp [render]

/-- The names that `get_path` finds on its way up to "/" lead down again. The guard never runs out: each
round takes two bytes at least. -/
theorem climb (labelled : Labelled m directory rank) (remembers : Remembers m directory w)
    (first : m.rootMount = some top) (under : Under m (rootOf top) n v) (guard : Nat) (built out : List UInt8)
    (room : built.length < pathMax) (enough : pathMax ≤ built.length + 2 * guard)
    (ok : pathLoop m w guard v built = .ok out) :
    ∃ names, (∀ name ∈ names, Proper name) ∧ out = render names ++ built ∧ out.length < pathMax ∧
      ∀ refs, ∃ depth, (walkLoop m (fun _ => none) false names 0 (rootOf top) 0 refs).1 = .ok (v,depth) := by
  have base : Directory m directory (rootOf top) := ⟨(rootMount_some first).1,trivial⟩
  induction under generalizing guard built with
  | here =>
    rw [pathLoop_root (rootMount_some first).2] at ok
    obtain rfl := Except.ok.inj ok
    exact ⟨[],by simp,rfl,room,fun refs => ⟨0,rfl⟩⟩
  | down n d v refs above child ih =>
    obtain ⟨slot,r,isDir,listed,plain⟩ := child
    have directory := above.isDirectory labelled.forest base isDir
    have tree := labelled.forest d.mnt directory.1
    have inner := (tree.record_kind d.key directory.2 slot r listed plain).1
    have proper := labelled.proper d.mnt _ slot r directory.1 (tree.directory d.key directory.2) listed plain
    obtain ⟨rest,rfl⟩ : ∃ rest, guard = rest + 1 := ⟨guard - 1,by omega⟩
    rw [labelled.pathLoop_child directory listed plain remembers (leave_enter m inner refs _)] at ok
    cases fault : w.faults rest with
    | some e =>
      rw [fault] at ok
      cases ok
    | none =>
      rw [fault] at ok
      dsimp only at ok
      split at ok
      · cases ok
      have long : 0 < r.name.length := length_pos_of_ne_nil proper.1
      obtain ⟨names,each,same,short,leads⟩ := ih rest (slash :: r.name ++ built) (by simp; omega) (by simp; omega) ok
      refine ⟨names ++ [r.name],?_,?_,short,fun before => ?_⟩
      · intro name listed'
        rcases mem_append.mp listed' with earlier | last
        · exact each name earlier
        · rw [mem_singleton.mp last]
          exact proper
      · rw [same,render_append,append_assoc]
      obtain ⟨depth,arrived⟩ := leads before
      rw [walkLoop_append]
      cases walked : walkLoop m (fun _ => none) false names 0 (rootOf top) 0 before with
      | mk result after =>
        rw [walked] at arrived
        subst arrived
        dsimp only
        rw [walkLoop]
        have stepped := labelled.step_child directory listed plain after refs
        cases taken : step m none d r.name after with
        | mk result last =>
          rw [taken] at stepped
          subst stepped
          exact ⟨_,rfl⟩

theorem components_render (names : List Name) (each : ∀ name ∈ names, Proper name) :
    components (render names) = names := by
  induction names using List.reverseRecOn with
  | nil => rfl
  | append_singleton names name ih =>
    have proper := each name (by simp)
    rw [render_append,components_slash,ih (fun other listed => each other (by simp [listed])),
      components_clean name proper.2.1,emit,if_neg proper.1]

theorem render_ends (names : List Name) (each : ∀ name ∈ names, Proper name) : (render names).getLast? ≠ some slash := by
  rcases eq_nil_or_concat names with rfl | ⟨before,name,rfl⟩
  · exact nofun
  obtain ⟨given,clean,-⟩ := each name (by simp)
  rw [concat_eq_append,render_append,getLast?_append,getLast?_cons,getLast?_eq_some_getLast given]
  intro same
  exact clean (Option.some.inj same ▸ getLast_mem given)

theorem lookup_render (first : m.rootMount = some top)
    (absolute : path.head? = some slash) (same : components path = names) (ends : ¬ (path.length > 1 ∧ path.getLast? = some slash))
    (short : path.length < pathMax) (calm : World) (memory : calm.memory) (quiet : ∀ i, calm.faults i = none)
    (cwd : Option Vnode) (refs : Refs)
    (leads : (walkLoop m (fun _ => none) false names 0 (rootOf top) 0 (ref refs (rootOf top))).1 = .ok (v,depth)) :
    (lookup m calm path cwd false false refs).1 = .ok v := by
  have given : path ≠ [] := by
    rintro rfl
    cases absolute
  have faults : calm.faults = fun _ => none := funext quiet
  unfold lookup
  rw [walk_place calm cwd false refs given (by simp) short memory,startOf,if_pos absolute,first,Option.map_some]
  dsimp only
  rw [same,faults,leads]
  dsimp only
  rw [if_neg (by simpa using fun long slashed => absurd ⟨long,slashed⟩ ends)]
  rfl

theorem getPath_back (labelled : Labelled m directory rank) (remembers : Remembers m directory w)
    (visible : Visible m v) (ok : getPath m w v bufsize = .ok path) (calm : World)
    (memory : calm.memory) (quiet : ∀ i, calm.faults i = none) (cwd : Option Vnode) (refs : Refs) :
    (lookup m calm path cwd false false refs).1 = .ok v := by
  obtain ⟨top,n,first,under⟩ := visible
  unfold getPath at ok
  split at ok
  · cases ok
  split at ok
  · cases ok
  cases built : pathLoop m w (pathMax / 2) v [] with
  | error e =>
    rw [built] at ok
    cases ok
  | ok out =>
    obtain ⟨names,each,same,short,leads⟩ := climb labelled remembers first under (pathMax / 2) [] out (by decide)
      (by decide) built
    rw [append_nil] at same
    obtain ⟨depth,arrived⟩ := leads (ref refs (rootOf top))
    rw [built] at ok
    cases out with
    | nil =>
      obtain rfl := Except.ok.inj ok
      obtain rfl : [] = names := by rw [← components_render names each,← same]; rfl
      exact lookup_render first rfl rfl (by simp) (by decide) calm memory quiet cwd refs arrived
    | cons b rest =>
      dsimp only at ok
      split at ok
      · cases ok
      obtain rfl := Except.ok.inj ok
      have absolute : (b :: rest).head? = some slash := by
        cases names with
        | nil => cases same
        | cons name others =>
          rw [same]
          rfl
      refine lookup_render first absolute ?_ ?_ short calm memory quiet cwd refs arrived
      · rw [same,components_render names each]
      · intro slashed
        exact render_ends names each (same ▸ slashed.2)

theorem Named.isDirectory (labelled : Labelled m directory rank)
    (named : Named m v names) (isDir : v.isDir) : Directory m directory v := by
  induction named with
  | root r first => exact ⟨(rootMount_some first).1,trivial⟩
  | child d names slot r above kind listed plain ih =>
    obtain ⟨active,inside⟩ := ih kind
    exact ⟨active,((labelled.forest d.mnt active).record_kind d.key inside slot r listed plain).2 isDir⟩
  | mount i d names active mounted above ih => exact ⟨active,trivial⟩

theorem pathLoop_mounted (mounted : m.point i = some d) (guard : Nat) (built : List UInt8) :
    pathLoop m w guard (rootOf i) built = pathLoop m w guard d built ∨
    pathLoop m w guard (rootOf i) built = .ok built ∨
    ∃ n e, w.faults n = some e ∧ pathLoop m w guard (rootOf i) built = .error e := by
  cases guard with
  | zero => exact .inl rfl
  | succ guard =>
    have left : (leaveMount m (rootOf i) (fun _ => 0)).1 = d := by simp only [leaveMount,rootOf,mounted,if_true]
    rw [pathLoop,left]
    cases root : d.key with
    | root =>
      refine .inr ?_
      split
      · exact .inl rfl
      · cases fault : w.faults guard with
        | some e => exact .inr ⟨guard,e,fault,rfl⟩
        | none => simp [Mounts.parentName,root]
    | dir c =>
      rw [pathLoop,leaveMount_of_ne_root m d _ (by simp [root])]
      exact .inl rfl
    | file p slot =>
      rw [pathLoop,leaveMount_of_ne_root m d _ (by simp [root])]
      exact .inl rfl

section
variable (labelled : Labelled m directory rank) (remembers : Remembers m directory w) (named : Named m v names)
include labelled remembers named

theorem pathLoop_bound (guard : Nat) (built : List UInt8) :
    (∃ out, pathLoop m w guard v built = .ok out ∧ out.length ≤ (render names).length + built.length) ∨
    (∃ n e, w.faults n = some e ∧ pathLoop m w guard v built = .error e) ∨
    pathMax ≤ (render names).length + built.length := by
  induction named generalizing guard built with
  | root r first => exact .inl ⟨built,pathLoop_root (rootMount_some first).2 guard built,by simp⟩
  | child d names slot r above kind listed plain ih =>
    cases guard with
    | zero => exact .inl ⟨built,rfl,by omega⟩
    | succ guard =>
      have directory := above.isDirectory labelled kind
      have inner := ((labelled.forest d.mnt directory.1).record_kind d.key directory.2 slot r listed plain).1
      rw [labelled.pathLoop_child directory listed plain remembers (leaveMount_of_ne_root m _ _ inner)]
      cases fault : w.faults guard with
      | some e => exact .inr (.inl ⟨guard,e,fault,rfl⟩)
      | none =>
        dsimp only
        have length : (render (names ++ [r.name])).length = (render names).length + r.name.length + 1 := by
          simp [render_append,add_assoc]
        split
        · exact .inr (.inr (by omega))
        have further := ih guard (slash :: r.name ++ built)
        simp only [length_append,length_cons] at further ⊢
        rw [length]
        simpa only [add_assoc,add_comm,add_left_comm] using further
  | mount i d names active mounted above ih =>
    obtain same | stopped | failed := pathLoop_mounted mounted guard built
    · rw [same]
      exact ih guard built
    · exact .inl ⟨built,stopped,by omega⟩
    · exact .inr (.inl failed)

theorem getPath_fails {e : Errno} (error : getPath m w v bufsize = .error e) :
    w.memory = false ∨ (∃ n, w.faults n = some e) ∨ pathMax ≤ (render names).length ∨
      bufsize < max 2 ((render names).length + 1) := by
  unfold getPath at error
  split at error
  · next small => exact .inr (.inr (.inr (by omega)))
  split at error
  · next memory => exact .inl (by simpa using memory)
  obtain ⟨out,ok,short⟩ | ⟨n,e',fault,failed⟩ | long := pathLoop_bound labelled remembers named (pathMax / 2) []
  · rw [ok] at error
    cases out with
    | nil => cases error
    | cons b rest =>
      dsimp only at error
      split at error
      · next large =>
        simp only [length_nil] at short
        exact .inr (.inr (.inr (by omega)))
      · cases error
  · rw [failed] at error
    obtain rfl := Except.error.inj error
    exact .inr (.inl ⟨n,fault⟩)
  · exact .inr (.inr (.inl long))

end

end

def twoRanks (_ c : Nat) : Nat := if c = 5 then 1 else 0

def calmPath : PathWorld := ⟨true,fun _ => none,fun _ => none,fun _ => []⟩

theorem twoVolumes_labelled : Labelled twoVolumes twoTrees twoRanks := by
  have few {i c : Nat} (active : twoVolumes.active i) (inside : twoTrees i c) :
      i = 0 ∧ c = 2 ∨ i = 0 ∧ c = 5 ∨ i = 1 ∧ c = 2 := by
    have : i < 2 := by simpa [twoVolumes] using active
    unfold twoTrees at inside
    omega
  refine ⟨⟨twoVolumes_forest,?_,?_,?_⟩,?_,?_⟩
  · intro i d slot r slot' r' active inside listed plain listed' plain' kind kind' same
    obtain ⟨rfl,rfl⟩ | ⟨rfl,rfl⟩ | ⟨rfl,rfl⟩ := few active inside
    all_goals simp [twoVolumes,outerVolume,innerVolume] at listed listed'
    · obtain ⟨rfl,rfl⟩ | ⟨rfl,rfl⟩ := listed
      · obtain ⟨rfl,rfl⟩ | ⟨rfl,rfl⟩ := listed'
        · rfl
        · cases kind'
      · cases kind
    · obtain ⟨rfl,rfl⟩ | ⟨rfl,rfl⟩ := listed <;> simp [Record.Plain] at plain
    · rw [listed.1,listed'.1]
  · intro i d slot r r' active inside listed listed'
    obtain ⟨rfl,rfl⟩ | ⟨rfl,rfl⟩ | ⟨rfl,rfl⟩ := few active inside
    all_goals simp [twoVolumes,outerVolume,innerVolume] at listed listed'
    · obtain ⟨rfl,rfl⟩ | ⟨rfl,rfl⟩ := listed <;> simpa using listed'
    · obtain ⟨rfl,rfl⟩ | ⟨rfl,rfl⟩ := listed <;> simpa using listed'
    · rw [listed.2,listed'.2]
  · intro i d active inside other
    obtain ⟨rfl,rfl⟩ | ⟨rfl,rfl⟩ | ⟨rfl,rfl⟩ := few active inside
    · exact absurd rfl other
    · decide
    · exact absurd rfl other
  · intro i d slot r active inside listed plain
    obtain ⟨rfl,rfl⟩ | ⟨rfl,rfl⟩ | ⟨rfl,rfl⟩ := few active inside
    all_goals simp [twoVolumes,outerVolume,innerVolume] at listed
    · obtain ⟨rfl,rfl⟩ | ⟨rfl,rfl⟩ := listed <;> simp [Proper,slash,nameMax,dot,dotdot]
    · obtain ⟨rfl,rfl⟩ | ⟨rfl,rfl⟩ := listed <;> simp [Record.Plain] at plain
    · obtain ⟨rfl,rfl⟩ := listed
      simp [Proper,slash,nameMax,dot,dotdot]
  · intro i d slot r slot' r' active inside listed plain listed' plain' same
    obtain ⟨rfl,rfl⟩ | ⟨rfl,rfl⟩ | ⟨rfl,rfl⟩ := few active inside
    all_goals simp [twoVolumes,outerVolume,innerVolume] at listed listed'
    · obtain ⟨rfl,rfl⟩ | ⟨rfl,rfl⟩ := listed
      all_goals
        obtain ⟨rfl,rfl⟩ | ⟨rfl,rfl⟩ := listed'
        all_goals revert same; decide
    · obtain ⟨rfl,rfl⟩ | ⟨rfl,rfl⟩ := listed <;> simp [Record.Plain] at plain
    · rw [listed.1,listed'.1]

theorem twoVolumes_remembers : Remembers twoVolumes twoTrees calmPath := by
  intro v c p slot _ moved
  cases moved

/-- The path of the directory under the mount is "/a", and that leads into the mount. -/
theorem covered_path_leads_in : Named twoVolumes ⟨0,.dir 5⟩ [[97]] ∧
    getPath twoVolumes calmPath ⟨0,.dir 5⟩ 10 = .ok [47,97] ∧
    (lookup twoVolumes calm.toWorld [47,97] none false false (fun _ => 0)).1 = .ok (rootOf 1) :=
  ⟨.child (rootOf 0) [] 0 ⟨[97],none,true,false,5⟩ (.root 0 (by decide)) rfl (by decide) (by decide),by decide,
    by decide⟩

/-- Two files created as "A" with the byte 0xFF and "A" with the byte 0xFE: `utf8_to_ucs2` makes both "A?". -/
def twinVolume : Volume where
  rootCluster := 2
  scan c := if c = 2 then [(0,⟨[65,63],some [65,255,126,49],false,false,3⟩),
    (1,⟨[65,63],some [65,254,126,49],false,false,4⟩)] else []
  dotdot _ := 0
  fileCluster _ _ := 3

def twinNames : Mounts where
  active i := i = 0
  point _ := none
  vol _ := twinVolume

def twinTrees : Nat → Nat → Prop := fun _ c => c = 2

theorem twinNames_branching : Branching twinNames twinTrees (fun _ _ => 0) := by
  refine ⟨fun _ _ => ⟨⟨rfl,Nat.le_refl 2⟩,?_,?_,?_⟩,?_,?_,fun _ _ _ inside other => absurd inside other⟩
  · rintro d rfl slot r listed kind
    simp [twinNames,twinVolume] at listed
    obtain ⟨-,rfl⟩ | ⟨-,rfl⟩ := listed <;> cases kind
  · rintro d rfl slot r listed kind
    simp [twinNames,twinVolume] at listed
    obtain ⟨-,rfl⟩ | ⟨-,rfl⟩ := listed <;> cases kind
  · rintro d rfl slot r listed kind
    simp [twinNames,twinVolume] at listed
    obtain ⟨-,rfl⟩ | ⟨-,rfl⟩ := listed <;> cases kind
  · rintro i d slot r slot' r' - rfl listed - - - kind
    simp [twinNames,twinVolume] at listed
    obtain ⟨-,rfl⟩ | ⟨-,rfl⟩ := listed <;> cases kind
  · rintro i d slot r r' - rfl listed listed'
    simp [twinNames,twinVolume] at listed listed'
    obtain ⟨rfl,rfl⟩ | ⟨rfl,rfl⟩ := listed <;> simpa using listed'

end SurfaceOS.Vfs
