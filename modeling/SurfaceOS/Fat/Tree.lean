import SurfaceOS.Errno
import SurfaceOS.Fat.Unicode

/-! The names of a mounted volume as `fat_lookup`, `fat_create` and `fat_getparent`
(fat32/vnode.cpp) see them: a directory is known by its first cluster, a file by the
directory and slot of its record, and a directory's parent by its own ".." record. -/
namespace SurfaceOS.Fat

variable {dir k : Key} {vol : Volume}

/-- A record as a scan delivers it: the name it displays, and under `short` the 8.3 alias it
also answers to when that name is a long one. -/
structure Record where
  name : Name
  short : Option Name
  isDir : Bool
  readOnly : Bool
  firstCluster : Nat
  deriving DecidableEq

inductive Key
  | root
  | dir (cluster : Nat)
  | file (parent slot : Nat)
  deriving DecidableEq

/-- `scan c` is what scanning the chain that starts at cluster `c` delivers, slot by slot,
also where that chain is a file's; `dotdot c` is the cluster field of its second slot. -/
structure Volume where
  rootCluster : Nat
  scan : Nat → List (Nat × Record)
  dotdot : Nat → Nat
  fileCluster : Nat → Nat → Nat

def Key.isDir : Key → Bool
  | .file _ _ => false
  | _ => true

def Volume.cluster (vol : Volume) : Key → Nat
  | .root => vol.rootCluster
  | .dir c => c
  | .file parent slot => vol.fileCluster parent slot

def Volume.dirVnode (vol : Volume) (firstCluster : Nat) : Key :=
  if firstCluster = vol.rootCluster ∨ firstCluster < 2 then .root else .dir firstCluster

def Volume.vnodeFromRecord (vol : Volume) (r : Record) (parent slot : Nat) : Key :=
  if r.isDir then vol.dirVnode r.firstCluster else .file parent slot

def Record.answers (r : Record) (name : Name) : Bool :=
  eqNocase r.name name || match r.short with
    | some numbered => eqNocase numbered name
    | none => false

def Volume.find (vol : Volume) (cluster : Nat) (name : Name) : Option (Nat × Record) :=
  (vol.scan cluster).find? fun entry => entry.2.answers name

def Volume.lookup (vol : Volume) (dir : Key) (name : Name) : Except Errno Key :=
  match vol.find (vol.cluster dir) name with
  | none => .error .enoent
  | some (slot,r) => .ok (vol.vnodeFromRecord r (vol.cluster dir) slot)

/-- What a record made as `name` displays: the text of the units its long name is stored in, slot by slot, or
that of its packed name. -/
def shownName (name : Name) : Name :=
  let short := makeShortName name
  if short.needsLfn then
    let units := utf8ToUcs2 nameMax name
    ((List.range (slotsFor units.length)).flatMap fun s => ucs2ToUtf8 40 (slotUnits units (s + 1)) 0).take nameMax
  else formatShort short.name11 short.ntFlags

example : validName [46,0xC0,0x80,65] ∧ shownName [46,0xC0,0x80,65] = [46] := by decide

def Volume.create (vol : Volume) (dir : Key) (name : Name) (short : Option Name) (slot : Nat) :
    Key × Volume :=
  let c := vol.cluster dir
  (.file c slot,
    {vol with
      scan := Function.update vol.scan c (vol.scan c ++ [(slot,⟨shownName name,short,false,false,0⟩)])
      fileCluster := fun p s => if p = c ∧ s = slot then 0 else vol.fileCluster p s})

def Volume.dotdotCluster (vol : Volume) (cluster : Nat) : Nat :=
  if cluster = vol.rootCluster then vol.rootCluster
  else if 2 ≤ vol.dotdot cluster then vol.dotdot cluster
  else vol.rootCluster

def Volume.getparent (vol : Volume) : Key → Key
  | .root => .root
  | .dir c => vol.dirVnode (vol.dotdotCluster c)
  | .file parent _ => vol.dirVnode parent

def dot : Name := [46]

def dotdot : Name := [46,46]

def Record.Plain (r : Record) : Prop := r.isDir → r.name ≠ dot ∧ r.name ≠ dotdot

instance (r : Record) : Decidable r.Plain := inferInstanceAs (Decidable (_ → _))

/-- The directories, by first cluster, form a tree: the ".." of a directory leads back to the
one that holds its record, and "." and ".." name what they should. -/
structure Tree (vol : Volume) (directory : Nat → Prop) : Prop where
  root : directory vol.rootCluster ∧ 2 ≤ vol.rootCluster
  child : ∀ d, directory d → ∀ slot r, (slot,r) ∈ vol.scan d → r.isDir → r.Plain →
    directory r.firstCluster ∧ 2 ≤ r.firstCluster ∧ r.firstCluster ≠ vol.rootCluster ∧
      vol.dotdotCluster r.firstCluster = d
  self : ∀ d, directory d → ∀ slot r, (slot,r) ∈ vol.scan d → r.isDir → r.name = dot →
    r.short = none ∧ r.firstCluster = d
  parent : ∀ d, directory d → ∀ slot r, (slot,r) ∈ vol.scan d → r.isDir → r.name = dotdot →
    r.short = none ∧ d ≠ vol.rootCluster ∧ vol.dirVnode r.firstCluster = vol.getparent (.dir d)

def Key.Names (vol : Volume) (directory : Nat → Prop) : Key → Prop
  | .root => True
  | .dir c => directory c ∧ 2 ≤ c ∧ c ≠ vol.rootCluster
  | .file _ _ => False

theorem Tree.directory {directory : Nat → Prop} (tree : Tree vol directory) (k : Key)
    (names : k.Names vol directory) : directory (vol.cluster k) := by
  cases k with
  | root => exact tree.root.1
  | dir c => exact names.1
  | file parent slot => exact names.elim

theorem dirVnode_dir (vol : Volume) (c : Nat) (large : 2 ≤ c) (other : c ≠ vol.rootCluster) :
    vol.dirVnode c = .dir c := by
  have : ¬ (c = vol.rootCluster ∨ c < 2) := by omega
  simp only [Volume.dirVnode,if_neg this]

theorem dirVnode_cluster {directory : Nat → Prop} (k : Key)
    (names : k.Names vol directory) : vol.dirVnode (vol.cluster k) = k := by
  cases k with
  | root => simp [Volume.dirVnode,Volume.cluster]
  | dir c => exact dirVnode_dir vol c names.2.1 names.2.2
  | file parent slot => exact names.elim

section
variable {vol : Volume} {directory : Nat → Prop} (tree : Tree vol directory) (d : Key) (names : d.Names vol directory)
  (slot : Nat)
include tree d names slot

theorem Tree.getparent_record (r : Record) (listed : (slot,r) ∈ vol.scan (vol.cluster d)) (plain : r.Plain) :
    vol.getparent (vol.vnodeFromRecord r (vol.cluster d) slot) = d := by
  cases kind : r.isDir with
  | false =>
    simp only [Volume.vnodeFromRecord,kind]
    exact dirVnode_cluster d names
  | true =>
    obtain ⟨_,large,other,back⟩ := tree.child _ (tree.directory d names) slot r listed kind plain
    simp only [Volume.vnodeFromRecord,kind,if_true,dirVnode_dir vol _ large other,Volume.getparent,back]
    exact dirVnode_cluster d names

theorem Tree.record_kind (r : Record) (listed : (slot,r) ∈ vol.scan (vol.cluster d)) (plain : r.Plain) :
    let k := vol.vnodeFromRecord r (vol.cluster d) slot
    k ≠ .root ∧ (k.isDir → k.Names vol directory) := by
  cases kind : r.isDir with
  | false => simp [Volume.vnodeFromRecord,kind,Key.isDir]
  | true =>
    obtain ⟨inside,large,other,_⟩ := tree.child _ (tree.directory d names) slot r listed kind plain
    simp [Volume.vnodeFromRecord,kind,dirVnode_dir vol _ large other,Key.Names,inside,large,other]

end

theorem lookup_found {name : Name} (found : vol.lookup dir name = .ok k) :
    ∃ slot r, (slot,r) ∈ vol.scan (vol.cluster dir) ∧ r.answers name ∧
      k = vol.vnodeFromRecord r (vol.cluster dir) slot := by
  unfold Volume.lookup at found
  split at found
  · cases found
  · rename_i slot r hit
    have answered := List.find?_some hit
    exact ⟨slot,r,List.mem_of_find?_eq_some hit,answered,(Except.ok.inj found).symm⟩

theorem Tree.lookup_cases {directory : Nat → Prop} (tree : Tree vol directory) (d : Key)
    (names : d.Names vol directory) (name : Name) (k : Key) (found : vol.lookup d name = .ok k) :
    (∃ slot r, (slot,r) ∈ vol.scan (vol.cluster d) ∧ r.Plain ∧
      k = vol.vnodeFromRecord r (vol.cluster d) slot) ∨
    (name = dot ∧ k = d) ∨ (name = dotdot ∧ d ≠ .root ∧ k = vol.getparent d) := by
  obtain ⟨slot,r,listed,answered,rfl⟩ := lookup_found found
  by_cases plain : r.Plain
  · exact .inl ⟨slot,r,listed,plain,rfl⟩
  simp only [Record.Plain,Classical.not_imp,not_and_or,not_not] at plain
  obtain ⟨kind,here | above⟩ := plain
  · obtain ⟨short,same⟩ := tree.self _ (tree.directory d names) slot r listed kind here
    simp only [Record.answers,here,short,Bool.or_false] at answered
    refine .inr (.inl ⟨eqNocase_dots 1 name answered,?_⟩)
    simp only [Volume.vnodeFromRecord,kind,same]
    exact dirVnode_cluster d names
  obtain ⟨short,lower,same⟩ := tree.parent _ (tree.directory d names) slot r listed kind above
  simp only [Record.answers,above,short,Bool.or_false] at answered
  refine .inr (.inr ⟨eqNocase_dots 2 name answered,?_,?_⟩)
  · rintro rfl
    exact lower rfl
  cases d with
  | root => exact absurd rfl lower
  | dir c => simpa only [Volume.vnodeFromRecord,kind,if_true,Volume.cluster] using same
  | file parent slot => exact names.elim

end SurfaceOS.Fat
