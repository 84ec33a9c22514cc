import SurfaceOS.Fat.Names

/-! A FAT volume as a tree of files and folders. An item's place is the list of record numbers that lead
to it from the root; it answers to its name and to its 8.3 alias, in any case. -/
namespace SurfaceOS.Apps
open Fat List Option Nat

variable {name short n : Name} {content : Content} {k slot : Nat} {d f : Place}

abbrev Place := List Nat

variable {q : Place}

abbrev Path := List Name

variable {p : Path}

inductive Content
  | file (data : List UInt8)
  | folder
  deriving DecidableEq

structure Entry where
  long : Name
  short : Name
  content : Content
  readOnly : Bool
  deriving DecidableEq

variable {e : Entry}

def Entry.answers (e : Entry) (n : Name) : Bool := eqNocase n e.long || eqNocase n e.short

inductive Status
  | accessDenied
  | other
  deriving DecidableEq

structure Tree where
  slots : Nat
  entry : Place → Option Entry

namespace Tree

def isFolder (t : Tree) (p : Place) : Bool :=
  p = [] || match t.entry p with
    | some e => e.content = .folder
    | none => false

def find (t : Tree) (d : Place) (n : Name) : Option Nat :=
  (range t.slots).find? fun k => match t.entry (d ++ [k]) with
    | some e => e.answers n
    | none => false

def walk (t : Tree) : Place → Path → Option Place
  | d, [] => some d
  | d, n :: rest => if t.isFolder d then (t.find d n).bind fun k => t.walk (d ++ [k]) rest else none

def resolve (t : Tree) (p : Path) : Option Place := t.walk [] p

def bytes (t : Tree) (p : Place) : List UInt8 :=
  match t.entry p with
  | some ⟨_,_,.file data,_⟩ => data
  | _ => []

def isReadOnly (t : Tree) (p : Place) : Bool := (t.entry p).any Entry.readOnly

def set (t : Tree) (p : Place) (e : Option Entry) : Tree := {t with entry := Function.update t.entry p e}

def fill (t : Tree) (p : Place) (data : List UInt8) : Tree :=
  t.set p ((t.entry p).map fun e => {e with content := .file data})

/-- A new item. Which free record it gets, and which alias, is up to the file system. -/
def make (t : Tree) (p : Path) (content : Content) (slot : Nat) (short : Name) : Option (Tree × Place) :=
  match p.getLast?,t.resolve p.dropLast with
  | some name, some d =>
    if t.isFolder d && validName name && (t.find d name).isNone && (t.find d short).isNone && decide (slot < t.slots) &&
        (t.entry (d ++ [slot])).isNone
    then some (t.set (d ++ [slot]) (some ⟨name,short,content,false⟩),d ++ [slot])
    else none
  | _, _ => none

def first (t : Tree) (d : Place) : Option Entry := (range t.slots).findSome? fun k => t.entry (d ++ [k])

def remove (t : Tree) (p : Path) : Option Tree :=
  match t.resolve p with
  | some g => if g = [] ∨ t.isFolder g ∧ (t.first g).isSome then none else some (t.set g none)
  | none => none

end Tree

structure Sound (t : Tree) : Prop where
  root : t.entry [] = none
  rooted : ∀ d k e, t.entry (d ++ [k]) = some e → k < t.slots ∧ t.isFolder d
  alone : ∀ d j k e g n, t.entry (d ++ [j]) = some e → t.entry (d ++ [k]) = some g → e.answers n → g.answers n → j = k
  named : ∀ p e, t.entry p = some e → e.long ≠ []
  finite : ∃ depth, ∀ p : Place, depth < p.length → t.entry p = none

namespace Tree
variable {t u : Tree} {d g : Place} {n m : Name} {k : Nat} {content : Content}

theorem answers_long (e : Entry) : e.answers e.long := by
  simp [Entry.answers,eqNocase]

theorem answers_congr {m n : Name} (same : eqNocase m n) : e.answers m = e.answers n := by
  have folded : m.map upper = n.map upper := by simpa [eqNocase] using same
  simp [Entry.answers,eqNocase,folded]

theorem append_ne (d : Place) (k : Nat) : d ++ [k] ≠ [] := by simp

theorem isFolder_of_entry {p : Place} (here : t.entry p = some e) (other : p ≠ []) :
    t.isFolder p = decide (e.content = .folder) := by
  simp [isFolder,here,other]

theorem isFolder_of_none {p : Place} (missing : t.entry p = none) (other : p ≠ []) : t.isFolder p = false := by
  simp [isFolder,missing,other]

theorem folder_above (sound : Sound t) (real : f = [] ∨ (t.entry f).isSome) (above : g <+: f)
    (proper : g ≠ f) : t.isFolder g := by
  obtain ⟨rest,rfl⟩ := above
  have some : (t.entry (g ++ rest)).isSome := real.resolve_left fun empty => proper (by simp_all)
  clear real
  induction rest using List.reverseRecOn with
  | nil => simp at proper
  | append_singleton rest k ih =>
    obtain ⟨e,here⟩ := isSome_iff_exists.mp some
    rw [← append_assoc] at here
    have parent := (sound.rooted _ k e here).2
    by_cases last : rest = []
    · simpa [last] using parent
    refine ih (by simpa using last) ?_
    simp only [isFolder,append_eq_nil_iff,last] at parent
    cases here : t.entry (g ++ rest) with
    | none => simp [here] at parent
    | some e => rfl

theorem find_congr (slots : u.slots = t.slots)
    (same : ∀ k, (u.entry (d ++ [k])).map (fun e => (e.long,e.short)) = (t.entry (d ++ [k])).map fun e => (e.long,e.short))
    (n : Name) : u.find d n = t.find d n := by
  unfold find
  rw [slots]
  congr 1
  funext k
  have here := same k
  cases one : u.entry (d ++ [k]) with
  | none =>
    cases two : t.entry (d ++ [k]) with
    | none => rfl
    | some g => simp [one,two] at here
  | some e =>
    cases two : t.entry (d ++ [k]) with
    | none => simp [one,two] at here
    | some g =>
      obtain ⟨long,short⟩ : e.long = g.long ∧ e.short = g.short := by simpa [one,two] using here
      simp [Entry.answers,long,short]

theorem walk_congr (slots : u.slots = t.slots) (folders : ∀ p, u.isFolder p = t.isFolder p)
    (same : ∀ p, (u.entry p).map (fun e => (e.long,e.short)) = (t.entry p).map fun e => (e.long,e.short))
    (d : Place) (p : Path) : u.walk d p = t.walk d p := by
  induction p generalizing d with
  | nil => rfl
  | cons n p ih => simp only [walk,folders,find_congr slots fun k => same (d ++ [k]),ih]

theorem make_spec (made : t.make p content slot short = some (u,g)) :
    ∃ d name, p.getLast? = some name ∧ t.resolve p.dropLast = some d ∧ t.isFolder d ∧ validName name ∧
      t.find d name = none ∧ t.find d short = none ∧ slot < t.slots ∧ t.entry (d ++ [slot]) = none ∧
      g = d ++ [slot] ∧ u = t.set g (some ⟨name,short,content,false⟩) := by
  unfold make at made
  split at made
  · next name d last parent =>
    split at made
    · next fine =>
      obtain ⟨rfl,rfl⟩ := Prod.mk.inj (some.inj made)
      simp only [Bool.and_eq_true,isNone_iff_eq_none,decide_eq_true_eq] at fine
      obtain ⟨⟨⟨⟨⟨folder,valid⟩,fresh⟩,alsoFresh⟩,small⟩,free⟩ := fine
      exact ⟨d,name,last,parent,folder,valid,fresh,alsoFresh,small,free,rfl,rfl⟩
    · simp at made
  · simp at made

theorem answers_mk (answers : (Entry.mk name short content false).answers n)
    {g : Entry} (also : g.answers n) : g.answers name ∨ g.answers short := by
  rcases Bool.or_eq_true_iff.mp answers with long | other
  · exact .inl (answers_congr long ▸ also)
  · exact .inr (answers_congr other ▸ also)

theorem remove_spec (removed : t.remove p = some u) :
    ∃ g, t.resolve p = some g ∧ g ≠ [] ∧ (t.isFolder g → t.first g = none) ∧ u = t.set g none := by
  unfold remove at removed
  split at removed
  · next g here =>
    split at removed
    · simp at removed
    rename_i fine
    obtain ⟨other,empty⟩ := not_or.mp fine
    refine ⟨g,here,other,fun folder => ?_,(some.inj removed).symm⟩
    simpa [folder] using empty
  · simp at removed

/-- Every item of `t` is in `u`, with its names, and folders are folders there. -/
def Extends (t u : Tree) : Prop :=
  ∀ q e, t.entry q = some e → ∃ g, u.entry q = some g ∧ g.long = e.long ∧ g.short = e.short ∧
    (e.content = .folder → g.content = .folder)

theorem Extends.isFolder (more : t.Extends u) (folder : t.isFolder q) : u.isFolder q := by
  by_cases root : q = []
  · simp [Tree.isFolder,root]
  cases here : t.entry q with
  | none => simp [isFolder_of_none here root] at folder
  | some e =>
    obtain ⟨g,there,-,-,kept⟩ := more q e here
    rw [isFolder_of_entry here root] at folder
    rw [isFolder_of_entry there root]
    exact decide_eq_true (kept (of_decide_eq_true folder))

section
variable (t)

theorem find_some (found : t.find d n = some k) :
    ∃ e, t.entry (d ++ [k]) = some e ∧ e.answers n := by
  have holds := find?_some found
  cases here : t.entry (d ++ [k]) with
  | none => simp [here] at holds
  | some e => exact ⟨e,rfl,by simpa [here] using holds⟩

theorem find_none (missing : t.find d n = none) (small : k < t.slots)
    (here : t.entry (d ++ [k]) = some e) : e.answers n = false := by
  have never := find?_eq_none.mp missing k (mem_range.mpr small)
  simpa [here] using never

theorem walk_append (d : Place) (p q : Path) : t.walk d (p ++ q) = (t.walk d p).bind (t.walk · q) := by
  induction p generalizing d with
  | nil => rfl
  | cons n p ih =>
    simp only [cons_append,walk]
    split
    · cases t.find d n with
      | none => rfl
      | some k => exact ih (d ++ [k])
    · rfl

theorem walk_begins (walked : t.walk d p = some g) : d <+: g := by
  induction p generalizing d with
  | nil =>
    obtain rfl : d = g := some.inj walked
    exact prefix_rfl
  | cons n p ih =>
    rw [walk] at walked
    split at walked
    · obtain ⟨k,-,rest⟩ := bind_eq_some_iff.mp walked
      exact (prefix_append d [k]).trans (ih rest)
    · simp at walked

theorem entry_set (p q : Place) (e : Option Entry) : (t.set p e).entry q = if q = p then e else t.entry q :=
  Function.update_apply ..

theorem entry_fill (p q : Place) (data : List UInt8) : (t.fill p data).entry q =
    if q = p then (t.entry p).map fun e => {e with content := .file data} else t.entry q := entry_set ..

theorem names_fill (p : Place) (data : List UInt8) (q : Place) :
    ((t.fill p data).entry q).map (fun e => (e.long,e.short)) = (t.entry q).map fun e => (e.long,e.short) := by
  rw [entry_fill]
  split
  · next same => subst same; cases t.entry q <;> rfl
  · rfl

end

theorem find_of_entry (sound : Sound t) (here : t.entry (d ++ [k]) = some e)
    (answers : e.answers n) : t.find d n = some k := by
  cases found : t.find d n with
  | none => exact absurd answers (by simp [t.find_none found (sound.rooted d k e here).1 here])
  | some j =>
    obtain ⟨g,there,also⟩ := t.find_some found
    rw [sound.alone d j k g e n there here also answers]

theorem walk_real (walked : t.walk d p = some g) (real : d = [] ∨ (t.entry d).isSome) :
    g = [] ∨ (t.entry g).isSome := by
  induction p generalizing d with
  | nil => exact some.inj walked ▸ real
  | cons n p ih =>
    rw [walk] at walked
    split at walked
    · obtain ⟨k,found,rest⟩ := bind_eq_some_iff.mp walked
      obtain ⟨e,here,-⟩ := t.find_some found
      exact ih rest (.inr (by simp [here]))
    · simp at walked

theorem isFolder_fill {p : Place} (data : List UInt8) (file : t.isFolder p = false) (q : Place) :
    (t.fill p data).isFolder q = t.isFolder q := by
  by_cases same : q = p
  · subst same
    have other : q ≠ [] := fun empty => by simp [isFolder,empty] at file
    rw [file]
    simp only [isFolder,other,entry_fill]
    cases t.entry q <;> simp
  · simp [isFolder,entry_fill,same]

theorem resolve_fill {p : Place} (data : List UInt8) (file : t.isFolder p = false) (x : Path) :
    (t.fill p data).resolve x = t.resolve x := by
  have slots : (t.fill p data).slots = t.slots := rfl
  exact walk_congr slots (isFolder_fill data file) (names_fill t p data) [] x

theorem sound_fill (sound : Sound t) {p : Place} (data : List UInt8) (file : t.isFolder p = false) :
    Sound (t.fill p data) := by
  have origin {q : Place} {e : Entry} (here : (t.fill p data).entry q = some e) :
      ∃ g, t.entry q = some g ∧ g.long = e.long ∧ g.short = e.short := by
    have names := names_fill t p data q
    rw [here] at names
    cases old : t.entry q with
    | none => simp [old] at names
    | some g => exact ⟨g,rfl,by simp [old] at names; exact ⟨names.1.symm,names.2.symm⟩⟩
  have answers {e g : Entry} (long : g.long = e.long) (short : g.short = e.short) (n : Name) : g.answers n = e.answers n := by
    simp [Entry.answers,long,short]
  refine ⟨?_,fun d k e here => ?_,fun d j k e g n one two first second => ?_,fun q e here => ?_,?_⟩
  · rw [entry_fill]
    split
    · next same => simp [← same,sound.root]
    · exact sound.root
  · obtain ⟨g,old,-,-⟩ := origin here
    rw [isFolder_fill data file]
    exact sound.rooted d k g old
  · obtain ⟨e₀,old,long,short⟩ := origin one
    obtain ⟨g₀,older,longer,shorter⟩ := origin two
    exact sound.alone d j k e₀ g₀ n old older (answers long short n ▸ first) (answers longer shorter n ▸ second)
  · obtain ⟨g,old,long,-⟩ := origin here
    exact long ▸ sound.named q g old
  obtain ⟨depth,bound⟩ := sound.finite
  refine ⟨depth,fun q deep => ?_⟩
  rw [entry_fill]
  split
  · next same => simp [← same,bound q deep]
  · exact bound q deep

theorem isFolder_new (free : t.entry (d ++ [k]) = none) (folder : t.isFolder q) :
    (t.set (d ++ [k]) (some e)).isFolder q := by
  have other : q ≠ d ++ [k] := fun same => by
    rw [same,isFolder_of_none free (append_ne d k)] at folder
    simp at folder
  simpa [isFolder,entry_set,other] using folder

theorem sound_new (sound : Sound t) (folder : t.isFolder d)
    (valid : validName name) (fresh : t.find d name = none) (alsoFresh : t.find d short = none) (small : k < t.slots)
    (free : t.entry (d ++ [k]) = none) : Sound (t.set (d ++ [k]) (some ⟨name,short,content,false⟩)) := by
  have clash {j : Nat} {g : Entry} {n : Name} (old : t.entry (d ++ [j]) = some g) (also : g.answers n)
      (answers : (Entry.mk name short content false).answers n) : False := by
    have less := (sound.rooted d j g old).1
    rcases answers_mk answers also with first | second
    · simp [t.find_none fresh less old] at first
    · simp [t.find_none alsoFresh less old] at second
  refine ⟨?_,fun q j e here => ?_,fun q i j e g n one two first second => ?_,fun q e here => ?_,?_⟩
  · rw [entry_set,if_neg (append_ne d k).symm]
    exact sound.root
  · rw [entry_set] at here
    split at here
    · next same =>
      obtain ⟨rfl,rfl⟩ : q = d ∧ j = k := by simpa using same
      exact ⟨small,isFolder_new free folder⟩
    · exact ⟨(sound.rooted q j e here).1,isFolder_new free (sound.rooted q j e here).2⟩
  · rw [entry_set] at one two
    split at one
    · next same =>
      obtain ⟨rfl,rfl⟩ : q = d ∧ i = k := by simpa using same
      split at two
      · next also => exact (by simpa using also : j = i).symm
      · obtain rfl := some.inj one
        exact (clash two second first).elim
    split at two
    · next same =>
      obtain ⟨rfl,rfl⟩ : q = d ∧ j = k := by simpa using same
      obtain rfl := some.inj two
      exact (clash one first second).elim
    · exact sound.alone q i j e g n one two first second
  · rw [entry_set] at here
    split at here
    · obtain rfl := some.inj here
      rintro rfl
      simp [validName] at valid
    · exact sound.named q e here
  · obtain ⟨depth,bound⟩ := sound.finite
    refine ⟨max depth (d ++ [k]).length,fun q deep => ?_⟩
    rw [entry_set,if_neg]
    · exact bound q (lt_of_le_of_lt (le_max_left ..) deep)
    · rintro rfl
      exact absurd deep (not_lt.mpr (le_max_right ..))

theorem sound_gone (sound : Sound t) (other : g ≠ []) (empty : t.isFolder g → t.first g = none) :
    Sound (t.set g none) := by
  have childless (k : Nat) : t.entry (g ++ [k]) = none := by
    cases here : t.entry (g ++ [k]) with
    | none => rfl
    | some e =>
      obtain ⟨small,folder⟩ := sound.rooted g k e here
      exact here ▸ findSome?_eq_none_iff.mp (empty folder) _ (mem_range.mpr small)
  have kept {q : Place} {e : Entry} (here : (t.set g none).entry q = some e) : q ≠ g ∧ t.entry q = some e := by
    rw [entry_set] at here
    split at here
    · simp at here
    · next other => exact ⟨other,here⟩
  refine ⟨?_,fun q j e here => ?_,fun q i j e h n one two => sound.alone q i j e h n (kept one).2 (kept two).2,
    fun q e here => sound.named q e (kept here).2,?_⟩
  · rw [entry_set,if_neg other.symm]
    exact sound.root
  · obtain ⟨-,old⟩ := kept here
    obtain ⟨small,folder⟩ := sound.rooted q j e old
    have elsewhere : q ≠ g := by
      rintro rfl
      simp [childless j] at old
    exact ⟨small,by simpa [isFolder,entry_set,elsewhere] using folder⟩
  obtain ⟨depth,bound⟩ := sound.finite
  refine ⟨depth,fun q deep => ?_⟩
  rw [entry_set]
  split
  · rfl
  · exact bound q deep

theorem Extends.walk (more : t.Extends u) (sound : Sound u) (walked : t.walk d p = some g) : u.walk d p = some g := by
  induction p generalizing d with
  | nil => exact walked
  | cons n p ih =>
    rw [Tree.walk] at walked ⊢
    split at walked
    · next folder =>
      obtain ⟨k,found,rest⟩ := bind_eq_some_iff.mp walked
      obtain ⟨e,here,answers⟩ := t.find_some found
      obtain ⟨h,there,long,short,-⟩ := more _ e here
      have also : h.answers n := by simpa [Entry.answers,long,short] using answers
      rw [if_pos (more.isFolder folder),find_of_entry sound there also]
      exact ih rest
    · simp at walked

theorem extends_new (free : t.entry (d ++ [k]) = none) : t.Extends (t.set (d ++ [k]) (some e)) := by
  intro q h here
  have other : q ≠ d ++ [k] := by
    rintro rfl
    simp [free] at here
  exact ⟨h,by rw [entry_set,if_neg other,here],rfl,rfl,id⟩

theorem resolve_new (sound : Sound (t.set (d ++ [k]) (some ⟨n,m,content,false⟩))) (last : p.getLast? = some n)
    (parent : t.resolve p.dropLast = some d) (folder : t.isFolder d) (free : t.entry (d ++ [k]) = none) :
    (t.set (d ++ [k]) (some ⟨n,m,content,false⟩)).resolve p = some (d ++ [k]) := by
  have more := extends_new (e := ⟨n,m,content,false⟩) free
  have split : p = p.dropLast ++ [n] := (dropLast_append_getLast? n last).symm
  rw [split,resolve,walk_append,more.walk sound parent]
  have here : (t.set (d ++ [k]) (some ⟨n,m,content,false⟩)).entry (d ++ [k]) = some ⟨n,m,content,false⟩ := by
    rw [entry_set,if_pos rfl]
  have found := find_of_entry sound here (answers_long _)
  simp only [bind_some,walk,if_pos (more.isFolder folder)]
  rw [found]
  rfl

end Tree

end SurfaceOS.Apps
