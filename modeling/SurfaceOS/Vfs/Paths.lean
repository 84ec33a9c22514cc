import SurfaceOS.Vfs.Beneath

/-! Paths as strings: what the components of a path are when it is put together or cut at a slash, and
that `lookup_parent` cuts off exactly the last one. -/
namespace SurfaceOS.Vfs
open Fat List Nat

theorem splitPath_slash (part : Name) (p rest : List UInt8) :
    splitPath part (p ++ slash :: rest) = splitPath part p ++ components rest := by
  induction p generalizing part with
  | nil => simp [splitPath,components]
  | cons b p ih =>
    rw [cons_append,splitPath,splitPath]
    split
    · rw [ih,append_assoc]
    · exact ih (part ++ [b])

theorem components_slash (p rest : List UInt8) :
    components (p ++ slash :: rest) = components p ++ components rest := splitPath_slash [] p rest

theorem splitPath_clean (part name : Name) (clean : slash ∉ name) : splitPath part name = emit (part ++ name) := by
  induction name generalizing part with
  | nil => rw [splitPath,append_nil]
  | cons b name ih =>
    rw [mem_cons,not_or] at clean
    rw [splitPath,if_neg (Ne.symm clean.1),ih _ clean.2,append_assoc,singleton_append]

theorem components_clean (name : Name) (clean : slash ∉ name) : components name = emit name :=
  splitPath_clean [] name clean

theorem components_slashes (p : List UInt8) (n : Nat) : components (p ++ replicate n slash) = components p := by
  induction n with
  | zero => simp
  | succ n ih =>
    rw [replicate_succ',← append_assoc]
    have last := components_slash (p ++ replicate n slash) []
    rw [last,ih]
    simp [components,splitPath,emit]

def lastName (path : List UInt8) : Name :=
  (path.take (trimSlashes path path.length)).drop (lastCut path (trimSlashes path path.length))

def cutAt (path : List UInt8) : Nat := lastCut path (trimSlashes path path.length)

section
variable (path : List UInt8) (n : Nat) (inside : n ≤ path.length)
include path n inside

theorem trimSlashes_spec :
    trimSlashes path n ≤ n ∧ path.take n = path.take (trimSlashes path n) ++
      replicate (n - trimSlashes path n) slash ∧ (0 < n → 0 < trimSlashes path n) ∧
    (1 < trimSlashes path n → path[trimSlashes path n - 1]? ≠ some slash) := by
  induction n with
  | zero => simp [trimSlashes]
  | succ n ih =>
    cases n with
    | zero => simp [trimSlashes]
    | succ n =>
      unfold trimSlashes
      split
      · next found =>
        obtain ⟨small,split,positive,last⟩ := ih (by omega)
        refine ⟨by omega,?_,fun _ => positive (by omega),last⟩
        rw [take_add_one,split,found,Option.toList_some,append_assoc]
        congr 1
        rw [← replicate_succ']
        congr 1
        omega
      · next other => exact ⟨le_refl _,by simp,fun _ => by omega,fun _ => other⟩

theorem lastCut_spec :
    lastCut path n ≤ n ∧ slash ∉ (path.take n).drop (lastCut path n) ∧
    (0 < lastCut path n → path[lastCut path n - 1]? = some slash) := by
  induction n with
  | zero => simp [lastCut]
  | succ n ih =>
    unfold lastCut
    split
    · next found => exact ⟨le_refl _,by simp,fun _ => found⟩
    rename_i other
    obtain ⟨small,clean,before⟩ := ih (by omega)
    refine ⟨by omega,?_,before⟩
    have within : n < path.length := by omega
    rw [take_add_one,getElem?_eq_getElem within,
      drop_append_of_le_length (by simp; omega),mem_append,not_or]
    refine ⟨clean,fun same => other ?_⟩
    rw [getElem?_eq_getElem within,mem_singleton.mp same]

theorem components_take_cut :
    components (path.take n) = components (path.take (lastCut path n)) ++ emit ((path.take n).drop (lastCut path n)) := by
  obtain ⟨small,clean,before⟩ := lastCut_spec path n inside
  have whole : path.take n = path.take (lastCut path n) ++ (path.take n).drop (lastCut path n) := by
    have := take_append_drop (lastCut path n) (path.take n)
    rw [take_take,Nat.min_eq_left small] at this
    exact this.symm
  rcases Nat.eq_zero_or_pos (lastCut path n) with zero | positive
  · rw [zero] at clean ⊢
    rw [drop_zero] at clean ⊢
    rw [components_clean _ clean]
    rfl
  have cut : path.take (lastCut path n) = path.take (lastCut path n - 1) ++ [slash] := by
    have := take_add_one (l := path) (i := lastCut path n - 1)
    rw [before positive,show lastCut path n - 1 + 1 = lastCut path n by omega] at this
    exact this
  have first : components (path.take (lastCut path n)) = components (path.take (lastCut path n - 1)) := by
    rw [cut]
    exact components_slashes _ 1
  rw [first]
  conv => lhs; rw [whole,cut,append_assoc,singleton_append]
  rw [components_slash,components_clean _ clean]

theorem components_trim :
    components (path.take (trimSlashes path n)) = components (path.take n) := by
  obtain ⟨-,split,-,-⟩ := trimSlashes_spec path n inside
  rw [split,components_slashes]

end

theorem components_last (path : List UInt8) :
    components path = components (path.take (cutAt path)) ++ emit (lastName path) := by
  obtain ⟨small,split,-,-⟩ := trimSlashes_spec path path.length (le_refl _)
  rw [take_length] at split
  conv => lhs; rw [split,components_slashes]
  exact components_take_cut path _ small

theorem lastName_ne_nil {path : List UInt8} (given : path ≠ []) (last : path.getLast? ≠ some slash) : lastName path ≠ [] := by
  have long : 0 < path.length := length_pos_iff.mpr given
  rw [getLast?_eq_getElem?] at last
  obtain ⟨n,size⟩ : ∃ n, path.length = n + 1 := ⟨path.length - 1,by omega⟩
  rw [size,Nat.add_sub_cancel] at last
  have stop : trimSlashes path path.length = n + 1 := by
    rw [size]
    cases n with
    | zero => rfl
    | succ n => rw [trimSlashes,if_neg last]
  have cut : lastCut path (n + 1) ≤ n := by
    rw [lastCut,if_neg last]
    exact (lastCut_spec path n (by omega)).1
  rw [lastName,stop,← length_pos_iff,length_drop,length_take]
  omega

end SurfaceOS.Vfs
