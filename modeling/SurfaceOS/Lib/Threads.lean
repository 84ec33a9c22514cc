import Mathlib.Algebra.Order.BigOperators.Group.Finset
import SurfaceOS.Lib.Transition

/-! Threads that share some state. A step is taken by one of them and changes the shared state and its
own; what each thread may rely on is shown once for the thread that moves and once for the others.
Where only the number of threads at a place counts, `total` adds up what each of them weighs. -/
namespace SurfaceOS.Lib
open Finset Function

structure Threads (G L : Type) where
  shared : G
  locals : Nat → L

variable {s t : Threads G L} {init : Threads G L → Prop} {guard : Threads G L → Nat × A → Prop}

namespace Threads

variable {G L A : Type} {move : Nat → G → L → A → Option (G × L)}

def run (move : Nat → G → L → A → Option (G × L)) (s : Threads G L) (a : Nat × A) : Option (Threads G L) :=
  (move a.1 s.shared (s.locals a.1) a.2).map fun out => ⟨out.1,update s.locals a.1 out.2⟩

def Step (move : Nat → G → L → A → Option (G × L)) (s : Threads G L) (a : Nat × A) (t : Threads G L) : Prop :=
  run move s a = some t

theorem step_cases {s t : Threads G L} {a : Nat × A} (moved : Step move s a t) :
    ∃ g l, move a.1 s.shared (s.locals a.1) a.2 = some (g,l) ∧ t = ⟨g,update s.locals a.1 l⟩ := by
  obtain ⟨⟨g,l⟩,here,rfl⟩ := Option.map_eq_some_iff.mp moved
  exact ⟨g,l,here,rfl⟩

/-- What holds of every thread and the shared state: a step keeps it for the thread that takes it,
and for each of the others. -/
theorem invariant {init : Threads G L → Prop} {guard : Threads G L → Nat × A → Prop} (ok : Nat → G → L → Prop)
    (base : ∀ s, init s → ∀ i, ok i s.shared (s.locals i))
    (own : ∀ s i a g l, guard s (i,a) → ok i s.shared (s.locals i) →
      move i s.shared (s.locals i) a = some (g,l) → ok i g l)
    (others : ∀ s i j a g l, guard s (i,a) → j ≠ i → ok i s.shared (s.locals i) → ok j s.shared (s.locals j) →
      move i s.shared (s.locals i) a = some (g,l) → ok j g (s.locals j))
    {s : Threads G L} (reached : Reach init guard (Step move) s) (i : Nat) : ok i s.shared (s.locals i) := by
  refine Reach.invariant (fun s => ∀ i, ok i s.shared (s.locals i)) base ?_ s reached i
  rintro s ⟨i,a⟩ t holds allowed moved j
  obtain ⟨g,l,here,rfl⟩ := step_cases moved
  rcases eq_or_ne j i with rfl | other
  · have mine := own s j a g l allowed (holds j) here
    simpa using mine
  · have kept := others s i j a g l allowed other (holds i) (holds j) here
    simpa [update_of_ne other] using kept

theorem reaches {init : Threads G L → Prop} {guard : Threads G L → Nat × A → Prop} {actions : List (Nat × A)}
    (allowed : ∀ a ∈ actions, ∀ s, guard s a) {s t : Threads G L} (initial : init s)
    (ran : execute (run move) s actions = some t) : Reach init guard (Step move) t :=
  Reach.admitted actions allowed s t (.start s initial) ran

def total (n : Nat) (weight : L → Nat) (locals : Nat → L) : Nat := ∑ i ∈ Finset.range n, weight (locals i)

section
variable {n i j : Nat} {weight : L → Nat} {locals : Nat → L}

theorem total_split (inside : i < n) : total n weight locals =
    weight (locals i) + ∑ j ∈ (Finset.range n).erase i, weight (locals j) :=
  (add_sum_erase _ (fun j => weight (locals j)) (Finset.mem_range.mpr inside)).symm

theorem total_update (inside : i < n) (l : L) :
    total n weight (update locals i l) + weight (locals i) = total n weight locals + weight l := by
  have rest : ∑ j ∈ (Finset.range n).erase i, weight (update locals i l j) =
      ∑ j ∈ (Finset.range n).erase i, weight (locals j) := by
    apply sum_congr rfl
    intro j member
    rw [update_of_ne (ne_of_mem_erase member)]
  rw [total_split inside,total_split inside,update_self]
  omega

theorem total_unique (small : total n weight locals ≤ 1) (first : i < n) (second : j < n)
    (here : weight (locals i) ≠ 0) (there : weight (locals j) ≠ 0) : i = j := by
  by_contra apart
  have member : j ∈ (Finset.range n).erase i := Finset.mem_erase.mpr ⟨Ne.symm apart,Finset.mem_range.mpr second⟩
  have other := single_le_sum (f := fun k => weight (locals k)) (fun k _ => Nat.zero_le _) member
  rw [total_split first] at small
  omega

theorem total_exists (some : total n weight locals ≠ 0) : ∃ i < n, weight (locals i) ≠ 0 := by
  obtain ⟨i,member,weighs⟩ := exists_ne_zero_of_sum_ne_zero some
  exact ⟨i,Finset.mem_range.mp member,weighs⟩

theorem total_filter (p : Nat → Bool) : total n id (fun i => if p i then 1 else 0) = ((List.range n).filter p).length := by
  induction n with
  | zero => rfl
  | succ n ih =>
    simp only [total] at ih ⊢
    rw [sum_range_succ,ih,List.range_succ]
    by_cases inside : p n <;> simp [inside]

theorem total_none (none : total n weight locals = 0) (inside : i < n) : weight (locals i) = 0 :=
  Finset.sum_eq_zero_iff.mp none i (Finset.mem_range.mpr inside)

theorem total_zero (none : ∀ i, weight (locals i) = 0) : total n weight locals = 0 :=
  sum_eq_zero fun i _ => none i

end

end Threads

end SurfaceOS.Lib
