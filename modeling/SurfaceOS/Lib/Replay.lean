import Mathlib.Data.List.Basic

/-! A journal of changes that can be taken back. A change fits a document when reverting it there
after applying it gives the document again; the changes of a journal fit one after the other. -/
namespace SurfaceOS.Lib

structure Reversible (D C : Type) where
  apply : C → D → D
  revert : C → D → D
  fits : C → D → Prop
  revert_apply : ∀ c d, fits c d → revert c (apply c d) = d

namespace Reversible
variable {D C : Type} (R : Reversible D C)

def replay (d : D) (cs : List C) : D := cs.foldl (fun d c => R.apply c d) d

def Fits (d : D) : List C → Prop
  | [] => True
  | c :: cs => R.fits c d ∧ Fits (R.apply c d) cs

theorem replay_append (d : D) (cs ds : List C) : R.replay d (cs ++ ds) = R.replay (R.replay d cs) ds :=
  List.foldl_append

theorem fits_append (d : D) (cs ds : List C) : R.Fits d (cs ++ ds) ↔ R.Fits d cs ∧ R.Fits (R.replay d cs) ds := by
  induction cs generalizing d with
  | nil => simp [Fits,replay]
  | cons c cs ih => simp [Fits,ih,replay,and_assoc]

theorem fits_take {d : D} {cs : List C} (fits : R.Fits d cs) (k : Nat) : R.Fits d (cs.take k) := by
  rw [← List.take_append_drop k cs,fits_append] at fits
  exact fits.1

section
variable {cs : List C} {k : Nat} {c : C} (here : cs[k]? = some c)
include here

theorem take_succ_eq : cs.take (k + 1) = cs.take k ++ [c] := by
  rw [List.take_add_one,here]
  rfl

theorem apply_replay {d : D} : R.apply c (R.replay d (cs.take k)) = R.replay d (cs.take (k + 1)) := by
  rw [take_succ_eq here,replay_append]
  rfl

end

section
variable {d : D} {cs : List C} {k : Nat} {c : C} (fits : R.Fits d cs) (here : cs[k]? = some c)
include fits here

theorem fits_at : R.fits c (R.replay d (cs.take k)) := by
  have upTo := R.fits_take fits (k + 1)
  rw [take_succ_eq here,fits_append] at upTo
  exact upTo.2.1

theorem revert_replay : R.revert c (R.replay d (cs.take (k + 1))) = R.replay d (cs.take k) := by
  rw [← R.apply_replay here]
  exact R.revert_apply c _ (R.fits_at fits here)

end

end Reversible
end SurfaceOS.Lib
