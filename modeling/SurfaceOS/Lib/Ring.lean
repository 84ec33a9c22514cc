import Mathlib.Data.List.Basic

/-! A ring of `cap` cells holding `count` items from `head` on, as a queue. Writing
goes cell by cell and wraps; the queue reads the cells back in the same order. -/
namespace SurfaceOS.Lib.Ring
open Function List Nat

variable {α : Type}

def contents (cap : Nat) (data : Nat → α) (head count : Nat) : List α :=
  (List.range count).map fun i => data ((head + i) % cap)

def store (cap : Nat) (data : Nat → α) (pos : Nat) : List α → Nat → α
  | [] => data
  | x :: xs => store cap (update data (pos % cap) x) (pos + 1) xs

section
variable (cap : Nat) (data : Nat → α)
include cap data

@[simp] theorem contents_length (head count : Nat) : (contents cap data head count).length = count := by
  simp [contents]

theorem contents_add (head first second : Nat) : contents cap data head (first + second) =
      contents cap data head first ++ contents cap data (head + first) second := by
  simp [contents,range_add,Nat.add_assoc]

theorem contents_mod (head count : Nat) : contents cap data (head % cap) count = contents cap data head count := by
  simp [contents]

theorem contents_take (head count n : Nat) (bound : n ≤ count) : contents cap data head count =
      contents cap data head n ++ contents cap data ((head + n) % cap) (count - n) := by
  rw [contents_mod,← contents_add]
  congr 1
  omega

end

theorem mod_ne (cap i j : Nat) (less : i < j) (near : j < i + cap) : i % cap ≠ j % cap := by
  intro equal
  have divides : cap ∣ j - i := dvd_of_mod_eq_zero (sub_mod_eq_zero_of_mod_eq equal.symm)
  have := le_of_dvd (by omega) divides
  omega

section
variable (cap : Nat) (data : Nat → α)
include cap data

theorem store_other (pos : Nat) (xs : List α) (cell : Nat) (other : ∀ i, i < xs.length → cell ≠ (pos + i) % cap) :
    store cap data pos xs cell = data cell := by
  induction xs generalizing data pos with
  | nil => rfl
  | cons x xs ih =>
    rw [store,ih]
    · have first := other 0 (by simp)
      exact update_of_ne first _ _
    · intro i bound
      have next := other (i + 1) (by simpa using bound)
      rwa [show pos + 1 + i = pos + (i + 1) by omega]

theorem contents_store_old (head count : Nat) (xs : List α) (fits : count + xs.length ≤ cap) :
    contents cap (store cap data (head + count) xs) head count = contents cap data head count := by
  apply map_congr_left
  intro i member
  have bound := mem_range.mp member
  apply store_other
  intro j jBound
  exact mod_ne cap (head + i) (head + count + j) (by omega) (by omega)

theorem contents_store_new (pos : Nat) (xs : List α)
    (fits : xs.length ≤ cap) : contents cap (store cap data pos xs) pos xs.length = xs := by
  induction xs generalizing data pos with
  | nil => rfl
  | cons x xs ih =>
    have short : xs.length ≤ cap := by
      simp only [length_cons] at fits
      omega
    have first : contents cap (store cap (update data (pos % cap) x) (pos + 1) xs) pos 1
        = [x] := by
      have kept := store_other cap (update data (pos % cap) x) (pos + 1) xs (pos % cap)
        (fun i bound => mod_ne cap pos (pos + 1 + i) (by omega)
          (by simp only [length_cons] at fits; omega))
      simp [contents,kept]
    rw [store,length_cons,Nat.add_comm xs.length 1,contents_add,first,ih _ _ short]
    rfl

theorem store_append (pos : Nat) (xs ys : List α) :
    store cap data pos (xs ++ ys) = store cap (store cap data pos xs) (pos + xs.length) ys := by
  induction xs generalizing data pos with
  | nil => rfl
  | cons x xs ih =>
    rw [cons_append,store,ih,length_cons,Nat.add_comm xs.length,← Nat.add_assoc]
    rfl

/-- However often the writing wrapped, the last `n` items are where it ended. -/
theorem contents_store_last (pos n : Nat) (xs : List α) (fits : n ≤ cap) (short : n ≤ xs.length) :
    contents cap (store cap data pos xs) (pos + (xs.length - n)) n = xs.drop (xs.length - n) := by
  have split := store_append cap data pos (xs.take (xs.length - n)) (xs.drop (xs.length - n))
  rw [take_append_drop,length_take,Nat.min_eq_left (Nat.sub_le _ _)] at split
  have size : (xs.drop (xs.length - n)).length = n := by
    rw [length_drop]
    omega
  have new := contents_store_new cap (store cap data pos (xs.take (xs.length - n))) (pos + (xs.length - n))
    (xs.drop (xs.length - n)) (by omega)
  rw [size] at new
  rw [split,new]

theorem contents_store (head count : Nat) (xs : List α) (fits : count + xs.length ≤ cap) :
    contents cap (store cap data (head + count) xs) head (count + xs.length) =
      contents cap data head count ++ xs := by
  rw [contents_add,contents_store_old cap data head count xs fits,
    contents_store_new cap data _ xs (by omega)]

end

end SurfaceOS.Lib.Ring
