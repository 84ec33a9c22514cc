import SurfaceOS.Lib.Memory

/-! The xHCI driver's memory (drivers/usb/xhci.cpp): a block inside one of kmalloc's, aligned, on one side of
each boundary, with the address to free right before it. -/
namespace SurfaceOS.Usb.Xhci
open Lib.Memory List Nat

def alignUp (x alignment : Nat) : Nat := (x + alignment - 1) % 2^64 &&& (2^64 - alignment)

/-- What kmalloc is asked for; the sum wraps. -/
def total (size alignment boundary : Nat) : Nat := (size + alignment + boundary + 8) % 2^64

def place (raw size alignment boundary : Nat) : Nat :=
  let aligned := alignUp (raw + 8) alignment
  let startRegion := aligned / boundary
  let endRegion := (aligned + size - 1) % 2^64 / boundary
  if boundary > 0 ∧ startRegion ≠ endRegion then alignUp (endRegion * boundary) alignment else aligned

/-- `raw` is what kmalloc gave for `total`; without a result the driver stops. -/
def allocXhciMemory (m : Nat → UInt8) (raw size alignment boundary : Nat) : Option (Nat × (Nat → UInt8)) :=
  if size = 0 ∨ alignment = 0 ∨ (boundary ≠ 0 ∧ size > boundary) then none
  else
    let aligned := place raw size alignment boundary
    some (aligned,patch (patch m (aligned - 8) (bytes64 raw)) aligned (replicate size 0))

/-- What goes to kfree. -/
def freeXhciMemory (m : Nat → UInt8) (ptr : Nat) : Option Nat := if ptr = 0 then none else some (le64 m (ptr - 8))

theorem and_mask {x k : Nat} (small : x < 2^64) (width : k ≤ 64) : x &&& (2^64 - 2^k) = x / 2^k * 2^k := by
  have mask : 2^64 - 2^k = (2^(64 - k) - 1) * 2^k := by
    rw [Nat.sub_mul,← Nat.pow_add,Nat.sub_add_cancel width,Nat.one_mul]
  apply eq_of_testBit_eq
  intro i
  rw [mask,testBit_and,testBit_mul_two_pow,testBit_mul_two_pow,testBit_two_pow_sub_one,testBit_div_two_pow]
  by_cases low : k ≤ i
  · rcases Nat.lt_or_ge i 64 with inside | high
    · simp [low,show i - k < 64 - k by omega,Nat.sub_add_cancel low]
    · have zero := testBit_lt_two_pow (Nat.lt_of_lt_of_le small (Nat.pow_le_pow_right (by decide) high))
      simp [zero,Nat.sub_add_cancel low]
  · simp [low]

section
variable {a b : Nat}

theorem alignUp_spec {x : Nat} (small : x + 2^a ≤ 2^64) :
    2^a ∣ alignUp x (2^a) ∧ x ≤ alignUp x (2^a) ∧ alignUp x (2^a) < x + 2^a := by
  have pos := Nat.two_pow_pos a
  have width : a ≤ 64 := (Nat.pow_le_pow_iff_right (by decide)).mp (Nat.le_trans (Nat.le_add_left ..) small)
  rw [alignUp,Nat.mod_eq_of_lt (by omega),and_mask (by omega) width]
  have parts := Nat.div_add_mod' (x + 2^a - 1) (2^a)
  have rest := Nat.mod_lt (x + 2^a - 1) pos
  exact ⟨Nat.dvd_mul_left ..,by omega,by omega⟩

theorem alignUp_of_dvd {x : Nat} (small : x + 2^a ≤ 2^64) (multiple : 2^a ∣ x) : alignUp x (2^a) = x := by
  obtain ⟨aligned,low,high⟩ := alignUp_spec small
  have step := (Nat.dvd_sub aligned multiple)
  have zero := Nat.eq_zero_of_dvd_of_lt step (by omega)
  omega

variable {raw size : Nat} (fits : size + 2^a + 2^b + 8 < 2^64) (given : raw + total size (2^a) (2^b) ≤ 2^64)
  (small : size ≤ 2^b) (finer : a ≤ b)
include fits given small finer

theorem place_spec (some : 0 < size) : 2^a ∣ place raw size (2^a) (2^b) ∧
    place raw size (2^a) (2^b) / 2^b = (place raw size (2^a) (2^b) + size - 1) / 2^b ∧
    raw + 8 ≤ place raw size (2^a) (2^b) ∧
    place raw size (2^a) (2^b) + size ≤ raw + total size (2^a) (2^b) := by
  have pos := Nat.two_pow_pos b
  have order : 2^a ≤ 2^b := Nat.pow_le_pow_right (by decide) finer
  rw [total,Nat.mod_eq_of_lt fits] at given ⊢
  obtain ⟨aligned,low,high⟩ := alignUp_spec (a := a) (x := raw + 8) (by omega)
  unfold place
  dsimp only
  generalize alignUp (raw + 8) (2^a) = first at *
  rw [Nat.mod_eq_of_lt (a := first + size - 1) (by omega)]
  split
  · next crosses =>
    have parts := Nat.div_add_mod' (first + size - 1) (2^b)
    have rest := Nat.mod_lt (first + size - 1) pos
    have later := Nat.lt_mul_of_div_lt (Nat.lt_of_le_of_ne (Nat.div_le_div_right (by omega)) crosses.2) pos
    generalize (first + size - 1) / 2^b = region at *
    rw [alignUp_of_dvd (by omega) (Nat.dvd_trans (Nat.pow_dvd_pow 2 finer) (Nat.dvd_mul_left ..))]
    refine ⟨Nat.dvd_trans (Nat.pow_dvd_pow 2 finer) (Nat.dvd_mul_left ..),?_,by omega,by omega⟩
    rw [Nat.mul_div_cancel _ pos]
    exact (Nat.div_eq_of_lt_le (by omega) (by rw [Nat.succ_mul]; omega)).symm
  · next stays =>
    exact ⟨aligned,by simpa [pos] using stays,low,by omega⟩

end

end SurfaceOS.Usb.Xhci
