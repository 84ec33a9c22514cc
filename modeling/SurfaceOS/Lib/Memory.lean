import Mathlib.Algebra.Group.Nat.Defs
import Mathlib.Data.List.Basic

/-! Memory as a function from addresses: copying a list in, reading a range out, and the
little-endian numbers stored in bytes. -/
namespace SurfaceOS.Lib.Memory
open List Nat

variable {α : Type}

def patch (m : Nat → α) (a : Nat) (xs : List α) : Nat → α :=
  fun i => if a ≤ i then (xs[i - a]?).getD (m i) else m i

def slice (m : Nat → α) (a n : Nat) : List α := (range n).map fun i => m (a + i)

@[simp] theorem slice_length (m : Nat → α) (a n : Nat) : (slice m a n).length = n := by
  simp [slice]

theorem slice_getElem? (m : Nat → α) (a n i : Nat) (bound : i < n) : (slice m a n)[i]? = some (m (a + i)) := by
  simp [slice,bound]

section
variable (m : Nat → α) (a : Nat) (xs : List α) (i : Nat)
include m a xs i

theorem patch_before (before : i < a) : patch m a xs i = m i := by
  simp [patch,Nat.not_le.mpr before]

theorem patch_after (after : a + xs.length ≤ i) : patch m a xs i = m i := by
  have out : xs[i - a]? = none := getElem?_eq_none (by omega)
  simp [patch,out]

theorem patch_apart (apart : i < a ∨ a + xs.length ≤ i) : patch m a xs i = m i :=
  apart.elim (patch_before m a xs i) (patch_after m a xs i)

theorem patch_block {n q : Nat} (pos : 0 < n) (low : n * q ≤ a) (high : a + xs.length ≤ n * q + n)
    (other : i / n ≠ q) : patch m a xs i = m i := by
  have byte := Nat.mod_lt i pos
  have parts := Nat.div_add_mod i n
  rcases Nat.lt_or_gt_of_ne other with before | behind
  · have step := Nat.mul_le_mul_left n before
    rw [Nat.mul_succ] at step
    exact patch_before m a xs i (by omega)
  · have step := Nat.mul_le_mul_left n behind
    rw [Nat.mul_succ] at step
    exact patch_after m a xs i (by omega)

theorem patch_inside (bound : i < xs.length) : patch m a xs (a + i) = xs[i] := by
  simp [patch,bound]

theorem patch_at (low : a ≤ i) (high : i < a + xs.length) : patch m a xs i = xs.get ⟨i - a,by omega⟩ := by
  obtain ⟨k,rfl⟩ := Nat.exists_eq_add_of_le low
  simp only [Nat.add_sub_cancel_left]
  exact patch_inside m a xs k (by omega)

end

section
variable (m : Nat → α)
include m

@[simp] theorem patch_nil (a : Nat) : patch m a [] = m := by
  funext i
  simp [patch]

theorem patch_append (a : Nat) (xs ys : List α) : patch (patch m a xs) (a + xs.length) ys = patch m a (xs ++ ys) := by
  funext i
  rcases Nat.lt_or_ge i (a + xs.length) with before | behind
  · rw [patch_before _ _ _ _ before]
    unfold patch
    split
    · rw [getElem?_append_left (by omega)]
    · rfl
  · have low : a ≤ i := by omega
    have out : xs[i - a]? = none := getElem?_eq_none (by omega)
    simp [patch,behind,low,out,getElem?_append_right (show xs.length ≤ i - a by omega),Nat.sub_sub]

theorem slice_patch (a : Nat) (xs : List α) : slice (patch m a xs) a xs.length = xs := by
  apply ext_getElem (by simp)
  intro i left right
  simp [slice,patch_inside m a xs i right]

theorem slice_patch_apart (a : Nat) (xs : List α) (b n : Nat)
    (apart : b + n ≤ a ∨ a + xs.length ≤ b) : slice (patch m a xs) b n = slice m b n := by
  apply map_congr_left
  intro i member
  have bound := mem_range.mp member
  exact patch_apart m a xs (b + i) (by omega)

theorem slice_add (a n k : Nat) : slice m a (n + k) = slice m a n ++ slice m (a + n) k := by
  simp only [slice,range_add,map_append,map_map]
  congr 1
  exact map_congr_left fun i _ => by simp [Nat.add_assoc]

theorem slice_take (a n k : Nat) (small : k ≤ n) : (slice m a n).take k = slice m a k := by
  obtain ⟨rest,rfl⟩ := Nat.exists_eq_add_of_le small
  rw [slice_add,take_left' (slice_length m a k)]

theorem slice_drop (a n k : Nat) (small : k ≤ n) : (slice m a n).drop k = slice m (a + k) (n - k) := by
  obtain ⟨rest,rfl⟩ := Nat.exists_eq_add_of_le small
  rw [slice_add,drop_left' (slice_length m a k),Nat.add_sub_cancel_left]

theorem slice_splice (a n k : Nat) (xs : List α) (fits : k + xs.length ≤ n) :
    (slice m a n).take k ++ xs ++ (slice m a n).drop (k + xs.length) = slice (patch m (a + k) xs) a n := by
  rw [slice_take _ _ _ _ (by omega),slice_drop _ _ _ _ fits]
  obtain ⟨rest,rfl⟩ := Nat.exists_eq_add_of_le fits
  rw [slice_add,slice_add,slice_patch,slice_patch_apart _ _ _ _ _ (by omega),
    slice_patch_apart _ _ _ _ _ (by omega),Nat.add_sub_cancel_left]

end

theorem slice_congr (m k : Nat → α) (a n : Nat) (same : ∀ i < n, m (a + i) = k (a + i)) : slice m a n = slice k a n :=
  map_congr_left fun i member => same i (mem_range.mp member)

theorem flatMap_slice (m : Nat → Nat → α) (n width : Nat) (pos : 0 < width) :
    (List.range n).flatMap (fun i => slice (m i) 0 width) =
      slice (fun j => m (j / width) (j % width)) 0 (n * width) := by
  induction n with
  | zero => simp [slice]
  | succ n ih =>
    rw [range_succ,flatMap_append,succ_mul,slice_add]
    congr 1
    simp only [flatMap_cons,flatMap_nil,append_nil,slice]
    refine map_congr_left fun i member => ?_
    have small := mem_range.mp member
    have quotient : (n * width + i) / width = n := by
      rw [Nat.mul_comm,mul_add_div pos,div_eq_of_lt small,Nat.add_zero]
    have remainder : (n * width + i) % width = i := by
      rw [Nat.mul_comm,mul_add_mod,mod_eq_of_lt small]
    rw [Nat.zero_add,Nat.zero_add,quotient,remainder]

def le16 (m : Nat → UInt8) (a : Nat) : Nat := (m a).toNat + 256 * (m (a + 1)).toNat

def le32 (m : Nat → UInt8) (a : Nat) : Nat := le16 m a + 65536 * le16 m (a + 2)

def le64 (m : Nat → UInt8) (a : Nat) : Nat := le32 m a + 2^32 * le32 m (a + 4)

def bytes16 (v : Nat) : List UInt8 := [UInt8.ofNat v,UInt8.ofNat (v / 256)]

def bytes32 (v : Nat) : List UInt8 := bytes16 v ++ bytes16 (v / 65536)

def bytes64 (v : Nat) : List UInt8 := bytes32 v ++ bytes32 (v / 2^32)

@[simp] theorem bytes16_length (v : Nat) : (bytes16 v).length = 2 := rfl
@[simp] theorem bytes32_length (v : Nat) : (bytes32 v).length = 4 := rfl
@[simp] theorem bytes64_length (v : Nat) : (bytes64 v).length = 8 := rfl

theorem le16_congr (m k : Nat → UInt8) (a : Nat) (same : ∀ i, i < 2 → m (a + i) = k (a + i)) :
    le16 m a = le16 k a := by
  have first := same 0 (by omega)
  have second := same 1 (by omega)
  simp only [Nat.add_zero] at first
  simp only [le16,first,second]

theorem le32_congr (m k : Nat → UInt8) (a : Nat) (same : ∀ i, i < 4 → m (a + i) = k (a + i)) :
    le32 m a = le32 k a := by
  have low := le16_congr m k a (fun i bound => same i (by omega))
  have high := le16_congr m k (a + 2) (fun i bound => by
    rw [Nat.add_assoc]
    exact same (2 + i) (by omega))
  simp only [le32,low,high]

theorem le64_congr (m k : Nat → UInt8) (a : Nat) (same : ∀ i, i < 8 → m (a + i) = k (a + i)) :
    le64 m a = le64 k a := by
  have low := le32_congr m k a (fun i bound => same i (by omega))
  have high := le32_congr m k (a + 4) (fun i bound => by
    rw [Nat.add_assoc]
    exact same (4 + i) (by omega))
  simp only [le64,low,high]

section
variable (m : Nat → UInt8)
include m

theorem le16_lt (a : Nat) : le16 m a < 2^16 := by
  have low := (m a).toNat_lt
  have high := (m (a + 1)).toNat_lt
  simp only [le16]
  omega

theorem le32_lt (a : Nat) : le32 m a < 2^32 := by
  have low := le16_lt m a
  have high := le16_lt m (a + 2)
  simp only [le32]
  omega

theorem le32_patch (a v : Nat) : le32 (patch m a (bytes32 v)) a = v % 2^32 := by
  have at' (i : Nat) (bound : i < 4) := patch_inside m a (bytes32 v) i (by simpa using bound)
  have b0 := at' 0 (by omega)
  have b1 := at' 1 (by omega)
  have b2 := at' 2 (by omega)
  have b3 := at' 3 (by omega)
  simp only [Nat.add_zero,bytes32,bytes16,cons_append,nil_append,
    getElem_cons_zero,getElem_cons_succ] at b0 b1 b2 b3
  simp only [le32,le16,bytes32,bytes16,cons_append,nil_append,
    Nat.reduceAdd,b0,b1,b2,b3,UInt8.toNat_ofNat']
  omega

theorem le32_patch_apart (a : Nat) (xs : List UInt8) (b : Nat)
    (apart : b + 4 ≤ a ∨ a + xs.length ≤ b) : le32 (patch m a xs) b = le32 m b := by
  apply le32_congr
  intro i bound
  exact patch_apart m a xs (b + i) (by omega)

theorem le64_patch (a v : Nat) : le64 (patch m a (bytes64 v)) a = v % 2^64 := by
  have halves : patch m a (bytes64 v) = patch (patch m a (bytes32 v)) (a + 4) (bytes32 (v / 2^32)) :=
    (patch_append m a (bytes32 v) (bytes32 (v / 2^32))).symm
  rw [le64,halves,le32_patch,le32_patch_apart _ _ _ _ (.inl (Nat.le_refl _)),le32_patch]
  omega

theorem le64_patch_apart (a : Nat) (xs : List UInt8) (b : Nat)
    (apart : b + 8 ≤ a ∨ a + xs.length ≤ b) : le64 (patch m a xs) b = le64 m b := by
  apply le64_congr
  intro i bound
  exact patch_apart m a xs (b + i) (by omega)

end

end SurfaceOS.Lib.Memory
