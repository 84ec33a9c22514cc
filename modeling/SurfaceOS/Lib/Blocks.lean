import Mathlib.Data.List.Basic
import Mathlib.Data.List.Pairwise

/-! Blocks of memory and lists of them that run through their own first words: a block holds its size
at its address and the address of the next block `d` behind it. Only the words are looked at, so any
memory that reads the same words has the same list. -/
namespace SurfaceOS.Lib
open List Nat

variable {b p : Block} {front init rest : List Block} {i limit start width : Nat}

structure Block where
  addr : Nat
  size : Nat
  deriving DecidableEq

variable {x y : Block}

namespace Block

def last (x : Block) : Nat := x.addr + x.size

def Holds (x : Block) (i : Nat) : Prop := x.addr ≤ i ∧ i < x.last

def Apart (x y : Block) : Prop := x.last ≤ y.addr ∨ y.last ≤ x.addr

theorem Apart.symm (apart : x.Apart y) : y.Apart x := Or.symm apart

theorem Apart.not_holds (apart : x.Apart y) (here : x.Holds i) : ¬ y.Holds i := by
  unfold Holds at *
  unfold Apart at apart
  omega

theorem apart_of_not_holds (large : 0 < x.size) (big : 0 < y.size)
    (never : ∀ i, x.Holds i → ¬ y.Holds i) : x.Apart y := by
  have first := never x.addr
  have second := never y.addr
  unfold Apart
  unfold Holds last at *
  omega

end Block

def Covers (xs : List Block) (i : Nat) : Prop := ∃ x ∈ xs, x.Holds i

theorem covers_append (xs ys : List Block) (i : Nat) : Covers (xs ++ ys) i ↔ Covers xs i ∨ Covers ys i := by
  simp [Covers,or_and_right,exists_or]

theorem covers_cons (x : Block) (xs : List Block) (i : Nat) : Covers (x :: xs) i ↔ x.Holds i ∨ Covers xs i := by
  simp [Covers]

def Gapped (xs : List Block) : Prop := xs.Pairwise fun x y => x.last < y.addr

def headAddr (stop : Nat) : List Block → Nat
  | [] => stop
  | x :: _ => x.addr

def Threaded (load : Nat → Nat) (d stop : Nat) : List Block → Prop
  | [] => True
  | x :: xs => load x.addr = x.size ∧ load (x.addr + d) = headAddr stop xs ∧ Threaded load d stop xs

section
variable {load after : Nat → Nat} {d stop : Nat} {xs ys : List Block}

theorem headAddr_append (stop : Nat) (xs ys : List Block) : headAddr stop (xs ++ ys) = headAddr (headAddr stop ys) xs := by
  cases xs with
  | nil => rfl
  | cons x xs => rfl

theorem threaded_append : Threaded load d stop (xs ++ ys) ↔
    Threaded load d (headAddr stop ys) xs ∧ Threaded load d stop ys := by
  induction xs with
  | nil => simp [Threaded]
  | cons x xs ih =>
    simp only [cons_append,Threaded,ih,headAddr_append]
    exact ⟨fun ⟨a,b,c,e⟩ => ⟨⟨a,b,c⟩,e⟩,fun ⟨⟨a,b,c⟩,e⟩ => ⟨a,b,c,e⟩⟩

theorem Threaded.congr (threaded : Threaded load d stop xs)
    (same : ∀ x ∈ xs, after x.addr = load x.addr ∧ after (x.addr + d) = load (x.addr + d)) :
    Threaded after d stop xs := by
  induction xs with
  | nil => trivial
  | cons x xs ih =>
    obtain ⟨size,link,rest⟩ := threaded
    obtain ⟨here,there⟩ := same x (mem_cons_self ..)
    exact ⟨here.trans size,there.trans link,ih rest fun y member => same y (mem_cons_of_mem x member)⟩

theorem Threaded.retarget (target : Nat)
    (threaded : Threaded load d stop (init ++ [p]))
    (same : ∀ x ∈ init, after x.addr = load x.addr ∧ after (x.addr + d) = load (x.addr + d))
    (size : after p.addr = load p.addr) (link : after (p.addr + d) = target) :
    Threaded after d target (init ++ [p]) := by
  rw [threaded_append] at threaded ⊢
  obtain ⟨front,back⟩ := threaded
  exact ⟨front.congr same,size.trans back.1,link,trivial⟩

theorem Threaded.absorb
    (threaded : Threaded load d stop (front ++ x :: y :: rest))
    (same : ∀ z ∈ front ++ rest, after z.addr = load z.addr ∧ after (z.addr + d) = load (z.addr + d))
    (size : after x.addr = x.size + y.size) (link : after (x.addr + d) = load (y.addr + d)) :
    Threaded after d stop (front ++ ⟨x.addr,x.size + y.size⟩ :: rest) := by
  rw [threaded_append] at threaded ⊢
  obtain ⟨before,-,-,-,next,behind⟩ := threaded
  refine ⟨before.congr fun z member => same z (mem_append_left _ member),size,link.trans next,?_⟩
  exact behind.congr fun z member => same z (mem_append_right _ member)

end

theorem gapped_split (xs : List Block) (gapped : Gapped xs) (a : Nat) (apart : ∀ x ∈ xs, x.addr ≠ a) :
    ∃ low high, xs = low ++ high ∧ (∀ x ∈ low, x.addr < a) ∧ ∀ x ∈ high, a < x.addr := by
  induction xs with
  | nil => exact ⟨[],[],rfl,by simp,by simp⟩
  | cons x xs ih =>
    obtain ⟨least,rest⟩ := pairwise_cons.mp gapped
    rcases Nat.lt_or_gt_of_ne (apart x (mem_cons_self ..)) with below | above
    · obtain ⟨low,high,rfl,under,beyond⟩ := ih rest fun y member => apart y (mem_cons_of_mem x member)
      exact ⟨x :: low,high,rfl,by simpa [below] using under,beyond⟩
    refine ⟨[],x :: xs,rfl,by simp,fun y member => ?_⟩
    rcases mem_cons.mp member with rfl | later
    · exact above
    · have := least y later
      unfold Block.last at this
      omega

section
variable {xs : List Block} (gapped : Gapped xs)
include gapped

theorem gapped_length
    (low : ∀ x ∈ xs, start ≤ x.addr) (wide : ∀ x ∈ xs, width ≤ x.size ∧ x.last ≤ limit) (bound : start ≤ limit) :
    start + width * xs.length ≤ limit := by
  induction xs generalizing start with
  | nil => simpa using bound
  | cons x xs ih =>
    obtain ⟨least,rest⟩ := pairwise_cons.mp gapped
    obtain ⟨large,inside⟩ := wide x (mem_cons_self ..)
    have here := low x (mem_cons_self ..)
    have later := ih rest (fun y member => Nat.le_of_lt (least y member))
      (fun y member => wide y (mem_cons_of_mem x member)) inside
    rw [length_cons,mul_succ]
    unfold Block.last at later
    omega

theorem Gapped.trichotomy (here : x ∈ xs) (there : y ∈ xs) : x = y ∨ x.last < y.addr ∨ y.last < x.addr := by
  let related (x y : Block) : Prop := x = y ∨ x.last < y.addr ∨ y.last < x.addr
  have symmetric : Std.Symm related := ⟨fun x y either => either.imp Eq.symm Or.symm⟩
  have pairs : xs.Pairwise related := gapped.imp fun less => .inr (.inl less)
  have itself (z : Block) (_ : z ∈ xs) : related z z := .inl rfl
  exact List.Pairwise.forall_of_forall itself pairs here there

theorem Gapped.single (some : 0 < b.size)
    (covered : ∀ i, b.Holds i → Covers xs i) : ∃ x ∈ xs, b.size ≤ x.size := by
  obtain ⟨x,member,first⟩ := covered b.addr ⟨Nat.le_refl _,by unfold Block.last; omega⟩
  refine ⟨x,member,Nat.not_lt.mp fun short => ?_⟩
  unfold Block.Holds Block.last at first
  obtain ⟨y,other,holds⟩ := covered x.last ⟨by unfold Block.last; omega,by unfold Block.last; omega⟩
  unfold Block.Holds at holds
  rcases gapped.trichotomy member other with rfl | less | more
  · omega
  · omega
  · unfold Block.last at *
    omega

end

end SurfaceOS.Lib
