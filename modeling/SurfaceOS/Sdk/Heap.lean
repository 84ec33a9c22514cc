import SurfaceOS.Lib.Blocks
import SurfaceOS.Lib.Memory

/-! The heap of a program (sdk/runtime/memory.cpp): blocks with a header of two words in the memory they
describe, and a list of the free ones through that memory, in address order. -/
namespace SurfaceOS.Sdk
open Lib Lib.Memory List Nat

variable {c i rounds : Nat} {area : Nat → Prop} {rest front : List Block}

abbrev Mem := Nat → UInt8

def heapHeader : Nat := 16

def minBlock : Nat := 32

def heapGrowPages : Nat := 16

def sfPageSize : Nat := 4096

def maxAllocation : Nat := 2 ^ 40

def tagUsed : Nat := 0x444553554B4C4253

def tagFree : Nat := 0x454552464B4C4253

/-- The pages that the kernel gives out are in this part of the address space. -/
def userMmapBase : Nat := 0x10000000

def userMmapLimit : Nat := 0x40000000

def heapRounds : Nat := userMmapLimit / minBlock

def load (m : Mem) (a : Nat) : Nat := le64 m a

def store (m : Mem) (a v : Nat) : Mem := patch m a (bytes64 v)

def wipe (m : Mem) (a n : Nat) : Mem := fun i => if a ≤ i ∧ i < a + n then 0 else m i

structure Heap where
  mem : Mem
  freeList : Nat

namespace Heap

def size (h : Heap) (b : Nat) : Nat := load h.mem b

def tag (h : Heap) (b : Nat) : Nat := load h.mem (b + 8)

def next (h : Heap) (b : Nat) : Nat := load h.mem (b + 16)

def set (h : Heap) (a v : Nat) : Heap := {h with mem := store h.mem a v}

/-- The walk of Release: the free blocks around address `b`. -/
def seek (h : Heap) (b : Nat) : Nat → Nat → Nat → Nat × Nat
  | 0, prev, next => (prev,next)
  | rounds + 1, prev, next => if next ≠ 0 ∧ next < b then seek h b rounds next (h.next next) else (prev,next)

def relink (h : Heap) (prev next : Nat) : Heap :=
  if prev = 0 then {h with freeList := next} else h.set (prev + 16) next

def absorb (h : Heap) (x y : Nat) : Heap := (h.set x (h.size x + h.size y)).set (x + 16) (h.next y)

def mergeNext (h : Heap) (b next : Nat) : Heap := if next ≠ 0 ∧ b + h.size b = next then h.absorb b next else h

def mergePrev (h : Heap) (prev b : Nat) : Heap := if prev ≠ 0 ∧ prev + h.size prev = b then h.absorb prev b else h

def insert (h : Heap) (prev b next : Nat) : Heap := (h.set (b + 16) next).relink prev b

def release (h : Heap) (b : Nat) : Heap :=
  let h := h.set (b + 8) tagFree
  let around := h.seek b heapRounds 0 h.freeList
  ((h.insert around.1 b around.2).mergeNext b around.2).mergePrev around.1 b

def growSize (need : Nat) : Nat := max ((need + sfPageSize - 1) / sfPageSize) heapGrowPages * sfPageSize

def grow (h : Heap) (need a : Nat) : Heap := (h.set a (growSize need)).release a

/-- Block `b` is cut: what is behind the first `need` bytes is a free block. -/
def split (h : Heap) (b need : Nat) : Heap :=
  let tail := b + need
  (((h.set tail (h.size b - need)).set (tail + 8) tagFree).set (tail + 16) (h.next b)).set b need

/-- Block `b` goes off the list; what it has too much of stays free. -/
def carve (h : Heap) (prev b need : Nat) : Heap :=
  if minBlock ≤ h.size b - need then ((h.split b need).relink prev (b + need)).set (b + 8) tagUsed
  else (h.relink prev (h.next b)).set (b + 8) tagUsed

def takeFrom (h : Heap) (need : Nat) : Nat → Nat → Nat → Option (Heap × Nat)
  | 0, _, _ => none
  | rounds + 1, prev, b =>
    if b = 0 then none
    else if h.size b < need then takeFrom h need rounds b (h.next b)
    else some (h.carve prev b need,b)

def take (h : Heap) (need : Nat) : Option (Heap × Nat) := h.takeFrom need heapRounds 0 h.freeList

end Heap

variable {b x y : Block} {high low : List Block} {a stop v : Nat}

theorem load_store (m : Mem) {x : Nat} (aligned : 8 ∣ a) (also : 8 ∣ x) (small : v < 2 ^ 64) :
    load (store m a v) x = if x = a then v else load m x := by
  unfold load store
  split
  · next same => rw [same,le64_patch,mod_eq_of_lt small]
  apply le64_patch_apart
  rw [bytes64_length]
  omega

theorem store_outside (m : Mem) (outside : i < a ∨ a + 8 ≤ i) : store m a v i = m i :=
  patch_apart m a _ i outside

theorem load_congr {m k : Mem} (same : ∀ i, a ≤ i → i < a + 8 → m i = k i) : load m a = load k a :=
  le64_congr m k a fun i bound => same (a + i) (by omega) (by omega)

structure Sound (x : Block) : Prop where
  aligned : 16 ∣ x.addr
  rounded : 16 ∣ x.size
  large : minBlock ≤ x.size
  placed : 0 < x.addr
  inside : x.last ≤ userMmapLimit

/-- The free list is `xs`: in address order, disjoint and with used memory between any two blocks. -/
structure Listed (h : Heap) (xs : List Block) : Prop where
  head : h.freeList = headAddr 0 xs
  threaded : Threaded (load h.mem) 16 0 xs
  gapped : Gapped xs
  sound : ∀ x ∈ xs, Sound x

namespace Heap
variable {h : Heap} {xs : List Block}

theorem seek_spec {b : Nat} (prev : Nat)
    (threaded : Threaded (load h.mem) 16 0 (low ++ high)) (sound : ∀ x ∈ low ++ high, Sound x)
    (under : ∀ x ∈ low, x.addr < b) (beyond : ∀ x ∈ high, b < x.addr) (enough : low.length < rounds) :
    h.seek b rounds prev (headAddr 0 (low ++ high)) = ((low.getLast?.map Block.addr).getD prev,headAddr 0 high) := by
  induction low generalizing prev rounds with
  | nil =>
    obtain ⟨rounds,rfl⟩ := exists_eq_add_one_of_ne_zero (Nat.ne_of_gt enough)
    have stop : ¬ (headAddr 0 high ≠ 0 ∧ headAddr 0 high < b) := by
      cases high with
      | nil => simp [headAddr]
      | cons y high =>
        have := beyond y (mem_cons_self ..)
        simp only [headAddr]
        omega
    simp [seek,stop]
  | cons x low ih =>
    obtain ⟨rounds,rfl⟩ := exists_eq_add_one_of_ne_zero (Nat.ne_of_gt (Nat.lt_of_le_of_lt (zero_le _) enough))
    have placed := (sound x (mem_cons_self ..)).placed
    have below := under x (mem_cons_self ..)
    rw [cons_append] at threaded
    obtain ⟨-,link,rest⟩ := threaded
    have go : headAddr 0 (x :: low ++ high) ≠ 0 ∧ headAddr 0 (x :: low ++ high) < b :=
      ⟨Nat.ne_of_gt placed,below⟩
    have step := ih x.addr rest (fun y member => sound y (mem_cons_of_mem x member))
      (fun y member => under y (mem_cons_of_mem x member)) (lt_of_succ_lt_succ enough)
    rw [seek,if_pos go]
    change h.seek b rounds x.addr (load h.mem (x.addr + 16)) = _
    rw [link,step]
    cases low with
    | nil => rfl
    | cons y low => rw [getLast?_cons_cons]; rfl

theorem load_set (h : Heap) {x : Nat} (aligned : 8 ∣ a) (also : 8 ∣ x) (small : v < 2 ^ 64) :
    load (h.set a v).mem x = if x = a then v else load h.mem x := load_store h.mem aligned also small

structure Keeps (area : Nat → Prop) (h k : Heap) : Prop where
  bytes : ∀ i, ¬ area i → k.mem i = h.mem i
  tags : ∀ a, 16 ∣ a → k.tag a = h.tag a

theorem Keeps.refl (area : Nat → Prop) (h : Heap) : Keeps area h h := ⟨fun _ _ => rfl,fun _ _ => rfl⟩

theorem Keeps.trans {h k l : Heap} (one : Keeps area h k) (two : Keeps area k l) : Keeps area h l :=
  ⟨fun i outside => (two.bytes i outside).trans (one.bytes i outside),
    fun a aligned => (two.tags a aligned).trans (one.tags a aligned)⟩

theorem keeps_set (h : Heap) (sound : Sound x) (held : ∀ i, x.Holds i → area i)
    (place : a = x.addr ∨ a = x.addr + 16) : Keeps area h (h.set a v) := by
  obtain ⟨aligned,-,large,-,-⟩ := sound
  unfold minBlock at large
  refine ⟨fun i outside => store_outside h.mem ?_,fun c also => ?_⟩
  · have missed : ¬ x.Holds i := fun holds => outside (held i holds)
    unfold Block.Holds Block.last at missed
    omega
  apply le64_patch_apart
  rw [bytes64_length]
  omega

theorem words_apart (first : Sound x) (second : Sound y) (apart : x.Apart y) :
    x.addr ≠ y.addr ∧ x.addr ≠ y.addr + 16 ∧ x.addr + 16 ≠ y.addr ∧ x.addr + 16 ≠ y.addr + 16 := by
  have large := first.large
  have big := second.large
  unfold minBlock at large big
  unfold Block.Apart Block.last at apart
  omega

theorem threaded_set (threaded : Threaded (load h.mem) 16 stop xs) (sound : ∀ x ∈ xs, Sound x)
    (aligned : 8 ∣ a) (small : v < 2 ^ 64) (away : ∀ x ∈ xs, x.addr ≠ a ∧ x.addr + 16 ≠ a) :
    Threaded (load (h.set a v).mem) 16 stop xs := by
  refine threaded.congr fun x member => ?_
  have multiple := (sound x member).aligned
  rw [load_set h aligned (by omega) small,load_set h aligned (by omega) small,if_neg (away x member).1,
    if_neg (away x member).2]
  exact ⟨rfl,rfl⟩

theorem headAddr_lt (sound : ∀ x ∈ xs, Sound x) (small : stop < 2 ^ 64) : headAddr stop xs < 2 ^ 64 := by
  cases xs with
  | nil => exact small
  | cons x xs =>
    have inside := (sound x (mem_cons_self ..)).inside
    unfold Block.last userMmapLimit at inside
    simp only [headAddr]
    omega

theorem relink_spec (head : h.freeList = headAddr stop low)
    (threaded : Threaded (load h.mem) 16 stop low) (behind : Threaded (load h.mem) 16 0 rest)
    (sound : ∀ x ∈ low ++ rest, Sound x) (spaced : (low ++ rest).Pairwise Block.Apart) (area : Nat → Prop)
    (held : ∀ i, Covers low i → area i) : let k := h.relink ((low.getLast?.map Block.addr).getD 0) (headAddr 0 rest)
    k.freeList = headAddr 0 (low ++ rest) ∧ Threaded (load k.mem) 16 0 (low ++ rest) ∧ Keeps area h k := by
  have small : headAddr 0 rest < 2 ^ 64 :=
    headAddr_lt (fun x member => sound x (mem_append_right _ member)) (by omega)
  rcases eq_nil_or_concat low with rfl | ⟨init,p,rfl⟩
  · exact ⟨rfl,behind,fun _ _ => rfl,fun _ _ => rfl⟩
  rw [concat_eq_append] at *
  have last : Sound p := sound p (by simp)
  have away : p.addr ≠ 0 := Nat.ne_of_gt last.placed
  have multiple := last.aligned
  have shape : h.relink (((init ++ [p]).getLast?.map Block.addr).getD 0) (headAddr 0 rest) =
      h.set (p.addr + 16) (headAddr 0 rest) := by
    simp [relink,away]
  simp only [shape]
  have others (x : Block) (member : x ∈ init ++ rest) : x.addr ≠ p.addr + 16 ∧ x.addr + 16 ≠ p.addr + 16 := by
    have apart : x.Apart p := by
      rw [append_assoc,pairwise_append,singleton_append,pairwise_cons] at spaced
      rcases mem_append.mp member with before | after
      · exact spaced.2.2 x before p (mem_cons_self ..)
      · exact (spaced.2.1.1 x after).symm
    have isSound : Sound x := sound x (by
      rcases mem_append.mp member with before | after
      · exact mem_append_left _ (mem_append_left _ before)
      · exact mem_append_right _ after)
    have words := words_apart isSound last apart
    exact ⟨words.2.1,words.2.2.2⟩
  refine ⟨?_,?_,?_⟩
  · rw [headAddr_append]
    change h.freeList = _
    rw [head]
    cases init with
    | nil => rfl
    | cons y init => rfl
  · rw [threaded_append]
    have unchanged (x : Block) (member : x ∈ init ++ rest) :
        load (h.set (p.addr + 16) (headAddr 0 rest)).mem x.addr = load h.mem x.addr ∧
        load (h.set (p.addr + 16) (headAddr 0 rest)).mem (x.addr + 16) = load h.mem (x.addr + 16) := by
      have xAligned : 16 ∣ x.addr := (sound x (by
        rcases mem_append.mp member with before | after
        · exact mem_append_left _ (mem_append_left _ before)
        · exact mem_append_right _ after)).aligned
      rw [load_set h (by omega) (by omega) small,load_set h (by omega) (by omega) small,
        if_neg (others x member).1,if_neg (others x member).2]
      exact ⟨rfl,rfl⟩
    refine ⟨threaded.retarget _ (fun x member => unchanged x (mem_append_left _ member)) ?_ ?_,
      behind.congr fun x member => unchanged x (mem_append_right _ member)⟩
    · rw [load_set h (by omega) (by omega) small,if_neg (by omega)]
    · rw [load_set h (by omega) (by omega) small,if_pos rfl]
  · exact keeps_set h last (fun i holds => held i ⟨p,by simp,holds⟩) (.inr rfl)

theorem absorb_spec (threaded : Threaded (load h.mem) 16 0 (front ++ x :: y :: rest))
    (sound : ∀ z ∈ front ++ x :: y :: rest, Sound z) (spaced : (front ++ x :: y :: rest).Pairwise Block.Apart)
    (area : Nat → Prop) (held : ∀ i, x.Holds i → area i) : (h.absorb x.addr y.addr).freeList = h.freeList ∧
    Threaded (load (h.absorb x.addr y.addr).mem) 16 0 (front ++ ⟨x.addr,x.size + y.size⟩ :: rest) ∧
    Keeps area h (h.absorb x.addr y.addr) := by
  have isX : Sound x := sound x (by simp)
  have isY : Sound y := sound y (by simp)
  have multiple := isX.aligned
  have words := (threaded_append.mp threaded).2
  have sizeX : h.size x.addr = x.size := words.1
  have sizeY : h.size y.addr = y.size := words.2.2.1
  have link : h.next y.addr = headAddr 0 rest := words.2.2.2.1
  have smallSum : x.size + y.size < 2 ^ 64 := by
    have one := isX.inside
    have two := isY.inside
    unfold Block.last userMmapLimit at one two
    omega
  have smallLink : headAddr 0 rest < 2 ^ 64 :=
    headAddr_lt (fun z member => sound z (by simp [member])) (by omega)
  have shape : h.absorb x.addr y.addr = (h.set x.addr (x.size + y.size)).set (x.addr + 16) (headAddr 0 rest) := by
    rw [absorb,sizeX,sizeY,link]
  have read (a : Nat) (aligned : 8 ∣ a) : load (h.absorb x.addr y.addr).mem a =
      if a = x.addr + 16 then headAddr 0 rest else if a = x.addr then x.size + y.size else load h.mem a := by
    rw [shape,load_set _ (by omega) aligned smallLink,load_set _ (by omega) aligned smallSum]
  refine ⟨rfl,threaded.absorb (fun z member => ?_) ?_ ?_,?_⟩
  · have inList : z ∈ front ++ x :: y :: rest := by
      rcases mem_append.mp member with before | after
      · exact mem_append_left _ before
      · exact mem_append_right _ (by simp [after])
    have isZ := sound z inList
    have aligned := isZ.aligned
    have apart : z.Apart x := by
      rw [pairwise_append,pairwise_cons] at spaced
      rcases mem_append.mp member with before | after
      · exact spaced.2.2 z before x (mem_cons_self ..)
      · exact (spaced.2.1.1 z (mem_cons_of_mem y after)).symm
    obtain ⟨one,two,three,four⟩ := words_apart isZ isX apart
    rw [read z.addr (by omega),read (z.addr + 16) (by omega),if_neg two,if_neg one,if_neg four,if_neg three]
    exact ⟨rfl,rfl⟩
  · rw [read x.addr (by omega),if_neg (by omega),if_pos rfl]
  · rw [read (x.addr + 16) (by omega),if_pos rfl]
    exact link.symm
  · rw [shape]
    exact (keeps_set h isX held (.inl rfl)).trans (keeps_set _ isX held (.inr rfl))

theorem gapped_apart (gapped : Gapped xs) : xs.Pairwise Block.Apart :=
  gapped.imp fun less => .inl (Nat.le_of_lt less)

theorem sound_union (isX : Sound x) (isY : Sound y) (next : x.last = y.addr) : Sound ⟨x.addr,x.size + y.size⟩ := by
  refine ⟨isX.aligned,Nat.dvd_add isX.rounded isY.rounded,le_add_right_of_le isX.large,isX.placed,?_⟩
  have := isY.inside
  unfold Block.last at *
  simp only
  omega

theorem sound_insert (sound : Sound b) (others : ∀ x ∈ low ++ rest, Sound x) (part : high ⊆ rest) :
    ∀ x ∈ low ++ b :: high, Sound x := by
  intro x member
  rcases mem_append.mp member with before | after
  · exact others x (mem_append_left _ before)
  · rcases mem_cons.mp after with rfl | later
    · exact sound
    · exact others x (mem_append_right _ (part later))

theorem holds_union (next : x.last = y.addr) (i : Nat) :
    (Block.mk x.addr (x.size + y.size)).Holds i ↔ x.Holds i ∨ y.Holds i := by
  unfold Block.Holds Block.last at *
  simp only
  omega

structure Placed (h : Heap) (low : List Block) (b : Block) (high : List Block) : Prop where
  head : h.freeList = headAddr 0 (low ++ b :: high)
  threaded : Threaded (load h.mem) 16 0 (low ++ b :: high)
  lower : Gapped low
  higher : Gapped high
  under : ∀ x ∈ low, x.last ≤ b.addr
  beyond : ∀ x ∈ high, b.last ≤ x.addr
  sound : ∀ x ∈ low ++ b :: high, Sound x

section
variable (placed : Placed h low b high)
include placed

theorem Placed.apart : (low ++ b :: high).Pairwise Block.Apart := by
  rw [pairwise_append,pairwise_cons]
  refine ⟨gapped_apart placed.lower,⟨fun x member => .inl (placed.beyond x member),gapped_apart placed.higher⟩,
    fun x before y member => ?_⟩
  rcases mem_cons.mp member with rfl | after
  · exact .inl (placed.under x before)
  · have one := placed.under x before
    have two := placed.beyond y after
    exact .inl (by unfold Block.last at *; omega)

theorem Placed.mergeHigh (area : Nat → Prop) (held : ∀ i, b.Holds i → area i) :
    ∃ c rest, c.addr = b.addr ∧ Placed (h.mergeNext b.addr (headAddr 0 high)) low c rest ∧
      (∀ x ∈ rest, c.last < x.addr) ∧ (∀ i, Covers (c :: rest) i ↔ Covers (b :: high) i) ∧
      Keeps area h (h.mergeNext b.addr (headAddr 0 high)) := by
  have size : h.size b.addr = b.size := (threaded_append.mp placed.threaded).2.1
  simp only [mergeNext,size]
  cases high with
  | nil =>
    refine ⟨b,[],rfl,?_,by simp,fun _ => Iff.rfl,?_⟩
    · simpa [headAddr] using placed
    · simpa [headAddr] using Keeps.refl area h
  | cons c high =>
    have isB : Sound b := placed.sound b (by simp)
    have isC : Sound c := placed.sound c (by simp)
    have someNext : c.addr ≠ 0 := Nat.ne_of_gt isC.placed
    obtain ⟨least,rest⟩ := pairwise_cons.mp placed.higher
    by_cases touches : b.addr + b.size = c.addr
    · simp only [headAddr,someNext,touches,ne_eq,not_false_eq_true,and_self,if_true]
      obtain ⟨list,threaded,keeps⟩ := absorb_spec placed.threaded placed.sound placed.apart area held
      have merged := sound_union isB isC touches
      have ends : (Block.mk b.addr (b.size + c.size)).last = c.last := by
        unfold Block.last
        simp only
        omega
      refine ⟨⟨b.addr,b.size + c.size⟩,high,rfl,⟨?_,threaded,placed.lower,rest,placed.under,?_,?_⟩,?_,?_,keeps⟩
      · rw [list,placed.head,headAddr_append,headAddr_append]
        rfl
      · intro x member
        rw [ends]
        exact Nat.le_of_lt (least x member)
      · exact sound_insert merged placed.sound (by simp)
      · intro x member
        rw [ends]
        exact least x member
      · intro i
        rw [covers_cons,covers_cons,covers_cons,holds_union touches,or_assoc]
    · simp only [headAddr,touches,and_false]
      refine ⟨b,c :: high,rfl,placed,fun x member => ?_,fun _ => Iff.rfl,Keeps.refl area h⟩
      have first := placed.beyond c (mem_cons_self ..)
      rcases mem_cons.mp member with rfl | later
      · unfold Block.last at *
        omega
      · have second := least x later
        unfold Block.last at *
        omega

theorem Placed.mergeLow (gap : ∀ x ∈ high, b.last < x.addr) (area : Nat → Prop) (held : ∀ i, Covers low i → area i) :
    let k := h.mergePrev ((low.getLast?.map Block.addr).getD 0) b.addr
    ∃ ys, Listed k ys ∧ (∀ i, Covers ys i ↔ Covers (low ++ b :: high) i) ∧ Keeps area h k := by
  simp only [mergePrev]
  rcases eq_nil_or_concat low with rfl | ⟨init,p,rfl⟩
  · refine ⟨b :: high,⟨?_,?_,?_,?_⟩,fun _ => Iff.rfl,?_⟩
    · simpa using placed.head
    · simpa using placed.threaded
    · exact pairwise_cons.mpr ⟨gap,placed.higher⟩
    · exact placed.sound
    · simpa using Keeps.refl area h
  rw [concat_eq_append] at *
  have isP : Sound p := placed.sound p (by simp)
  have isB : Sound b := placed.sound b (by simp)
  have somePrev : p.addr ≠ 0 := Nat.ne_of_gt isP.placed
  have shape : init ++ [p] ++ b :: high = init ++ p :: b :: high := by simp
  have threaded := placed.threaded
  rw [shape] at threaded
  have size : h.size p.addr = p.size := (threaded_append.mp threaded).2.1
  have isLast : (((init ++ [p]).getLast?).map Block.addr).getD 0 = p.addr := by simp
  obtain ⟨inits,-,order⟩ := pairwise_append.mp placed.lower
  simp only [isLast,size,ne_eq,somePrev,not_false_eq_true,true_and]
  by_cases touches : p.addr + p.size = b.addr
  · rw [if_pos touches]
    have spaced := placed.apart
    have sound := placed.sound
    rw [shape] at spaced sound
    obtain ⟨list,joined,keeps⟩ := absorb_spec threaded sound spaced area
      (fun i holds => held i ⟨p,by simp,holds⟩)
    have merged := sound_union isP isB touches
    have ends : (Block.mk p.addr (p.size + b.size)).last = b.last := by
      unfold Block.last
      simp only
      omega
    refine ⟨init ++ ⟨p.addr,p.size + b.size⟩ :: high,⟨?_,joined,?_,?_⟩,?_,keeps⟩
    · rw [list,placed.head,shape,headAddr_append,headAddr_append]
      rfl
    · refine pairwise_append.mpr ⟨inits,pairwise_cons.mpr ⟨fun x member => ?_,placed.higher⟩,
        fun x before y member => ?_⟩
      · rw [ends]
        exact gap x member
      have first := order x before p (mem_singleton_self p)
      rcases mem_cons.mp member with rfl | later
      · exact first
      · have second := gap y later
        unfold Block.last at *
        omega
    · exact sound_insert merged sound (by simp)
    · intro i
      rw [shape,covers_append,covers_append,covers_cons,covers_cons,covers_cons,holds_union touches,or_assoc]
  · rw [if_neg touches]
    refine ⟨init ++ [p] ++ b :: high,⟨placed.head,placed.threaded,?_,placed.sound⟩,fun _ => Iff.rfl,Keeps.refl area h⟩
    refine pairwise_append.mpr ⟨placed.lower,pairwise_cons.mpr ⟨gap,placed.higher⟩,
      fun x before y member => ?_⟩
    have first : x.last < b.addr := by
      have atMost := placed.under x before
      rcases mem_append.mp before with inner | last
      · have second := order x inner p (mem_singleton_self p)
        have third := placed.under p (by simp)
        unfold Block.last at *
        omega
      · obtain rfl := mem_singleton.mp last
        unfold Block.last at *
        omega
    rcases mem_cons.mp member with rfl | later
    · exact first
    · have second := gap y later
      unfold Block.last at *
      omega

end

theorem set_bytes (h : Heap) (start : x.addr ≤ a) (stop : a + 8 ≤ x.last)
    (outside : ¬ x.Holds i) : (h.set a v).mem i = h.mem i := by
  apply store_outside
  unfold Block.Holds at outside
  omega

theorem tag_set (h : Heap) (v : Nat) (aligned : 16 ∣ a) (also : 16 ∣ c) : (h.set a v).tag c = h.tag c := by
  apply le64_patch_apart
  rw [bytes64_length]
  omega

theorem tag_set_tag (h : Heap) (aligned : 16 ∣ a) (also : 16 ∣ c) (small : v < 2 ^ 64) :
    (h.set (a + 8) v).tag c = if c = a then v else h.tag c := by
  rw [tag,load_set h (by omega) (by omega) small]
  by_cases same : c = a
  · rw [if_pos same,if_pos (by omega)]
  · rw [if_neg same,if_neg (by omega)]
    rfl

theorem listed_length (listed : Listed h xs) : xs.length < heapRounds := by
  cases xs with
  | nil => decide
  | cons x rest =>
    have room := gapped_length listed.gapped (fun y member => (listed.sound y member).placed)
      (fun y member => ⟨(listed.sound y member).large,(listed.sound y member).inside⟩) (by decide)
    unfold heapRounds
    unfold minBlock userMmapLimit at *
    omega

theorem insert_spec (listed : Listed h (low ++ high)) (sound : Sound b)
    (under : ∀ x ∈ low, x.last ≤ b.addr) (beyond : ∀ x ∈ high, b.last ≤ x.addr) (size : h.size b.addr = b.size)
    (area : Nat → Prop) (held : ∀ i, Covers low i ∨ b.Holds i → area i) :
    let k := h.insert ((low.getLast?.map Block.addr).getD 0) b.addr (headAddr 0 high)
    Placed k low b high ∧ Keeps area h k := by
  have aligned := sound.aligned
  obtain ⟨lower,higher,between⟩ := pairwise_append.mp listed.gapped
  have others (x : Block) (member : x ∈ low ++ high) := words_apart (listed.sound x member) sound (by
    rcases mem_append.mp member with before | after
    · exact .inl (under x before)
    · exact .inr (beyond x after))
  have small : headAddr 0 high < 2 ^ 64 :=
    headAddr_lt (fun x member => listed.sound x (mem_append_right _ member)) (by decide)
  let linked := h.set (b.addr + 16) (headAddr 0 high)
  have kept : Threaded (load linked.mem) 16 0 (low ++ high) :=
    threaded_set listed.threaded listed.sound (by omega) small fun x member =>
      ⟨(others x member).2.1,(others x member).2.2.2⟩
  obtain ⟨front,back⟩ := threaded_append.mp kept
  have behind : Threaded (load linked.mem) 16 0 (b :: high) := by
    refine ⟨?_,?_,back⟩
    · rw [load_set h (by omega) (by omega) small,if_neg (by omega)]
      exact size
    · rw [load_set h (by omega) (by omega) small,if_pos rfl]
  have allSound := sound_insert sound listed.sound (Subset.refl high)
  have spaced : (low ++ b :: high).Pairwise Block.Apart := by
    refine pairwise_append.mpr ⟨gapped_apart lower,
      pairwise_cons.mpr ⟨fun x member => .inl (beyond x member),gapped_apart higher⟩,fun x first y second => ?_⟩
    rcases mem_cons.mp second with rfl | later
    · exact .inl (under x first)
    · exact .inl (Nat.le_of_lt (between x first y later))
  have head : linked.freeList = headAddr (headAddr 0 high) low := by
    rw [← headAddr_append]
    exact listed.head
  obtain ⟨list,joined,keeps⟩ := relink_spec head front behind allSound spaced area fun i holds => held i (.inl holds)
  exact ⟨⟨list,joined,lower,higher,under,beyond,allSound⟩,
    (keeps_set h sound (fun i holds => held i (.inr holds)) (.inr rfl)).trans keeps⟩

theorem Listed.tagged {b : Nat} (listed : Listed h xs) (aligned : 16 ∣ b) (small : v < 2 ^ 64) :
    Listed (h.set (b + 8) v) xs := by
  refine ⟨listed.head,?_,listed.gapped,listed.sound⟩
  refine threaded_set listed.threaded listed.sound (by omega) small fun x member => ?_
  have multiple := (listed.sound x member).aligned
  omega

theorem release_spec (listed : Listed h xs) (sound : Sound b) (away : ∀ x ∈ xs, b.Apart x)
    (size : h.size b.addr = b.size) :
    ∃ ys, Listed (h.release b.addr) ys ∧ (∀ i, Covers ys i ↔ Covers xs i ∨ b.Holds i) ∧
      (∀ i, ¬ Covers xs i → ¬ b.Holds i → (h.release b.addr).mem i = h.mem i) ∧
      ∀ a, 16 ∣ a → (h.release b.addr).tag a = if a = b.addr then tagFree else h.tag a := by
  have aligned := sound.aligned
  have large := sound.large
  unfold minBlock at large
  have tagged : Listed (h.set (b.addr + 8) tagFree) xs := Listed.tagged listed aligned (by decide)
  have sizeTagged : (h.set (b.addr + 8) tagFree).size b.addr = b.size := by
    rw [Heap.size,load_set h (by omega) (by omega) (by decide),if_neg (by omega)]
    exact size
  obtain ⟨low,high,rfl,under,beyond⟩ := gapped_split xs listed.gapped b.addr fun x member =>
    (words_apart (listed.sound x member) sound (away x member).symm).1
  have count := listed_length listed
  rw [length_append] at count
  have found := seek_spec 0 tagged.threaded listed.sound under beyond (Nat.lt_of_le_of_lt (Nat.le_add_right ..) count)
  rw [← tagged.head] at found
  have before (x : Block) (member : x ∈ low) : x.last ≤ b.addr := by
    have less := under x member
    rcases away x (mem_append_left _ member) with one | two
    · unfold Block.last at one
      omega
    · exact two
  have after (x : Block) (member : x ∈ high) : b.last ≤ x.addr := by
    have less := beyond x member
    rcases away x (mem_append_right _ member) with one | two
    · exact one
    · unfold Block.last at two
      omega
  let area (i : Nat) : Prop := Covers (low ++ high) i ∨ b.Holds i
  obtain ⟨placed,keepsLink⟩ := insert_spec tagged sound before after sizeTagged area
    fun i holds => holds.imp_left fun inLow => (covers_append ..).mpr (.inl inLow)
  obtain ⟨c,rest,same,placedHigh,gap,covered,keepsHigh⟩ := placed.mergeHigh area fun i holds => .inr holds
  obtain ⟨ys,isListed,all,keepsLow⟩ := placedHigh.mergeLow gap area
    fun i holds => .inl ((covers_append ..).mpr (.inl holds))
  rw [same] at isListed keepsLow
  have keeps := (keepsLink.trans keepsHigh).trans keepsLow
  simp only [release,found]
  refine ⟨ys,isListed,fun i => ?_,fun i outside missed => ?_,fun a multiple => ?_⟩
  · rw [all,covers_append,covered,covers_append,covers_cons,or_assoc]
    exact or_congr_right or_comm
  · rw [keeps.bytes i (not_or.mpr ⟨outside,missed⟩)]
    exact set_bytes h (Nat.le_add_right ..) (by unfold Block.last; omega) missed
  · rw [keeps.tags a multiple]
    exact tag_set_tag h aligned multiple (by decide)

end Heap

end SurfaceOS.Sdk
