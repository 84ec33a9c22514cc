import SurfaceOS.Lib.Transition
import SurfaceOS.Sdk.Take

/-! The calls of a program on its heap: MemoryAllocate, MemoryFree and MemoryReallocate, with what the
kernel answers to a request for pages as an argument. Beside the heap the state remembers which blocks are
with the program, which were given back and which pages the heap has. -/
namespace SurfaceOS.Sdk
open Lib

/-- `other`: what else the kernel may say. -/
inductive Status
  | invalidParameter
  | outOfResources
  | other (code : Nat)
  deriving DecidableEq

def copy (m : Mem) (dest src : Nat) : Nat → Mem
  | 0 => m
  | n + 1 => Function.update (copy m dest src n) (dest + n) (copy m dest src n (src + n))

namespace Heap

def needOf (size : Nat) : Nat := max (heapHeader + (size + 15) / 16 * 16) minBlock

/-- The part of MemoryAllocate under the lock. No block after the pages came is an access to address 0,
where nothing is mapped: the program ends. -/
def obtainBlock (h : Heap) (need : Nat) (pages : Except Status Nat) : Option (Heap × Except Status Nat) :=
  match h.take need with
  | some (k,b) => some (k,.ok b)
  | none =>
    match pages with
    | .error status => some (h,.error status)
    | .ok a =>
      match (h.grow need a).take need with
      | some (k,b) => some (k,.ok b)
      | none => none

def allocate (h : Heap) (size : Nat) (buffer : Bool) (pages : Except Status Nat) : Option (Heap × Except Status Nat) :=
  if !buffer then some (h,.error .invalidParameter)
  else if maxAllocation < size then some (h,.error .outOfResources)
  else
    match h.obtainBlock (needOf size) pages with
    | none => none
    | some (k,.error status) => some (k,.error status)
    | some (k,.ok b) =>
      some ({k with mem := wipe k.mem (b + heapHeader) (k.size b - heapHeader)},.ok (b + heapHeader))

def free (h : Heap) (p : Nat) : Heap × Except Status Unit :=
  if p = 0 ∨ p % 16 ≠ 0 then (h,.error .invalidParameter)
  else if h.tag (p - heapHeader) ≠ tagUsed then (h,.error .invalidParameter)
  else (h.release (p - heapHeader),.ok ())

def reallocate (h : Heap) (p size : Nat) (newBuffer : Bool) (pages : Except Status Nat) :
    Option (Heap × Except Status Nat) :=
  if !newBuffer then some (h,.error .invalidParameter)
  else if p = 0 then h.allocate size true pages
  else if p % 16 ≠ 0 then some (h,.error .invalidParameter)
  else if h.tag (p - heapHeader) ≠ tagUsed then some (h,.error .invalidParameter)
  else
    let has := h.size (p - heapHeader) - heapHeader
    if size ≤ has then some ({h with mem := wipe h.mem (p + size) (has - size)},.ok p)
    else
      match h.allocate size true pages with
      | none => none
      | some (k,.error status) => some (k,.error status)
      | some (k,.ok bigger) => some (({k with mem := copy k.mem bigger p has}.free p).1,.ok bigger)

def asks (h : Heap) (size : Nat) : Bool := decide (size ≤ maxAllocation) && (h.take (needOf size)).isNone

end Heap

structure Live where
  block : Block
  asked : Nat
  deriving DecidableEq

def Live.data (l : Live) : Nat := l.block.addr + heapHeader

structure Program where
  heap : Heap
  live : List Live
  freed : List Block
  pages : List Block

instance (x y : Block) : Decidable (x.Apart y) := inferInstanceAs (Decidable (_ ∨ _))

inductive Call
  | allocate (size : Nat) (buffer : Bool) (pages : Except Status Nat)
  | free (p : Nat)
  | reallocate (p size : Nat) (newBuffer : Bool) (pages : Except Status Nat)
  | write (a : Nat) (byte : UInt8)

inductive Reply
  | nothing
  | buffer (p : Nat)
  | refused (status : Status)
  deriving DecidableEq

namespace Program

def grown (s : Program) (size : Nat) (pages : Except Status Nat) : List Block :=
  match s.heap.asks size,pages with
  | true, .ok a => ⟨a,Heap.growSize (Heap.needOf size)⟩ :: s.pages
  | _, _ => s.pages

/-- Address `p` was handed out. Blocks given back earlier that lie there are forgotten. -/
def handOut (s : Program) (h : Heap) (p size : Nat) : Program :=
  let b : Block := ⟨p - heapHeader,h.size (p - heapHeader)⟩
  {s with heap := h, live := ⟨b,size⟩ :: s.live, freed := s.freed.filter (b.Apart ·)}

def takeBack (s : Program) (h : Heap) (p : Nat) : Program :=
  {s with heap := h, live := s.live.filter (·.data ≠ p),
          freed := (s.live.filter (·.data = p)).map Live.block ++ s.freed}

def resize (s : Program) (h : Heap) (p size : Nat) : Program :=
  {s with heap := h, live := s.live.map fun l => if l.data = p then {l with asked := size} else l}

def step (s : Program) : Call → Option (Program × Reply)
  | .allocate size buffer pages =>
    match s.heap.allocate size buffer pages with
    | none => none
    | some (h,.error status) => some ({s with heap := h},.refused status)
    | some (h,.ok p) => some ({s with pages := s.grown size pages}.handOut h p size,.buffer p)
  | .free p =>
    match s.heap.free p with
    | (h,.error status) => some ({s with heap := h},.refused status)
    | (h,.ok ()) => some (s.takeBack h p,.nothing)
  | .reallocate p size newBuffer pages =>
    match s.heap.reallocate p size newBuffer pages with
    | none => none
    | some (h,.error status) => some ({s with heap := h},.refused status)
    | some (h,.ok q) =>
      if q = p then some (s.resize h p size,.buffer q)
      else some (({s with pages := s.grown size pages}.handOut h q size).takeBack h p,.buffer q)
  | .write a byte => some ({s with heap := {s.heap with mem := Function.update s.heap.mem a byte}},.nothing)

/-- What the kernel gives: pages of the program's page area that the heap does not have yet. -/
def Fresh (s : Program) (size : Nat) (pages : Except Status Nat) : Prop :=
  ∀ a, pages = .ok a → s.heap.asks size →
    sfPageSize ∣ a ∧ userMmapBase ≤ a ∧ a + Heap.growSize (Heap.needOf size) ≤ userMmapLimit ∧
      ∀ x ∈ s.pages, (Block.mk a (Heap.growSize (Heap.needOf size))).Apart x

/-- An address that the program has, had and gave back, or any other one; but then there is no header
of a used block that the program has made up. -/
def Honest (s : Program) (p : Nat) : Prop :=
  p = 0 ∨ p % 16 ≠ 0 ∨ (∃ l ∈ s.live, l.data = p) ∨ (∃ b ∈ s.freed, b.addr + heapHeader = p) ∨
    s.heap.tag (p - heapHeader) ≠ tagUsed

/-- The program writes only inside the sizes it asked for, or in memory that is not the heap's. -/
def Fair (s : Program) : Call → Prop
  | .allocate size _ pages => s.Fresh size pages
  | .free p => s.Honest p
  | .reallocate p size _ pages => s.Honest p ∧ s.Fresh size pages
  | .write a _ => (∃ l ∈ s.live, l.data ≤ a ∧ a < l.data + l.asked) ∨ ¬ Covers s.pages a

def Initial (s : Program) : Prop := s.heap.freeList = 0 ∧ s.live = [] ∧ s.freed = [] ∧ s.pages = []

abbrev Reached : Program → Prop := Reach Initial Fair fun s c t => ∃ reply, s.step c = some (t,reply)

/-- The free list is sorted, disjoint and fully merged; the blocks of the program are disjoint from each
other and from free ones, aligned and long enough; a block given back is not taken back once more. -/
structure Right (s : Program) (xs : List Block) : Prop where
  listed : Listed s.heap xs
  apart : s.live.Pairwise fun l k => l.block.Apart k.block
  free : ∀ l ∈ s.live, ∀ x ∈ xs, l.block.Apart x
  aligned : ∀ l ∈ s.live, 16 ∣ l.data
  long : ∀ l ∈ s.live, l.data + l.asked ≤ l.block.last
  once : ∀ b ∈ s.freed, s.heap.free (b.addr + heapHeader) = (s.heap,.error .invalidParameter)

def Lawful (s : Program) (t : Program) : Call → Reply → Prop
  | .allocate size _ _, .buffer p => ∃ l ∈ t.live, l.data = p ∧ l.asked = size ∧
      (∀ i, p ≤ i → i < l.block.last → t.heap.mem i = 0) ∧
      ∀ k ∈ s.live, k ∈ t.live ∧ ∀ i, k.block.Holds i → t.heap.mem i = s.heap.mem i
  | .free p, .nothing => ∀ k ∈ s.live, k.data ≠ p → k ∈ t.live ∧ ∀ i, k.block.Holds i → t.heap.mem i = s.heap.mem i
  | .reallocate p size _ _, .buffer q =>
    (∃ l ∈ t.live, l.data = q ∧ l.asked = size) ∧
    (p = 0 → ∀ i < size, t.heap.mem (q + i) = 0) ∧
    (∀ l ∈ s.live, l.data = p → (∀ i < min l.asked size, t.heap.mem (q + i) = s.heap.mem (p + i)) ∧
      ∀ i, l.asked ≤ i → i < size → t.heap.mem (q + i) = 0) ∧
    ∀ k ∈ s.live, k.data ≠ p → k ∈ t.live ∧ ∀ i, k.block.Holds i → t.heap.mem i = s.heap.mem i
  | .write _ _, .nothing => t.live = s.live
  | _, .refused _ => t = s
  | _, _ => False

end Program

end SurfaceOS.Sdk
