import Mathlib.Data.List.Basic
import SurfaceOS.Lib.Transition

/-! The kernel's heap (mm/heap.cpp): blocks in address order, each with a header before its bytes. -/
namespace SurfaceOS.Mm.Kheap
open Lib List Option

def headerSize : Nat := 24

def minBlockData : Nat := 16

/-- `GROW_FRAMES` of `FRAME_SIZE` bytes. -/
def growSize : Nat := 256 * 4096

def align8 (size : Nat) : Nat := (size + 7) % 2^64 / 8 * 8

structure Block where
  addr : Nat
  size : Nat
  free : Bool
  deriving DecidableEq

def Block.stop (b : Block) : Nat := b.addr + headerSize + b.size

/-- `try_merge_with_next` on the first block. -/
def tryMerge : List Block → List Block
  | b :: n :: rest =>
    if b.free ∧ n.free ∧ b.stop = n.addr then {b with size := b.size + headerSize + n.size} :: rest else b :: n :: rest
  | short => short

/-- The part of `heap_insert_chunk` behind a block that lies before the chunk. -/
def insertAfter (block prev : Block) : List Block → List Block
  | [] => tryMerge (prev :: tryMerge [block])
  | n :: rest =>
    if n.addr < block.addr then prev :: insertAfter block n rest else tryMerge (prev :: tryMerge (block :: n :: rest))

def insertChunk (chunk size : Nat) : List Block → List Block
  | [] => tryMerge [⟨chunk,size - headerSize,true⟩]
  | b :: rest =>
    if chunk < b.addr then tryMerge (⟨chunk,size - headerSize,true⟩ :: b :: rest)
    else insertAfter ⟨chunk,size - headerSize,true⟩ b rest

/-- The address that is handed out, and the blocks afterwards. -/
def findFit (size : Nat) : List Block → Option (Nat × List Block)
  | [] => none
  | b :: rest =>
    if b.free ∧ size ≤ b.size then
      if (size + headerSize + minBlockData) % 2^64 ≤ b.size then
        some (b.addr + headerSize,⟨b.addr,size,false⟩ ::
          ⟨b.addr + headerSize + size,b.size - size - headerSize,true⟩ :: rest)
      else some (b.addr + headerSize,{b with free := false} :: rest)
    else (findFit size rest).map fun (p,rest) => (p,b :: rest)

/-- `heap::grow` and a new search, as long as `pmm::alloc_frames` gives chunks. -/
def growLoop (size : Nat) (heap : List Block) : List Nat → Option Nat × List Block
  | [] => (none,heap)
  | chunk :: chunks =>
    match findFit size (insertChunk chunk growSize heap) with
    | some (p,after) => (some p,after)
    | none => growLoop size (insertChunk chunk growSize heap) chunks

def kmalloc (size : Nat) (heap : List Block) (chunks : List Nat) : Option Nat × List Block :=
  if size = 0 then (none,heap)
  else match findFit (align8 size) heap with
    | some (p,after) => (some p,after)
    | none => growLoop (align8 size) heap chunks

def kfree (p : Nat) : List Block → List Block
  | [] => []
  | b :: rest =>
    if b.addr + headerSize = p then tryMerge ({b with free := true} :: rest)
    else if (rest.head?.map Block.addr).any (· + headerSize = p) then tryMerge (b :: kfree p rest)
    else b :: kfree p rest

/-- Chunks that `pmm::alloc_frames` may give: memory that no block of the heap has. -/
def Fresh (heap : List Block) : List Nat → Prop
  | [] => True
  | chunk :: chunks => 4096 ≤ chunk ∧ chunk + growSize ≤ 2^64 ∧
      (∀ b ∈ heap, b.stop ≤ chunk ∨ chunk + growSize ≤ b.addr) ∧ Fresh (insertChunk chunk growSize heap) chunks

inductive Call
  | kmalloc (size : Nat) (chunks : List Nat)
  | kfree (p : Nat)

def call (heap : List Block) : Call → List Block
  | .kmalloc size chunks => (kmalloc size heap chunks).2
  | .kfree p => kfree p heap

def Fair (heap : List Block) : Call → Prop
  | .kmalloc _ chunks => Fresh heap chunks
  | .kfree _ => True

/-- What `heap::init` makes of a region. -/
def Initial (heap : List Block) : Prop := ∃ start size, 4096 ≤ start ∧ headerSize ≤ size ∧ start + size ≤ 2^64 ∧
  heap = [⟨start,size - headerSize,true⟩]

abbrev Reached : List Block → Prop := Reach Initial Fair fun heap c after => after = call heap c

/-- A call that hands out memory hands out a block with enough bytes. The blocks in use stay as they are, apart
from it. -/
def Right (size : Nat) (heap : List Block) (chunks : List Nat) : Prop :=
  ∀ p, (kmalloc size heap chunks).1 = some p → ∃ b ∈ (kmalloc size heap chunks).2, b.free = false ∧
    b.addr + headerSize = p ∧ size ≤ b.size ∧ ∀ c ∈ heap, c.free = false →
      c ∈ (kmalloc size heap chunks).2 ∧ (b.stop ≤ c.addr ∨ c.stop ≤ b.addr)

/-- The blocks lie one behind the other, from `low` on. -/
def Ordered (low : Nat) : List Block → Prop
  | [] => True
  | b :: rest => low ≤ b.addr ∧ b.stop ≤ 2^64 ∧ Ordered b.stop rest

variable {low : Nat} {heap : List Block}

theorem Ordered.merged (ordered : Ordered low heap) : Ordered low (tryMerge heap) := by
  unfold tryMerge
  split
  · next b n rest =>
    split
    · next touching =>
      obtain ⟨above,-,-,inside,behind⟩ := ordered
      have ends : Block.stop {b with size := b.size + headerSize + n.size} = n.stop := by
        have := touching.2.2
        simp only [Block.stop] at *
        omega
      exact ⟨above,ends ▸ inside,ends ▸ behind⟩
    · exact ordered
  · exact ordered

theorem Ordered.above (ordered : Ordered low heap) : ∀ b ∈ heap, low ≤ b.addr ∧ b.stop ≤ 2^64 := by
  induction heap generalizing low with
  | nil => simp
  | cons b rest ih =>
    refine forall_mem_cons.mpr ⟨⟨ordered.1,ordered.2.1⟩,fun c member => ?_⟩
    have later := ih ordered.2.2 c member
    have first := ordered.1
    unfold Block.stop at later ⊢
    omega

theorem Ordered.apart (ordered : Ordered low heap) {b c : Block} (first : b ∈ heap) (second : c ∈ heap) (other : c ≠ b) :
    b.stop ≤ c.addr ∨ c.stop ≤ b.addr := by
  induction heap generalizing low with
  | nil => cases first
  | cons a rest ih =>
    have later := ordered.2.2.above
    rcases mem_cons.mp first with rfl | inFirst <;> rcases mem_cons.mp second with rfl | inSecond
    · exact absurd rfl other
    · exact .inl (later c inSecond).1
    · exact .inr (later b inFirst).1
    · exact ih ordered.2.2 inFirst inSecond

theorem Ordered.insertAfter {block prev : Block} (inside : block.stop ≤ 2^64) (ordered : Ordered low (prev :: heap))
    (before : prev.stop ≤ block.addr) (apart : ∀ b ∈ heap, b.stop ≤ block.addr ∨ block.stop ≤ b.addr) :
    Ordered low (insertAfter block prev heap) := by
  induction heap generalizing low prev with
  | nil => exact Ordered.merged ⟨ordered.1,ordered.2.1,before,inside,trivial⟩
  | cons n rest ih =>
    obtain ⟨here,later⟩ := forall_mem_cons.mp apart
    simp only [Block.stop,headerSize] at here
    unfold Kheap.insertAfter
    split
    · next less =>
      refine ⟨ordered.1,ordered.2.1,ih ordered.2.2 ?_ later⟩
      simp only [Block.stop,headerSize]
      omega
    rename_i more
    refine Ordered.merged ⟨ordered.1,ordered.2.1,Ordered.merged ⟨before,inside,?_,ordered.2.2.2⟩⟩
    simp only [Block.stop,headerSize]
    omega

theorem Ordered.insertChunk {chunk size : Nat} (ordered : Ordered low heap) (above : low ≤ chunk) (large : headerSize ≤ size)
    (inside : chunk + size ≤ 2^64) (apart : ∀ b ∈ heap, b.stop ≤ chunk ∨ chunk + size ≤ b.addr) :
    Ordered low (insertChunk chunk size heap) := by
  have ends : (Block.mk chunk (size - headerSize) true).stop = chunk + size := by
    simp only [Block.stop]
    omega
  rw [← ends] at inside apart
  unfold Kheap.insertChunk
  cases heap with
  | nil => exact Ordered.merged ⟨above,inside,trivial⟩
  | cons b rest =>
    obtain ⟨here,later⟩ := forall_mem_cons.mp apart
    simp only [Block.stop,headerSize] at here
    dsimp only
    split
    · next less =>
      refine Ordered.merged ⟨above,inside,?_,ordered.2⟩
      simp only [Block.stop,headerSize]
      omega
    rename_i more
    refine Ordered.insertAfter inside ordered ?_ later
    simp only [Block.stop,headerSize]
    omega

section
variable {c : Block} (live : c.free = false)
include live

/-- Only free blocks merge. -/
theorem live_merged (member : c ∈ heap) : c ∈ tryMerge heap := by
  unfold tryMerge
  split
  · next b n rest =>
    split
    · next both =>
      rcases mem_cons.mp member with rfl | member
      · exact absurd both.1 (by simp [live])
      rcases mem_cons.mp member with rfl | member
      · exact absurd both.2.1 (by simp [live])
      · exact mem_cons_of_mem _ member
    · exact member
  · exact member

theorem live_insertAfter {block prev : Block} (member : c ∈ prev :: heap) : c ∈ insertAfter block prev heap := by
  induction heap generalizing prev with
  | nil => exact live_merged live (by simp_all [tryMerge])
  | cons n rest ih =>
    unfold insertAfter
    rcases mem_cons.mp member with rfl | later
    · split
      · exact mem_cons_self ..
      · exact live_merged live (mem_cons_self ..)
    · split
      · exact mem_cons_of_mem _ (ih later)
      · exact live_merged live (mem_cons_of_mem _ (live_merged live (mem_cons_of_mem _ later)))

theorem live_insertChunk {chunk size : Nat} (member : c ∈ heap) : c ∈ insertChunk chunk size heap := by
  unfold insertChunk
  split
  · cases member
  split
  · exact live_merged live (mem_cons_of_mem _ member)
  · exact live_insertAfter live member

end

/-- The block that a search hands out. -/
def Serves (size p : Nat) (heap after : List Block) : Prop := ∃ b ∈ after, b.free = false ∧ b.addr + headerSize = p ∧
  size ≤ b.size ∧ ∀ c ∈ heap, c.free = false → c ∈ after ∧ c ≠ b

theorem findFit_spec {size p : Nat} {after : List Block} (ordered : Ordered low heap) (high : 4096 ≤ low)
    (found : findFit size heap = some (p,after)) : Ordered low after ∧ Serves size p heap after := by
  induction heap generalizing low after with
  | nil => cases found
  | cons b rest ih =>
    obtain ⟨above,inside,behind⟩ := ordered
    have bound : b.addr + 24 + b.size ≤ 2^64 := inside
    unfold findFit at found
    split at found
    · next fits =>
      -- The blocks in use are those behind.
      have others (size : Nat) : ∀ c ∈ b :: rest, c.free = false → c ∈ rest ∧ c ≠ ⟨b.addr,size,false⟩ := by
        intro c member live
        rcases mem_cons.mp member with rfl | later
        · exact absurd fits.1 (by simp [live])
        refine ⟨later,fun same => ?_⟩
        have past := (behind.above c later).1
        simp only [same,Block.stop,headerSize] at past
        omega
      split at found
      · next large =>
        cases found
        rw [Nat.mod_eq_of_lt (by simp only [headerSize,minBlockData]; omega)] at large
        simp only [headerSize,minBlockData] at large
        refine ⟨⟨above,?_,Nat.le_refl _,?_⟩,_,mem_cons_self ..,rfl,rfl,Nat.le_refl _,fun c member live =>
          (others size c member live).imp_left fun later => mem_cons_of_mem _ (mem_cons_of_mem _ later)⟩
        · simp only [Block.stop,headerSize]
          omega
        have ends : (Block.mk (b.addr + headerSize + size) (b.size - size - headerSize) true).stop = b.stop := by
          simp only [Block.stop,headerSize]
          omega
        rw [ends]
        exact ⟨inside,behind⟩
      · cases found
        exact ⟨⟨above,inside,behind⟩,_,mem_cons_self ..,rfl,rfl,fits.2,fun c member live =>
          (others b.size c member live).imp_left (mem_cons_of_mem _)⟩
    · obtain ⟨⟨q,others⟩,later,same⟩ := map_eq_some_iff.mp found
      cases same
      obtain ⟨kept,a,member,taken,place,enough,live⟩ := ih behind (by unfold Block.stop; omega) later
      refine ⟨⟨above,inside,kept⟩,a,mem_cons_of_mem b member,taken,place,enough,forall_mem_cons.mpr ⟨fun _ =>
        ⟨mem_cons_self ..,fun same => ?_⟩,fun c here used => (live c here used).imp_left (mem_cons_of_mem b)⟩⟩
      have past := (kept.above a member).1
      simp only [same,Block.stop,headerSize] at past
      omega

theorem growLoop_spec {size : Nat} {chunks : List Nat} (ordered : Ordered 4096 heap) (fresh : Fresh heap chunks) :
    Ordered 4096 (growLoop size heap chunks).2 ∧
      ∀ p, (growLoop size heap chunks).1 = some p → Serves size p heap (growLoop size heap chunks).2 := by
  induction chunks generalizing heap with
  | nil => exact ⟨ordered,nofun⟩
  | cons chunk chunks ih =>
    obtain ⟨high,inside,apart,rest⟩ := fresh
    have grown := ordered.insertChunk high (by decide) inside apart
    have before {p : Nat} {after : List Block} : Serves size p (insertChunk chunk growSize heap) after →
        Serves size p heap after := fun ⟨b,member,taken,place,enough,live⟩ =>
      ⟨b,member,taken,place,enough,fun c here used => live c (live_insertChunk used here) used⟩
    unfold growLoop
    split
    · next p after found =>
      obtain ⟨kept,serves⟩ := findFit_spec grown (Nat.le_refl _) found
      exact ⟨kept,fun q same => some.inj same ▸ before serves⟩
    · exact (ih grown rest).imp_right fun serves p given => before (serves p given)

theorem kmalloc_spec {size : Nat} {chunks : List Nat} (ordered : Ordered 4096 heap) (fresh : Fresh heap chunks) :
    Ordered 4096 (kmalloc size heap chunks).2 ∧
      ∀ p, (kmalloc size heap chunks).1 = some p → Serves (align8 size) p heap (kmalloc size heap chunks).2 := by
  unfold kmalloc
  split
  · exact ⟨ordered,nofun⟩
  split
  · next p after found =>
    obtain ⟨kept,serves⟩ := findFit_spec ordered (Nat.le_refl _) found
    exact ⟨kept,fun q same => some.inj same ▸ serves⟩
  · exact growLoop_spec ordered fresh

theorem Ordered.kfree (ordered : Ordered low heap) (p : Nat) : Ordered low (kfree p heap) := by
  induction heap generalizing low with
  | nil => trivial
  | cons b rest ih =>
    have freed := ih ordered.2.2
    unfold Kheap.kfree
    split
    · exact Ordered.merged ordered
    split
    · exact Ordered.merged ⟨ordered.1,ordered.2.1,freed⟩
    · exact ⟨ordered.1,ordered.2.1,freed⟩

theorem Reached.ordered (reached : Reached heap) : Ordered 4096 heap := by
  refine Reach.invariant (Ordered 4096) ?_ ?_ heap reached
  · rintro _ ⟨start,size,high,large,inside,rfl⟩
    refine ⟨high,?_,trivial⟩
    simp only [Block.stop]
    omega
  rintro heap c _ ordered fair rfl
  cases c with
  | kmalloc size chunks => exact (kmalloc_spec ordered fair).1
  | kfree p => exact ordered.kfree p

/-- A heap of one megabyte. -/
def small : List Block := [⟨0x400000,0xFFFE8,true⟩]

theorem small_reached : Reached small := .start _ ⟨0x400000,0x100000,by decide,by decide,by decide,rfl⟩

/-- A first block is in use. -/
def used : List Block := call small (.kmalloc 100 [])

theorem used_reached : Reached used := .next small used (.kmalloc 100 []) small_reached trivial rfl

end SurfaceOS.Mm.Kheap
