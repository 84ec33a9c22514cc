import Mathlib.Algebra.Ring.Nat
import Mathlib.Data.List.Chain

/-! The loader's memory map (boot/efi/main_efi.c): the firmware's descriptors, those that continue each
other merged. The entry that is being made is written once the next descriptor does not continue it. -/
namespace SurfaceOS.Boot
open List

structure Descriptor where
  type : Nat
  physicalStart : Nat
  numberOfPages : Nat

structure Entry where
  start : Nat
  stop : Nat
  type : Nat

structure Header where
  entries : List Entry
  entNum : Nat
  freeMemory : Nat
  totalMemory : Nat

def getEntryType (type : Nat) : Nat :=
  if type = 1 ∨ type = 2 ∨ type = 3 ∨ type = 4 ∨ type = 7 then 0
  else if type = 5 ∨ type = 6 then 2
  else if type = 9 ∨ type = 10 then 3
  else if type = 0 ∨ type = 8 then 4
  else if type = 11 ∨ type = 12 then 5
  else 6

def Descriptor.size (d : Descriptor) : Nat := d.numberOfPages * 4096

def Descriptor.entry (d : Descriptor) : Entry := ⟨d.physicalStart,d.physicalStart + d.size,getEntryType d.type⟩

def Entry.memSize (e : Entry) : Nat := e.stop - e.start

def Entry.free (e : Entry) : Bool := e.type = 0 ∨ e.type = 1

def Header.write (h : Header) (e : Entry) : Header :=
  {h with
    entries := h.entries ++ [e]
    entNum := h.entNum + 1
    freeMemory := if e.free then h.freeMemory + e.memSize else h.freeMemory}

def parseFrom (e : Entry) (h : Header) : List Descriptor → Header
  | [] => h.write e
  | d :: rest =>
    if getEntryType d.type = e.type ∧ d.physicalStart = e.stop then
      parseFrom {e with stop := e.stop + d.size} {h with totalMemory := h.totalMemory + d.size} rest
    else parseFrom d.entry {h.write e with totalMemory := h.totalMemory + d.size} rest

def parseMap : List Descriptor → Header
  | [] => ⟨[],0,0,0⟩
  | d :: rest => parseFrom d.entry ⟨[],0,0,0⟩ rest

def Entry.Holds (e : Entry) (kind a : Nat) : Prop := e.type = kind ∧ e.start ≤ a ∧ a < e.stop

/-- Entries for the descriptors' bytes and no others, with nothing left to merge. -/
structure Mapped (descs : List Descriptor) (h : Header) : Prop where
  covers : ∀ kind a, (∃ e ∈ h.entries, e.Holds kind a) ↔ ∃ d ∈ descs, d.entry.Holds kind a
  merged : h.entries.IsChain fun e f => ¬ (f.type = e.type ∧ f.start = e.stop)
  count : h.entNum = h.entries.length
  free : h.freeMemory = ((h.entries.filter Entry.free).map Entry.memSize).sum

def MapRight (descs : List Descriptor) (h : Header) : Prop :=
  Mapped descs h ∧ h.totalMemory = (descs.map Descriptor.size).sum

variable {descs : List Descriptor} {d : Descriptor} {e : Entry} {h : Header}

theorem Mapped.continued (mapped : Mapped descs (h.write e)) (ordered : e.start ≤ e.stop)
    (same : getEntryType d.type = e.type) (joins : d.physicalStart = e.stop) :
    Mapped (descs ++ [d]) (h.write {e with stop := e.stop + d.size}) := by
  refine ⟨fun kind a => ?_,?_,mapped.count.trans (by simp [Header.write]),?_⟩
  · have old := mapped.covers kind a
    simp only [Header.write,mem_append,mem_singleton,or_and_right,exists_or,exists_eq_left] at old ⊢
    rw [← old]
    simp only [Entry.Holds,Descriptor.entry,same,joins]
    grind
  · have chain := mapped.merged
    simp only [Header.write,isChain_append] at chain ⊢
    exact ⟨chain.1,by simp,by simpa using chain.2.2⟩
  · have old := mapped.free
    simp only [Header.write,filter_append,map_append,sum_append,filter_singleton,Entry.free] at old ⊢
    grind [Entry.memSize]

theorem Mapped.next (mapped : Mapped descs h)
    (apart : ∀ e ∈ h.entries.getLast?, ¬ (getEntryType d.type = e.type ∧ d.physicalStart = e.stop)) :
    Mapped (descs ++ [d]) (h.write d.entry) := by
  refine ⟨fun kind a => ?_,?_,by simp [Header.write,mapped.count],?_⟩
  · simp [Header.write,or_and_right,exists_or,mapped.covers kind a]
  · rw [Header.write,isChain_append]
    exact ⟨mapped.merged,by simp,by simpa [Descriptor.entry] using apart⟩
  · simp only [Header.write,filter_append,map_append,sum_append,filter_singleton,mapped.free]
    cases d.entry.free <;> simp

theorem Mapped.rest (mapped : Mapped descs (h.write e)) (ordered : e.start ≤ e.stop) (rest : List Descriptor) :
    Mapped (descs ++ rest) (parseFrom e h rest) ∧
      (parseFrom e h rest).totalMemory = h.totalMemory + (rest.map Descriptor.size).sum := by
  induction rest generalizing descs e h with
  | nil => exact ⟨by rwa [append_nil],rfl⟩
  | cons d rest ih =>
    rw [parseFrom,map_cons,sum_cons,append_cons,← Nat.add_assoc]
    split
    · next joins =>
      have more := mapped.continued ordered joins.1 joins.2
      exact ih ⟨more.covers,more.merged,more.count,more.free⟩ (Nat.le_add_right_of_le ordered)
    · next apart =>
      have more := mapped.next (d := d) (by simpa [Header.write] using apart)
      exact ih ⟨more.covers,more.merged,more.count,more.free⟩ (Nat.le_add_right ..)

theorem parseMap_mapped (descs : List Descriptor) :
    Mapped descs (parseMap descs) ∧ (parseMap descs).totalMemory = (descs.tail.map Descriptor.size).sum := by
  cases descs with
  | nil => exact ⟨⟨by simp [parseMap],by simp [parseMap],rfl,rfl⟩,rfl⟩
  | cons d rest =>
    have first : Mapped [] ⟨[],0,0,0⟩ := ⟨by simp,by simp,rfl,rfl⟩
    have all := (first.next (d := d) (by simp)).rest (Nat.le_add_right ..) rest
    exact ⟨all.1,all.2.trans (Nat.zero_add _)⟩

/-- The total misses the first descriptor, and is right only when that one has no pages. -/
theorem parseMap_right_iff (descs : List Descriptor) :
    MapRight descs (parseMap descs) ↔ ∀ d ∈ descs.head?, d.numberOfPages = 0 := by
  obtain ⟨mapped,total⟩ := parseMap_mapped descs
  rw [MapRight,and_iff_right mapped,total]
  cases descs with
  | nil => simp
  | cons d rest =>
    simp only [tail_cons,map_cons,sum_cons,head?_cons,Option.mem_def,Option.some.injEq,forall_eq',Descriptor.size]
    omega

theorem parseMap_wrong : ¬ MapRight [⟨7,0,1⟩] (parseMap [⟨7,0,1⟩]) := by
  intro right
  cases right.2

end SurfaceOS.Boot
