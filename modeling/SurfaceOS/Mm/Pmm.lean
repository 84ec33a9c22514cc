import Mathlib.Data.UInt
import SurfaceOS.Lib.Chain
import SurfaceOS.Lib.Transition

/-! The physical memory manager (mm/pmm.cpp): a bitmap over the frames the direct map reaches, a
rolling cursor and two counters. The bitmap is built from the loader's memory map; after that every
frame is free, handed out or set aside for good, whatever calls are made. -/
namespace SurfaceOS.Mm
open Lib Function List Nat

variable {addr first last n start stop i left phys run : Nat} {bitmap : Nat → Bool} {t u : Pmm}

def frameSize : Nat := 0x1000
def lowReserveEnd : Nat := 0x800000
def bitmapAddr : Nat := 0x3000000
def bitmapSize : Nat := 0x400000
def heapStart : Nat := 0x2000000
def heapSize : Nat := 9 * 1024 * 1024
def kernelPhysBase : Nat := 0x200000

/-- A `MEMORY_MAP_ENTRY`. The loader makes it from descriptors, which count whole pages. -/
structure MapEntry where
  start : Nat
  stop : Nat
  type : Nat
  paged : frameSize ∣ start ∧ frameSize ∣ stop

structure Extent where
  start : Nat
  size : Nat
  inside : start + size + frameSize ≤ 2^64

/-- What `init` reads: the map, the regions to keep, and how far the direct map reaches. -/
structure BootHeader where
  map : List MapEntry
  startData : Extent
  frameBuffer : Extent
  kernelEnd : Nat
  kernelInside : kernelEnd + frameSize ≤ 2^64
  directMapLimit : Nat

structure Pmm where
  bitmap : Nat → Bool
  bitmapFrames : Nat
  totalFrames : UInt64
  usedFrames : UInt64
  maxPhys : Nat
  cursor : Nat
  initialized : Bool

namespace Pmm

def markUsed (s : Pmm) (i : Nat) : Pmm :=
  if i < s.bitmapFrames ∧ s.bitmap i = false then
    {s with
      bitmap := update s.bitmap i true
      usedFrames := if s.initialized then s.usedFrames + 1 else s.usedFrames}
  else s

def markFree (s : Pmm) (i : Nat) : Pmm :=
  if i < s.bitmapFrames ∧ s.bitmap i then
    {s with
      bitmap := update s.bitmap i false
      usedFrames := if s.initialized then s.usedFrames - 1 else s.usedFrames}
  else s

def span (first last : Nat) : List Nat := range' first (last - first)

def reserve (s : Pmm) (start stop : Nat) : Pmm :=
  (span (start / frameSize) ((stop + frameSize - 1) / frameSize)).foldl markUsed s

def blank (limit : Nat) : Pmm where
  bitmap := fun _ => true
  bitmapFrames := min (limit / frameSize) (bitmapSize * 8)
  totalFrames := 0
  usedFrames := UInt64.ofNat (min (limit / frameSize) (bitmapSize * 8))
  maxPhys := 0
  cursor := 0
  initialized := false

def readEntry (s : Pmm) (e : MapEntry) : Pmm :=
  let s := {s with maxPhys := if e.stop > s.maxPhys then e.stop else s.maxPhys}
  if e.type ≠ 0 then s else (span (e.start / frameSize) (e.stop / frameSize)).foldl markFree s

def ramFrames (maxPhys : Nat) (e : MapEntry) : UInt64 :=
  if e.type ≠ 0 ∨ e.start ≥ maxPhys then 0
  else UInt64.ofNat ((if e.stop < maxPhys then e.stop else maxPhys) / frameSize) - UInt64.ofNat (e.start / frameSize)

def keptRegions (boot : BootHeader) (bitmapBytes : Nat) : List (Nat × Nat) :=
  [(0,lowReserveEnd),(bitmapAddr,bitmapAddr + bitmapBytes),(heapStart,heapStart + heapSize),
    (boot.startData.start,boot.startData.start + boot.startData.size),
    (boot.frameBuffer.start,boot.frameBuffer.start + boot.frameBuffer.size),
    (kernelPhysBase,boot.kernelEnd)]

def freeBelow (s : Pmm) (limit : Nat) : Nat := (range limit).countP fun f => !s.bitmap f

def init (boot : BootHeader) : Pmm :=
  let s := boot.map.foldl readEntry (blank boot.directMapLimit)
  let s := {s with maxPhys :=
    if s.maxPhys > s.bitmapFrames * frameSize then s.bitmapFrames * frameSize else s.maxPhys}
  let s := (keptRegions boot (s.bitmapFrames / 8)).foldl (fun s region => s.reserve region.1 region.2) s
  let total := boot.map.foldl (fun sum e => sum + ramFrames s.maxPhys e) 0
  {s with
    totalFrames := total
    usedFrames := total - UInt64.ofNat (s.freeBelow (s.maxPhys / frameSize))
    cursor := 0
    initialized := true}

def limit (s : Pmm) : Nat := s.maxPhys / frameSize

def take (s : Pmm) (first last : Nat) : Nat × Pmm :=
  (first * frameSize,{(span first (last + 1)).foldl markUsed s with cursor := last + 1})

def firstFree (bitmap : Nat → Bool) (start stop : Nat) : Option Nat := (span start stop).find? fun i => !bitmap i

def allocFrame (s : Pmm) : Nat × Pmm :=
  if !s.initialized then (0,s)
  else match firstFree s.bitmap s.cursor s.limit with
    | some i => s.take i i
    | none => match firstFree s.bitmap 0 s.cursor with
      | some i => s.take i i
      | none => (0,s)

/-- The search of `alloc_frames` over `left` more frames, with `run` free ones just passed: the last
frame of the run. -/
def findRun (bitmap : Nat → Bool) (n : Nat) : Nat → Nat → Nat → Option Nat
  | 0, _, _ => none
  | left + 1, i, run =>
    if bitmap i then findRun bitmap n left (i + 1) 0
    else if run + 1 = n then some i
    else findRun bitmap n left (i + 1) (run + 1)

def allocFrames (s : Pmm) (n : Nat) : Nat × Pmm :=
  if !s.initialized ∨ n = 0 then (0,s)
  else if n = 1 then s.allocFrame
  else match findRun s.bitmap n (s.limit - s.cursor) s.cursor 0 with
    | some last => s.take (last + 1 - n) last
    | none => match findRun s.bitmap n s.cursor 0 0 with
      | some last => s.take (last + 1 - n) last
      | none => (0,s)

def freeFrame (s : Pmm) (phys : Nat) : Pmm :=
  if !s.initialized ∨ phys ≥ s.maxPhys then s
  else
    let i := phys / frameSize
    let s := s.markFree i
    {s with cursor := if i < s.cursor then i else s.cursor}

def freeFrames (s : Pmm) (phys : Nat) : Nat → Nat → Pmm
  | 0, _ => s
  | left + 1, i =>
    let addr := (phys + i * frameSize) % 2^64
    if addr ≥ s.maxPhys then s else freeFrames (s.freeFrame addr) phys left (i + 1)

variable {s t : Pmm} {f i : Nat}

theorem mem_span : f ∈ span first last ↔ first ≤ f ∧ f < last := by
  rw [span,mem_range'_1]
  omega

structure Alike (s t : Pmm) : Prop where
  frames : t.bitmapFrames = s.bitmapFrames
  total : t.totalFrames = s.totalFrames
  phys : t.maxPhys = s.maxPhys
  ready : t.initialized = s.initialized

theorem Alike.rfl : Alike s s := ⟨Eq.refl _,Eq.refl _,Eq.refl _,Eq.refl _⟩

theorem Alike.trans (first : Alike s t) (second : Alike t u) : Alike s u :=
  ⟨second.frames.trans first.frames,second.total.trans first.total,second.phys.trans first.phys,
    second.ready.trans first.ready⟩

theorem markUsed_alike (s : Pmm) (i : Nat) : Alike s (s.markUsed i) := by
  unfold markUsed
  split
  · exact ⟨rfl,rfl,rfl,rfl⟩
  · exact .rfl

theorem markFree_alike (s : Pmm) (i : Nat) : Alike s (s.markFree i) := by
  unfold markFree
  split
  · exact ⟨rfl,rfl,rfl,rfl⟩
  · exact .rfl

theorem foldl_alike {mark : Pmm → Nat → Pmm} (alike : ∀ s i, Alike s (mark s i)) (frames : List Nat) (s : Pmm) :
    Alike s (frames.foldl mark s) := by
  induction frames generalizing s with
  | nil => exact .rfl
  | cons i rest ih => exact (alike s i).trans (ih (mark s i))

theorem markUsed_free : (s.markUsed i).bitmap f = false ↔ s.bitmap f = false ∧ (f = i → s.bitmapFrames ≤ i) := by
  unfold markUsed
  by_cases here : f = i
  · subst here
    split
    · next taken => simp [not_le.mpr taken.1]
    rename_i kept
    constructor
    · intro free
      exact ⟨free,fun _ => Nat.le_of_not_lt fun inside => kept ⟨inside,free⟩⟩
    · exact fun free => free.1
  · split <;> simp [here]

theorem markFree_free : (s.markFree i).bitmap f = false ↔ s.bitmap f = false ∨ (f = i ∧ i < s.bitmapFrames) := by
  unfold markFree
  by_cases here : f = i
  · subst here
    split
    · next taken => simp [taken.1]
    rename_i kept
    constructor
    · exact Or.inl
    · rintro (free | ⟨_,inside⟩)
      · exact free
      · exact Bool.eq_false_of_not_eq_true fun used => kept ⟨inside,used⟩
  · split <;> simp [here]

theorem useAll_free (frames : List Nat) (s : Pmm) :
    (frames.foldl markUsed s).bitmap f = false ↔ s.bitmap f = false ∧ (f ∈ frames → s.bitmapFrames ≤ f) := by
  induction frames generalizing s with
  | nil => simp
  | cons i rest ih =>
    rw [foldl_cons,ih,markUsed_free,(markUsed_alike s i).frames]
    constructor
    · rintro ⟨⟨free,first⟩,later⟩
      refine ⟨free,fun member => ?_⟩
      rcases mem_cons.mp member with here | there
      · exact here ▸ first here
      · exact later there
    · rintro ⟨free,outside⟩
      refine ⟨⟨free,fun here => ?_⟩,fun member => outside (mem_cons_of_mem i member)⟩
      exact here ▸ outside (mem_cons.mpr (.inl here))

theorem freeAll_free (frames : List Nat) (s : Pmm) :
    (frames.foldl markFree s).bitmap f = false ↔ s.bitmap f = false ∨ (f ∈ frames ∧ f < s.bitmapFrames) := by
  induction frames generalizing s with
  | nil => simp
  | cons i rest ih =>
    rw [foldl_cons,ih,markFree_free,(markFree_alike s i).frames,mem_cons]
    constructor
    · rintro ((free | ⟨here,inside⟩) | later)
      · exact .inl free
      · exact .inr ⟨.inl here,here ▸ inside⟩
      · exact .inr ⟨.inr later.1,later.2⟩
    rintro (free | ⟨here | there,inside⟩)
    · exact .inl (.inl free)
    · exact .inl (.inr ⟨here,here ▸ inside⟩)
    · exact .inr ⟨there,inside⟩

end Pmm

def BootHeader.Usable (boot : BootHeader) (f : Nat) : Prop :=
  ∃ e ∈ boot.map, e.type = 0 ∧ e.start ≤ f * frameSize ∧ (f + 1) * frameSize ≤ e.stop

def BootHeader.frames (boot : BootHeader) : Nat := min (boot.directMapLimit / frameSize) (bitmapSize * 8)

def BootHeader.Reserved (boot : BootHeader) (f : Nat) : Prop :=
  ∃ region ∈ Pmm.keptRegions boot (boot.frames / 8), region.1 < (f + 1) * frameSize ∧ f * frameSize < region.2

structure BootHeader.Open (boot : BootHeader) (f : Nat) : Prop where
  tracked : f < boot.frames
  usable : boot.Usable f
  kept : ¬ boot.Reserved f

namespace Pmm
variable {s : Pmm} {f : Nat} {boot : BootHeader}

theorem mem_entry (e : MapEntry) :
    f ∈ span (e.start / frameSize) (e.stop / frameSize) ↔ e.start ≤ f * frameSize ∧ (f + 1) * frameSize ≤ e.stop := by
  obtain ⟨⟨a,start⟩,⟨b,stop⟩⟩ := e.paged
  rw [mem_span,start]
  unfold frameSize
  omega

theorem mem_region : f ∈ span (start / frameSize) ((stop + frameSize - 1) / frameSize) ↔
      start < (f + 1) * frameSize ∧ f * frameSize < stop := by
  rw [mem_span]
  unfold frameSize
  omega

theorem readEntries (map : List MapEntry) (s : Pmm) : (map.foldl readEntry s).bitmapFrames = s.bitmapFrames ∧
      ((map.foldl readEntry s).bitmap f = false ↔ s.bitmap f = false ∨ (f < s.bitmapFrames ∧
        ∃ e ∈ map, e.type = 0 ∧ e.start ≤ f * frameSize ∧ (f + 1) * frameSize ≤ e.stop)) ∧
      s.maxPhys ≤ (map.foldl readEntry s).maxPhys ∧ ∀ e ∈ map, e.stop ≤ (map.foldl readEntry s).maxPhys := by
  induction map generalizing s with
  | nil => simp
  | cons e rest ih =>
    have first : (s.readEntry e).bitmapFrames = s.bitmapFrames ∧ ((s.readEntry e).bitmap f = false ↔
        s.bitmap f = false ∨ (f < s.bitmapFrames ∧ e.type = 0 ∧ e.start ≤ f * frameSize ∧
          (f + 1) * frameSize ≤ e.stop)) ∧ s.maxPhys ≤ (s.readEntry e).maxPhys ∧ e.stop ≤ (s.readEntry e).maxPhys := by
      unfold readEntry
      dsimp only
      have high : s.maxPhys ≤ (if e.stop > s.maxPhys then e.stop else s.maxPhys) ∧
          e.stop ≤ (if e.stop > s.maxPhys then e.stop else s.maxPhys) := by
        split <;> omega
      split
      · next other => exact ⟨rfl,by simp [other],high⟩
      rename_i ram
      have same := foldl_alike markFree_alike (span (e.start / frameSize) (e.stop / frameSize))
        {s with maxPhys := if e.stop > s.maxPhys then e.stop else s.maxPhys}
      refine ⟨same.frames,?_,by rw [same.phys]; exact high⟩
      rw [freeAll_free,mem_entry]
      simp only [not_not.mp ram,true_and]
      exact or_congr_right and_comm
    obtain ⟨frames,bits,low,covers⟩ := first
    obtain ⟨framesAfter,bitsAfter,lowAfter,coversAfter⟩ := ih (s.readEntry e)
    rw [foldl_cons]
    refine ⟨framesAfter.trans frames,?_,le_trans low lowAfter,fun d member => ?_⟩
    · rw [bitsAfter,bits,frames]
      simp only [mem_cons,exists_eq_or_imp,and_or_left,or_assoc]
    · rcases mem_cons.mp member with rfl | later
      · exact le_trans covers lowAfter
      · exact coversAfter d later

theorem reserveAll (regions : List (Nat × Nat)) (s : Pmm) :
    Alike s (regions.foldl (fun s region => s.reserve region.1 region.2) s) ∧
      ((regions.foldl (fun s region => s.reserve region.1 region.2) s).bitmap f = false ↔
        s.bitmap f = false ∧ ((∃ region ∈ regions, region.1 < (f + 1) * frameSize ∧ f * frameSize < region.2) →
          s.bitmapFrames ≤ f)) := by
  induction regions generalizing s with
  | nil => exact ⟨.rfl,by simp⟩
  | cons region rest ih =>
    have alike : Alike s (s.reserve region.1 region.2) := foldl_alike markUsed_alike _ s
    obtain ⟨same,bits⟩ := ih (s.reserve region.1 region.2)
    have first : (s.reserve region.1 region.2).bitmap f = false ↔ s.bitmap f = false ∧
        (region.1 < (f + 1) * frameSize ∧ f * frameSize < region.2 → s.bitmapFrames ≤ f) := by
      unfold reserve
      rw [useAll_free,mem_region]
    refine ⟨alike.trans same,?_⟩
    rw [foldl_cons,bits,first,alike.frames]
    simp only [mem_cons,exists_eq_or_imp,or_imp,and_assoc]

def mapped (boot : BootHeader) : Pmm :=
  let s := boot.map.foldl readEntry (blank boot.directMapLimit)
  {s with maxPhys := if s.maxPhys > s.bitmapFrames * frameSize then s.bitmapFrames * frameSize else s.maxPhys}

def reserved (boot : BootHeader) : Pmm :=
  (keptRegions boot ((mapped boot).bitmapFrames / 8)).foldl (fun s region => s.reserve region.1 region.2) (mapped boot)

theorem mapped_free : (mapped boot).bitmap f = false ↔ f < boot.frames ∧ boot.Usable f := by
  have bits := (readEntries (f := f) boot.map (blank boot.directMapLimit)).2.1
  exact bits.trans (by simp [blank,BootHeader.frames,BootHeader.Usable])

def freeCount (s : Pmm) : Nat := s.freeBelow s.bitmapFrames

theorem freeBelow_eq {limit more : Nat} (larger : limit ≤ more)
    (used : ∀ f, limit ≤ f → f < more → s.bitmap f) : s.freeBelow more = s.freeBelow limit := by
  obtain ⟨k,rfl⟩ := Nat.exists_eq_add_of_le larger
  unfold freeBelow
  rw [range_add,countP_append,countP_map,add_eq_left,countP_eq_zero]
  intro i member
  have inside := mem_range.mp member
  simp [used (limit + i) (by omega) (by omega)]

structure Started (boot : BootHeader) (s : Pmm) : Prop where
  frames : s.bitmapFrames = boot.frames
  phys : s.maxPhys = (init boot).maxPhys
  ready : s.initialized

def Balanced (s : Pmm) : Prop := s.totalFrames - s.usedFrames = UInt64.ofNat s.freeCount

theorem freeCount_update (bitmap : Nat → Bool) {frames i : Nat} (tracked : i < frames) (was : bitmap i = false) :
    (range frames).countP (fun f => !update bitmap i true f) + 1 =
      (range frames).countP fun f => !bitmap f := by
  refine countP_erase nodup_range (mem_range.mpr tracked) (by simp [was]) (by simp) fun d other => ?_
  rw [update_of_ne other]

theorem markUsed_balanced (ready : s.initialized) (balanced : Balanced s) (i : Nat) : Balanced (s.markUsed i) := by
  unfold markUsed
  split
  · next taken =>
    unfold Balanced freeCount freeBelow at balanced ⊢
    rw [← freeCount_update _ taken.1 taken.2,UInt64.ofNat_add] at balanced
    rw [← sub_sub,balanced]
    exact add_sub_cancel_right _ _
  · exact balanced

theorem markFree_balanced (ready : s.initialized) (balanced : Balanced s) (i : Nat) : Balanced (s.markFree i) := by
  unfold markFree
  split
  · next freed =>
    have before : update (update s.bitmap i false) i true = s.bitmap := by
      rw [update_idem,← freed.2,update_eq_self]
    have more := freeCount_update (update s.bitmap i false) freed.1 (update_self ..)
    rw [before] at more
    unfold Balanced freeCount freeBelow at balanced ⊢
    rw [← more,UInt64.ofNat_add,← balanced]
    exact sub_sub_eq_add_sub _ _ _ |>.trans (add_sub_right_comm _ _ _)
  · exact balanced

theorem useAll_balanced (frames : List Nat) (ready : s.initialized) (balanced : Balanced s) :
    Balanced (frames.foldl markUsed s) := by
  induction frames generalizing s with
  | nil => exact balanced
  | cons i rest ih =>
    exact ih ((markUsed_alike s i).ready.trans ready) (markUsed_balanced ready balanced i)

theorem firstFree_found (found : firstFree bitmap start stop = some i) : bitmap i = false := by
  simpa using find?_some found

theorem findRun_found (low : run ≤ i)
    (passed : ∀ k, i - run ≤ k → k < i → bitmap k = false) (found : findRun bitmap n left i run = some last) :
    n ≤ last + 1 ∧ ∀ k, last + 1 - n ≤ k → k ≤ last → bitmap k = false := by
  induction left generalizing i run with
  | zero => cases found
  | succ left ih =>
    unfold findRun at found
    split at found
    · exact ih (zero_le _) (fun k above below => by omega) found
    rename_i free
    have here : bitmap i = false := Bool.eq_false_of_not_eq_true free
    have longer : ∀ k, i - run ≤ k → k ≤ i → bitmap k = false := by
      intro k above below
      rcases lt_or_eq_of_le below with before | rfl
      · exact passed k above before
      · exact here
    split at found
    · next full =>
      cases found
      exact ⟨by omega,fun k above below => longer k (by omega) below⟩
    · exact ih (succ_le_succ low) (fun k above below => longer k (by omega) (by omega)) found

structure Found (s : Pmm) (n addr : Nat) (t : Pmm) : Prop where
  some : addr ≠ 0
  paged : frameSize ∣ addr
  free : ∀ k, addr / frameSize ≤ k → k < addr / frameSize + n → s.bitmap k = false
  taken : ∃ c, t = {(span (addr / frameSize) (addr / frameSize + n)).foldl markUsed s with cursor := c}

theorem take_found (low : s.bitmap 0) (length : first + n = last + 1) (pos : 0 < n)
    (free : ∀ k, first ≤ k → k ≤ last → s.bitmap k = false) : Found s n (s.take first last).1 (s.take first last).2 := by
  have index : (s.take first last).1 / frameSize = first := Nat.mul_div_cancel _ (by decide)
  refine ⟨fun zero => ?_,Nat.dvd_mul_left ..,fun k above below => free k (index ▸ above) ?_,last + 1,?_⟩
  · have bottom : first = 0 := by rw [← index,zero,Nat.zero_div]
    have clear := free first (Nat.le_refl _) (by omega)
    rw [bottom,low] at clear
    cases clear
  · rw [index] at below
    omega
  · rw [index,length]
    rfl

theorem allocFrame_found (low : s.bitmap 0) : s.allocFrame = (0,s) ∨ Found s 1 s.allocFrame.1 s.allocFrame.2 := by
  have single {i : Nat} (free : s.bitmap i = false) : Found s 1 (s.take i i).1 (s.take i i).2 := by
    refine take_found low rfl zero_lt_one fun k above below => ?_
    rwa [le_antisymm below above]
  unfold allocFrame
  split
  · exact .inl rfl
  split
  · next found => exact .inr (single (firstFree_found found))
  · split
    · next found => exact .inr (single (firstFree_found found))
    · exact .inl rfl

theorem allocFrames_found (low : s.bitmap 0) (n : Nat) :
    s.allocFrames n = (0,s) ∨ Found s n (s.allocFrames n).1 (s.allocFrames n).2 := by
  unfold allocFrames
  split
  · exact .inl rfl
  rename_i usable
  have pos : 0 < n := Nat.pos_of_ne_zero fun zero => usable (.inr zero)
  have several {left i last : Nat} (found : findRun s.bitmap n left i 0 = some last) :
      Found s n (s.take (last + 1 - n) last).1 (s.take (last + 1 - n) last).2 := by
    obtain ⟨long,free⟩ := findRun_found (Nat.zero_le _) (fun k above below => by omega) found
    exact take_found low (by omega) pos free
  split
  · next one =>
    subst one
    exact allocFrame_found low
  split
  · next found => exact .inr (several found)
  · split
    · next found => exact .inr (several found)
    · exact .inl rfl

section
variable (boot)

theorem mapped_frames : (mapped boot).bitmapFrames = boot.frames :=
  (readEntries (f := 0) boot.map (blank boot.directMapLimit)).1

theorem mapped_phys : (mapped boot).maxPhys =
    min (boot.map.foldl readEntry (blank boot.directMapLimit)).maxPhys (boot.frames * frameSize) := by
  have frames : (boot.map.foldl readEntry (blank boot.directMapLimit)).bitmapFrames = boot.frames := mapped_frames boot
  unfold mapped
  dsimp only
  rw [frames]
  split <;> omega

theorem reserved_alike : Alike (mapped boot) (reserved boot) :=
  (reserveAll (f := 0) (keptRegions boot ((mapped boot).bitmapFrames / 8)) (mapped boot)).1

theorem init_started : Started boot (init boot) :=
  ⟨(reserved_alike boot).frames.trans (mapped_frames boot),rfl,rfl⟩

theorem init_limit : (init boot).limit ≤ boot.frames := by
  have phys : (init boot).maxPhys = (mapped boot).maxPhys := (reserved_alike boot).phys
  rw [limit,phys,mapped_phys]
  exact Nat.le_trans (Nat.div_le_div_right (Nat.min_le_right ..)) (by rw [Nat.mul_div_cancel _ (by decide)])

end

theorem mapped_below (free : (mapped boot).bitmap f = false) : f < (mapped boot).limit := by
  obtain ⟨tracked,e,member,_,_,inside⟩ := mapped_free.mp free
  have high := (readEntries (f := f) boot.map (blank boot.directMapLimit)).2.2.2 e member
  rw [limit,mapped_phys,lt_iff_add_one_le,Nat.le_div_iff_mul_le (by decide),Nat.le_min]
  exact ⟨le_trans inside high,Nat.mul_le_mul_right _ tracked⟩

theorem reserved_free : (reserved boot).bitmap f = false ↔ boot.Open f := by
  have bits := (reserveAll (f := f) (keptRegions boot ((mapped boot).bitmapFrames / 8)) (mapped boot)).2
  refine bits.trans ?_
  rw [mapped_free,mapped_frames]
  constructor
  · rintro ⟨⟨tracked,usable⟩,outside⟩
    exact ⟨tracked,usable,fun kept => absurd tracked (not_lt.mpr (outside kept))⟩
  · rintro ⟨tracked,usable,kept⟩
    exact ⟨⟨tracked,usable⟩,fun inside => absurd inside kept⟩

theorem init_free : (init boot).bitmap f = false ↔ boot.Open f := reserved_free

theorem open_below (lies : boot.Open f) : f < (init boot).limit := by
  have limit : (init boot).limit = (mapped boot).limit := congrArg (· / frameSize) (reserved_alike boot).phys
  rw [limit]
  exact mapped_below (mapped_free.mpr ⟨lies.tracked,lies.usable⟩)

theorem init_balance (boot : BootHeader) :
    (init boot).totalFrames - (init boot).usedFrames = UInt64.ofNat (init boot).freeCount := by
  have used : (init boot).usedFrames = (init boot).totalFrames -
      UInt64.ofNat ((reserved boot).freeBelow ((reserved boot).maxPhys / frameSize)) := rfl
  have below : (init boot).limit ≤ (init boot).bitmapFrames := by
    rw [(init_started boot).frames]
    exact init_limit boot
  have whole : (init boot).freeCount = (init boot).freeBelow (init boot).limit := by
    refine freeBelow_eq below fun f above _ => ?_
    by_contra free
    exact absurd (open_below (init_free.mp (Bool.eq_false_of_not_eq_true free))) (not_lt.mpr above)
  rw [whole,used,sub_sub_cancel]
  rfl

end Pmm

structure Ledger where
  pmm : Pmm
  held : Nat → Prop

inductive Call
  | allocFrame
  | allocFrames (n : Nat)
  | freeFrame (phys : Nat)
  | freeFrames (phys n : Nat)

namespace Ledger

def gain (held : Nat → Prop) (addr n : Nat) : Nat → Prop := fun f =>
  held f ∨ addr ≠ 0 ∧ addr / frameSize ≤ f ∧ f < addr / frameSize + n

def lose (held : Nat → Prop) (addr n : Nat) : Nat → Prop := fun f =>
  held f ∧ ¬ (addr / frameSize ≤ f ∧ f < addr / frameSize + n)

def call (l : Ledger) : Call → Ledger
  | .allocFrame => ⟨l.pmm.allocFrame.2,gain l.held l.pmm.allocFrame.1 1⟩
  | .allocFrames n => ⟨(l.pmm.allocFrames n).2,gain l.held (l.pmm.allocFrames n).1 n⟩
  | .freeFrame phys => ⟨l.pmm.freeFrame phys,lose l.held phys 1⟩
  | .freeFrames phys n => ⟨l.pmm.freeFrames phys n 0,lose l.held phys n⟩

def Allowed (l : Ledger) : Call → Prop
  | .freeFrame phys => l.held (phys / frameSize)
  | .freeFrames phys n => ∀ i < n, l.held (phys / frameSize + i)
  | _ => True

variable {boot : BootHeader} {l : Ledger}

structure Inv (boot : BootHeader) (l : Ledger) : Prop where
  started : Pmm.Started boot l.pmm
  balanced : Pmm.Balanced l.pmm
  free : ∀ f, l.pmm.bitmap f = false ↔ boot.Open f ∧ ¬ l.held f
  held : ∀ f, l.held f → boot.Open f

theorem Inv.low (inv : Inv boot l) : l.pmm.bitmap 0 := by
  by_contra clear
  have lies := ((inv.free 0).mp (Bool.eq_false_of_not_eq_true clear)).1
  exact lies.kept ⟨(0,lowReserveEnd),mem_cons_self ..,by decide,by decide⟩

theorem Inv.init (boot : BootHeader) : Inv boot ⟨Pmm.init boot,fun _ => False⟩ where
  started := Pmm.init_started boot
  balanced := Pmm.init_balance boot
  free f := by simpa using Pmm.init_free
  held f := False.elim

section
variable (inv : Inv boot l)
include inv

theorem Inv.gains (found : Pmm.Found l.pmm n addr t) : Inv boot ⟨t,gain l.held addr n⟩ := by
  obtain ⟨c,rfl⟩ := found.taken
  have alike := Pmm.foldl_alike Pmm.markUsed_alike (Pmm.span (addr / frameSize) (addr / frameSize + n)) l.pmm
  have inside : ∀ f, addr / frameSize ≤ f → f < addr / frameSize + n → boot.Open f := fun f above below =>
    ((inv.free f).mp (found.free f above below)).1
  refine ⟨⟨?_,?_,?_⟩,?_,fun f => ?_,fun f => ?_⟩
  · exact alike.frames.trans inv.started.frames
  · exact alike.phys.trans inv.started.phys
  · exact alike.ready.trans inv.started.ready
  · exact Pmm.useAll_balanced (Pmm.span (addr / frameSize) (addr / frameSize + n)) inv.started.ready inv.balanced
  · change (List.foldl Pmm.markUsed l.pmm _).bitmap f = false ↔ _
    rw [Pmm.useAll_free,Pmm.mem_span,inv.free,inv.started.frames]
    constructor
    · rintro ⟨⟨lies,here⟩,outside⟩
      refine ⟨lies,fun now => now.elim here fun new => ?_⟩
      exact absurd lies.tracked (not_lt.mpr (outside new.2))
    · rintro ⟨lies,here⟩
      exact ⟨⟨lies,fun before => here (.inl before)⟩,fun new => absurd (.inr ⟨found.some,new⟩) here⟩
  · rintro (before | ⟨_,above,below⟩)
    · exact inv.held f before
    · exact inside f above below

theorem Inv.frees (out : l.held (phys / frameSize)) :
    Inv boot ⟨l.pmm.freeFrame phys,lose l.held phys 1⟩ := by
  have lies := inv.held _ out
  have below : phys < l.pmm.maxPhys := by
    have inside := Pmm.open_below lies
    rw [Pmm.limit,← inv.started.phys,div_lt_iff_lt_mul (by decide)] at inside
    have := div_mul_le_self l.pmm.maxPhys frameSize
    omega
  have alike := Pmm.markFree_alike l.pmm (phys / frameSize)
  unfold Pmm.freeFrame
  rw [if_neg (by simp [inv.started.ready,below])]
  refine ⟨⟨?_,?_,?_⟩,?_,fun f => ?_,fun f lost => inv.held f lost.1⟩
  · exact alike.frames.trans inv.started.frames
  · exact alike.phys.trans inv.started.phys
  · exact alike.ready.trans inv.started.ready
  · exact Pmm.markFree_balanced inv.started.ready inv.balanced (phys / frameSize)
  rw [Pmm.markFree_free,inv.free,inv.started.frames]
  constructor
  · rintro (⟨free,unheld⟩ | ⟨rfl,_⟩)
    · exact ⟨free,fun lost => unheld lost.1⟩
    · exact ⟨lies,fun lost => lost.2 ⟨le_refl _,lt_succ_self _⟩⟩
  rintro ⟨open_,unheld⟩
  by_cases here : f = phys / frameSize
  · exact .inr ⟨here,lies.tracked⟩
  · exact .inl ⟨open_,fun before => unheld ⟨before,by omega⟩⟩

theorem Inv.freesAll (phys left i : Nat) (out : ∀ j < left, l.held (phys / frameSize + i + j)) :
    Inv boot ⟨l.pmm.freeFrames phys left i,lose l.held (phys + i * frameSize) left⟩ := by
  have place : (phys + i * frameSize) / frameSize = phys / frameSize + i := add_mul_div_right _ _ (by decide)
  induction left generalizing l i with
  | zero =>
    have same : lose l.held (phys + i * frameSize) 0 = l.held := by
      funext f
      exact propext ⟨And.left,fun before => ⟨before,by omega⟩⟩
    rwa [same]
  | succ left ih =>
    have first : l.held ((phys + i * frameSize) / frameSize) := place ▸ out 0 (succ_pos _)
    have lies := inv.held _ first
    have small : phys + i * frameSize < 2^64 := by
      have tracked : (phys + i * frameSize) / frameSize < bitmapSize * 8 := lt_of_lt_of_le lies.tracked (min_le_right ..)
      unfold frameSize bitmapSize at *
      omega
    have below : phys + i * frameSize < l.pmm.maxPhys := by
      have inside := Pmm.open_below lies
      rw [Pmm.limit,← inv.started.phys,div_lt_iff_lt_mul (by decide)] at inside
      have := div_mul_le_self l.pmm.maxPhys frameSize
      omega
    have next : (phys + (i + 1) * frameSize) / frameSize = phys / frameSize + (i + 1) := add_mul_div_right _ _ (by decide)
    have rest := ih (inv.frees first) (i + 1) (fun j inside => ?_) next
    · unfold Pmm.freeFrames
      rw [mod_eq_of_lt small,if_neg (not_le.mpr below)]
      have joined : lose (lose l.held (phys + i * frameSize) 1) (phys + (i + 1) * frameSize) left =
          lose l.held (phys + i * frameSize) (left + 1) := by
        funext f
        unfold lose
        exact propext ⟨fun both => ⟨both.1.1,by omega⟩,fun both => ⟨⟨both.1,by omega⟩,by omega⟩⟩
      exact joined ▸ rest
    · refine ⟨?_,by rw [place]; omega⟩
      have later := out (j + 1) (by omega)
      rwa [show phys / frameSize + (i + 1) + j = phys / frameSize + i + (j + 1) by omega]

theorem Inv.call (c : Call) (allowed : l.Allowed c) : Inv boot (l.call c) := by
  have failed (n : Nat) : gain l.held 0 n = l.held := by
    funext f
    exact propext ⟨fun now => now.elim id fun new => absurd rfl new.1,Or.inl⟩
  cases c with
  | allocFrame =>
    rcases Pmm.allocFrame_found inv.low with none | found
    · unfold Ledger.call
      rw [none,failed]
      exact inv
    · exact inv.gains found
  | allocFrames n =>
    rcases Pmm.allocFrames_found inv.low n with none | found
    · change Inv boot ⟨(l.pmm.allocFrames n).2,gain l.held (l.pmm.allocFrames n).1 n⟩
      rw [none,failed]
      exact inv
    · exact inv.gains found
  | freeFrame phys => exact inv.frees allowed
  | freeFrames phys n =>
    have all := inv.freesAll phys n 0 fun j inside => allowed j inside
    rwa [zero_mul] at all

end

abbrev Reached (boot : BootHeader) : Ledger → Prop :=
  Reach (fun l => l = ⟨Pmm.init boot,fun _ => False⟩) Allowed fun l c t => t = l.call c

theorem Reached.inv (reached : Reached boot l) : Inv boot l := by
  refine Reach.invariant (Inv boot) ?_ ?_ l reached
  · rintro _ rfl
    exact Inv.init boot
  · rintro l c _ inv allowed rfl
    exact inv.call c allowed

structure Granted (boot : BootHeader) (l : Ledger) (addr n : Nat) : Prop where
  paged : frameSize ∣ addr
  free : ∀ f, addr / frameSize ≤ f → f < addr / frameSize + n → l.pmm.bitmap f = false
  unheld : ∀ f, addr / frameSize ≤ f → f < addr / frameSize + n → ¬ l.held f
  usable : ∀ f, addr / frameSize ≤ f → f < addr / frameSize + n → boot.Usable f
  kept : ∀ f, addr / frameSize ≤ f → f < addr / frameSize + n → ¬ boot.Reserved f
  below : ∀ f, addr / frameSize ≤ f → f < addr / frameSize + n →
    (f + 1) * frameSize ≤ l.pmm.maxPhys ∧ (f + 1) * frameSize ≤ boot.directMapLimit

theorem Inv.granted (inv : Inv boot l) (found : Pmm.Found l.pmm n addr t) : Granted boot l addr n := by
  have lies : ∀ f, addr / frameSize ≤ f → f < addr / frameSize + n → boot.Open f ∧ ¬ l.held f :=
    fun f above below => (inv.free f).mp (found.free f above below)
  refine ⟨found.paged,found.free,fun f above below => (lies f above below).2,
    fun f above below => (lies f above below).1.usable,fun f above below => (lies f above below).1.kept,
    fun f above below => ?_⟩
  obtain ⟨open_,_⟩ := lies f above below
  constructor
  · have inside : f + 1 ≤ l.pmm.maxPhys / frameSize := inv.started.phys ▸ Pmm.open_below open_
    exact (le_div_iff_mul_le (by decide)).mp inside
  · have tracked : f + 1 ≤ boot.directMapLimit / frameSize := le_trans open_.tracked (min_le_left ..)
    exact (le_div_iff_mul_le (by decide)).mp tracked

/-- Whatever was called before, an allocation hands out free frames of usable memory in a row that
nobody holds, or changes nothing; and the counters agree with the bitmap. -/
theorem frames_handed_out (reached : Reached boot l) :
    (l.pmm.allocFrame = (0,l.pmm) ∨ l.pmm.allocFrame.1 ≠ 0 ∧ Granted boot l l.pmm.allocFrame.1 1) ∧
    (∀ n, l.pmm.allocFrames n = (0,l.pmm) ∨
      (l.pmm.allocFrames n).1 ≠ 0 ∧ Granted boot l (l.pmm.allocFrames n).1 n) ∧
    l.pmm.totalFrames - l.pmm.usedFrames = UInt64.ofNat l.pmm.freeCount ∧ l.pmm.freeCount < 2^64 := by
  have inv := reached.inv
  refine ⟨?_,fun n => ?_,inv.balanced,?_⟩
  · exact (Pmm.allocFrame_found inv.low).imp id fun found => ⟨found.some,inv.granted found⟩
  · exact (Pmm.allocFrames_found inv.low n).imp id fun found => ⟨found.some,inv.granted found⟩
  have counted : l.pmm.freeCount ≤ (range l.pmm.bitmapFrames).length := countP_le_length
  rw [length_range,inv.started.frames] at counted
  have small : boot.frames ≤ bitmapSize * 8 := min_le_right ..
  unfold bitmapSize at small
  omega

def smallBoot : BootHeader where
  map := [⟨0x800000,0x802000,0,by decide,by decide⟩]
  startData := ⟨0x104000,0x1000,by decide⟩
  frameBuffer := ⟨0x80000000,0x1000,by decide⟩
  kernelEnd := 0x300000
  kernelInside := by decide
  directMapLimit := 0x4000000

theorem smallBoot_open : smallBoot.Open 0x800 where
  tracked := by decide
  usable := ⟨_,mem_cons_self ..,by decide⟩
  kept := by
    rintro ⟨region,member,low,high⟩
    simp only [Pmm.keptRegions,mem_cons,not_mem_nil,or_false] at member
    rcases member with rfl | rfl | rfl | rfl | rfl | rfl
    · exact absurd high (by decide)
    · exact absurd low (by decide)
    · exact absurd low (by decide)
    · exact absurd high (by decide)
    · exact absurd low (by decide)
    · exact absurd high (by decide)

theorem frames_handed_out_small : (Pmm.init smallBoot).allocFrame.1 ≠ 0 ∧
    Granted smallBoot ⟨Pmm.init smallBoot,fun _ => False⟩ (Pmm.init smallBoot).allocFrame.1 1 := by
  have start : Reached smallBoot ⟨Pmm.init smallBoot,fun _ => False⟩ := .start _ rfl
  refine (frames_handed_out start).1.resolve_left fun none => ?_
  have below := Pmm.open_below smallBoot_open
  have free := Pmm.init_free.mpr smallBoot_open
  have found : Pmm.firstFree (Pmm.init smallBoot).bitmap (Pmm.init smallBoot).cursor (Pmm.init smallBoot).limit ≠ .none := by
    intro missing
    have used := find?_eq_none.mp missing 0x800 (Pmm.mem_span.mpr ⟨zero_le _,below⟩)
    simp [free] at used
  obtain ⟨i,first⟩ := Option.ne_none_iff_exists'.mp found
  have took : (Pmm.init smallBoot).allocFrame = (Pmm.init smallBoot).take i i := by
    unfold Pmm.allocFrame
    rw [first]
    rfl
  have zero : i * frameSize = 0 := congrArg Prod.fst (took.symm.trans none)
  have bottom : i = 0 := by
    unfold frameSize at zero
    omega
  have clear := Pmm.firstFree_found first
  rw [bottom,(Inv.init smallBoot).low] at clear
  cases clear

end Ledger
end SurfaceOS.Mm
