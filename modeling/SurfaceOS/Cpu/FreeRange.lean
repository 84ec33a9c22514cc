import SurfaceOS.Mm.Contiguous

/-! Pages that a program allocates (`find_free_range`, `sf_allocate_pages` and `sf_free_pages`,
cpu/process.cpp), by their numbers in its region. -/
namespace SurfaceOS.Cpu.FreeRange
open Lib Mm.Pmm Option Nat

def pageSize : Nat := 4096

def mmapBase : Nat := 0x10000000

def mmapLimit : Nat := mmapBase + 0x30000000

def regionPages : Nat := (mmapLimit - mmapBase) / pageSize

structure Region where
  mapped : Nat → Bool
  cursor : Nat

/-- The loop of `find_free_range` with `left` turns to go: the first page of the run that it finds. -/
def findLoop (mapped : Nat → Bool) (pages start : Nat) : Nat → Nat → Nat → Option Nat
  | 0,_,_ => none
  | left + 1,i,run =>
    let idx := (start + i) % regionPages
    let run := if idx = 0 then 0 else run
    if mapped idx then findLoop mapped pages start left (i + 1) 0
    else if run + 1 = pages then some (idx + 1 - pages)
    else findLoop mapped pages start left (i + 1) (run + 1)

namespace Region

def start (r : Region) : Nat := (r.cursor - mmapBase) / pageSize

def findFreeRange (r : Region) (pages : Nat) : Nat :=
  match findLoop r.mapped pages r.start regionPages 0 0 with
  | some first => mmapBase + first * pageSize
  | none => 0

def inside (addr pages i : Nat) : Bool := (addr - mmapBase) / pageSize ≤ i ∧ i < (addr - mmapBase) / pageSize + pages

/-- `ok` says whether the pages can be mapped and the address copied out; if not, what was mapped is
released again. -/
def allocatePages (r : Region) (pages : Nat) (ok : Bool) : Region :=
  let addr := r.findFreeRange pages
  if pages = 0 ∨ pages > regionPages ∨ addr = 0 then r
  else if !ok then {r with mapped := fun i => r.mapped i && !inside addr pages i}
  else
    let cursor := addr + pages * pageSize
    ⟨fun i => r.mapped i || inside addr pages i,if cursor ≥ mmapLimit then mmapBase else cursor⟩

def freePages (r : Region) (addr pages : Nat) : Region :=
  if pages = 0 ∨ addr % pageSize ≠ 0 ∨ pages > regionPages ∨
      ¬ (mmapBase ≤ addr ∧ addr < mmapLimit ∧ pages * pageSize ≤ mmapLimit - addr) then r
  else {r with mapped := fun i => r.mapped i && !inside addr pages i}

inductive Call
  | allocatePages (pages : Nat) (ok : Bool)
  | freePages (addr pages : Nat)

def call (r : Region) : Call → Region
  | .allocatePages pages ok => r.allocatePages pages ok
  | .freePages addr pages => r.freePages addr pages

abbrev Called : Region → Prop :=
  Reach (fun r => r.cursor = mmapBase) (fun _ _ => True) fun r c t => t = r.call c

def FreeRun (r : Region) (pages first : Nat) : Prop :=
  0 < pages ∧ first + pages ≤ regionPages ∧ ∀ i, first ≤ i → i < first + pages → r.mapped i = false

/-- The address found is that of so many free pages in the region, and is 0 only where there are none. -/
def Right (r : Region) (pages : Nat) : Prop :=
  (r.findFreeRange pages ≠ 0 → ∃ first, r.findFreeRange pages = mmapBase + first * pageSize ∧ r.FreeRun pages first) ∧
    (r.findFreeRange pages = 0 → ¬ ∃ first, r.FreeRun pages first)

variable {r : Region} {pages start : Nat} {mapped : Nat → Bool}

theorem findLoop_run {left more i run j : Nat} (bound : j + left ≤ regionPages)
    (place : 0 < left → (start + i) % regionPages = j) : ∃ run', findLoop mapped pages start (left + more) i run =
      ((findRun mapped pages left j (if j = 0 then 0 else run)).map (· + 1 - pages)).or
        (findLoop mapped pages start more (i + left) run') := by
  induction left generalizing i run j with
  | zero => exact ⟨run,by simp [findRun]⟩
  | succ left ih =>
    have here := place (succ_pos left)
    have next (inside : 0 < left) : (start + (i + 1)) % regionPages = j + 1 := by
      rw [← add_assoc,add_mod,here,show 1 % regionPages = 1 from rfl,mod_eq_of_lt (by omega)]
    rw [succ_add,findLoop,findRun]
    simp only [here]
    have shift : i + 1 + left = i + (left + 1) := by omega
    generalize (if j = 0 then 0 else run) = kept
    split
    · obtain ⟨run',rest⟩ := @ih (i + 1) 0 (j + 1) (by omega) next
      exact ⟨run',by rw [rest,shift,if_neg (succ_ne_zero j)]⟩
    split
    · exact ⟨run,rfl⟩
    · obtain ⟨run',rest⟩ := @ih (i + 1) (kept + 1) (j + 1) (by omega) next
      exact ⟨run',by rw [rest,shift,if_neg (succ_ne_zero j)]⟩

theorem findLoop_passes (bound : start < regionPages) : findLoop mapped pages start regionPages 0 0 =
    ((findRun mapped pages (regionPages - start) start 0).or (findRun mapped pages start 0 0)).map (· + 1 - pages) := by
  obtain ⟨run,upper⟩ := @findLoop_run pages start mapped (regionPages - start) start 0 0 start (by omega)
    fun _ => Nat.mod_eq_of_lt bound
  obtain ⟨run',lower⟩ := @findLoop_run pages start mapped start 0 (regionPages - start) run 0 (by omega)
    fun _ => by rw [Nat.add_sub_cancel' (Nat.le_of_lt bound),Nat.mod_self]
  rw [Nat.sub_add_cancel (Nat.le_of_lt bound),Nat.zero_add] at upper
  rw [Nat.add_zero] at lower
  rw [upper,lower,map_or]
  simp [findLoop]

theorem findFreeRange_base (found : r.findFreeRange pages ≠ 0) : mmapBase ≤ r.findFreeRange pages := by
  unfold findFreeRange at found ⊢
  split at found
  · exact Nat.le_add_right ..
  · exact absurd rfl found

theorem Called.start_lt (called : Called r) : r.start < regionPages := by
  have proper : mmapBase < mmapLimit := by
    unfold mmapLimit
    omega
  have inside : mmapBase ≤ r.cursor ∧ r.cursor < mmapLimit := by
    refine Reach.invariant (fun r => mmapBase ≤ r.cursor ∧ r.cursor < mmapLimit) ?_ ?_ r called
    · intro r fresh
      rw [fresh]
      exact ⟨le_refl _,proper⟩
    rintro r c _ inside - rfl
    cases c with
    | allocatePages pages ok =>
      simp only [call,allocatePages]
      split
      · exact inside
      rename_i some
      have base := findFreeRange_base (fun zero => some (.inr (.inr zero)))
      split
      · exact inside
      dsimp only
      split
      · exact ⟨le_refl _,proper⟩
      · exact ⟨by omega,by omega⟩
    | freePages addr pages =>
      simp only [call,freePages]
      split <;> exact inside
  refine Nat.div_lt_of_lt_mul ?_
  rw [show pageSize * regionPages = 0x30000000 by decide +kernel]
  unfold mmapLimit at inside
  omega

theorem findRun_zero {left i run : Nat} : findRun mapped 0 left i run = none := by
  induction left generalizing i run with
  | zero => rfl
  | succ left ih => simp [findRun,ih]

def OneSided (r : Region) (pages first : Nat) : Prop := r.start ≤ first ∨ first + pages ≤ r.start

section
variable (bound : r.start < regionPages)
include bound

theorem findFreeRange_passes : r.findFreeRange pages =
    (((findRun r.mapped pages (regionPages - r.start) r.start 0).or (findRun r.mapped pages r.start 0 0)).map
      fun last => mmapBase + (last + 1 - pages) * pageSize).getD 0 := by
  rw [findFreeRange,findLoop_passes bound]
  cases (findRun r.mapped pages (regionPages - r.start) r.start 0).or (findRun r.mapped pages r.start 0 0) with
  | none => rfl
  | some last => rfl

theorem findFreeRange_some (found : r.findFreeRange pages ≠ 0) : ∃ first,
    r.findFreeRange pages = mmapBase + first * pageSize ∧ r.FreeRun pages first ∧ r.OneSided pages first := by
  rw [findFreeRange_passes bound] at found ⊢
  rcases Nat.eq_zero_or_pos pages with rfl | pos
  · rw [findRun_zero,findRun_zero] at found
    exact absurd rfl found
  cases upper : findRun r.mapped pages (regionPages - r.start) r.start 0 with
  | some last =>
    obtain ⟨free,above,long,inside⟩ := findRun_some pos upper
    exact ⟨_,rfl,⟨pos,by omega,free⟩,.inl above⟩
  | none =>
    cases lower : findRun r.mapped pages r.start 0 0 with
    | some last =>
      obtain ⟨free,-,long,inside⟩ := findRun_some pos lower
      exact ⟨_,rfl,⟨pos,by omega,free⟩,.inr (by omega)⟩
    | none =>
      rw [upper,lower] at found
      exact absurd rfl found

theorem findFreeRange_zero (missed : r.findFreeRange pages = 0) {first : Nat}
    (free : r.FreeRun pages first) : ¬ r.OneSided pages first := by
  obtain ⟨pos,fits,clear⟩ := free
  have none : (findRun r.mapped pages (regionPages - r.start) r.start 0).or (findRun r.mapped pages r.start 0 0) = none := by
    rw [findFreeRange_passes bound] at missed
    by_contra some
    obtain ⟨last,found⟩ := ne_none_iff_exists'.mp some
    rw [found,map_some,getD_some,mmapBase] at missed
    omega
  obtain ⟨upper,lower⟩ := or_eq_none_iff.mp none
  rintro (above | below)
  · obtain ⟨last,found,-⟩ := @findRun_least pages first r.start 0 (regionPages - r.start) r.mapped pos clear above
      (zero_le _) pos (by omega)
    cases upper.symm.trans found
  · obtain ⟨last,found,-⟩ := @findRun_least pages first 0 0 r.start r.mapped pos clear (zero_le _) (zero_le _) pos
      (by omega)
    cases lower.symm.trans found

end

/-- The search is right exactly when some run of so many pages, if there is one, lies on one side of
the cursor. -/
theorem findFreeRange_right_iff (r : Region) (called : Called r) (pages : Nat) : r.Right pages ↔
    ((∃ first, r.FreeRun pages first) → ∃ first, r.FreeRun pages first ∧ r.OneSided pages first) := by
  have bound := called.start_lt
  constructor
  · intro right there
    obtain ⟨first,-,found⟩ := findFreeRange_some bound fun zero => right.2 zero there
    exact ⟨first,found⟩
  intro holds
  refine ⟨fun found => ?_,fun zero there => ?_⟩
  · obtain ⟨first,value,free,-⟩ := findFreeRange_some bound found
    exact ⟨first,value,free⟩
  · obtain ⟨first,free,side⟩ := holds there
    exact findFreeRange_zero bound zero free side

def empty : Region := ⟨fun _ => false,mmapBase⟩

theorem findFreeRange_right_iff_empty : Called empty ∧ empty.Right 3 :=
  ⟨.start _ rfl,(findFreeRange_right_iff _ (.start _ rfl) 3).mpr fun _ => ⟨5,⟨by decide,by decide +kernel,fun _ _ _ => rfl⟩,
    .inl (by decide +kernel)⟩⟩

/-- Two pages are allocated and the second is freed: the run of all pages but the first lies around
the cursor. -/
def tight : Region := (empty.allocatePages 2 true).freePages (mmapBase + pageSize) 1

theorem tight_called : Called tight :=
  .next _ _ (.freePages (mmapBase + pageSize) 1) (.next _ _ (.allocatePages 2 true) (.start empty rfl) trivial rfl) trivial rfl

theorem tight_mapped (i : Nat) (behind : 1 ≤ i) : tight.mapped i = false := by
  have found : empty.findFreeRange 2 = mmapBase := by decide +kernel
  have allocated : empty.allocatePages 2 true = ⟨inside mmapBase 2,mmapBase + 2 * pageSize⟩ := by
    unfold allocatePages
    rw [found]
    rfl
  unfold tight freePages
  rw [allocated,if_neg (by decide +kernel)]
  have gap : inside mmapBase 2 i → inside (mmapBase + pageSize) 1 i := by
    intro low
    have upper := (of_decide_eq_true low).2
    rw [Nat.sub_self,Nat.zero_div] at upper
    refine decide_eq_true ?_
    rw [Nat.add_sub_cancel_left,Nat.div_self (by decide)]
    omega
  dsimp only
  cases low : inside mmapBase 2 i with
  | false => rfl
  | true => rw [gap low]; rfl

theorem not_every_search_right : ¬ ∀ r, Called r → ∀ pages, r.Right pages := by
  intro always
  have start : tight.start = 2 := by decide +kernel
  have large : 4 < regionPages := by decide +kernel
  have run : tight.FreeRun (regionPages - 1) 1 := ⟨by omega,by omega,fun i above _ => tight_mapped i above⟩
  obtain ⟨first,-,free,side⟩ := findFreeRange_some tight_called.start_lt
    fun zero => (always tight tight_called (regionPages - 1)).2 zero ⟨1,run⟩
  have fits := free.2.1
  unfold OneSided at side
  omega

end Region
end SurfaceOS.Cpu.FreeRange
