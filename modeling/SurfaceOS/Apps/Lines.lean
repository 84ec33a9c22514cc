import Mathlib.Data.List.GetD
import Mathlib.Order.Monotone.Basic

/-! Lines and columns of the editor's text (apps/explorer/editor.cpp): the table of line starts, the line of a
position, and the way from a position to its column on screen and back. -/
namespace SurfaceOS.Apps.Editor
open List

def tab : Nat := 4

structure LineTable where
  lines : List Nat
  capacity : Nat
  hexMode : Bool

def lineStarts (data : List UInt8) : List Nat :=
  0 :: ((List.range data.length).filter fun i => data.getD i 0 = 10).map (· + 1)

def findLines (table : LineTable) (data : List UInt8) (memory : Bool) : LineTable :=
  let count := 1 + data.count 10
  if table.capacity < count then
    if memory then ⟨lineStarts data,count * 2 + 1024,table.hexMode⟩ else ⟨[],0,true⟩
  else {table with lines := lineStarts data}

def lineSearch (lines : List Nat) (pos low high : Nat) : Nat :=
  if 1 < high - low then
    let mid := (low + high) / 2
    if lines.getD mid 0 ≤ pos then lineSearch lines pos mid high else lineSearch lines pos low mid
  else low
termination_by high - low

def lineOf (lines : List Nat) (pos : Nat) : Nat := lineSearch lines pos 0 lines.length

/-- Where the line's text ends: before its line break, CR LF or LF. -/
def lineEnd (data : List UInt8) (lines : List Nat) (line : Nat) : Nat :=
  let stop := if line + 1 < lines.length then lines.getD (line + 1) 0 - 1 else data.length
  if lines.getD line 0 < stop ∧ data.getD (stop - 1) 0 = 13 ∧ line + 1 < lines.length then stop - 1 else stop

def advance (c : UInt8) (col : Nat) : Nat := if c = 9 then (col / tab + 1) * tab else col + 1

/-- The column after the first characters from `start` on. -/
def columnFrom (data : List UInt8) (start : Nat) : Nat → Nat
  | 0 => 0
  | n + 1 => advance (data.getD (start + n) 0) (columnFrom data start n)

def columnOf (data : List UInt8) (lines : List Nat) (line pos : Nat) : Nat :=
  columnFrom data (lines.getD line 0) (pos - lines.getD line 0)

def posFrom (data : List UInt8) (stop wanted i col : Nat) : Nat :=
  if i < stop ∧ col < wanted then posFrom data stop wanted (i + 1) (advance (data.getD i 0) col) else i
termination_by stop - i

def posAtColumn (data : List UInt8) (lines : List Nat) (line wanted : Nat) : Nat :=
  posFrom data (lineEnd data lines line) wanted (lines.getD line 0) 0

/-- The line's range: up to the next line's start, and for the last one up to the end of the text. -/
def InLine (data : List UInt8) (lines : List Nat) (pos line : Nat) : Prop :=
  line < lines.length ∧ lines.getD line 0 ≤ pos ∧
    if line + 1 < lines.length then pos < lines.getD (line + 1) 0 else pos ≤ data.length

variable {data : List UInt8} {lines : List Nat} {pos : Nat}

theorem lineStarts_sorted (data : List UInt8) : (lineStarts data).Pairwise (· < ·) := by
  refine pairwise_cons.mpr ⟨?_,?_⟩
  · intro start member
    obtain ⟨i,_,rfl⟩ := mem_map.mp member
    exact i.succ_pos
  · exact (pairwise_lt_range.filter _).map _ fun i j less => Nat.succ_lt_succ less

theorem lineSearch_inLine (low high : Nat) (less : low < high) (bound : high ≤ lines.length)
    (from_ : lines.getD low 0 ≤ pos)
    (upto : if high < lines.length then pos < lines.getD high 0 else pos ≤ data.length) :
    InLine data lines pos (lineSearch lines pos low high) := by
  fun_induction lineSearch lines pos low high with
  | case1 low high far mid below ih => exact ih (by omega) bound below upto
  | case2 low high far mid above ih =>
    refine ih (by omega) (by omega) from_ ?_
    rw [if_pos (by omega)]
    omega
  | case3 low high near =>
    obtain rfl : high = low + 1 := by omega
    exact ⟨bound,from_,upto⟩

theorem InLine.le (sorted : lines.Pairwise (· < ·)) {first second : Nat}
    (one : InLine data lines pos first) (other : InLine data lines pos second) : second ≤ first := by
  by_contra later
  obtain ⟨_,_,ends⟩ := one
  obtain ⟨bound,starts,_⟩ := other
  rw [if_pos (by omega)] at ends
  rcases Nat.eq_or_lt_of_le (Nat.gt_of_not_le later) with rfl | less
  · exact absurd ends (Nat.not_lt.mpr starts)
  · have order := pairwise_iff_getElem.mp sorted (first + 1) second (by omega) bound less
    rw [getD_eq_getElem _ _ (by omega)] at ends
    rw [getD_eq_getElem _ _ bound] at starts
    omega

theorem advance_lt (c : UInt8) (col : Nat) : col < advance c col := by
  unfold advance tab
  split <;> omega

theorem columnFrom_strictMono (data : List UInt8) (start : Nat) : StrictMono (columnFrom data start) :=
  strictMono_nat_of_lt_succ fun _ => advance_lt _ _

/-- Columns only grow, so that the loop stops at the wanted one not before the last of the characters. -/
theorem posFrom_columnFrom (data : List UInt8) (start stop n left : Nat) (inside : start + n + left ≤ stop) :
    posFrom data stop (columnFrom data start (n + left)) (start + n) (columnFrom data start n) = start + n + left := by
  induction left generalizing n with
  | zero => rw [posFrom,if_neg (by simp),Nat.add_zero]
  | succ left ih =>
    have before := columnFrom_strictMono data start (show n < n + (left + 1) by omega)
    have next := ih (n + 1) (by omega)
    rw [posFrom,if_pos ⟨by omega,before⟩,show n + (left + 1) = n + 1 + left by omega]
    exact next.trans (by omega)

theorem line_and_column (table : LineTable) (data : List UInt8) (memory : Bool) :
    let made := findLines table data memory
    (memory = false ∧ table.capacity < 1 + data.count 10 ∧ made.lines = [] ∧ made.hexMode) ∨
      (∀ pos ≤ data.length, ∀ line, InLine data made.lines pos line ↔ line = lineOf made.lines pos) ∧
      ∀ line < made.lines.length, ∀ pos, made.lines.getD line 0 ≤ pos → pos ≤ lineEnd data made.lines line →
        posAtColumn data made.lines line (columnOf data made.lines line pos) = pos := by
  intro made
  by_cases starts : made.lines = lineStarts data
  case neg =>
    left
    unfold made findLines at *
    grind
  refine .inr ⟨?_,?_⟩
  · intro pos bound line
    rw [starts]
    have found : InLine data (lineStarts data) pos (lineOf (lineStarts data) pos) :=
      lineSearch_inLine 0 _ (by simp [lineStarts]) le_rfl (by simp [lineStarts]) (by simpa using bound)
    constructor
    · intro inLine
      have sorted := lineStarts_sorted data
      exact le_antisymm (found.le sorted inLine) (inLine.le sorted found)
    · rintro rfl
      exact found
  · intro line _ pos first last
    have back := posFrom_columnFrom data (made.lines.getD line 0) (lineEnd data made.lines line) 0
      (pos - made.lines.getD line 0) (by omega)
    rw [Nat.zero_add,Nat.add_zero,Nat.add_sub_cancel' first] at back
    exact back

end SurfaceOS.Apps.Editor
