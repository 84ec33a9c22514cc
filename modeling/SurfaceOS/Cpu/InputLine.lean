import Mathlib.Data.List.TakeWhile
import Mathlib.Logic.Function.Iterate

/-! Lines from the file or pipe that is a program's input (`input_line`, cpu/process.cpp). -/
namespace SurfaceOS.Cpu.InputLine
open List

/-- `in` with `in_off`; from a pipe, what is still to come of it. -/
inductive Input
  | file (bytes : List UInt8) (off : Nat)
  | pipe (left : List UInt8)

namespace Input

def left : Input → List UInt8
  | file bytes off => bytes.drop off
  | pipe left => left

def read (n : Nat) : Input → List UInt8 × Input
  | file bytes off => ((bytes.drop off).take (min n 256),file bytes off)
  | pipe left => (left.take (min n 1),pipe (left.drop (min n 1)))

/-- `in_off` moves, which a pipe does not look at. -/
def skip (used : Nat) : Input → Input
  | file bytes off => file bytes (off + used)
  | pipe left => pipe left

end Input

def line (s : List UInt8) : List UInt8 := s.takeWhile (· ≠ 10)

structure Reader where
  input : Input
  reads : Nat

/-- The loop over the chunks; `there` says what each read finds. -/
def lineLoop (there : Nat → Nat) (size : Nat) : Nat → Reader → Bool → List UInt8 → Bool × List UInt8 × Reader
  | 0,r,any,buf => (any,buf,r)
  | fuel + 1,r,any,buf =>
    let (chunk,input) := r.input.read (there r.reads + 1)
    if chunk = [] then (any,buf,⟨input,r.reads + 1⟩)
    else
      let i := (line chunk).length
      let buf := buf ++ (line chunk).take (size - 1 - buf.length)
      let r := ⟨input.skip (if i < chunk.length then i + 1 else chunk.length),r.reads + 1⟩
      if i < chunk.length then (true,buf,r) else lineLoop there size fuel r true buf

def inputLine (there : Nat → Nat) (size : Nat) (r : Reader) : Option (List UInt8) × Reader :=
  let (any,buf,r) := lineLoop there size (r.input.left.length + 1) r false []
  if any then (some (if buf.getLast? = some 13 then buf.dropLast else buf),r) else (none,r)

def calls (there sizes : Nat → Nat) (r : Reader) : Nat → Reader
  | 0 => r
  | k + 1 => (inputLine there (sizes k) (calls there sizes r k)).2

def behind (s : List UInt8) : List UInt8 := s.drop ((line s).length + 1)

def broken (s : List UInt8) : Bool := (line s).length < s.length

/-- The first line of a stream without the CR before its line break, cut to `size - 1` bytes. -/
def expected (size : Nat) (s : List UInt8) : List UInt8 :=
  (if broken s ∧ (line s).getLast? = some 13 then (line s).dropLast else line s).take (size - 1)

/-- What is kept of the line ends with a CR that no line break follows. -/
def StrayReturn (size : Nat) (s : List UInt8) : Prop :=
  ((line s).take (size - 1)).getLast? = some 13 ∧ ¬ (broken s ∧ (line s).length ≤ size - 1)

theorem Input.read_left (input : Input) (n : Nat) : (input.read (n + 1)).1 <+: input.left ∧
    ((input.read (n + 1)).1 = [] → input.left = []) ∧
    ∀ used ≤ (input.read (n + 1)).1.length, (used = 0 → input.left = []) →
      ((input.read (n + 1)).2.skip used).left = input.left.drop used := by
  cases input with
  | file bytes off =>
    refine ⟨ take_prefix ..,fun empty => ?_,fun used _ _ => ?_⟩
    · exact (take_eq_nil_iff.mp empty).resolve_left (by omega)
    · simp [read,skip,left]
  | pipe rest =>
    have one : min (n + 1) 1 = 1 := by omega
    simp only [read,skip,left,one]
    refine ⟨ take_prefix ..,fun empty => ?_,fun used small some => ?_⟩
    · exact (take_eq_nil_iff.mp empty).resolve_left (by omega)
    rcases Nat.eq_zero_or_pos used with zero | positive
    · simp [some zero]
    · rw [length_take] at small
      rw [show used = 1 by omega]

theorem Input.skip_zero (input : Input) : input.skip 0 = input := by
  cases input <;> rfl

theorem line_append (chunk rest : List UInt8) : line (chunk ++ rest) =
    if (line chunk).length < chunk.length then line chunk else chunk ++ line rest := by
  have bound : (line chunk).length ≤ chunk.length := ( takeWhile_prefix _).length_le
  unfold line at bound ⊢
  rw [takeWhile_append]
  split
  · next same => rw [if_neg (by omega)]
  · next other => rw [if_pos (by omega)]

theorem lineLoop_spec {there : Nat → Nat} {size fuel : Nat} {r : Reader} {any : Bool} {buf : List UInt8}
    (enough : r.input.left.length < fuel) : ∃ after, lineLoop there size fuel r any buf =
      (any || r.input.left ≠ [],buf ++ (line r.input.left).take (size - 1 - buf.length),after) ∧
      after.input.left = behind r.input.left := by
  induction fuel generalizing r any buf with
  | zero => omega
  | succ fuel ih =>
    obtain ⟨⟨rest,whole⟩,none,skips⟩ := r.input.read_left (there r.reads)
    unfold lineLoop
    generalize r.input.read (there r.reads + 1) = got at whole none skips ⊢
    obtain ⟨chunk,input⟩ := got
    dsimp only at whole ⊢
    by_cases empty : chunk = []
    · have beyond := none empty
      have same := skips 0 (Nat.zero_le _) fun _ => beyond
      rw [if_pos empty,beyond]
      refine ⟨⟨input,r.reads + 1⟩,by simp [line],?_⟩
      rw [beyond,Input.skip_zero] at same
      exact same
    have some : r.input.left ≠ [] := by simp [← whole,empty]
    have positive : 0 < chunk.length := length_pos_iff.mpr empty
    rw [if_neg empty]
    by_cases ends : (line chunk).length < chunk.length
    · have cut : line r.input.left = line chunk := by rw [← whole,line_append,if_pos ends]
      rw [if_pos ends,if_pos ends,cut]
      refine ⟨⟨input.skip ((line chunk).length + 1),r.reads + 1⟩,by simp [some],?_⟩
      rw [behind,cut]
      exact skips _ ends (by omega)
    have cut : line r.input.left = chunk ++ line rest := by rw [← whole,line_append,if_neg ends]
    have all : line chunk = chunk := ( takeWhile_prefix _).eq_of_length_le (Nat.not_lt.mp ends)
    have left := skips chunk.length (Nat.le_refl _) (by omega)
    rw [← whole,drop_left] at left
    have shorter := congrArg List.length whole
    rw [length_append] at shorter
    rw [if_neg ends,if_neg ends,all]
    obtain ⟨after,done,rests⟩ := @ih ⟨input.skip chunk.length,r.reads + 1⟩ true
      (buf ++ chunk.take (size - 1 - buf.length)) (by rw [left]; omega)
    refine ⟨after,?_,?_⟩
    · rw [done,left,cut,take_append,append_assoc]
      simp only [some,length_append,length_take,Bool.true_or,ne_eq,not_false_eq_true,decide_true,
        Bool.or_true,Prod.mk.injEq,true_and,and_true]
      congr 3
      omega
    · rw [rests,left,behind,behind,cut,← whole,length_append,Nat.add_assoc]
      simp

def withoutReturn (s : List UInt8) : List UInt8 := if s.getLast? = some 13 then s.dropLast else s

theorem inputLine_spec (there : Nat → Nat) (size : Nat) (r : Reader) : (inputLine there size r).1 =
    (if r.input.left = [] then none else some (withoutReturn ((line r.input.left).take (size - 1)))) ∧
    (inputLine there size r).2.input.left = behind r.input.left := by
  obtain ⟨after,done,rests⟩ := @lineLoop_spec there size _ r false [] (Nat.lt_succ_self _)
  unfold inputLine
  rw [done]
  by_cases empty : r.input.left = []
  · rw [empty] at rests ⊢
    exact ⟨rfl,rests⟩
  · simp [empty,rests,withoutReturn]

theorem withoutReturn_eq_self {s : List UInt8} : withoutReturn s = s ↔ s.getLast? ≠ some 13 := by
  unfold withoutReturn
  split
  · next last =>
    refine iff_of_false (fun same => ?_) (by simp [last])
    have short := congrArg List.length same
    have some : s ≠ [] := by
      rintro rfl
      cases last
    have := length_pos_iff.mpr some
    rw [length_dropLast] at short
    omega
  · next other => exact iff_of_true rfl other

theorem expected_iff (size : Nat) (s : List UInt8) :
    withoutReturn ((line s).take (size - 1)) = expected size s ↔ ¬ StrayReturn size s := by
  unfold expected StrayReturn
  by_cases whole : (line s).length ≤ size - 1
  · rw [take_of_length_le whole,take_of_length_le]
    · cases ends : broken s with
      | false => simp [withoutReturn_eq_self]
      | true => simp [withoutReturn,whole]
    split
    · rw [length_dropLast]
      omega
    · exact whole
  · have cut : (if broken s ∧ (line s).getLast? = some 13 then (line s).dropLast else line s).take (size - 1) =
        (line s).take (size - 1) := by
      split
      · rw [dropLast_eq_take,take_take,Nat.min_eq_left (by omega)]
      · rfl
    rw [cut,withoutReturn_eq_self]
    simp [whole]

theorem calls_left (there sizes : Nat → Nat) (r : Reader) (k : Nat) :
    (calls there sizes r k).input.left = behind^[k] r.input.left := by
  induction k with
  | zero => rfl
  | succ k ih => rw [Function.iterate_succ_apply',← ih,calls,(inputLine_spec ..).2]

/-- The k-th call returns the k-th line, or that there is none, exactly when what is kept of the line
does not end with a CR that no line break follows. -/
theorem inputLine_kth_iff (there sizes : Nat → Nat) (r : Reader) (k : Nat) :
    (inputLine there (sizes k) (calls there sizes r k)).1 =
      (if behind^[k] r.input.left = [] then none else some (expected (sizes k) (behind^[k] r.input.left))) ↔
    ¬ StrayReturn (sizes k) (behind^[k] r.input.left) := by
  rw [(inputLine_spec ..).1,calls_left,← expected_iff]
  split
  · next beyond => simp [beyond,expected,line,withoutReturn]
  · rw [Option.some.injEq]

/-- A last line with a CR at its end and no line break. -/
theorem not_every_line_kept : ¬ ∀ there sizes r k, (inputLine there (sizes k) (calls there sizes r k)).1 =
    if behind^[k] r.input.left = [] then none else some (expected (sizes k) (behind^[k] r.input.left)) := by
  intro always
  have last := always (fun _ => 0) (fun _ => 80) ⟨.file [65,13] 0,0⟩ 0
  revert last
  decide +kernel

end SurfaceOS.Cpu.InputLine
