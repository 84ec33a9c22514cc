import Mathlib.Data.List.Induction
import SurfaceOS.Lib.Ring

/-! The boot log (drivers/uart.cpp): what is sent is also kept in a ring, which dmesg reads oldest first. -/
namespace SurfaceOS.Uart
open Lib List

def uartLogSize : Nat := 8192

structure Log where
  ring : Nat → UInt8
  head : Nat
  wrapped : Bool

def Log.initial : Log := ⟨fun _ => 0,0,false⟩

def logChar (log : Log) (c : UInt8) : Log :=
  let head := (log.head + 1) % uartLogSize
  ⟨Function.update log.ring log.head c,head,head = 0 || log.wrapped⟩

/-- What is put into `out`; the result is its length. -/
def logRead (log : Log) (max : Nat) : List UInt8 :=
  if max = 0 then []
  else
    let total := if log.wrapped then uartLogSize else log.head
    let start := if log.wrapped then log.head else 0
    if max < total then Ring.contents uartLogSize log.ring ((start + (total - max)) % uartLogSize) max
    else Ring.contents uartLogSize log.ring start total

theorem logged (chars : List UInt8) : chars.foldl logChar Log.initial =
    ⟨Ring.store uartLogSize (fun _ => 0) 0 chars,chars.length % uartLogSize,uartLogSize ≤ chars.length⟩ := by
  induction chars using List.reverseRecOn with
  | nil => rfl
  | append_singleton chars c ih =>
    have turn : ((chars.length + 1) % uartLogSize = 0 ∨ uartLogSize ≤ chars.length) ↔
        uartLogSize ≤ chars.length + 1 := by
      unfold uartLogSize
      omega
    rw [foldl_append,ih,Ring.store_append]
    simp [logChar,Ring.store,← turn]

theorem logRead_last (chars : List UInt8) (max : Nat) : logRead (chars.foldl logChar Log.initial) max =
    chars.drop (chars.length - min max (min chars.length uartLogSize)) := by
  have total : (if uartLogSize ≤ chars.length then uartLogSize else chars.length % uartLogSize) =
      min chars.length uartLogSize := by
    unfold uartLogSize
    split <;> omega
  rw [logged,← Ring.contents_store_last uartLogSize (fun _ => 0) 0 _ chars (by omega) (by omega),← Ring.contents_mod]
  simp only [logRead,decide_eq_true_eq,total]
  -- Before the first wrap the log starts at 0, after it at the head: both are `length` less `total`, turn by turn.
  split_ifs with none
  · simp [none,Ring.contents]
  all_goals
    rw [← Ring.contents_mod]
    unfold uartLogSize at *
    congr 1 <;> omega

end SurfaceOS.Uart
