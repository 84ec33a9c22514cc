import Mathlib.Data.List.Basic

/-! Ending a program from the task manager (apps/taskmgr.cpp). The confirmation runs the event loop, in which
the timer samples the programs anew, while EndChosen goes on pointing at a place of the list. -/
namespace SurfaceOS.Apps.Taskmgr
open List

def maxPrograms : Nat := 64

structure Program where
  id : Nat
  name : List UInt8
  deriving DecidableEq

/-- An entry of the kernel's process table; `held` is one that is being set up, has ended with threads left,
or belongs to the kernel. -/
inductive Slot
  | free
  | held
  | runs (p : Program)
  deriving DecidableEq

def Slot.program : Slot → Option Program
  | .runs p => some p
  | _ => none

/-- The list as sampled last, old entries behind its end included, and the kernel's table. -/
structure State where
  programs : Nat → Program
  programCount : Nat
  table : List Slot

/-- What list_programs goes through, in the order of the table. -/
def State.live (s : State) : List Program := s.table.filterMap Slot.program

/-- While the confirmation is open; `gone` are the programs that end while a sample is taken. A new program
has the first free entry (alloc_process) and is there once it is loaded; an entry is free again when the
last thread has gone. -/
inductive Event
  | tick (gone : Nat → Bool)
  | alloc
  | start (slot : Nat) (p : Program)
  | exit (id : Nat)
  | clear (slot : Nat)
  | key

def ends (gone : Nat → Bool) (table : List Slot) : List Slot :=
  table.map fun slot => if slot.program.any fun p => gone p.id then .held else slot

def listed (gone : Nat → Bool) (live : List Program) : List Program :=
  (live.take maxPrograms).filter fun p => !gone p.id

def State.sample (s : State) (gone : Nat → Bool) : State where
  programs := fun i => (listed gone s.live)[i]?.getD (s.programs i)
  programCount := (listed gone s.live).length
  table := ends gone s.table

def State.refill (s : State) (slot : Nat) (old new : Slot) : State :=
  if s.table[slot]? = some old then {s with table := s.table.set slot new} else s

def State.act (s : State) : Event → State
  | .tick gone => s.sample gone
  | .alloc => s.refill (s.table.idxOf .free) .free .held
  | .start slot p => s.refill slot .held (.runs p)
  | .exit id => {s with table := ends (· == id) s.table}
  | .clear slot => s.refill slot .held .free
  | .key => s

def State.run (s : State) (events : List Event) : State := events.foldl act s

/-- The program that is ended, if one is: it may be gone already. -/
def State.endChosen (s : State) (cursor : Nat) (events : List Event) (yes : Bool) : Option Nat :=
  if cursor ≥ s.programCount then none
  else
    let t := s.run events
    if yes ∧ (t.programs cursor).id ∈ t.live.map Program.id then some (t.programs cursor).id else none

def State.lists (s : State) (cursor : Nat) : Event → Option Program
  | .tick gone => (listed gone s.live)[cursor]?
  | _ => none

/-- What the last sample with an entry at that place has there. -/
def State.relisted (s : State) (cursor : Nat) : List Event → Option Program
  | [] => none
  | e :: events => ((s.act e).relisted cursor events).or (s.lists cursor e)

theorem run_programs (s : State) (cursor : Nat) (events : List Event) :
    (s.run events).programs cursor = (s.relisted cursor events).getD (s.programs cursor) := by
  induction events generalizing s with
  | nil => rfl
  | cons e events ih =>
    change ((s.act e).run events).programs cursor = _
    rw [ih,State.relisted]
    cases (s.act e).relisted cursor events with
    | some p => rfl
    | none => cases e <;> grind [State.act,State.refill,State.sample,State.lists]

/-- Only the program that was shown is ended, unless a sample has put another one that runs in its place. -/
theorem ends_shown_iff (s : State) (cursor : Nat) (events : List Event) (yes : Bool) :
    (∀ id, s.endChosen cursor events yes = some id → id = (s.programs cursor).id) ↔
      (yes → cursor < s.programCount → ∀ p ∈ s.relisted cursor events,
        p.id ∈ (s.run events).live.map Program.id → p.id = (s.programs cursor).id) := by
  unfold State.endChosen
  simp only [run_programs]
  cases s.relisted cursor events with
  | none => grind
  | some p =>
    simp only [Option.getD_some,Option.mem_def,Option.some.injEq,forall_eq']
    by_cases far : s.programCount ≤ cursor
    · simp [far,Nat.not_lt.mpr far]
    by_cases runs : p.id ∈ (s.run events).live.map Program.id <;> cases yes <;> simp [far,runs,Nat.not_le.mp far]

/-- The program above the chosen one ends: what follows the chosen one is ended. -/
theorem ends_another : ¬ ∀ (s : State) (cursor : Nat) (events : List Event) (yes : Bool) (id : Nat),
    s.endChosen cursor events yes = some id → id = (s.programs cursor).id := by
  intro all
  have same := all ⟨fun i => ⟨i,[]⟩,3,[.runs ⟨0,[]⟩,.runs ⟨1,[]⟩,.runs ⟨2,[]⟩]⟩ 1 [.exit 0,.tick fun _ => false] true 2 (by decide)
  cases same

end SurfaceOS.Apps.Taskmgr
