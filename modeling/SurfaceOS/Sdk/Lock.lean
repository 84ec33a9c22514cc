import SurfaceOS.Lib.Threads

/-! The lock between the threads of a program (sdk/runtime/sync.cpp): a count of the threads that hold
or want it, and an auto-reset event the others sleep on (obj/event.cpp). The kernel runs under one
lock and is not preempted, so what a thread does in it up to its next sleep is one step. -/
namespace SurfaceOS.Sdk.Lock
open Lib Function

structure Event where
  isSet : Bool
  autoReset : Bool
  waiters : List Nat

def Event.consume (e : Event) : Event := if e.autoReset then {e with isSet := false} else e

def Event.set (e : Event) : Event := {e with isSet := true, waiters := []}

structure SdkLock where
  count : Int
  event : Event

/-- Where a thread is: `waiting` before a look at the event, `asleep` on its queue, `consumed`
between taking the signal and the return of `LockAcquire`, `releasing` before the set. -/
inductive Pc
  | outside
  | waiting
  | asleep
  | consumed
  | holding
  | releasing
  deriving DecidableEq

/-- `abort` is a sleep that the end of the program cuts short; `LockAcquire` then waits again. -/
inductive Action
  | acquire
  | look
  | resume
  | abort
  | arrive
  | release
  | set

def move (i : Nat) (k : SdkLock) (pc : Pc) : Action → Option (SdkLock × Pc)
  | .acquire => if pc = .outside then
      some ({k with count := k.count + 1},if k.count + 1 = 1 then .holding else .waiting) else none
  | .look => if pc = .waiting then
      some (if k.event.isSet then ({k with event := k.event.consume},.consumed)
        else ({k with event := {k.event with waiters := i :: k.event.waiters}},.asleep)) else none
  | .resume => if pc = .asleep ∧ i ∉ k.event.waiters then some (k,.waiting) else none
  | .abort => if pc = .asleep then
      some ({k with event := {k.event with waiters := k.event.waiters.filter (· ≠ i)}},.waiting) else none
  | .arrive => if pc = .consumed then some (k,.holding) else none
  | .release => if pc = .holding then
      some ({k with count := k.count - 1},if k.count - 1 > 0 then .releasing else .outside) else none
  | .set => if pc = .releasing then some ({k with event := k.event.set},.outside) else none

abbrev State := Threads SdkLock Pc

def Initial (s : State) : Prop := s.shared = ⟨0,⟨false,true,[]⟩⟩ ∧ ∀ i, s.locals i = .outside

def among (n : Nat) (_ : State) (a : Nat × Action) : Prop := a.1 < n

def counted : Pc → Nat
  | .waiting | .asleep | .consumed | .holding => 1
  | _ => 0

def entitled : Pc → Nat
  | .consumed | .holding | .releasing => 1
  | _ => 0

/-- The right to a lock that is wanted is in one place: with a thread or in the event. -/
structure Inv (n : Nat) (s : State) : Prop where
  count : s.shared.count = Threads.total n counted s.locals
  right : Threads.total n entitled s.locals + s.shared.event.isSet.toNat = if s.shared.count > 0 then 1 else 0
  auto : s.shared.event.autoReset
  woken : s.shared.event.isSet → s.shared.event.waiters = []
  others : ∀ i, n ≤ i → s.locals i = .outside

variable {n i : Nat} {s : State}

theorem Inv.start (initial : Initial s) : Inv n s := by
  obtain ⟨shared,outside⟩ := initial
  have none : ∀ weight : Pc → Nat, weight .outside = 0 → Threads.total n weight s.locals = 0 := fun weight zero =>
    Threads.total_zero fun i => by rw [outside i,zero]
  refine ⟨?_,?_,?_,?_,fun i _ => outside i⟩
  · rw [none counted rfl,shared]
    rfl
  · rw [none entitled rfl,shared]
    rfl
  · rw [shared]
  · rw [shared]
    exact nofun

/-- A step of thread `i`, given what it does to the count, the signal and the sleepers. -/
theorem Inv.steps (inv : Inv n s) (inside : i < n) {k : SdkLock} {pc : Pc}
    (count : k.count + counted (s.locals i) = s.shared.count + counted pc)
    (right : 0 ≤ s.shared.count → entitled (s.locals i) ≤ Threads.total n entitled s.locals →
      (if s.shared.count > 0 then 1 else 0) + entitled pc + k.event.isSet.toNat =
        (if k.count > 0 then 1 else 0) + entitled (s.locals i) + s.shared.event.isSet.toNat)
    (auto : k.event.autoReset = s.shared.event.autoReset)
    (woken : k.event.isSet → k.event.waiters = []) : Inv n ⟨k,update s.locals i pc⟩ := by
  have update : ∀ weight : Pc → Nat, Threads.total n weight (update s.locals i pc) + weight (s.locals i) =
    Threads.total n weight s.locals + weight pc := fun weight => Threads.total_update inside pc
  have wants := update counted
  have rights := update entitled
  have before := inv.count
  have balance := inv.right
  refine ⟨?_,?_,auto.trans inv.auto,woken,fun j beyond => ?_⟩
  · dsimp only
    omega
  · have held : entitled (s.locals i) ≤ Threads.total n entitled s.locals := by
      rw [Threads.total_split inside]
      omega
    dsimp only
    omega
  · dsimp only
    rw [update_of_ne (by omega),inv.others j beyond]

theorem Inv.moves (inv : Inv n s) (inside : i < n) {a : Action} {k : SdkLock} {pc : Pc}
    (moved : move i s.shared (s.locals i) a = some (k,pc)) : Inv n ⟨k,update s.locals i pc⟩ := by
  have balance := inv.right
  have woken := inv.woken
  cases a with
  | acquire =>
    obtain ⟨here,⟨⟩⟩ := Option.ite_none_right_eq_some.mp moved
    refine inv.steps inside ?_ (fun low _ => ?_) rfl woken
    · rw [here]
      split <;> simp [counted]
    · rw [here]
      split <;> split <;> simp [entitled] <;> omega
  | look =>
    obtain ⟨here,moved⟩ := Option.ite_none_right_eq_some.mp moved
    split at moved
    · next set =>
      cases moved
      have consumed : s.shared.event.consume = {s.shared.event with isSet := false} := if_pos inv.auto
      refine inv.steps inside ?_ (fun low _ => ?_) ?_ ?_
      · rw [here]
        rfl
      · rw [here,consumed,set]
        rfl
      · rw [consumed]
      · rw [consumed]
        rintro ⟨⟩
    · next clear =>
      cases moved
      refine inv.steps inside ?_ (fun low _ => ?_) rfl fun set => absurd set clear
      · rw [here]
        rfl
      · rw [here]
        rfl
  | resume =>
    obtain ⟨here,⟨⟩⟩ := Option.ite_none_right_eq_some.mp moved
    refine inv.steps inside ?_ (fun _ _ => ?_) rfl woken
    · rw [here.1]
      rfl
    · rw [here.1]
      rfl
  | abort =>
    obtain ⟨here,⟨⟩⟩ := Option.ite_none_right_eq_some.mp moved
    refine inv.steps inside ?_ (fun _ _ => ?_) rfl fun set => ?_
    · rw [here]
      rfl
    · rw [here]
      rfl
    · dsimp only at ⊢
      rw [woken set,List.filter_nil]
  | arrive =>
    obtain ⟨here,⟨⟩⟩ := Option.ite_none_right_eq_some.mp moved
    refine inv.steps inside ?_ (fun _ _ => ?_) rfl woken
    · rw [here]
      rfl
    · rw [here]
      rfl
  | release =>
    obtain ⟨here,⟨⟩⟩ := Option.ite_none_right_eq_some.mp moved
    refine inv.steps inside ?_ (fun low held => ?_) rfl woken
    · rw [here]
      split <;> simp [counted]
    rw [here] at held ⊢
    have wanted : s.shared.count > 0 := by
      by_contra none
      rw [if_neg none] at balance
      dsimp only [entitled] at held
      omega
    rw [if_pos wanted]
    by_cases more : s.shared.count - 1 > 0
    · rw [if_pos more,if_pos more]
      rfl
    · rw [if_neg more,if_neg more]
      simp only [entitled]
  | set =>
    obtain ⟨here,⟨⟩⟩ := Option.ite_none_right_eq_some.mp moved
    refine inv.steps inside ?_ (fun low held => ?_) rfl fun _ => rfl
    · rw [here]
      rfl
    rw [here] at held ⊢
    dsimp only [entitled] at held
    have clear : s.shared.event.isSet = false := by
      cases set : s.shared.event.isSet with
      | false => rfl
      | true =>
        rw [set,Bool.toNat_true] at balance
        split at balance <;> omega
    rw [clear]
    rfl

theorem inv_everywhere (reached : Reach Initial (among n) (Threads.Step move) s) : Inv n s := by
  refine Reach.invariant (Inv n) (fun s initial => .start initial) ?_ s reached
  rintro s ⟨i,a⟩ t inv inside moved
  obtain ⟨k,pc,here,rfl⟩ := Threads.step_cases moved
  exact inv.moves inside here

/-- Whatever the threads do, at most one holds the lock, and when none does although some want it,
the event is set (and everybody who slept on it is awake), or a release is about to set it, or
a thread has consumed it and arrives. -/
theorem lock_excludes (reached : Reach Initial (among n) (Threads.Step move) s) :
    (∀ i j, s.locals i = .holding → s.locals j = .holding → i = j) ∧
    (s.shared.count > 0 → (∀ i, s.locals i ≠ .holding) →
      (s.shared.event.isSet ∧ s.shared.event.waiters = []) ∨ (∃ i, s.locals i = .releasing) ∨
        ∃ i, s.locals i = .consumed) := by
  have inv := inv_everywhere reached
  have right := inv.right
  have inside : ∀ i, s.locals i ≠ .outside → i < n := fun i busy => by
    by_contra beyond
    exact busy (inv.others i (Nat.not_lt.mp beyond))
  constructor
  · intro i j first second
    have small : Threads.total n entitled s.locals ≤ 1 := by
      split at right <;> omega
    refine Threads.total_unique small (inside i ?_) (inside j ?_) ?_ ?_
    · rw [first]
      decide
    · rw [second]
      decide
    · rw [first]
      decide
    · rw [second]
      decide
  · intro wanted free
    rw [if_pos wanted] at right
    cases set : s.shared.event.isSet with
    | true => exact .inl ⟨rfl,inv.woken set⟩
    | false =>
      rw [set,Bool.toNat_false] at right
      obtain ⟨i,_,weighs⟩ := Threads.total_exists (show Threads.total n entitled s.locals ≠ 0 by omega)
      cases here : s.locals i with
      | consumed => exact .inr (.inr ⟨i,here⟩)
      | releasing => exact .inr (.inl ⟨i,here⟩)
      | holding => exact absurd here (free i)
      | _ =>
        rw [here] at weighs
        exact absurd rfl weighs

def unlocked : State := ⟨⟨0,⟨false,true,[]⟩⟩,fun _ => .outside⟩

/-- Thread 1 sleeps while thread 0 holds the lock, is woken by its release, and thread 2, which comes
later, takes the signal before it. -/
def overtaken : List (Nat × Action) :=
  [(0,.acquire),(1,.acquire),(1,.look),(0,.release),(2,.acquire),(0,.set),(2,.look),(1,.resume),(1,.look)]

theorem lock_excludes_overtaken : ∃ s, execute (Threads.run move) unlocked overtaken = some s ∧
    s.shared.count = 2 ∧ s.shared.event.waiters = [1] ∧ (∀ i, s.locals i ≠ .holding) ∧
      ((s.shared.event.isSet ∧ s.shared.event.waiters = []) ∨ (∃ i, s.locals i = .releasing) ∨
        ∃ i, s.locals i = .consumed) := by
  have ran : execute (Threads.run move) unlocked overtaken =
    some ((execute (Threads.run move) unlocked overtaken).getD unlocked) := rfl
  have reached : Reach Initial (among 3) (Threads.Step move) _ :=
    Threads.reaches (fun a member _ => by revert a; unfold among; decide) ⟨rfl,fun _ => rfl⟩ ran
  have free : ∀ i, ((execute (Threads.run move) unlocked overtaken).getD unlocked).locals i ≠ .holding := by
    intro i
    match i with
    | 0 | 1 | 2 => decide
    | i + 3 => exact nofun
  exact ⟨_,ran,rfl,rfl,free,(lock_excludes reached).2 (by decide) free⟩

end SurfaceOS.Sdk.Lock
