import Mathlib.Data.List.Basic
import SurfaceOS.Lib.Transition

/-! Events and waiting on kernel objects (obj/event.cpp, wait_one and wait_any of sfsync.cpp, wait_event
of process.cpp). The kernel does not preempt itself: what a thread does from one sleep to the next is
one step. A sleeper may look again at any time, as after a pause. -/
namespace SurfaceOS.Obj.Events
open Lib Function List Option

/-- `other` is a process or thread object: signaled from its end on, never consumed. -/
inductive Object
  | event (e : Nat)
  | other (k : Nat)
  deriving DecidableEq

inductive Item
  | object (o : Object)
  | key
  deriving DecidableEq

def maxItems : Nat := 16

/-- A wait in progress, with its deadline (0: none). `stores` says whether the index that WaitAny
reports can be written where the program wants it. -/
inductive Wait
  | one (o : Object) (tick : Nat)
  | any (items : List Item) (tick : Nat) (stores : Bool)
  deriving DecidableEq

def Wait.items : Wait → List Item
  | one o _ => [.object o]
  | any items _ _ => items

def Wait.tick : Wait → Nat
  | one _ tick => tick
  | any _ tick _ => tick

def Wait.stores : Wait → Bool
  | one _ _ => true
  | any _ _ stores => stores

inductive Thread
  | running
  | asleep (w : Wait) (woken : Bool)
  deriving DecidableEq

structure State where
  isSet : Nat → Bool
  autoReset : Nat → Bool
  ended : Nat → Bool
  keyReady : Bool
  ticks : Nat
  threads : Nat → Thread

inductive Answer
  | success (index : Nat)
  | timeout
  | aborted
  | invalid
  deriving DecidableEq

structure Done where
  thread : Nat
  wait : Wait
  answer : Answer
  deriving DecidableEq

inductive Action
  | set (e : Nat)
  | reset (e : Nat)
  | finish (k : Nat)
  | keys (ready : Bool)
  | tick
  | start (t : Nat) (w : Wait)
  | resume (t : Nat)
  | abort (t : Nat)
  deriving DecidableEq

namespace State

def signaled (s : State) : Object → Bool
  | .event e => s.isSet e
  | .other k => s.ended k

def ready (s : State) : Item → Bool
  | .object o => s.signaled o
  | .key => s.keyReady

def look (s : State) (w : Wait) : Option Nat := w.items.findIdx? s.ready

def due (s : State) (w : Wait) : Bool := w.tick ≠ 0 && w.tick ≤ s.ticks

def consume (s : State) : Item → State
  | .object (.event e) => if s.autoReset e then {s with isSet := update s.isSet e false} else s
  | _ => s

def put (s : State) (t : Nat) (l : Thread) : State := {s with threads := update s.threads t l}

/-- wake_up: everyone who sleeps on the queue of `o`, and every WaitAny. -/
def wakeUp (s : State) (o : Option Object) : State :=
  {s with threads := fun t => match s.threads t with
    | .running => .running
    | .asleep (.one p tick) woken => .asleep (.one p tick) (woken || o == some p)
    | .asleep (.any items tick stores) _ => .asleep (.any items tick stores) true}

/-- One round of wait_event and, when that is the last one, what follows it. -/
def round (s : State) (t : Nat) (w : Wait) : State × Option Done :=
  match s.look w with
  | some i =>
    let taken := match w.items[i]? with
      | some item => s.consume item
      | none => s
    (taken.put t .running,some ⟨t,w,if w.stores then .success i else .invalid⟩)
  | none => if s.due w then (s.put t .running,some ⟨t,w,.timeout⟩) else (s.put t (.asleep w false),none)

def step (s : State) : Action → Option (State × Option Done)
  | .set e => some ({s with isSet := update s.isSet e true}.wakeUp (some (.event e)),none)
  | .reset e => some ({s with isSet := update s.isSet e false},none)
  | .finish k => some ({s with ended := update s.ended k true}.wakeUp (some (.other k)),none)
  | .keys ready => some (if ready then {s with keyReady := true}.wakeUp none else {s with keyReady := false},none)
  | .tick => some ({s with ticks := s.ticks + 1},none)
  | .start t w =>
    match s.threads t with
    | .running => some (if maxItems < w.items.length then (s,some ⟨t,w,.invalid⟩) else s.round t w)
    | .asleep _ _ => none
  | .resume t =>
    match s.threads t with
    | .running => none
    | .asleep w _ => some (s.round t w)
  | .abort t =>
    match s.threads t with
    | .asleep w false => some (s.put t .running,some ⟨t,w,.aborted⟩)
    | _ => none

def run : State → List Action → Option (State × List Done)
  | s, [] => some (s,[])
  | s, a :: rest =>
    match s.step a with
    | none => none
    | some (t,done) =>
      match run t rest with
      | none => none
      | some (u,later) => some (u,done.toList ++ later)

end State

def Done.took (e : Nat) (d : Done) : Bool :=
  match d.answer with
  | .success i => d.wait.items[i]? == some (.object (.event e))
  | _ => false

def Done.Fair (d : Done) (s t : State) : Prop :=
  match d.answer with
  | .success i => ∃ item, d.wait.items[i]? = some item ∧ s.ready item ∧ t.isSet = (s.consume item).isSet
  | .timeout => t.isSet = s.isSet
  | .aborted => t.isSet = s.isSet
  | .invalid => t.isSet = s.isSet ∨ ∃ item ∈ d.wait.items, s.ready item ∧ t.isSet = (s.consume item).isSet

variable {a : Action} {actions : List Action} {all : List Done} {e : Nat} {done : Option Done} {s t u : State}
  {w : Wait}

namespace State

theorem look_spec {i : Nat} (found : s.look w = some i) : ∃ item, w.items[i]? = some item ∧ s.ready item := by
  obtain ⟨bound,holds,-⟩ := findIdx?_eq_some_iff_getElem.mp found
  exact ⟨w.items[i],getElem?_eq_getElem bound,holds⟩

inductive Effect (s : State) : Action → State → Option Done → Prop
  | set (e : Nat) (t : State) (events : t.isSet = update s.isSet e true) : Effect s (.set e) t none
  | reset (e : Nat) (t : State) (events : t.isSet = update s.isSet e false) : Effect s (.reset e) t none
  | still (a : Action) (t : State) (done : Option Done) (events : t.isSet = s.isSet) (noSet : ∀ e, a ≠ .set e)
      (noSuccess : ∀ d, done = some d → ∀ i, d.answer ≠ .success i) : Effect s a t done
  | took (a : Action) (t : State) (thread i : Nat) (w : Wait) (item : Item) (here : w.items[i]? = some item)
      (ready : s.ready item) (events : t.isSet = (s.consume item).isSet) (noSet : ∀ e, a ≠ .set e) :
      Effect s a t (some ⟨thread,w,if w.stores then .success i else .invalid⟩)

theorem run_cons {rest : List Action} (ran : s.run (a :: rest) = some (u,all)) : ∃ t done later,
      s.step a = some (t,done) ∧ t.run rest = some (u,later) ∧ all = done.toList ++ later := by
  simp only [run] at ran
  split at ran
  · simp at ran
  rename_i t done moved
  split at ran
  · simp at ran
  · rename_i v later remaining
    cases ran
    exact ⟨t,done,later,moved,remaining,rfl⟩

def FairRun : State → List Action → Prop
  | _, [] => True
  | s, a :: rest => ∀ t done, s.step a = some (t,done) → (∀ d, done = some d → d.Fair s t) ∧ FairRun t rest

section
variable (s)

theorem consume_autoReset (item : Item) : (s.consume item).autoReset = s.autoReset := by
  cases item with
  | key => rfl
  | object o =>
    cases o with
    | other k => rfl
    | event e => by_cases auto : s.autoReset e <;> simp [consume,auto]

theorem consume_isSet (item : Item) (e : Nat) :
    (s.consume item).isSet e = if item = .object (.event e) ∧ s.autoReset e then false else s.isSet e := by
  cases item with
  | key => simp [consume]
  | object o =>
    cases o with
    | other k => simp [consume]
    | event f =>
      by_cases same : f = e
      · subst same
        by_cases auto : s.autoReset f <;> simp [consume,auto]
      · by_cases auto : s.autoReset f <;> simp [consume,auto,same,update_of_ne (Ne.symm same)]

theorem round_cases (t : Nat) (w : Wait) :
    (∃ i item, s.look w = some i ∧ w.items[i]? = some item ∧ s.ready item ∧
      s.round t w = ((s.consume item).put t .running,some ⟨t,w,if w.stores then .success i else .invalid⟩)) ∨
    s.round t w = (s.put t .running,some ⟨t,w,.timeout⟩) ∨
    (s.look w = none ∧ s.round t w = (s.put t (.asleep w false),none)) := by
  cases found : s.look w with
  | some i =>
    obtain ⟨item,at_,holds⟩ := look_spec found
    exact .inl ⟨i,item,rfl,at_,holds,by simp [round,found,at_]⟩
  | none =>
    by_cases late : s.due w
    · exact .inr (.inl (by simp [round,found,late]))
    · exact .inr (.inr ⟨rfl,by simp [round,found,late]⟩)

theorem round_effect (a : Action) (noSet : ∀ e, a ≠ .set e) (i : Nat) (w : Wait) :
    Effect s a (s.round i w).1 (s.round i w).2 := by
  rcases s.round_cases i w with ⟨j,item,-,here,ready,result⟩ | result | ⟨-,result⟩
  · rw [result]
    exact .took a _ i j w item here ready rfl noSet
  · rw [result]
    exact .still a _ _ rfl noSet (by simp)
  · rw [result]
    exact .still a _ _ rfl noSet (by simp)

theorem round_autoReset (i : Nat) (w : Wait) : (s.round i w).1.autoReset = s.autoReset := by
  rcases s.round_cases i w with ⟨j,item,-,-,-,result⟩ | result | ⟨-,result⟩
  · rw [result]
    exact s.consume_autoReset item
  · rw [result]
    rfl
  · rw [result]
    rfl

end

theorem step_effect (moved : s.step a = some (t,done)) : Effect s a t done ∧ t.autoReset = s.autoReset := by
  cases a with
  | set e =>
    cases moved
    exact ⟨.set e _ rfl,rfl⟩
  | reset e =>
    cases moved
    exact ⟨.reset e _ rfl,rfl⟩
  | finish k =>
    cases moved
    exact ⟨.still _ _ _ rfl (by simp) (by simp),rfl⟩
  | keys ready =>
    cases ready <;> cases moved <;> exact ⟨.still _ _ _ rfl (by simp) (by simp),rfl⟩
  | tick =>
    cases moved
    exact ⟨.still _ _ _ rfl (by simp) (by simp),rfl⟩
  | start i w =>
    cases here : s.threads i with
    | asleep w woken => simp [step,here] at moved
    | running =>
      simp only [step,here,some.injEq] at moved
      split at moved
      · cases moved
        exact ⟨.still _ _ _ rfl (by simp) (by simp),rfl⟩
      have effect := s.round_effect (.start i w) (by simp) i w
      have kinds := s.round_autoReset i w
      rw [moved] at effect kinds
      exact ⟨effect,kinds⟩
  | resume i =>
    cases here : s.threads i with
    | running => simp [step,here] at moved
    | asleep w woken =>
      simp only [step,here,some.injEq] at moved
      have effect := s.round_effect (.resume i) (by simp) i w
      have kinds := s.round_autoReset i w
      rw [moved] at effect kinds
      exact ⟨effect,kinds⟩
  | abort i =>
    cases here : s.threads i with
    | running => simp [step,here] at moved
    | asleep w woken =>
      cases woken with
      | true => simp [step,here] at moved
      | false =>
        simp only [step,here] at moved
        cases moved
        exact ⟨.still _ _ _ rfl (by simp) (by simp),rfl⟩

theorem Effect.fair {d : Done} (moved : s.step a = some (t,some d)) : d.Fair s t := by
  have effect := (step_effect moved).1
  generalize isDone : some d = done at effect
  cases effect with
  | set e t events => simp at isDone
  | reset e t events => simp at isDone
  | still a t done events noSet noSuccess =>
    have never := noSuccess d isDone.symm
    unfold Done.Fair
    split
    · rename_i i success
      exact absurd success (never i)
    · exact events
    · exact events
    · exact .inl events
  | took a t thread i w item here ready events noSet =>
    obtain rfl := some.inj isDone
    cases stores : w.stores with
    | true => exact ⟨item,here,ready,events⟩
    | false => exact .inr ⟨item,mem_of_getElem? here,ready,events⟩

theorem Effect.ballot (effect : Effect s a t done) (auto : s.autoReset e) :
    done.toList.countP (Done.took e) + (t.isSet e).toNat ≤ (s.isSet e).toNat + [a].count (.set e) := by
  cases effect with
  | set f t events =>
    by_cases same : f = e
    · subst same
      simp [events]
    · simp [events,update_of_ne (Ne.symm same)]
  | reset f t events =>
    by_cases same : f = e
    · subst same
      simp [events]
    · simp [events,update_of_ne (Ne.symm same)]
  | still a t done events noSet noSuccess =>
    have none : done.toList.countP (Done.took e) = 0 := by
      apply countP_eq_zero.mpr
      intro d member
      have never := noSuccess d (mem_toList.mp member)
      unfold Done.took
      split
      · rename_i i success
        exact absurd success (never i)
      · simp
    rw [events]
    omega
  | took a t thread i w item here ready events noSet =>
    rw [events,consume_isSet]
    by_cases same : item = .object (.event e)
    · subst same
      have wasSet : s.isSet e := ready
      have atMost := countP_le_length (p := Done.took e)
        (l := [⟨thread,w,if w.stores then .success i else .invalid⟩])
      simp only [auto,wasSet]
      simpa using Nat.le_add_right_of_le atMost
    · have none : Done.took e ⟨thread,w,if w.stores then .success i else .invalid⟩ = false := by
        cases stores : w.stores <;> simp [Done.took,here,same]
      simp [same,none]

theorem Effect.manual (effect : Effect s a t done)
    (manual : s.autoReset e = false) (wasSet : s.isSet e) (noReset : a ≠ .reset e) : t.isSet e := by
  cases effect with
  | set f t events =>
    by_cases same : e = f
    · simp [events,same]
    · simp [events,same,wasSet]
  | reset f t events =>
    have other : e ≠ f := fun same => noReset (same ▸ rfl)
    simp [events,other,wasSet]
  | still a t done events noSet noSuccess => rw [events]; exact wasSet
  | took a t thread i w item here ready events noSet =>
    rw [events,consume_isSet]
    simp [manual,wasSet]

theorem run_ballot (ran : s.run actions = some (u,all)) (auto : s.autoReset e) :
    all.countP (Done.took e) + (u.isSet e).toNat ≤ (s.isSet e).toNat + actions.count (.set e) := by
  induction actions generalizing s all with
  | nil =>
    cases ran
    simp
  | cons a rest ih =>
    obtain ⟨t,done,later,moved,remaining,rfl⟩ := run_cons ran
    obtain ⟨effect,kinds⟩ := step_effect moved
    have first := effect.ballot auto
    have following := ih remaining (kinds ▸ auto)
    rw [countP_append,← singleton_append,count_append]
    omega

theorem run_manual (ran : s.run actions = some (u,all))
    (manual : s.autoReset e = false) (wasSet : s.isSet e) (noReset : .reset e ∉ actions) : u.isSet e := by
  induction actions generalizing s all with
  | nil =>
    cases ran
    exact wasSet
  | cons a rest ih =>
    obtain ⟨t,done,later,moved,remaining,rfl⟩ := run_cons ran
    obtain ⟨effect,kinds⟩ := step_effect moved
    have still := effect.manual manual wasSet (fun same => noReset (same ▸ mem_cons_self))
    exact ih remaining (kinds ▸ manual) still (fun member => noReset (mem_cons_of_mem a member))

theorem fairRun (s : State) (actions : List Action) : FairRun s actions := by
  induction actions generalizing s with
  | nil => trivial
  | cons a rest ih =>
    intro t done moved
    refine ⟨fun d isDone => ?_,ih t⟩
    subst isDone
    exact Effect.fair moved

/-- From any state and over any interleaving: the successes on an event that resets itself are never
more than its sets (one more when it was set before), a wait consumes what it reports and nothing
else, without success nothing, and an event that does not reset itself stays set. -/
theorem run_lawful (s u : State) (actions : List Action) (all : List Done) (ran : s.run actions = some (u,all)) :
    (∀ e, s.autoReset e →
      all.countP (Done.took e) + (u.isSet e).toNat ≤ (s.isSet e).toNat + actions.count (.set e)) ∧
    FairRun s actions ∧
    ∀ e, s.autoReset e = false → s.isSet e → .reset e ∉ actions → u.isSet e :=
  ⟨fun _ auto => run_ballot ran auto,s.fairRun actions,
    fun _ manual wasSet noReset => run_manual ran manual wasSet noReset⟩

def quiet : State := ⟨fun _ => false,fun _ => true,fun _ => false,false,0,fun _ => .running⟩

/-- Two threads wait for one event that resets itself, a third for it or a key; one set serves one. -/
def contended : List Action :=
  [.start 0 (.one (.event 7) 0),.start 1 (.one (.event 7) 3),.start 2 (.any [.key,.object (.event 7)] 0 true),
    .set 7,.resume 2,.resume 0,.tick,.tick,.tick,.resume 1,.abort 0]

theorem run_lawful_contended : ∃ u all, quiet.run contended = some (u,all) ∧
    all.map Done.answer = [.success 1,.timeout,.aborted] ∧ all.countP (Done.took 7) + (u.isSet 7).toNat ≤ 1 :=
  ⟨_,_,rfl,by decide,(run_lawful quiet _ contended _ rfl).1 7 rfl⟩

end State

end SurfaceOS.Obj.Events
