import Mathlib.Algebra.Group.Nat.Defs
import Mathlib.Logic.Relation

/-! Runs of a labelled transition system. A run takes only the actions its guard
admits in the state they start from; an invariant is shown once for the start
and once for a step. A machine that answers calls implements another one when
a relation between their states is kept by every call. -/
namespace SurfaceOS.Lib

variable {A S α β ε : Type} {init : S → Prop} {guard : S → A → Prop} {step : S → A → S → Prop} {r : Except ε α}
  {b : β} {move : S → A → Option S}

inductive Reach {S A : Type} (init : S → Prop) (guard : S → A → Prop) (step : S → A → S → Prop) :
    S → Prop
  | start (s : S) (initial : init s) : Reach init guard step s
  | next (s t : S) (a : A) (before : Reach init guard step s) (allowed : guard s a)
      (moved : step s a t) : Reach init guard step t

theorem Reach.invariant
    (holds : S → Prop) (base : ∀ s, init s → holds s) (kept : ∀ s a t, holds s → guard s a → step s a t → holds t)
    (s : S) (reached : Reach init guard step s) : holds s := by
  induction reached with
  | start s initial => exact base s initial
  | next s t a before allowed moved ih => exact kept s a t ih allowed moved

theorem bind_ok {f : α → Except ε β} (done : (r >>= f) = .ok b) : ∃ a, r = .ok a ∧ f a = .ok b := by
  cases r with
  | error e => cases done
  | ok a => exact ⟨a,rfl,done⟩

theorem exists_of_toBool (accepted : r.toBool) : ∃ a, r = .ok a := by
  cases r with
  | error e => cases accepted
  | ok a => exact ⟨a,rfl⟩

theorem bind_guard {o : Option α} {c : α → Prop} [DecidablePred c] {f : α → Option β}
    (moved : (o.bind fun a => if c a then f a else none) = some b) : ∃ a, o = some a ∧ c a ∧ f a = some b := by
  obtain ⟨a,here,guarded⟩ := Option.bind_eq_some_iff.mp moved
  exact ⟨a,here,Option.ite_none_right_eq_some.mp guarded⟩

def execute {S A : Type} (move : S → A → Option S) : S → List A → Option S
  | s, [] => some s
  | s, a :: rest => (move s a).bind fun t => execute move t rest

theorem Reach.execute (sound : ∀ s a t, move s a = some t → guard s a ∧ step s a t) (actions : List A) (s t : S)
    (reached : Reach init guard step s) (ran : Lib.execute move s actions = some t) : Reach init guard step t := by
  induction actions generalizing s with
  | nil => exact Option.some.inj ran ▸ reached
  | cons a rest ih =>
    obtain ⟨middle,moved,remaining⟩ := Option.bind_eq_some_iff.mp ran
    obtain ⟨allowed,taken⟩ := sound s a middle moved
    exact ih middle (.next s middle a reached allowed taken) remaining

theorem Reach.admitted (actions : List A) (allowed : ∀ a ∈ actions, ∀ s, guard s a) (s t : S)
    (reached : Reach init guard (fun s a t => move s a = some t) s) (ran : Lib.execute move s actions = some t) :
    Reach init guard (fun s a t => move s a = some t) t := by
  induction actions generalizing s with
  | nil => exact Option.some.inj ran ▸ reached
  | cons a rest ih =>
    obtain ⟨middle,moved,remaining⟩ := Option.bind_eq_some_iff.mp ran
    have next := Reach.next s middle a reached (allowed a (List.mem_cons_self ..) s) moved
    exact ih (fun b member => allowed b (List.mem_cons_of_mem a member)) middle next remaining

def answers {S A O : Type} (move : S → A → S × O) : S → List A → S × List O
  | s, [] => (s,[])
  | s, a :: rest =>
    let done := answers move (move s a).1 rest
    (done.1,(move s a).2 :: done.2)

def Along {S A O : Type} (move : S → A → S × O) (guard : S → A → Prop) : S → List A → Prop
  | _, [] => True
  | s, a :: rest => guard s a ∧ Along move guard (move s a).1 rest

instance {S A O : Type} (move : S → A → S × O) (guard : S → A → Prop) [∀ s a, Decidable (guard s a)] :
    ∀ s calls, Decidable (Along move guard s calls)
  | _, [] => .isTrue trivial
  | s, a :: rest =>
    have := instDecidableAlong move guard (move s a).1 rest
    inferInstanceAs (Decidable (guard s a ∧ Along move guard (move s a).1 rest))

/-- Forward simulation: when one call keeps two machines related and is answered alike by both,
so is every list of calls. -/
theorem answers_simulate {T O : Type} {move : S → A → S × O} {spec : T → A → T × O} (related : S → T → Prop)
    (kept : ∀ s t a, related s t → guard s a → related (move s a).1 (spec t a).1 ∧ (move s a).2 = (spec t a).2)
    (calls : List A) (s : S) (t : T) (start : related s t) (admitted : Along move guard s calls) :
    related (answers move s calls).1 (answers spec t calls).1 ∧
      (answers move s calls).2 = (answers spec t calls).2 := by
  induction calls generalizing s t with
  | nil => exact ⟨start,rfl⟩
  | cons a rest ih =>
    obtain ⟨next,same⟩ := kept s t a start admitted.1
    obtain ⟨final,later⟩ := ih (move s a).1 (spec t a).1 next admitted.2
    exact ⟨final,congrArg₂ List.cons same later⟩

end SurfaceOS.Lib
