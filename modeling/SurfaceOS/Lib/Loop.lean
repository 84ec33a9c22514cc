import Mathlib.Data.Sum.Basic

/-! Loops without a bound. What may run for ever is a computation with a number of turns to spend;
it halts when enough turns bring it to a result, which more of them do not change. A sweep goes over
a list and may stop before its end. -/
namespace SurfaceOS.Lib

variable {run : Nat → Option β} {b : β} {next : β → Nat → Option γ} {fuel more : Nat} {s : σ} {xs : List ι}
  {σ ι α β γ : Type}

/-- At most `fuel` turns of a loop; `none` while it still runs. -/
def loop (turn : σ → σ ⊕ β) : Nat → σ → Option β
  | 0, _ => none
  | fuel + 1, s => match turn s with
    | .inl t => loop turn fuel t
    | .inr b => some b

def HaltsWith (run : Nat → Option β) (b : β) : Prop := ∃ fuel, ∀ more, fuel ≤ more → run more = some b

def Halts (run : Nat → Option β) : Prop := ∃ b, HaltsWith run b

theorem HaltsWith.now (b : β) : HaltsWith (fun _ => some b) b := ⟨0,fun _ _ => rfl⟩

theorem HaltsWith.map {run : Nat → Option β} {b : β} (halts : HaltsWith run b) (f : β → γ) :
    HaltsWith (fun fuel => (run fuel).map f) (f b) := by
  obtain ⟨fuel,done⟩ := halts
  refine ⟨fuel,fun more enough => ?_⟩
  dsimp only
  rw [done more enough,Option.map_some]

theorem HaltsWith.bind {run : Nat → Option β} {b : β} {next : β → Nat → Option γ} {c : γ} (first : HaltsWith run b)
    (second : HaltsWith (next b) c) : HaltsWith (fun fuel => (run fuel).bind fun b => next b fuel) c := by
  obtain ⟨fuel,done⟩ := first
  obtain ⟨later,final⟩ := second
  refine ⟨max fuel later,fun more enough => ?_⟩
  dsimp only
  rw [done more (by omega),Option.bind_some,final more (by omega)]

theorem Halts.bind (first : Halts run)
    (second : ∀ b, HaltsWith run b → Halts (next b)) : Halts fun fuel => (run fuel).bind fun b => next b fuel := by
  obtain ⟨b,done⟩ := first
  obtain ⟨c,final⟩ := second b done
  exact ⟨c,done.bind final⟩

theorem Halts.map {run : Nat → Option β} (halts : Halts run) (f : β → γ) : Halts fun fuel => (run fuel).map f := by
  obtain ⟨b,done⟩ := halts
  exact ⟨f b,done.map f⟩

theorem haltsWith_succ : HaltsWith (fun fuel => run (fuel + 1)) b ↔ HaltsWith run b := by
  constructor
  · rintro ⟨fuel,done⟩
    refine ⟨fuel + 1,fun more enough => ?_⟩
    obtain ⟨more,rfl⟩ : ∃ k, more = k + 1 := ⟨more - 1,by omega⟩
    exact done more (by omega)
  · rintro ⟨fuel,done⟩
    exact ⟨fuel,fun more enough => done (more + 1) (by omega)⟩

theorem halts_succ : Halts (fun fuel => run (fuel + 1)) ↔ Halts run :=
  exists_congr fun _ => haltsWith_succ

section
variable {turn : σ → σ ⊕ β}

theorem loop_more {s : σ} {b : β} (ran : loop turn fuel s = some b) (enough : fuel ≤ more) :
    loop turn more s = some b := by
  induction fuel generalizing more s with
  | zero => cases ran
  | succ fuel ih =>
    obtain ⟨more,rfl⟩ : ∃ k, more = k + 1 := ⟨more - 1,by omega⟩
    unfold loop at ran ⊢
    cases turned : turn s with
    | inl t =>
      rw [turned] at ran
      exact ih ran (by omega)
    | inr c =>
      rw [turned] at ran
      exact ran

theorem loop_halts {s : σ} {b : β} (ran : loop turn fuel s = some b) :
    HaltsWith (fun fuel => loop turn fuel s) b :=
  ⟨fuel,fun _ enough => loop_more ran enough⟩

theorem Halts.ran {s : σ} (halts : Halts fun fuel => loop turn fuel s) : ∃ fuel b, loop turn fuel s = some b := by
  obtain ⟨b,fuel,done⟩ := halts
  exact ⟨fuel,b,done fuel (Nat.le_refl fuel)⟩

end

def sweep (see : α → ι → β ⊕ α) : α → List ι → β ⊕ α
  | a, [] => .inr a
  | a, x :: rest => match see a x with
    | .inl b => .inl b
    | .inr a => sweep see a rest

section
variable {see : α → ι → β ⊕ α}

theorem sweep_append (a : α) (xs ys : List ι) :
    sweep see a (xs ++ ys) = (sweep see a xs).elim .inl fun a => sweep see a ys := by
  induction xs generalizing a with
  | nil => rfl
  | cons x xs ih =>
    rw [List.cons_append,sweep,sweep]
    cases see a x with
    | inl b => rfl
    | inr a => exact ih a

theorem sweep_passes {holds : α → Prop} {xs : List ι}
    (step : ∀ a x, x ∈ xs → holds a → ∃ next, see a x = .inr next ∧ holds next) {a : α} (start : holds a) :
    ∃ next, sweep see a xs = .inr next ∧ holds next := by
  induction xs generalizing a with
  | nil => exact ⟨a,rfl,start⟩
  | cons x xs ih =>
    obtain ⟨next,seen,kept⟩ := step a x (List.mem_cons_self ..) start
    unfold sweep
    rw [seen]
    exact ih (fun a y member => step a y (List.mem_cons_of_mem x member)) kept

theorem sweep_stops {xs : List ι} {x : ι} (member : x ∈ xs) (stops : ∀ a, ∃ b, see a x = .inl b) (a : α) :
    ∃ b, sweep see a xs = .inl b := by
  induction xs generalizing a with
  | nil => cases member
  | cons y xs ih =>
    unfold sweep
    cases seen : see a y with
    | inl b => exact ⟨b,rfl⟩
    | inr next =>
      rcases List.mem_cons.mp member with rfl | later
      · obtain ⟨b,stopped⟩ := stops a
        rw [stopped] at seen
        cases seen
      · exact ih later next

end

end SurfaceOS.Lib
