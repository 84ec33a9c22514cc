import Mathlib.Data.UInt
import SurfaceOS.Lib.Threads

/-! The big kernel lock (cpu/spinlock.cpp). Each access to `bkl_owner` and to a CPU's depth is a step
of its own. Interrupts come in where they are on: outside the three functions, and while `enter`
waits for the lock. -/
namespace SurfaceOS.Cpu.Bkl
open Lib List

variable {depth : UInt32} {enters leaves : Nat}

/-- Where a CPU is. From `entering` to the next `code` or `spinning` its interrupts are off. -/
inductive Pc
  | code
  | entering (tries : Bool)
  | nesting
  | contending (tries : Bool)
  | took
  | spinning
  | leaving
  | dropping
  | emptied
  deriving DecidableEq

/-- A CPU with the activations its interrupts have stopped. `enters` and `leaves` count the calls
that took and gave back. -/
structure Core where
  depth : UInt32
  pc : Pc
  below : List Pc
  enters : Nat
  leaves : Nat

inductive Action
  | enter
  | tryEnter
  | leave
  | go
  | interrupt
  | iret

def go (owner me : Nat) (c : Core) : Option (Nat × Core) :=
  match c.pc with
  | .code => none
  | .entering tries => some (owner,{c with pc := if owner = me then .nesting else .contending tries})
  | .nesting => some (owner,{c with depth := c.depth + 1, enters := c.enters + 1, pc := .code})
  | .contending tries =>
    if owner = 0 then some (me,{c with pc := .took})
    else some (owner,{c with pc := if tries then .code else .spinning})
  | .took => some (owner,{c with depth := 1, enters := c.enters + 1, pc := .code})
  | .spinning => if owner = 0 then some (owner,{c with pc := .entering false}) else none
  | .leaving =>
    if owner ≠ me ∨ c.depth = 0 then some (owner,{c with pc := .code}) else some (owner,{c with pc := .dropping})
  | .dropping => some (owner,{c with
      depth := c.depth - 1
      leaves := c.leaves + 1
      pc := if c.depth - 1 = 0 then .emptied else .code})
  | .emptied => some (0,{c with pc := .code})

def move (cpu owner : Nat) (c : Core) : Action → Option (Nat × Core)
  | .enter => if c.pc = .code then some (owner,{c with pc := .entering false}) else none
  | .tryEnter => if c.pc = .code then some (owner,{c with pc := .entering true}) else none
  | .leave => if c.pc = .code then some (owner,{c with pc := .leaving}) else none
  | .go => go owner (cpu + 1) c
  | .interrupt =>
    if c.pc = .code ∨ c.pc = .spinning then some (owner,{c with pc := .code, below := c.pc :: c.below}) else none
  | .iret => match c.pc, c.below with
    | .code, pc :: below => some (owner,{c with pc := pc, below := below})
    | _, _ => none

abbrev State := Threads Nat Core

def Initial (s : State) : Prop := s.shared = 0 ∧ ∀ c, s.locals c = ⟨0,.code,[],0,0⟩

def anything (_ : State) (_ : Nat × Action) : Prop := True

def Known (owner me : Nat) (depth : UInt32) : Pc → Prop
  | .nesting => owner = me
  | .took => owner = me ∧ depth = 0
  | .dropping => owner = me ∧ depth ≠ 0
  | .emptied => owner = me ∧ depth = 0
  | _ => True

structure Ok (cpu owner : Nat) (c : Core) : Prop where
  known : Known owner (cpu + 1) c.depth c.pc
  waiting : ∀ pc ∈ c.below, pc = .code ∨ pc = .spinning
  owned : c.depth ≠ 0 → owner = cpu + 1
  -- the depth wraps around once for each of the `k`
  balance : ∃ k, c.leaves + c.depth.toNat + k * 2^32 = c.enters

theorem known_interruptible {owner me : Nat} {pc : Pc} (open_ : pc = .code ∨ pc = .spinning) :
    Known owner me depth pc := by
  rcases open_ with rfl | rfl <;> trivial

theorem balance_up (balance : ∃ k, leaves + depth.toNat + k * 2^32 = enters) :
    ∃ k, leaves + (depth + 1).toNat + k * 2^32 = enters + 1 := by
  obtain ⟨k,rfl⟩ := balance
  have below := depth.toNat_lt
  have next : (depth + 1).toNat = (depth.toNat + 1) % 2^32 := UInt32.toNat_add ..
  rcases Nat.lt_or_ge (depth.toNat + 1) (2^32) with inside | full
  · exact ⟨k,by rw [next]; omega⟩
  · exact ⟨k + 1,by rw [next]; omega⟩

theorem balance_down (some : depth ≠ 0) (balance : ∃ k, leaves + depth.toNat + k * 2^32 = enters) :
    ∃ k, leaves + 1 + (depth - 1).toNat + k * 2^32 = enters := by
  obtain ⟨k,rfl⟩ := balance
  have positive : depth.toNat ≠ 0 := fun zero => some (UInt32.toNat_inj.mp zero)
  have less : (depth - 1).toNat = depth.toNat - 1 :=
    UInt32.toNat_sub_of_le _ _ (UInt32.le_iff_toNat_le.mpr (by rw [UInt32.toNat_one]; omega))
  exact ⟨k,by omega⟩

variable {cpu owner now : Nat} {c d : Core}

theorem Ok.goes (ok : Ok cpu owner c) (moved : go owner (cpu + 1) c = some (now,d)) : Ok cpu now d := by
  obtain ⟨known,waiting,owned,balance⟩ := ok
  revert moved
  fun_cases go owner (cpu + 1) c with
  | case2 tries =>
    rintro ⟨⟩
    refine ⟨?_,waiting,owned,balance⟩
    dsimp only
    split
    · next mine => exact mine
    · trivial
  | case3 here =>
    rw [here] at known
    rintro ⟨⟩
    exact ⟨trivial,waiting,fun _ => known,balance_up balance⟩
  | case4 tries _ free =>
    rintro ⟨⟩
    have empty : c.depth = 0 := by
      by_contra some
      exact absurd (owned some) (by omega)
    exact ⟨⟨rfl,empty⟩,waiting,fun _ => rfl,balance⟩
  | case5 tries =>
    rintro ⟨⟩
    refine ⟨known_interruptible ?_,waiting,owned,balance⟩
    cases tries
    · exact .inr rfl
    · exact .inl rfl
  | case6 here =>
    rw [here] at known
    rintro ⟨⟩
    obtain ⟨mine,empty⟩ := known
    rw [empty] at balance
    exact ⟨trivial,waiting,fun _ => mine,balance_up balance⟩
  | case7 | case9 =>
    rintro ⟨⟩
    exact ⟨trivial,waiting,owned,balance⟩
  | case10 _ held =>
    rintro ⟨⟩
    obtain ⟨mine,some⟩ := not_or.mp held
    exact ⟨⟨not_not.mp mine,some⟩,waiting,owned,balance⟩
  | case11 here =>
    rw [here] at known
    rintro ⟨⟩
    obtain ⟨mine,some⟩ := known
    refine ⟨?_,waiting,fun _ => mine,balance_down some balance⟩
    dsimp only
    split
    · next empty => exact ⟨mine,empty⟩
    · trivial
  | case12 here =>
    rw [here] at known
    rintro ⟨⟩
    exact ⟨trivial,waiting,fun some => absurd known.2 some,balance⟩
  | _ => rintro ⟨⟩

section
variable {a : Action} (ok : Ok cpu owner c) (moved : move cpu owner c a = some (now,d))
include ok moved

theorem Ok.moves : Ok cpu now d := by
  revert moved
  fun_cases move cpu owner c a with
  | case1 | case3 | case5 =>
    -- a call starts with interrupts off and nothing known yet
    rintro ⟨⟩
    exact ⟨trivial,ok.waiting,ok.owned,ok.balance⟩
  | case7 => exact ok.goes
  | case8 open_ =>
    rintro ⟨⟩
    refine ⟨trivial,fun pc member => ?_,ok.owned,ok.balance⟩
    rcases mem_cons.mp member with rfl | under
    · exact open_
    · exact ok.waiting pc under
  | case10 pc below stopped =>
    rintro ⟨⟩
    have waiting := ok.waiting
    rw [stopped] at waiting
    exact ⟨known_interruptible (waiting pc (mem_cons_self ..)),fun p member => waiting p (mem_cons_of_mem _ member),
      ok.owned,ok.balance⟩
  | _ => rintro ⟨⟩

theorem Ok.changes : now = owner ∨ owner = 0 ∧ now = cpu + 1 ∨ owner = cpu + 1 ∧ now = 0 := by
  have known := ok.known
  revert moved
  fun_cases move cpu owner c a with
  | case7 =>
    fun_cases go owner (cpu + 1) c with
    | case4 tries _ free =>
      rintro ⟨⟩
      exact .inr (.inl ⟨free,rfl⟩)
    | case12 here =>
      rw [here] at known
      rintro ⟨⟩
      exact .inr (.inr ⟨known.1,rfl⟩)
    | _ => grind
  | _ => grind

end

theorem Ok.stays (ok : Ok cpu owner c) {other : Nat} (apart : cpu ≠ other)
    (changed : now = owner ∨ owner = 0 ∧ now = other + 1 ∨ owner = other + 1 ∧ now = 0) : Ok cpu now c := by
  have same : owner = cpu + 1 → now = cpu + 1 := by omega
  refine ⟨?_,ok.waiting,fun some => same (ok.owned some),ok.balance⟩
  have known := ok.known
  cases here : c.pc with
  | nesting =>
    rw [here] at known
    exact same known
  | took =>
    rw [here] at known
    exact ⟨same known.1,known.2⟩
  | dropping =>
    rw [here] at known
    exact ⟨same known.1,known.2⟩
  | emptied =>
    rw [here] at known
    exact ⟨same known.1,known.2⟩
  | _ => trivial

theorem ok_everywhere {s : State} (reached : Reach Initial anything (Threads.Step move) s) (c : Nat) :
    Ok c s.shared (s.locals c) := by
  refine Threads.invariant Ok ?_ ?_ ?_ reached c
  · rintro s ⟨_,cores⟩ c
    rw [cores c]
    exact ⟨trivial,nofun,fun some => absurd rfl some,0,rfl⟩
  · intro s c a g l _ ok moved
    exact ok.moves moved
  · intro s c d a g l _ apart ok other moved
    exact other.stays apart (ok.changes moved)

/-- Whatever the CPUs and their interrupts do, at most one of them has the lock; its depth is the number
of enters it has not given back, in 32 bits, and only the owner has one; a leave by another
CPU changes nothing. -/
theorem bkl_excludes {s : State} (reached : Reach Initial anything (Threads.Step move) s) :
    (∀ c d, (s.locals c).depth ≠ 0 → (s.locals d).depth ≠ 0 → c = d) ∧
    (∀ c, (s.locals c).leaves ≤ (s.locals c).enters ∧
      (s.locals c).depth.toNat = ((s.locals c).enters - (s.locals c).leaves) % 2^32) ∧
    (∀ c, (s.locals c).depth ≠ 0 → s.shared = c + 1) ∧
    ∀ c t, s.shared ≠ c + 1 → (s.locals c).pc ∈ [.leaving,.dropping,.emptied] →
      Threads.Step move s (c,.go) t → t.shared = s.shared ∧ ∀ d, (t.locals d).depth = (s.locals d).depth := by
  have ok := ok_everywhere reached
  refine ⟨fun c d first second => ?_,fun c => ?_,fun c => (ok c).owned,fun c t other inside moved => ?_⟩
  · have mine := (ok c).owned first
    have yours := (ok d).owned second
    omega
  · obtain ⟨k,balance⟩ := (ok c).balance
    have below := (s.locals c).depth.toNat_lt
    omega
  obtain ⟨g,l,here,rfl⟩ := Threads.step_cases moved
  have known := (ok c).known
  have place : (s.locals c).pc = .leaving := by
    rcases mem_cons.mp inside with leaving | inside
    · exact leaving
    rcases mem_cons.mp inside with dropping | inside
    · rw [dropping] at known
      exact absurd known.1 other
    · rw [mem_singleton.mp inside] at known
      exact absurd known.1 other
  dsimp only [move,go] at here
  rw [place] at here
  dsimp only at here
  rw [if_pos (.inl other)] at here
  cases here
  refine ⟨rfl,fun d => ?_⟩
  rcases eq_or_ne d c with rfl | apart
  · simp
  · simp [Function.update_of_ne apart]

def idle : State := ⟨0,fun _ => ⟨0,.code,[],0,0⟩⟩

/-- CPU 0 takes the lock twice; CPU 1 waits for it, and the handler of an interrupt that comes in
meanwhile tries in vain. -/
def contended : List (Nat × Action) :=
  [(0,.enter),(0,.go),(1,.enter),(0,.go),(1,.go),(0,.go),(1,.go),(1,.interrupt),(1,.tryEnter),(0,.interrupt),
    (0,.tryEnter),(1,.go),(0,.go),(1,.go),(0,.go),(1,.iret)]

theorem bkl_excludes_nested : ∃ s, execute (Threads.run move) idle contended = some s ∧
    (s.locals 1).pc = .spinning ∧ (s.locals 0).depth = 2 ∧ ∀ c, (s.locals c).depth ≠ 0 → c = 0 := by
  have ran : execute (Threads.run move) idle contended =
    some ((execute (Threads.run move) idle contended).getD idle) := rfl
  refine ⟨_,ran,rfl,rfl,fun c held => ?_⟩
  exact (bkl_excludes (Threads.reaches (fun _ _ _ => trivial) ⟨rfl,fun _ => rfl⟩ ran)).1 c 0 held (by decide)

/-- The owner has not given back all it took, or is just taking the lock or letting it go. -/
def Owed (cpu owner : Nat) (c : Core) : Prop :=
  owner = cpu + 1 → c.leaves < c.enters ∨ c.pc = .took ∨ c.pc = .emptied

theorem Owed.moves {a : Action} (owed : Owed cpu owner c) (ok : Ok cpu owner c) (moved : move cpu owner c a = some (now,d)) :
    Owed cpu now d := by
  obtain ⟨k,balance⟩ := ok.balance
  intro mine
  revert moved
  fun_cases move cpu owner c a with
  | case7 =>
    fun_cases go owner (cpu + 1) c with
    | case3 | case6 =>
      rintro ⟨⟩
      exact .inl (by dsimp only; omega)
    | case4 =>
      rintro ⟨⟩
      exact .inr (.inl rfl)
    | case11 here =>
      rintro ⟨⟩
      have some : c.depth ≠ 0 := (here ▸ ok.known : Known owner (cpu + 1) c.depth .dropping).2
      obtain ⟨k,after⟩ := balance_down some ⟨k,balance⟩
      dsimp only
      split
      · exact .inr (.inr rfl)
      · next more =>
        have left : (c.depth - 1).toNat ≠ 0 := fun zero => more (UInt32.toNat_inj.mp zero)
        omega
    | case12 =>
      rintro ⟨⟩
      cases mine
    | _ => grind [Owed]
  | _ => grind [Owed]

/-- The lock is never taken for nobody: whatever the CPUs and their interrupts do, its owner has a leave
to come, or is in the middle of an `enter` or a `leave`. -/
theorem bkl_never_lost {s : State} (reached : Reach Initial anything (Threads.Step move) s) (c : Nat)
    (owned : s.shared = c + 1) : (s.locals c).leaves < (s.locals c).enters ∨
      (s.locals c).pc = .took ∨ (s.locals c).pc = .emptied := by
  refine (Threads.invariant (fun c g l => Ok c g l ∧ Owed c g l) ?_ ?_ ?_ reached c).2 owned
  · rintro s initial c
    exact ⟨ok_everywhere (.start s initial) c,fun mine => by rw [initial.1] at mine; cases mine⟩
  · intro s c a g l _ ok moved
    exact ⟨ok.1.moves moved,ok.2.moves ok.1 moved⟩
  · intro s c d a g l _ apart ok other moved
    have changed := ok.1.changes moved
    exact ⟨other.1.stays apart changed,fun mine => other.2 (by omega)⟩

theorem bkl_never_lost_nested : ∃ s, execute (Threads.run move) idle contended = some s ∧ s.shared = 1 ∧
    ((s.locals 0).leaves < (s.locals 0).enters ∨ (s.locals 0).pc = .took ∨ (s.locals 0).pc = .emptied) := by
  have ran : execute (Threads.run move) idle contended =
    some ((execute (Threads.run move) idle contended).getD idle) := rfl
  exact ⟨_,ran,rfl,bkl_never_lost (Threads.reaches (fun _ _ _ => trivial) ⟨rfl,fun _ => rfl⟩ ran) 0 rfl⟩

end SurfaceOS.Cpu.Bkl
