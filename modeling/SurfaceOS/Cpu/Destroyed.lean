import SurfaceOS.Cpu.Spaces

/-! When address spaces go. A slot's address space is destroyed once between its launch and the
time it is free again, unless an exit or crash met another thread at a lock: that thread is doomed
where no CPU will pick it, and what it holds up stays for good. -/
namespace SurfaceOS.Cpu
open Lib Function Option Nat

variable {b : Proc} {a : Action} {now u v : State} {n : Nat} {s : State} {c p t : Nat}

def level (b : Proc) : Nat := b.space.toNat + b.destroyed

def Levels (s u : State) : Prop := ∀ q, level (u.procs q) = level (s.procs q)

theorem Levels.of_procs (same : u.procs = s.procs) : Levels s u := fun q => by rw [same]

theorem Levels.trans (first : Levels s u) (second : Levels u v) : Levels s v :=
  fun q => (second q).trans (first q)

theorem levels_setProc (same : level b = level (s.procs p)) : Levels s (s.setProc p b) := by
  intro q
  rw [setProc_procs]
  split
  · next here => rw [here,same]
  · rfl

theorem levels_release (s : State) (p : Nat) : Levels s (releaseAddressSpace s p) := by
  unfold releaseAddressSpace
  dsimp only
  split
  · next there =>
    apply levels_setProc
    simp only [level,there,Bool.toNat_false,Bool.toNat_true]
    omega
  · exact .of_procs rfl

def Fresh (s : State) : Prop :=
  Initial s ∧ ∀ p, (s.procs p).state = .unused ∧ (s.procs p).space = false ∧ (s.procs p).destroyed = 0

theorem Fresh.spaces (fresh : Fresh s) : Spaces s := by
  obtain ⟨⟨threads,_,cur,_⟩,procs⟩ := fresh
  refine ⟨⟨fun c t here => ?_,fun t running => ?_,fun t doomed => ?_,fun t _ => (threads t).2.1⟩,fun p => ?_⟩
  · rw [cur c] at here
    cases here
  · exact Bool.noConfusion ((threads t).2.1.symm.trans running)
  · exact Bool.noConfusion ((threads t).2.2.1.symm.trans doomed)
  obtain ⟨unused,space,zero⟩ := procs p
  have empty : ∀ t, (s.places t).proc ≠ some p := by
    intro t its
    change (s.threads t).proc = some p at its
    rw [(threads t).2.2.2.2.1] at its
    cases its
  refine ⟨fun _ => ⟨space,by rw [zero]; exact zero_le 1,empty⟩,fun used => absurd unused used,fun ended => ?_,
    fun t its => absurd its (empty t)⟩
  rw [unused] at ended
  cases ended

theorem enter_doomed (open_ : s.bkl = none) (here : s.cur c = some t) (user : (s.threads t).user)
    (doomed : (s.threads t).doomed) : Step n s (.enter c) (endDoomed n {s with bkl := some c} c t) := by
  simp only [Step,step,open_,here,user,doomed,if_true]

theorem endDoomed_threads (gone : Inv n (freeThread s c t)) (mine : (s.threads t).proc = some p) :
    (endDoomed n s c t).threads = (freeThread s c t).threads := by
  unfold endDoomed
  rw [mine]
  dsimp only
  split
  · next empty =>
    have nobody : ∀ u, ((releaseAddressSpace (freeThread s c t) p).threads u).proc ≠ some p := by
      intro u owner
      rw [releaseAddressSpace_threads] at owner
      exact absurd empty (ne_of_gt (countThreads_pos gone owner))
    split
    · rw [freeProcess_empty (by exact nobody)]
      exact (releaseAddressSpace_threads _ p).trans (releaseAddressSpace_threads _ p)
    · exact releaseAddressSpace_threads _ p
  · rfl

theorem Spaces.unwinds (spaces : Spaces s) (inv : Inv n s) (ended : (s.procs p).state = .ended)
    (mine : (s.threads t).proc = some p) :
    (s.threads t).doomed ∧ (s.threads t).user ∧ s.cur (s.threads t).cpu = some t ∧
      (s.bkl = none → ∃ u, Step n s (.enter (s.threads t).cpu) u ∧ (u.threads t).proc = none ∧
        ∀ v, v ≠ t → u.threads v = s.threads v) := by
  have doomed : (s.threads t).doomed := by
    obtain ⟨q,its,lives⟩ := (inv.fits t).home (inv.small mine).2
    obtain rfl : p = q := some.inj (mine.symm.trans its)
    by_contra healthy
    exact (alive_used (lives (by simpa using healthy))).2 ended
  have user := (inv.fits t).dooms doomed
  have here := spaces.placed.run t (spaces.placed.doom t doomed).1
  refine ⟨doomed,user,here,fun open_ => ⟨_,enter_doomed open_ here user doomed,?_⟩⟩
  have gone := (inv.take open_ (s.threads t).cpu).freesThread (s.threads t).cpu ((inv.fits t).outside user)
  rw [endDoomed_threads (s := {s with bkl := some (s.threads t).cpu}) gone mine]
  refine ⟨?_,fun v other => ?_⟩
  · rw [freeThread_threads,if_pos rfl]
    rfl
  · rw [freeThread_threads,if_neg other]

section
variable (n) (s) (c p)

theorem levels_endThreads : Levels s (endThreads n s c p).1 := by
  have loop : ∀ (slots : List Nat) (acc : State × Nat), (slots.foldl (endThread c p) acc).1.procs = acc.1.procs := by
    intro slots
    induction slots with
    | nil => exact fun _ => rfl
    | cons t rest ih =>
      intro acc
      rw [List.foldl_cons,ih]
      unfold endThread
      dsimp only
      split
      · rfl
      · split
        · rfl
        · exact freeThread_procs ..
  exact .of_procs (loop _ (s,0))

theorem levels_freeProcess : Levels s (freeProcess n s c p) := by
  have ended := levels_endThreads n s c p
  unfold freeProcess
  dsimp only
  split
  · exact ended.trans (levels_setProc rfl)
  · exact (ended.trans (levels_release _ p)).trans (levels_setProc rfl)

theorem levels_terminate : Levels s (terminate n s c p) := by
  have ended := levels_endThreads n s c p
  unfold terminate
  dsimp only
  split
  · exact (ended.trans (levels_release _ p)).trans (levels_freeProcess n _ c _)
  · exact ended.trans (levels_freeProcess n _ c _)

end

theorem levels_endDoomed (n : Nat) (s : State) (c t : Nat) : Levels s (endDoomed n s c t) := by
  have freed : Levels s (freeThread s c t) := .of_procs (freeThread_procs ..)
  unfold endDoomed
  split
  · exact .of_procs rfl
  dsimp only
  split
  · split
    · refine ((freed.trans (levels_release _ _)).trans (levels_setProc ?_)).trans (levels_freeProcess n _ c _)
      rfl
    · exact freed.trans (levels_release _ _)
  · exact freed

theorem step_level (taken : Step n s a u) (used : (s.procs p).state ≠ .unused) :
    level (u.procs p) = level (s.procs p) := by
  cases step_turn taken with
  | still same => rw [same.procs]
  | yields => rfl
  | interrupts c nobody => rfl
  | dispatches c last locked => rw [dispatch_procs]
  | enters c t here healthy => rfl
  | leaves t => rfl
  | ends c t open_ here user doomed => exact levels_endDoomed n _ c t p
  | lingers c t here inside doomed => exact levels_endDoomed n s c t p
  | faults c t q crash open_ here user healthy mine => exact levels_terminate n _ c q p
  | exits c t q last here inside done mine => exact levels_terminate n s c q p
  | frees c t q here inside mine => rw [freeThread_procs]
  | creates c t q slot cpu here inside unused mine => rfl
  | launches q slot cpu kernel unused vacant =>
    rw [setThread_procs,setProc_procs,if_neg (show p ≠ q from fun same => used (same ▸ vacant))]
  | marks q b before after space destroyed =>
    refine levels_setProc ?_ p
    rw [level,space,destroyed,level]
  | serves c q locked lives idle => exact levels_terminate n s c q p

/-- While no exit or crash meets another thread of its process at a lock, the address space of a
process goes at most once and not while it has a thread. An ended process that has its address
space yet waits for threads which run in their programs, marked to end: each of them ends when its
CPU next comes into the kernel, and no slot is given back before the address space went. -/
theorem spaces_destroyed_once (n : Nat) (s : State) (reached : Reach Fresh (Guarded n) (Step n) s) (p : Nat) :
    (s.procs p).destroyed ≤ 1 ∧
    ((s.procs p).destroyed = 1 → (s.procs p).space = false ∧ ∀ t, (s.threads t).proc ≠ some p) ∧
    ((s.procs p).state = .ended → (s.procs p).destroyed = 0 ∧ (∃ t, (s.threads t).proc = some p) ∧
      ∀ t, (s.threads t).proc = some p → (s.threads t).doomed ∧ (s.threads t).user ∧
        s.cur (s.threads t).cpu = some t ∧ (s.bkl = none → ∃ u, Step n s (.enter (s.threads t).cpu) u ∧
          (u.threads t).proc = none ∧ ∀ v, v ≠ t → u.threads v = s.threads v)) ∧
    ∀ a u, Guarded n s a → Step n s a u → (s.procs p).state ≠ .unused → (u.procs p).state = .unused →
      (u.procs p).destroyed = 1 := by
  have kept : Inv n s ∧ Spaces s := by
    refine Reach.invariant (fun s => Inv n s ∧ Spaces s) (fun s fresh => ⟨fresh.1.inv,fresh.spaces⟩) ?_ s reached
    intro s a t before allowed taken
    exact ⟨step_inv s t a before.1 allowed taken,before.2.steps before.1 allowed taken⟩
  obtain ⟨inv,spaces⟩ := kept
  have closes := spaces.closes p
  refine ⟨?_,fun once => ?_,fun ended => ?_,fun a u allowed taken used free => ?_⟩
  · by_cases unused : (s.procs p).state = .unused
    · exact (closes.free unused).2.1
    · rw [(closes.kept unused).2]
      exact zero_le 1
  · have unused : (s.procs p).state = .unused := by
      by_contra used
      rw [(closes.kept used).2] at once
      cases once
    exact ⟨(closes.free unused).1,(closes.free unused).2.2⟩
  · obtain ⟨_,left⟩ := closes.last ended
    exact ⟨(closes.kept (by rw [ended]; exact nofun)).2,left,fun t mine => spaces.unwinds inv ended mine⟩
  have level := step_level taken used
  have after := (spaces.steps inv allowed taken).closes p
  obtain ⟨space,zero⟩ := closes.kept used
  simp only [Cpu.level,space,(after.free free).1,Bool.toNat_true,Bool.toNat_false] at level
  omega

def exitBesideRunning : List Action :=
  [.interruptIdle 0,.launch 0 0 0 0 false,.dispatch 0 1,.resume 0,.enter 0,.create 0 1 1,.leave 0,.interruptIdle 1,
    .dispatch 1 0,.resume 1,.enter 0,.exit 0,.idle 0]

theorem booted_fresh : Fresh booted := ⟨booted_initial,fun _ => ⟨rfl,rfl,rfl⟩⟩

theorem exitBesideRunning_runs :
    (execute (fun s a => if guarded 2 s a then step 2 s a else none) booted exitBesideRunning).map
      (fun s => ((s.procs 0).state,s.bkl,(s.threads 1).proc,(s.threads 1).cpu,
        (step 2 s (.enter 1)).map fun u => (u.procs 0).state)) =
      some (.ended,none,some 0,1,some .unused) := by
  decide

theorem spaces_destroyed_once_running : ∃ s, Reach Fresh (Guarded 2) (Step 2) s ∧ (s.procs 0).state = .ended ∧
    (s.procs 0).destroyed = 0 ∧ ∃ u, Step 2 s (.enter 1) u ∧ (u.threads 1).proc = none ∧
      (u.procs 0).destroyed = 1 := by
  obtain ⟨s,ran,seen⟩ := map_eq_some_iff.mp exitBesideRunning_runs
  have reached : Reach Fresh (Guarded 2) (Step 2) s := Reach.execute guarded_sound _ _ s (.start _ booted_fresh) ran
  simp only [Prod.mk.injEq] at seen
  obtain ⟨ended,open_,mine,cpu,free⟩ := seen
  obtain ⟨_,_,waits,once⟩ := spaces_destroyed_once 2 s reached 0
  obtain ⟨zero,_,left⟩ := waits ended
  obtain ⟨u,entered,gone,_⟩ := (left 1 mine).2.2.2 open_
  rw [cpu] at entered
  have unused : (u.procs 0).state = .unused := by
    obtain ⟨v,moved,state⟩ := map_eq_some_iff.mp free
    rwa [some.inj (moved.symm.trans entered)] at state
  exact ⟨s,reached,ended,zero,u,entered,gone,once (.enter 1) u rfl entered (by rw [ended]; exact nofun) unused⟩

structure Stuck (t p : Nat) (s : State) : Prop where
  mine : (s.places t).proc = some p
  used : (s.places t).unused = false
  only : ∀ u, (s.places u).proc = some p → u = t
  ended : (s.procs p).state = .ended
  zero : (s.procs p).destroyed = 0
  away : ∀ c, s.cur c ≠ some t

section
variable {u q : Nat}

section
variable (stuck : Stuck t p s)
include stuck

theorem Stuck.still (still : Still s now) : Stuck t p now := by
  obtain ⟨mine,used,only,ended,zero,away⟩ := stuck
  refine ⟨?_,?_,?_,?_,?_,?_⟩
  · rwa [still.places]
  · rwa [still.places]
  · rwa [still.places]
  · rwa [still.procs]
  · rwa [still.procs]
  · rwa [still.cur]

theorem Stuck.setThread {b : Thread} (other : u ≠ t) (apart : b.proc ≠ some p) :
    Stuck t p (s.setThread u b) := by
  refine ⟨?_,?_,fun v its => ?_,stuck.ended,stuck.zero,stuck.away⟩
  · rw [setThread_places,update_of_ne other.symm]
    exact stuck.mine
  · rw [setThread_places,update_of_ne other.symm]
    exact stuck.used
  rw [setThread_places] at its
  by_cases same : v = u
  · rw [same,update_self] at its
    exact absurd its apart
  · rw [update_of_ne same] at its
    exact stuck.only v its

theorem Stuck.setProc (other : q ≠ p) : Stuck t p (s.setProc q b) :=
  ⟨stuck.mine,stuck.used,stuck.only,by rw [setProc_procs,if_neg other.symm]; exact stuck.ended,
    by rw [setProc_procs,if_neg other.symm]; exact stuck.zero,stuck.away⟩

theorem Stuck.setCur {next : Option Nat} (other : next ≠ some t) :
    Stuck t p (s.setCur c next) := by
  refine {stuck with away := fun d => ?_}
  rw [setCur_cur]
  split
  · exact other
  · exact stuck.away d

theorem Stuck.setBkl (now : Option Nat) : Stuck t p {s with bkl := now} :=
  ⟨stuck.mine,stuck.used,stuck.only,stuck.ended,stuck.zero,stuck.away⟩

theorem Stuck.freesThread (other : u ≠ t) : Stuck t p (freeThread s c u) := by
  unfold freeThread
  split
  · have cleared : Stuck t p (s.setCur c none) := stuck.setCur nofun
    exact cleared.setThread other nofun
  · exact stuck.setThread other nofun

theorem Stuck.apart (its : (s.threads u).proc = some q) (other : q ≠ p) : u ≠ t := by
  rintro rfl
  exact other (some.inj (its.symm.trans stuck.mine))

theorem Stuck.endsThreads (other : q ≠ p) : Stuck t p (endThreads n s c q).1 := by
  have loop : ∀ (slots : List Nat) (acc : State × Nat), Stuck t p acc.1 →
      Stuck t p (slots.foldl (endThread c q) acc).1 := by
    intro slots
    induction slots with
    | nil => exact fun _ => id
    | cons u rest ih =>
      intro acc now
      apply ih
      unfold endThread
      dsimp only
      split
      · exact now
      rename_i its
      have apart := now.apart (not_not.mp its) other
      split
      · refine now.setThread apart fun mine => other ?_
        exact some.inj ((not_not.mp its).symm.trans mine)
      · exact now.freesThread apart
  exact loop _ (s,0) stuck

theorem Stuck.releases (other : q ≠ p) : Stuck t p (releaseAddressSpace s q) := by
  unfold releaseAddressSpace
  dsimp only
  split
  · exact stuck.setProc other
  · exact stuck

theorem Stuck.freesProcess (other : q ≠ p) : Stuck t p (freeProcess n s c q) := by
  have ended := stuck.endsThreads (n := n) (c := c) other
  unfold freeProcess
  dsimp only
  split
  · exact ended.setProc other
  · exact (ended.releases other).setProc other

theorem Stuck.terminates (other : q ≠ p) : Stuck t p (terminate n s c q) := by
  have ended := stuck.endsThreads (n := n) (c := c) other
  unfold terminate
  dsimp only
  split
  · exact (ended.releases other).freesProcess other
  · exact ended.freesProcess other

theorem Stuck.endsDoomed (other : u ≠ t) : Stuck t p (endDoomed n s c u) := by
  unfold endDoomed
  split
  · exact stuck
  rename_i q mine
  have apart : q ≠ p := by
    rintro rfl
    exact other (stuck.only u mine)
  have freed := stuck.freesThread (c := c) other
  dsimp only
  split
  · split
    · exact ((freed.releases apart).setProc apart).freesProcess apart
    · exact freed.releases apart
  · exact freed

theorem Stuck.current (here : s.cur c = some u) :
    u ≠ t ∧ ∀ q, (s.threads u).proc = some q → q ≠ p := by
  have other : u ≠ t := by
    rintro rfl
    exact stuck.away c here
  refine ⟨other,?_⟩
  rintro q its rfl
  exact other (stuck.only u its)

theorem Stuck.occupied (unused : (s.threads u).state = .unused) : u ≠ t := by
  rintro rfl
  have used := stuck.used
  simp [State.places,Thread.place,unused] at used

theorem Stuck.dispatches (last : Nat) : Stuck t p (dispatch n s c last) := by
  have proc : ∀ u, ((dispatch n s c last).places u).proc = (s.places u).proc := fun u => by
    rw [dispatch_places]
    split
    · rfl
    · split <;> rfl
  refine ⟨(proc t).trans stuck.mine,?_,fun u its => stuck.only u ((proc u).symm.trans its),?_,?_,fun d => ?_⟩
  · rw [dispatch_places]
    split
    · rfl
    · split <;> exact stuck.used
  · rw [dispatch_procs]
    exact stuck.ended
  · rw [dispatch_procs]
    exact stuck.zero
  rw [dispatch_cur,update_apply]
  split
  · intro picked
    have fit := (pickNext_eligible picked).2.1
    have mine : (s.threads t).proc = some p := stuck.mine
    simp [eligible,mine,stuck.ended] at fit
  · exact stuck.away d

theorem Stuck.steps (taken : Step n s a now) : Stuck t p now := by
  have dead {q : Nat} (lives : alive (s.procs q)) : q ≠ p := by
    rintro rfl
    exact (alive_used lives).2 stuck.ended
  cases step_turn taken with
  | still same => exact stuck.still same
  | yields => exact stuck.setBkl _
  | interrupts c nobody => exact stuck.setBkl _
  | dispatches c last locked => exact stuck.dispatches last
  | enters c u here healthy => exact (stuck.setBkl (some c)).still (still_setThread rfl)
  | leaves u =>
    have left : Stuck t p (s.setThread u {s.threads u with user := true}) := stuck.still (still_setThread rfl)
    exact left.setBkl none
  | ends c u open_ here user doomed => exact (stuck.setBkl (some c)).endsDoomed (stuck.current here).1
  | lingers c u here inside doomed => exact stuck.endsDoomed (stuck.current here).1
  | faults c u q crash open_ here user healthy mine =>
    exact (stuck.setBkl (some c)).terminates ((stuck.current here).2 q mine)
  | exits c u q last here inside done mine => exact stuck.terminates ((stuck.current here).2 q mine)
  | frees c u q here inside mine => exact stuck.freesThread (stuck.current here).1
  | creates c u q slot cpu here inside unused mine =>
    exact stuck.setThread (stuck.occupied unused) fun same => (stuck.current here).2 q mine (some.inj same)
  | launches q slot cpu kernel unused vacant =>
    have other : q ≠ p := by
      rintro rfl
      rw [stuck.ended] at vacant
      cases vacant
    have launched : Stuck t p (s.setProc q ⟨.live,cpu,kernel,false,false,true,0⟩) := stuck.setProc other
    exact launched.setThread (stuck.occupied unused) fun same => other (some.inj same)
  | marks q b before after space destroyed => exact stuck.setProc (dead before)
  | serves c q locked lives idle => exact stuck.terminates (dead lives)

end

end

def lockedOut : State := (execute (step 2) booted exitBesideLock).getD booted

theorem lockedOut_stuck : Stuck 1 0 lockedOut := by
  refine ⟨by decide,by decide,fun u its => ?_,by decide,by decide,fun c here => ?_⟩
  · match u, its with
    | 0, its => exact absurd its (by decide)
    | 1, _ => rfl
    | u + 2, its => exact nomatch (show (none : Option Nat) = some 0 from its)
  · match c, here with
    | 0, here => exact absurd here (by decide)
    | c + 1, here => exact nomatch (show (none : Option Nat) = some 1 from here)

/-- Thread 0 exits beside thread 1, which sleeps with a lock: the process has ended, and its
address space stays for good. -/
theorem not_every_space_destroyed : ¬ ∀ n s, Reach Fresh (fun _ _ => True) (Step n) s → ∀ p,
    (s.procs p).state = .ended → ∃ actions u, execute (step n) s actions = some u ∧ (u.procs p).destroyed = 1 := by
  intro always
  have ran : execute (step 2) booted exitBesideLock = some lockedOut := rfl
  have reached : Reach Fresh (fun _ _ => True) (Step 2) lockedOut :=
    Reach.execute (fun _ _ _ moved => ⟨trivial,moved⟩) _ _ lockedOut (.start _ booted_fresh) ran
  obtain ⟨actions,u,went,once⟩ := always 2 lockedOut reached 0 lockedOut_stuck.ended
  have later : Reach (Stuck 1 0) (fun _ _ => True) (Step 2) u :=
    Reach.execute (fun _ _ _ moved => ⟨trivial,moved⟩) _ _ u (.start _ lockedOut_stuck) went
  have stuck : Stuck 1 0 u :=
    Reach.invariant (Stuck 1 0) (fun _ => id) (fun _ _ _ stuck _ taken => stuck.steps taken) u later
  rw [stuck.zero] at once
  cases once

end SurfaceOS.Cpu
