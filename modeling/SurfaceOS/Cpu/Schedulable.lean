import SurfaceOS.Cpu.Scheduler

/-! A thread with a sleep lock stays one that `pick_next` may choose. What carries it: a thread
that is not doomed has a living process, and only a thread in its program, where it holds no
lock, is doomed. The exit or fault of one thread while another of its process holds a lock is
what breaks the second half. -/
namespace SurfaceOS.Cpu
open Lib List Option Nat

variable {n last slot ticket : Nat} {s : State}

structure Fits (n : Nat) (procs : Nat → Proc) (bkl : Option Nat) (cur : Nat → Option Nat) (t : Nat)
    (b : Thread) : Prop where
  counted : b.held.length + b.waits.isSome.toNat + b.passing.toNat ≤ b.holds
  outside : b.user → b.held = [] ∧ b.waits = none
  dooms : b.doomed → b.user
  vacant : b.state = .unused → b.proc = none ∧ b.held = [] ∧ b.waits = none
  spare : n ≤ t → b.state = .unused
  home : b.state ≠ .unused → ∃ p, b.proc = some p ∧ (b.doomed = false → alive (procs p))
  inside : b.running → b.user = false → ∃ c, bkl = some c ∧ cur c = some t

structure Inv (n : Nat) (s : State) : Prop where
  fits : ∀ t, Fits n s.procs s.bkl s.cur t (s.threads t)
  owned : ∀ l t, (s.threads t).held.count l =
    if (s.locks l).owner = some t then (s.locks l).depth else 0

variable {c k l p t : Nat} {b : Thread}

theorem Fits.unlocked (fits : Fits n s.procs s.bkl s.cur t b) (none : b.holds = 0) :
    b.held = [] ∧ b.waits = .none := by
  have counted := fits.counted
  refine ⟨eq_nil_of_length_eq_zero (by omega),?_⟩
  cases waits : b.waits with
  | none => rfl
  | some w =>
    simp only [waits,isSome_some,Bool.toNat_true] at counted
    omega

section
variable (inv : Inv n s)
include inv

theorem Inv.setThread (fits : Fits n s.procs s.bkl s.cur t b) (held : b.held = (s.threads t).held) :
    Inv n (s.setThread t b) where
  fits := by
    intro u
    rw [setThread_threads]
    split
    · next same => exact same ▸ fits
    · exact inv.fits u
  owned := by
    intro l u
    rw [setThread_threads]
    split
    · next same =>
      rw [held,same]
      exact inv.owned l t
    · exact inv.owned l u

theorem Inv.setHeld {k : SleepLock} (fits : Fits n s.procs s.bkl s.cur t b)
    (rest : ∀ m, m ≠ l → b.held.count m = (s.threads t).held.count m)
    (mine : b.held.count l = if k.owner = some t then k.depth else 0)
    (others : ∀ u, u ≠ t → (s.threads u).held.count l = if k.owner = some u then k.depth else 0) :
    Inv n ((s.setLock l k).setThread t b) where
  fits := by
    intro u
    rw [setThread_threads]
    split
    · next same => exact same ▸ fits
    · exact inv.fits u
  owned := by
    intro m u
    have locks : ((s.setLock l k).setThread t b).locks m = if m = l then k else s.locks m := setLock_locks ..
    rw [setThread_threads,locks]
    by_cases here : u = t <;> by_cases same : m = l
    · rw [if_pos here,if_pos same,here,same]
      exact mine
    · rw [if_pos here,if_neg same,here,rest m same]
      exact inv.owned m t
    · rw [if_neg here,if_pos same,same]
      exact others u here
    · rw [if_neg here,if_neg same]
      exact inv.owned m u

theorem Inv.setProc {b : Proc}
    (lives : alive b ∨ ∀ t, (s.threads t).proc = some p → (s.threads t).state ≠ .unused → (s.threads t).doomed) :
    Inv n (s.setProc p b) where
  owned := inv.owned
  fits := by
    intro t
    refine {inv.fits t with home := fun used => ?_}
    obtain ⟨q,mine,living⟩ := (inv.fits t).home used
    refine ⟨q,mine,fun healthy => ?_⟩
    rw [setProc_procs]
    split
    · next same =>
      subst same
      exact lives.resolve_right fun doomed => Bool.noConfusion (healthy.symm.trans (doomed t mine used))
    · exact living healthy

theorem Inv.setCur (t : Option Nat) (quiet : ∀ u, s.cur c = some u → (s.threads u).running → (s.threads u).user) :
    Inv n (s.setCur c t) where
  owned := inv.owned
  fits := by
    intro u
    refine {inv.fits u with inside := fun running kernel => ?_}
    obtain ⟨d,locked,here⟩ := (inv.fits u).inside running kernel
    have other : d ≠ c := by
      rintro rfl
      exact Bool.noConfusion (kernel.symm.trans (quiet u here running))
    exact ⟨d,locked,by rw [setCur_cur,if_neg other,here]⟩

theorem Inv.setBkl (c : Option Nat)
    (quiet : ∀ d u, s.bkl = some d → s.cur d = some u → (s.threads u).running → (s.threads u).user) :
    Inv n {s with bkl := c} where
  owned := inv.owned
  fits := by
    intro u
    refine {inv.fits u with inside := fun running kernel => ?_}
    obtain ⟨d,locked,here⟩ := (inv.fits u).inside running kernel
    exact Bool.noConfusion (kernel.symm.trans (quiet d u locked here running))

theorem Inv.take (unlocked : s.bkl = none) (c : Nat) : Inv n {s with bkl := some c} :=
  inv.setBkl (some c) fun d u locked => by simp [unlocked] at locked

end

theorem freeThread_threads (s : State) (c t u : Nat) :
    (freeThread s c t).threads u = if u = t then freed (s.threads t) else s.threads u := by
  unfold freeThread
  split <;> exact setThread_threads ..

theorem Inv.freesThread (inv : Inv n s) (c : Nat)
    (unlocked : (s.threads t).held = [] ∧ (s.threads t).waits = none) : Inv n (freeThread s c t) := by
  have freedFits : Fits n s.procs s.bkl s.cur t (freed (s.threads t)) :=
    {inv.fits t with
      dooms := fun doomed => Bool.noConfusion doomed
      vacant := fun _ => ⟨rfl,unlocked⟩
      spare := fun _ => rfl
      home := fun used => absurd rfl used
      inside := fun running => Bool.noConfusion running}
  have gone := inv.setThread freedFits rfl
  unfold freeThread
  split
  · next here =>
    -- the same state, the slot freed before the CPU forgets it
    refine gone.setCur none fun u current running => ?_
    have same : u = t := some.inj (current.symm.trans here)
    rw [setThread_threads,if_pos same] at running
    exact Bool.noConfusion running
  · exact gone

/-- No thread of `p` has a lock or waits for one, and none but CPU `c`'s own is in the middle of
taking one. -/
def Unlocked (s : State) (c p : Nat) : Prop :=
  ∀ t, (s.threads t).proc = some p → (s.threads t).held = [] ∧ (s.threads t).waits = none ∧
    (s.cur c ≠ some t → (s.threads t).holds = 0)

structure Ending (n c p k : Nat) (s : State) : Prop where
  inv : Inv n s
  locked : s.bkl = some c
  unlocked : Unlocked s c p
  doomed : ∀ t < k, (s.threads t).proc = some p → (s.threads t).doomed

theorem Ending.dooms (ending : Ending n c p k s) (mine : (s.threads k).proc = some p)
    (busy : (s.threads k).running ∨ (s.threads k).holds ≠ 0) (other : s.cur c ≠ some k) :
    Inv n (s.setThread k {s.threads k with doomed := true}) := by
  have fits := ending.inv.fits k
  refine ending.inv.setThread {fits with dooms := fun _ => ?_, home := fun used => ?_} rfl
  · have running := busy.resolve_right (not_not_intro ((ending.unlocked k mine).2.2 other))
    by_contra kernel
    obtain ⟨d,locked,here⟩ := fits.inside running (by simpa using kernel)
    obtain rfl : c = d := some.inj (ending.locked.symm.trans locked)
    exact other here
  · obtain ⟨q,owner,_⟩ := fits.home used
    exact ⟨q,owner,fun healthy => Bool.noConfusion healthy⟩

theorem Ending.step (ending : Ending n c p k s) (left : Nat) : Ending n c p (k + 1) (endThread c p (s,left) k).1 := by
  have below : ∀ t < k + 1, t ≠ k → t < k := fun t small other => by omega
  unfold endThread
  by_cases mine : (s.threads k).proc = some p
  · rw [if_neg (not_not_intro mine)]
    split
    · next busy =>
      refine ⟨ending.dooms mine busy.1 busy.2,ending.locked,fun t owner => ?_,fun t small owner => ?_⟩
      · rw [setThread_threads] at owner ⊢
        split at owner
        · next same =>
          rw [if_pos same,same]
          exact ending.unlocked k mine
        · next other =>
          rw [if_neg other]
          exact ending.unlocked t owner
      · rw [setThread_threads] at owner ⊢
        split at owner
        · next same => rw [if_pos same]
        · next other =>
          rw [if_neg other]
          exact ending.doomed t (below t small other) owner
    · have unlocked := ending.unlocked k mine
      have cur : ∀ t, t ≠ k → (freeThread s c k).cur c ≠ some t → s.cur c ≠ some t := by
        intro t other away here
        refine away ?_
        unfold freeThread
        rw [if_neg fun self => other (some.inj (here.symm.trans self))]
        exact here
      refine ⟨ending.inv.freesThread c ⟨unlocked.1,unlocked.2.1⟩,?_,fun t owner => ?_,fun t small owner => ?_⟩
      · unfold freeThread
        split <;> exact ending.locked
      · rw [freeThread_threads] at owner ⊢
        split at owner
        · cases owner
        rename_i other
        rw [if_neg other]
        obtain ⟨held,waits,free⟩ := ending.unlocked t owner
        exact ⟨held,waits,fun away => free (cur t other away)⟩
      · rw [freeThread_threads] at owner ⊢
        split at owner
        · cases owner
        · next other =>
          rw [if_neg other]
          exact ending.doomed t (below t small other) owner
  · rw [if_pos mine]
    refine ⟨ending.inv,ending.locked,ending.unlocked,fun t small owner => ?_⟩
    exact ending.doomed t (below t small fun same => mine (same ▸ owner)) owner

theorem Ending.endsThreads (ending : Ending n c p 0 s) : Ending n c p n (endThreads n s c p).1 := by
  have loop : ∀ k, Ending n c p k ((range k).foldl (endThread c p) (s,0)).1 := by
    intro k
    induction k with
    | zero => exact ending
    | succ k before =>
      rw [range_succ,foldl_append]
      exact before.step _
  exact loop n

theorem Ending.restart (ending : Ending n c p k s) : Ending n c p 0 s :=
  ⟨ending.inv,ending.locked,ending.unlocked,fun t small => absurd small (not_lt_zero t)⟩

theorem Ending.setProc {b : Proc} (ending : Ending n c p k s)
    (lives : alive b ∨ k = n) : Ending n c p k (s.setProc p b) :=
  ⟨ending.inv.setProc (lives.imp_right fun done t mine used => ending.doomed t (by
      by_contra large
      exact used ((ending.inv.fits t).spare (by omega))) mine),
    ending.locked,ending.unlocked,ending.doomed⟩

theorem Ending.releases (ending : Ending n c p n s) : Ending n c p n (releaseAddressSpace s p) := by
  unfold releaseAddressSpace
  dsimp only
  split
  · exact ending.setProc (.inr rfl)
  · exact ending

theorem Ending.freesProcess (ending : Ending n c p 0 s) : Inv n (freeProcess n s c p) := by
  have ended := ending.endsThreads
  unfold freeProcess
  dsimp only
  split
  · exact (ended.setProc (.inr rfl)).inv
  · exact (ended.releases.setProc (.inr rfl)).inv

section
variable (inv : Inv n s)
include inv

theorem Inv.terminates (locked : s.bkl = some c) (unlocked : Unlocked s c p) : Inv n (terminate n s c p) := by
  have ending : Ending n c p 0 s := ⟨inv,locked,unlocked,fun t small => absurd small (not_lt_zero t)⟩
  have ended := ending.endsThreads
  unfold terminate
  dsimp only
  split
  · exact ended.releases.restart.freesProcess
  · exact ended.restart.freesProcess

theorem Inv.small (mine : (s.threads t).proc = some p) : t < n ∧ (s.threads t).state ≠ .unused := by
  have used : (s.threads t).state ≠ .unused := by
    intro unused
    rw [((inv.fits t).vacant unused).1] at mine
    cases mine
  refine ⟨?_,used⟩
  by_contra large
  exact used ((inv.fits t).spare (by omega))

theorem countThreads_pos (mine : (s.threads t).proc = some p) : 0 < countThreads n s p :=
  countP_pos_iff.mpr ⟨t,mem_range.mpr (inv.small mine).1,by simp [mine,(inv.small mine).2]⟩

theorem Inv.endsDoomed (locked : s.bkl = some c)
    (unlocked : (s.threads t).held = [] ∧ (s.threads t).waits = none) : Inv n (endDoomed n s c t) := by
  unfold endDoomed
  split
  · exact inv
  rename_i p mine
  have gone := inv.freesThread c unlocked
  have stillLocked : (freeThread s c t).bkl = some c := by
    unfold freeThread
    split <;> exact locked
  dsimp only
  split
  · next empty =>
    have nobody : ∀ u, ((freeThread s c t).threads u).proc ≠ some p := fun u owner =>
      absurd empty (Nat.ne_of_gt (countThreads_pos gone owner))
    have ending : Ending n c p n (freeThread s c t) :=
      ⟨gone,stillLocked,fun u owner => absurd owner (nobody u),fun u _ owner => absurd owner (nobody u)⟩
    split
    · exact (ending.releases.setProc (.inr rfl)).restart.freesProcess
    · exact ending.releases.inv
  · exact gone

theorem Inv.wakesWaiters (l : Nat) : Inv n (wakeWaiters s l) where
  fits := by
    intro t
    unfold wakeWaiters
    dsimp only
    split
    · exact {inv.fits t with}
    · exact inv.fits t
  owned := by
    intro m t
    unfold wakeWaiters
    dsimp only
    split <;> exact inv.owned m t

end

structure Works (s : State) (t : Nat) : Prop where
  kernel : (s.threads t).user = false
  used : (s.threads t).state ≠ .unused

section
variable (inv : Inv n s) (works : Works s t)
include inv works

theorem Inv.takesLock (free : (s.locks l).depth = 0)
    (waits : (s.threads t).waits = some (l,ticket)) : Inv n (takeLock s t l) := by
  have fits := inv.fits t
  have nobody : ∀ u, (s.threads u).held.count l = 0 := by
    intro u
    rw [inv.owned,free,ite_self]
  refine inv.setHeld ⟨?_,?_,fits.dooms,?_,fits.spare,fits.home,fits.inside⟩ ?_ ?_ ?_
  · have counted := fits.counted
    simp only [waits,isSome_some,Bool.toNat_true] at counted
    simp only [length_cons,isSome_none,Bool.toNat_false]
    omega
  · exact fun user => Bool.noConfusion (works.kernel.symm.trans user)
  · exact fun unused => absurd unused works.used
  · exact fun m other => count_cons_of_ne (Ne.symm other)
  · rw [count_cons_self,nobody,if_pos rfl]
  · intro u other
    rw [nobody,if_neg fun same => other (some.inj same).symm]

theorem Inv.sleeps (tick : Nat) : Inv n (fallAsleep s t tick) := by
  have fits := inv.fits t
  exact inv.setThread {fits with
    vacant := fun unused => nomatch unused
    spare := fun large => absurd (fits.spare large) works.used
    home := fun _ => fits.home works.used} rfl

theorem Inv.waitsTurn
    (waits : (s.threads t).waits = some (l,ticket)) : Inv n (waitTurn s t l ticket) := by
  unfold waitTurn
  split
  · next turn =>
    simp only [myTurn,decide_eq_true_eq] at turn
    exact inv.takesLock works turn.1 waits
  · exact inv.sleeps works 0

theorem Inv.queuesUp (l : Nat) : Inv n (queueUp s t l) := by
  have fits := inv.fits t
  have queued := inv.setHeld (l := l) (k := {s.locks l with next := (s.locks l).next + 1})
    (b := {s.threads t with holds := (s.threads t).holds + 1, waits := some (l,(s.locks l).next)})
    (t := t) ⟨by
      have counted := fits.counted
      simp only [isSome_some,Bool.toNat_true]
      omega,
    fun user => Bool.noConfusion (works.kernel.symm.trans user),fits.dooms,
    fun unused => absurd unused works.used,fits.spare,fits.home,fits.inside⟩
    (fun _ _ => rfl) (inv.owned l t) (fun u _ => inv.owned l u)
  refine queued.waitsTurn ⟨?_,?_⟩ ?_
  all_goals rw [setThread_threads,if_pos rfl]
  · exact works.kernel
  · exact works.used

theorem Inv.locks (l : Nat) (canSleep : Bool) : Inv n (lock s t l canSleep) := by
  have fits := inv.fits t
  unfold lock
  dsimp only
  split
  · next mine =>
    refine inv.setHeld ⟨?_,?_,fits.dooms,?_,fits.spare,fits.home,fits.inside⟩ ?_ ?_ ?_
    · have counted := fits.counted
      simp only [length_cons]
      omega
    · exact fun user => Bool.noConfusion (works.kernel.symm.trans user)
    · exact fun unused => absurd unused works.used
    · exact fun m other => count_cons_of_ne (Ne.symm other)
    · rw [count_cons_self,inv.owned,if_pos mine.2]
      exact (if_pos mine.2).symm
    intro u other
    have away : (s.locks l).owner ≠ some u := by
      rw [mine.2]
      exact fun same => other (some.inj same).symm
    rw [inv.owned,if_neg away]
    exact (if_neg away).symm
  · split
    · exact inv
    · exact inv.queuesUp works l

end

def unlocked (s : State) (t l : Nat) (k : SleepLock) : State :=
  (s.setLock l k).setThread t
    {s.threads t with holds := (s.threads t).holds - 1, held := (s.threads t).held.erase l}

theorem unlock_eq (mine : (s.locks l).owner = some t) : unlock s t l = if (s.locks l).depth - 1 = 0 then
      wakeWaiters (unlocked s t l {s.locks l with owner := none, depth := 0, serving := (s.locks l).serving + 1}) l
    else unlocked s t l {s.locks l with depth := (s.locks l).depth - 1} := by
  have twice : ∀ (k : SleepLock) (b d : Thread), (((s.setThread t b).setThread t d).setLock l k) =
      (s.setLock l k).setThread t d := by
    intro k b d
    simp only [State.setThread,State.setLock,Function.update_idem]
  unfold unlock unlocked
  dsimp only
  rw [mine]
  simp only [setThread_threads,if_pos,twice]

theorem Inv.owner_of_mem (inv : Inv n s) (held : l ∈ (s.threads t).held) : (s.locks l).owner = some t := by
  have positive : 0 < (s.threads t).held.count l := count_pos_iff.mpr held
  by_contra other
  rw [inv.owned,if_neg other] at positive
  exact absurd positive (Nat.lt_irrefl 0)

theorem Inv.lets (inv : Inv n s) (works : Works s t) (held : l ∈ (s.threads t).held)
    {k : SleepLock} (owner : k.depth ≠ 0 → k.owner = some t) (depth : k.depth = (s.locks l).depth - 1) :
    Inv n (unlocked s t l k) := by
  have fits := inv.fits t
  have mine := inv.owner_of_mem held
  have count := inv.owned l t
  rw [if_pos mine] at count
  refine inv.setHeld ⟨?_,?_,fits.dooms,?_,fits.spare,fits.home,fits.inside⟩ ?_ ?_ ?_
  · have counted := fits.counted
    have length := length_erase_of_mem held
    have some := length_pos_of_mem held
    dsimp only
    omega
  · exact fun user => Bool.noConfusion (works.kernel.symm.trans user)
  · exact fun unused => absurd unused works.used
  · exact fun m other => count_erase_of_ne other
  · rw [count_erase_self,count,← depth]
    split
    · rfl
    · next other => exact not_not.mp fun deep => other (owner deep)
  intro u other
  rw [inv.owned,if_neg (mine ▸ fun same => other (some.inj same).symm)]
  split
  · next theirs =>
    by_contra deep
    exact other (some.inj ((owner (Ne.symm deep)).symm.trans theirs)).symm
  · rfl

theorem Inv.unlocks (inv : Inv n s) (works : Works s t) (held : l ∈ (s.threads t).held) : Inv n (unlock s t l) := by
  have mine := inv.owner_of_mem held
  rw [unlock_eq mine]
  split
  · next last =>
    exact (inv.lets works held (fun deep => absurd rfl deep) last.symm).wakesWaiters l
  · exact inv.lets works held (fun _ => mine) rfl

theorem unlock_thread (mine : (s.locks l).owner = some t) : ((unlock s t l).threads t).user = (s.threads t).user ∧
    ((unlock s t l).threads t).state = (s.threads t).state ∧
    ((unlock s t l).threads t).waits = (s.threads t).waits := by
  rw [unlock_eq mine]
  split
  · simp only [wakeWaiters,unlocked,setThread_threads,if_pos]
    split <;> exact ⟨rfl,rfl,rfl⟩
  · simp [unlocked]

theorem Inv.passes (inv : Inv n s) (works : Works s t) (canSleep : Bool) : Inv n (pass s t l canSleep) := by
  unfold pass
  dsimp only
  split
  · exact inv
  rename_i going
  simp only [not_or,not_not] at going
  obtain ⟨mine,once,_⟩ := going
  have fits := inv.fits t
  have passing : Inv n (s.setThread t
      {s.threads t with holds := (s.threads t).holds + 1, passing := true}) := by
    refine inv.setThread {fits with counted := ?_} rfl
    have counted := fits.counted
    simp only [Bool.toNat_true]
    omega
  have working : Works (s.setThread t
      {s.threads t with holds := (s.threads t).holds + 1, passing := true}) t := by
    constructor
    all_goals rw [setThread_threads,if_pos rfl]
    · exact works.kernel
    · exact works.used
  have held : l ∈ (s.threads t).held := by
    rw [← count_pos_iff,inv.owned,if_pos mine]
    omega
  have let_go := passing.unlocks working (l := l) (by rwa [setThread_threads,if_pos rfl])
  obtain ⟨user,state,-⟩ := unlock_thread (s := s.setThread t
    {s.threads t with holds := (s.threads t).holds + 1, passing := true}) mine
  exact let_go.queuesUp ⟨user.trans working.kernel,state ▸ working.used⟩ l

theorem pickNext_eligible (picked : pickNext n s c last = some t) :
    t < n ∧ eligible s c t ∧ ready s t := by
  have found := find?_some picked
  obtain ⟨i,small,rfl⟩ := mem_map.mp (mem_of_find?_eq_some picked)
  simp only [Bool.and_eq_true] at found
  exact ⟨mod_lt _ (by have := mem_range.mp small; omega),found⟩

theorem eligible_used (fit : eligible s c t) : (s.threads t).state ≠ .unused := by
  simp only [eligible,decide_eq_true_eq] at fit
  exact fit.1

theorem Inv.stopsCurrent (inv : Inv n s) (c : Nat) : Inv n (stopCurrent s c) := by
  unfold stopCurrent
  split
  · next t _ =>
    exact inv.setThread {inv.fits t with inside := fun running => Bool.noConfusion running} rfl
  · exact inv

theorem stopCurrent_quiet (s : State) (c u : Nat) (here : (stopCurrent s c).cur c = some u) :
    ((stopCurrent s c).threads u).running = false := by
  unfold stopCurrent at here ⊢
  cases current : s.cur c with
  | none =>
    simp only [current] at here
    cases here
  | some t =>
    simp only [current] at here ⊢
    obtain rfl : t = u := some.inj (current.symm.trans here)
    rw [setThread_threads,if_pos rfl]

theorem stopCurrent_bkl (s : State) (c : Nat) : (stopCurrent s c).bkl = s.bkl := by
  unfold stopCurrent
  split <;> rfl

theorem stopCurrent_state (s : State) (c u : Nat) : ((stopCurrent s c).threads u).state = (s.threads u).state := by
  unfold stopCurrent
  split
  · rw [setThread_threads]
    split
    · next same => rw [same]
    · rfl
  · rfl

theorem Inv.dispatches (inv : Inv n s) (locked : s.bkl = some c) (last : Nat) : Inv n (dispatch n s c last) := by
  have stopped := inv.stopsCurrent c
  have quiet : ∀ u, (stopCurrent s c).cur c = some u → ((stopCurrent s c).threads u).running →
      ((stopCurrent s c).threads u).user := fun u here running =>
    Bool.noConfusion ((stopCurrent_quiet s c u here).symm.trans running)
  unfold dispatch
  split
  · next t picked =>
    -- the same state, the CPU's thread set first
    have moved := stopped.setCur (some t) quiet
    have fits := moved.fits t
    have used := eligible_used (pickNext_eligible picked).2.1
    rw [← stopCurrent_state s c t] at used
    exact moved.setThread {fits with
      vacant := fun unused => nomatch unused
      spare := fun large => absurd (fits.spare large) used
      home := fun _ => fits.home used
      inside := fun _ _ => ⟨c,(stopCurrent_bkl s c).trans locked,by rw [setCur_cur,if_pos rfl]⟩} rfl
  · exact stopped.setCur none quiet

/-- No other thread of the process of CPU `c`'s thread holds a lock or waits for one. -/
def spares (n : Nat) (s : State) (c : Nat) : Bool :=
  (s.cur c).all fun t => (s.threads t).proc.all fun p =>
    (range n).all fun u => u = t ∨ (s.threads u).proc ≠ some p ∨ (s.threads u).holds = 0

/-- A program does not exit or crash while another of its threads is at a lock. -/
def guarded (n : Nat) (s : State) : Action → Bool
  | .exit c => spares n s c
  | .fault c => spares n s c
  | _ => true

def Guarded (n : Nat) (s : State) (a : Action) : Prop := guarded n s a

section
variable (inv : Inv n s) (here : s.cur c = some t) (mine : (s.threads t).proc = some p)
include inv here mine

theorem Inv.unlocked_of_spares (spared : spares n s c)
    (free : (s.threads t).held = [] ∧ (s.threads t).waits = none) : Unlocked s c p := by
  intro u owner
  by_cases same : u = t
  · subst same
    exact ⟨free.1,free.2,fun away => absurd here away⟩
  simp only [spares,here,mine,Option.all_some,List.all_eq_true,mem_range,decide_eq_true_eq] at spared
  have empty : (s.threads u).holds = 0 := by
    rcases spared u (inv.small owner).1 with other | other | empty
    · exact absurd other same
    · exact absurd owner other
    · exact empty
  obtain ⟨held,waits⟩ := (inv.fits u).unlocked empty
  exact ⟨held,waits,fun _ => empty⟩

theorem Inv.unlocked_alone (alone : countThreads n s p ≤ 1)
    (free : (s.threads t).held = [] ∧ (s.threads t).waits = none) : Unlocked s c p := by
  intro u owner
  have counted : ∀ v, (s.threads v).proc = some p → v ∈ (range n).filter fun t =>
      (s.threads t).proc = some p ∧ (s.threads t).state ≠ .unused := by
    intro v its
    exact mem_filter.mpr ⟨mem_range.mpr (inv.small its).1,by simp [its,(inv.small its).2]⟩
  have same : u = t := by
    have first := counted u owner
    have second := counted t mine
    rw [countThreads,countP_eq_length_filter] at alone
    generalize (range n).filter _ = l at first second alone
    match l, alone with
    | [x], _ => exact (mem_singleton.mp first).trans (mem_singleton.mp second).symm
  subst same
  exact ⟨free.1,free.2,fun away => absurd here away⟩

end

theorem Inv.unlocked_idle (inv : Inv n s) (idle : holdsLocks n s p = false) : Unlocked s c p := by
  intro u owner
  obtain ⟨small,used⟩ := inv.small owner
  have empty : (s.threads u).holds = 0 := by
    by_contra some
    have holds : holdsLocks n s p :=
      any_eq_true.mpr ⟨u,mem_range.mpr small,by simp [owner,used,some]⟩
    exact Bool.noConfusion (idle.symm.trans holds)
  obtain ⟨held,waits⟩ := (inv.fits u).unlocked empty
  exact ⟨held,waits,fun _ => empty⟩

theorem inKernel_works (inside : inKernel s c t) : s.bkl = some c ∧ s.cur c = some t ∧ Works s t := by
  simp only [inKernel,decide_eq_true_eq] at inside
  refine ⟨inside.1,inside.2.1,inside.2.2.1,?_⟩
  rw [inside.2.2.2]
  exact nofun

theorem free_unlocked (done : free b) : b.held = [] ∧ b.waits = none := by
  simpa only [free,decide_eq_true_eq] using done

theorem Inv.enters (inv : Inv n s) (open_ : s.bkl = none) (here : s.cur c = some t)
    (user : (s.threads t).user) : Inv n (if (s.threads t).doomed then endDoomed n {s with bkl := some c} c t
      else {s with bkl := some c}.setThread t {s.threads t with user := false}) := by
  have locked := inv.take open_ c
  have fits := locked.fits t
  split
  · exact locked.endsDoomed rfl (fits.outside user)
  rename_i healthy
  exact locked.setThread {fits with
    outside := fun user => Bool.noConfusion user
    dooms := fun doomed => absurd doomed healthy
    inside := fun _ _ => ⟨c,rfl,here⟩} rfl

theorem Inv.news (inv : Inv n s) (cpu : Nat) (small : slot < n)
    (unused : (s.threads slot).state = .unused) (lives : alive (s.procs p)) :
    Inv n (s.setThread slot (newThread p cpu)) := by
  refine inv.setThread ⟨Nat.le_refl 0,fun _ => ⟨rfl,rfl⟩,fun _ => rfl,nofun,
    fun large => absurd small (Nat.not_lt.mpr large),fun _ => ⟨p,rfl,fun _ => lives⟩,
    fun running => Bool.noConfusion running⟩ ?_
  exact ((inv.fits slot).vacant unused).2.1.symm

theorem Inv.unlockBkl (inv : Inv n s) (locked : s.bkl = some c)
    (quiet : ∀ u, s.cur c = some u → (s.threads u).running → (s.threads u).user) : Inv n {s with bkl := none} := by
  refine inv.setBkl none fun d u owner here => ?_
  obtain rfl : c = d := some.inj (locked.symm.trans owner)
  exact quiet u here

theorem Inv.leaves (inv : Inv n s) (locked : s.bkl = some c) (here : s.cur c = some t)
    (idle : (s.threads t).held = [] ∧ (s.threads t).waits = none) :
    Inv n {s.setThread t {s.threads t with user := true} with bkl := none} := by
  have out : Inv n (s.setThread t {s.threads t with user := true}) :=
    inv.setThread {inv.fits t with
      outside := fun _ => idle
      dooms := fun _ => rfl
      inside := fun _ kernel => Bool.noConfusion kernel} rfl
  refine out.unlockBkl locked fun u current _ => ?_
  obtain rfl : t = u := some.inj (here.symm.trans current)
  rw [setThread_threads,if_pos rfl]

theorem step_inv (s t : State) (a : Action) (inv : Inv n s) (allowed : Guarded n s a)
    (taken : Step n s a t) : Inv n t := by
  cases a with
  | enter c =>
    simp only [Step,step] at taken
    split at taken
    · next u open_ here =>
      obtain ⟨user,⟨⟩⟩ := ite_none_right_eq_some.mp taken
      exact inv.enters open_ here user
    · cases taken
  | fault c =>
    simp only [Step,step] at taken
    split at taken
    · next u open_ here =>
      obtain ⟨user,fell⟩ := ite_none_right_eq_some.mp taken
      have locked := inv.take open_ c
      have idle := (inv.fits u).outside user
      split at fell
      · cases fell
        exact locked.endsDoomed rfl idle
      · obtain ⟨p,mine,rfl⟩ := map_eq_some_iff.mp fell
        exact locked.terminates rfl (locked.unlocked_of_spares here mine allowed idle)
    · cases taken
  | leave c =>
    obtain ⟨u,here,⟨inside,done⟩,ended⟩ := bind_guard taken
    have locked := (inKernel_works inside).1
    have idle := free_unlocked done
    split at ended
    · cases ended
      exact inv.endsDoomed locked idle
    · obtain ⟨p,_,_,⟨⟩⟩ := bind_guard ended
      exact inv.leaves locked here idle
  | resume c =>
    obtain ⟨u,here,⟨locked,user⟩,⟨⟩⟩ := bind_guard taken
    refine inv.unlockBkl locked fun v current _ => ?_
    obtain rfl : u = v := some.inj (here.symm.trans current)
    exact user
  | interruptIdle c =>
    obtain ⟨⟨open_,_⟩,⟨⟩⟩ := ite_none_right_eq_some.mp taken
    exact inv.take open_ c
  | idle c =>
    obtain ⟨⟨locked,none⟩,⟨⟩⟩ := ite_none_right_eq_some.mp taken
    exact inv.unlockBkl locked fun v current => by simp [none] at current
  | dispatch c last =>
    obtain ⟨locked,⟨⟩⟩ := ite_none_right_eq_some.mp taken
    exact inv.dispatches locked last
  | lock c l canSleep =>
    obtain ⟨u,_,⟨inside,-⟩,⟨⟩⟩ := bind_guard taken
    exact inv.locks (inKernel_works inside).2.2 l canSleep
  | unlock c l =>
    obtain ⟨u,_,⟨inside,_,held⟩,⟨⟩⟩ := bind_guard taken
    exact inv.unlocks (inKernel_works inside).2.2 held
  | pass c l canSleep =>
    obtain ⟨u,_,⟨inside,-⟩,⟨⟩⟩ := bind_guard taken
    exact inv.passes (inKernel_works inside).2.2 canSleep
  | retry c =>
    obtain ⟨u,_,inside,again⟩ := bind_guard taken
    obtain ⟨w,waits,rfl⟩ := map_eq_some_iff.mp again
    exact inv.waitsTurn (inKernel_works inside).2.2 waits
  | sleep c tick =>
    obtain ⟨u,_,⟨inside,_⟩,⟨⟩⟩ := bind_guard taken
    exact inv.sleeps (inKernel_works inside).2.2 tick
  | wake u =>
    cases taken
    exact inv.setThread {inv.fits u with} rfl
  | tick =>
    cases taken
    exact ⟨inv.fits,inv.owned⟩
  | exit c =>
    obtain ⟨u,here,⟨inside,done⟩,left⟩ := bind_guard taken
    obtain ⟨p,mine,rfl⟩ := map_eq_some_iff.mp left
    exact inv.terminates (inKernel_works inside).1
      (inv.unlocked_of_spares here mine allowed (free_unlocked done))
  | threadExit c =>
    obtain ⟨u,here,⟨inside,done⟩,left⟩ := bind_guard taken
    obtain ⟨p,mine,rfl⟩ := map_eq_some_iff.mp left
    split
    · next alone =>
      exact inv.terminates (inKernel_works inside).1
        (inv.unlocked_alone here mine alone (free_unlocked done))
    · exact inv.freesThread c (free_unlocked done)
  | create c slot cpu =>
    obtain ⟨u,_,⟨inside,small,unused⟩,made⟩ := bind_guard taken
    obtain ⟨p,mine,rfl⟩ := map_eq_some_iff.mp made
    have works := (inKernel_works inside).2.2
    obtain ⟨q,its,lives⟩ := (inv.fits u).home works.used
    obtain rfl : p = q := some.inj (mine.symm.trans its)
    refine inv.news cpu small unused (lives ?_)
    by_contra doomed
    exact Bool.noConfusion (works.kernel.symm.trans ((inv.fits u).dooms (by simpa using doomed)))
  | launch c p slot cpu kernel =>
    obtain ⟨⟨_,small,unused,_⟩,⟨⟩⟩ := ite_none_right_eq_some.mp taken
    refine (inv.setProc (.inl rfl)).news cpu small unused ?_
    rw [setProc_procs,if_pos rfl]
    rfl
  | requestEnd p =>
    obtain ⟨⟨lives,_⟩,⟨⟩⟩ := ite_none_right_eq_some.mp taken
    exact inv.setProc (.inl lives)
  | pause p =>
    obtain ⟨_,⟨⟩⟩ := ite_none_right_eq_some.mp taken
    exact inv.setProc (.inl rfl)
  | proceed p =>
    obtain ⟨_,⟨⟩⟩ := ite_none_right_eq_some.mp taken
    exact inv.setProc (.inl rfl)
  | service c p =>
    obtain ⟨⟨locked,_,_,_,idle⟩,⟨⟩⟩ := ite_none_right_eq_some.mp taken
    exact inv.terminates locked (inv.unlocked_idle (by simpa using idle))

theorem Initial.inv (initial : Initial s) : Inv n s where
  fits := by
    intro t
    obtain ⟨state,running,doomed,holds,proc,held,waits,passing⟩ := initial.1 t
    exact ⟨by simp [held,waits,passing],fun _ => ⟨held,waits⟩,by simp [doomed],fun _ => ⟨proc,held,waits⟩,
      fun _ => state,fun used => absurd state used,by simp [running]⟩
  owned := by
    intro l t
    simp [(initial.1 t).2.2.2.2.2.1,(initial.2.1 l).1]

def AtLock (s : State) (t : Nat) : Prop :=
  (∃ l, (s.locks l).owner = some t ∧ (s.locks l).depth ≠ 0) ∨ (s.threads t).waits ≠ none

def Choosable (n : Nat) (s : State) (t : Nat) : Prop :=
  ∃ last, pickNext n (s.setThread t {s.threads t with woken := true}) (s.threads t).cpu last = some t

theorem pickNext_first (small : t < n) (fit : eligible s c t) (awake : ready s t) :
    pickNext n s c (t + n - 1) = some t := by
  obtain ⟨m,rfl⟩ : ∃ m, n = m + 1 := ⟨n - 1,by omega⟩
  have first : (t + (m + 1) - 1 + 1 + 0) % (m + 1) = t := by
    rw [show t + (m + 1) - 1 + 1 + 0 = t + (m + 1) by omega,add_mod_right,mod_eq_of_lt small]
  rw [pickNext,range_succ_eq_map,map_cons,first]
  exact find?_cons_of_pos (by rw [fit,awake]; rfl)

theorem Inv.choosable (inv : Inv n s) (lock : AtLock s t) : Choosable n s t := by
  have fits := inv.fits t
  have has : ¬ ((s.threads t).held = [] ∧ (s.threads t).waits = none) := by
    rintro ⟨held,waits⟩
    rcases lock with ⟨l,mine,deep⟩ | waiting
    · have owned := inv.owned l t
      rw [held,if_pos mine] at owned
      exact deep owned.symm
    · exact waiting waits
  have used : (s.threads t).state ≠ .unused := fun unused => has (fits.vacant unused).2
  obtain ⟨p,mine,lives⟩ := fits.home used
  have living : alive (s.procs p) := by
    refine lives ?_
    by_contra doomed
    exact has (fits.outside (fits.dooms (by simpa using doomed)))
  have holding : (s.threads t).holds ≠ 0 := fun none => has (fits.unlocked none)
  refine ⟨t + n - 1,pickNext_first (inv.small mine).1 ?_ ?_⟩
  · simp only [alive] at living
    simpa [eligible,used,mine,holding] using living
  cases state : (s.threads t).state with
  | unused => exact absurd state used
  | runnable => simp [ready,state]
  | blocked => simp [ready,wakeReady,state]

/-- Whatever ends, pauses or crashes: while no exit or crash meets another thread of its process
at a lock, a thread at a lock can be picked again. -/
theorem runs_schedulable (n : Nat) (s : State) (reached : Reach Initial (Guarded n) (Step n) s)
    (t : Nat) (lock : AtLock s t) : Choosable n s t := by
  have inv : Inv n s := by
    refine Reach.invariant (Inv n) (fun _ initial => initial.inv) (fun s a t inv allowed taken => ?_) s reached
    exact step_inv s t a inv allowed taken
  exact inv.choosable lock

def booted : State :=
  ⟨fun _ => ⟨.unused,none,0,false,false,0,false,0,true,[],none,false⟩,
    fun _ => ⟨.unused,0,false,false,false,false,0⟩,fun _ => ⟨none,0,0,0⟩,fun _ => none,none,0⟩

theorem booted_initial : Initial booted :=
  ⟨fun _ => ⟨rfl,rfl,rfl,rfl,rfl,rfl,rfl,rfl⟩,fun _ => ⟨rfl,rfl⟩,fun _ => rfl,rfl⟩

/-- Two programs of one thread each: thread 0 sleeps with lock 0, then the program of thread 1
exits. -/
def exitElsewhere : List Action :=
  [.interruptIdle 0,.launch 0 0 0 0 false,.launch 0 1 1 0 false,.dispatch 0 1,.resume 0,.enter 0,.lock 0 0 true,
    .sleep 0 5,.dispatch 0 0,.resume 0,.enter 0,.exit 0]

def exitBesideLock : List Action :=
  [.interruptIdle 0,.launch 0 0 0 0 false,.dispatch 0 1,.resume 0,.enter 0,.create 0 1 0,.leave 0,.enter 0,
    .dispatch 0 0,.resume 0,.enter 0,.lock 0 0 true,.sleep 0 5,.dispatch 0 1,.leave 0,.enter 0,.exit 0]

theorem exitElsewhere_runs :
    (execute (fun s a => if guarded 2 s a then step 2 s a else none) booted exitElsewhere).map
      (fun s => ((s.locks 0).owner,(s.locks 0).depth,(s.threads 1).state)) = some (some 0,1,.unused) := by
  decide

theorem guarded_sound (s : State) (a : Action) (t : State)
    (moved : (if guarded n s a then step n s a else none) = some t) : Guarded n s a ∧ Step n s a t :=
  ite_none_right_eq_some.mp moved

theorem runs_schedulable_exit : ∃ s, Reach Initial (Guarded 2) (Step 2) s ∧
    (s.threads 1).state = .unused ∧ AtLock s 0 ∧ Choosable 2 s 0 := by
  obtain ⟨s,ran,seen⟩ := map_eq_some_iff.mp exitElsewhere_runs
  have reached : Reach Initial (Guarded 2) (Step 2) s :=
    Reach.execute guarded_sound _ _ s (.start _ booted_initial) ran
  simp only [Prod.mk.injEq] at seen
  obtain ⟨owner,depth,gone⟩ := seen
  have lock : AtLock s 0 := .inl ⟨0,owner,by rw [depth]; decide⟩
  exact ⟨s,reached,gone,lock,runs_schedulable 2 s reached 0 lock⟩

theorem exitBesideLock_runs : (execute (step 2) booted exitBesideLock).map
      (fun s => ((s.locks 0).owner,(s.locks 0).depth,(s.threads 1).proc,(s.procs 0).state)) =
      some (some 1,1,some 0,.ended) := by
  decide

theorem ended_unchoosable (mine : (s.threads t).proc = some p)
    (ended : (s.procs p).state = .ended) : ¬ Choosable n s t := by
  rintro ⟨last,picked⟩
  have fit := (pickNext_eligible picked).2.1
  simp [eligible,mine,ended] at fit

/-- The thread that sleeps with the lock is doomed and its process over: no CPU picks it again. -/
theorem not_every_run_schedulable : ¬ ∀ n s, Reach Initial (fun _ _ => True) (Step n) s →
    ∀ t, AtLock s t → Choosable n s t := by
  intro always
  obtain ⟨s,ran,seen⟩ := map_eq_some_iff.mp exitBesideLock_runs
  have reached : Reach Initial (fun _ _ => True) (Step 2) s :=
    Reach.execute (fun _ _ _ moved => ⟨trivial,moved⟩) _ _ s (.start _ booted_initial) ran
  simp only [Prod.mk.injEq] at seen
  obtain ⟨owner,depth,mine,ended⟩ := seen
  exact ended_unchoosable mine ended (always 2 s reached 1 (.inl ⟨0,owner,by rw [depth]; decide⟩))

end SurfaceOS.Cpu
