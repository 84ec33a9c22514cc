import SurfaceOS.Cpu.SleepLock

/-! The address space of a process that ends. While an exit or crash meets no other thread of its
process at a lock, the threads that are left over run on other CPUs, in their programs; the last
of them to come into the kernel, or the ending itself when there is none, destroys the address
space. -/
namespace SurfaceOS.Cpu
open Lib Function List Option Nat

variable {b : Proc} {u v : State} {l cpu k slot ticket : Nat} {a : Action} {n : Nat} {s : State} {c p t : Nat}
  {cur next : Nat → Option Nat} {gone x : Place}

structure Place where
  unused : Bool
  running : Bool
  cpu : Nat
  doomed : Bool
  proc : Option Nat

variable {now : Nat → Place}

def Thread.place (b : Thread) : Place := ⟨b.state = .unused,b.running,b.cpu,b.doomed,b.proc⟩

def State.places (s : State) (t : Nat) : Place := (s.threads t).place

/-- Each CPU's thread and each running thread's CPU know each other; a doomed thread runs on a
CPU that is not in the kernel. -/
structure Placed (places : Nat → Place) (cur : Nat → Option Nat) (bkl : Option Nat) : Prop where
  onCpu : ∀ c t, cur c = some t → (places t).running ∧ (places t).cpu = c
  run : ∀ t, (places t).running → cur (places t).cpu = some t
  doom : ∀ t, (places t).doomed → (places t).running ∧ bkl ≠ some (places t).cpu
  vacant : ∀ t, (places t).unused → (places t).running = false

/-- The address space of `p` is there while the slot is taken; it went, once, before the slot is
free; and an ended process waits for threads that are doomed. -/
structure Closes (places : Nat → Place) (b : Proc) (p : Nat) : Prop where
  free : b.state = .unused → b.space = false ∧ b.destroyed ≤ 1 ∧ ∀ t, (places t).proc ≠ some p
  kept : b.state ≠ .unused → b.space ∧ b.destroyed = 0
  last : b.state = .ended → b.reapWhenEmpty ∧ ∃ t, (places t).proc = some p
  doomed : ∀ t, (places t).proc = some p → (places t).doomed → b.state = .ended

structure Spaces (s : State) : Prop where
  placed : Placed s.places s.cur s.bkl
  closes : ∀ p, Closes s.places (s.procs p) p

theorem setThread_places (s : State) (t : Nat) (b : Thread) :
    (s.setThread t b).places = update s.places t b.place := by
  funext u
  rw [State.places,setThread_threads,update_apply]
  split <;> rfl

section
variable {places : Nat → Place} {cur : Nat → Option Nat} {bkl : Option Nat}

section
variable (placed : Placed places cur bkl)
include placed

theorem Placed.changes
    (others : ∀ d u, u ≠ t → (next d = some u ↔ cur d = some u)) (mine : ∀ d, next d = some t ↔ x.running ∧ x.cpu = d)
    (doomed : x.doomed → x.running ∧ bkl ≠ some x.cpu) (vacant : x.unused → x.running = false) :
    Placed (update places t x) next bkl := by
  refine ⟨fun d u here => ?_,fun u running => ?_,fun u doom => ?_,fun u unused => ?_⟩ <;>
    rcases eq_or_ne u t with rfl | other
  · rw [update_self]
    exact (mine d).mp here
  · rw [update_of_ne other]
    exact placed.onCpu d u ((others d u other).mp here)
  · rw [update_self] at running ⊢
    exact (mine _).mpr ⟨running,rfl⟩
  · rw [update_of_ne other] at running ⊢
    exact (others _ u other).mpr (placed.run u running)
  · rw [update_self] at doom ⊢
    exact doomed doom
  · rw [update_of_ne other] at doom ⊢
    exact placed.doom u doom
  · rw [update_self] at unused ⊢
    exact vacant unused
  · rw [update_of_ne other] at unused ⊢
    exact placed.vacant u unused

theorem Placed.cur_iff (d : Nat) : cur d = some t ↔ (places t).running ∧ (places t).cpu = d :=
  ⟨placed.onCpu d t,fun ⟨running,here⟩ => here ▸ placed.run t running⟩

theorem Placed.frees (stopped : gone.running = false)
    (spared : gone.doomed = false) (apart : cur c = some t ∨ (places t).running = false) :
    Placed (update places t gone) (if cur c = some t then update cur c none else cur) bkl := by
  refine placed.changes (fun d u other => ?_) (fun d => ?_) (by simp [spared]) fun _ => stopped
  · split
    · next mine =>
      rw [update_apply]
      split
      · next here =>
        rw [here,mine]
        simpa using Ne.symm other
      · rfl
    · rfl
  · refine iff_of_false (fun here => ?_) (by simp [stopped])
    split at here
    · next mine =>
      rw [update_apply] at here
      split at here
      · cases here
      · next away => exact away ((placed.onCpu d t here).2.symm.trans (placed.onCpu c t mine).2)
    · next away =>
      have quiet := apart.resolve_left away
      rw [(placed.onCpu d t here).1] at quiet
      cases quiet

theorem Placed.dooms (running : (places t).running)
    (away : bkl ≠ some (places t).cpu) : Placed (update places t {places t with doomed := true}) cur bkl :=
  placed.changes (fun _ _ _ => Iff.rfl) placed.cur_iff (fun _ => ⟨running,away⟩) (placed.vacant t)

theorem Placed.setBkl {now : Option Nat}
    (away : ∀ t, (places t).doomed → now ≠ some (places t).cpu) : Placed places cur now :=
  ⟨placed.onCpu,placed.run,fun t doomed => ⟨(placed.doom t doomed).1,away t doomed⟩,placed.vacant⟩

end

end

structure Loop (s : State) (p k : Nat) (acc : State × Nat) : Prop where
  placed : Placed acc.1.places acc.1.cur acc.1.bkl
  others : ∀ t, (s.threads t).proc ≠ some p → acc.1.threads t = s.threads t
  mine : ∀ t, (acc.1.threads t).proc = some p → (s.threads t).proc = some p
  gone : ∀ t, (s.threads t).proc = some p → (acc.1.threads t).proc = some p ∨ (acc.1.threads t).proc = none
  procs : acc.1.procs = s.procs
  left : acc.2 = 0 ↔ ∀ t < k, (acc.1.threads t).proc ≠ some p

theorem endThreads_settled (settled : ∀ t, (s.threads t).proc = some p →
    (s.threads t).doomed ∧ (s.threads t).running ∧ s.cur c ≠ some t) :
    (endThreads n s c p).1 = s ∧ ((endThreads n s c p).2 = 0 ↔ ∀ t < n, (s.threads t).proc ≠ some p) := by
  have loop : ∀ k, ∃ left, (List.range k).foldl (endThread c p) (s,0) = (s,left) ∧
      (left = 0 ↔ ∀ t < k, (s.threads t).proc ≠ some p) := by
    intro k
    induction k with
    | zero => exact ⟨0,rfl,by simp⟩
    | succ k before =>
      obtain ⟨left,done,count⟩ := before
      rw [range_succ,foldl_append,done,foldl_cons,foldl_nil]
      unfold endThread
      by_cases its : (s.threads k).proc = some p
      · obtain ⟨doomed,running,away⟩ := settled k its
        rw [if_neg (not_not_intro its),if_pos ⟨.inl running,away⟩]
        refine ⟨left + 1,?_,iff_of_false (succ_ne_zero _) fun none => none k (lt_succ_self k) its⟩
        have same : {s.threads k with doomed := true} = s.threads k := by
          rw [← doomed]
        rw [same,State.setThread,update_eq_self]
      rw [if_pos its]
      refine ⟨left,rfl,count.trans ⟨fun none t small => ?_,fun none t small => none t (lt_succ_of_lt small)⟩⟩
      rcases Nat.lt_succ_iff_lt_or_eq.mp small with inside | rfl
      · exact none t inside
      · exact its
  obtain ⟨left,done,count⟩ := loop n
  unfold endThreads
  rw [done]
  exact ⟨rfl,count⟩

def closed (b : Proc) : Proc := {b with state := .unused, space := false, destroyed := b.destroyed + 1}

def lingering (b : Proc) : Proc := {b with state := .ended, reapWhenEmpty := true}

theorem freeProcess_empty (empty : ∀ t, (s.threads t).proc ≠ some p) :
    freeProcess n s c p = (releaseAddressSpace s p).setProc p
      {(releaseAddressSpace s p).procs p with state := .unused} := by
  obtain ⟨same,count⟩ := endThreads_settled (n := n) (c := c) fun t its => absurd its (empty t)
  unfold freeProcess
  dsimp only
  rw [same]
  exact if_neg (not_not_intro (count.mpr fun t _ => empty t))

theorem releaseAddressSpace_there (there : (s.procs p).space) : releaseAddressSpace s p =
    s.setProc p {s.procs p with space := false, destroyed := (s.procs p).destroyed + 1} :=
  if_pos there

theorem releaseAddressSpace_gone (gone : (s.procs p).space = false) : releaseAddressSpace s p = s :=
  if_neg (by rw [gone]; exact Bool.false_ne_true)

theorem Closes.frame {places : Nat → Place} (closes : Closes places b p)
    (same : ∀ t, (now t).proc = some p ∨ (places t).proc = some p → now t = places t) : Closes now b p := by
  have there : ∀ t, (now t).proc = some p ↔ (places t).proc = some p := by
    intro t
    constructor
    · intro here
      rwa [same t (.inl here)] at here
    · intro here
      rw [same t (.inr here)]
      exact here
  refine ⟨fun unused => ?_,closes.kept,fun ended => ?_,fun t its doomed => ?_⟩
  · obtain ⟨space,once,empty⟩ := closes.free unused
    exact ⟨space,once,fun t here => empty t ((there t).mp here)⟩
  · obtain ⟨reap,t,its⟩ := closes.last ended
    exact ⟨reap,t,(there t).mpr its⟩
  · rw [same t (.inl its)] at doomed
    exact closes.doomed t ((there t).mp its) doomed

theorem alive_used (lives : alive b) : b.state ≠ .unused ∧ b.state ≠ .ended := by
  constructor
  · intro state
    simp [alive,state] at lives
  · intro state
    simp [alive,state] at lives

structure Still (s u : State) : Prop where
  places : u.places = s.places
  procs : u.procs = s.procs
  cur : u.cur = s.cur
  bkl : u.bkl = s.bkl

theorem Still.trans (first : Still s u) (second : Still u v) : Still s v :=
  ⟨second.places.trans first.places,second.procs.trans first.procs,second.cur.trans first.cur,
    second.bkl.trans first.bkl⟩

theorem Still.used (still : Still s u) (used : (s.threads t).state ≠ .unused) : (u.threads t).state ≠ .unused := by
  have same := congrArg Place.unused (congrFun still.places t)
  simpa [State.places,Thread.place,used] using same

theorem still_setThread {b : Thread} (same : b.place = s.places t) : Still s (s.setThread t b) :=
  ⟨by rw [setThread_places,same]; exact update_eq_self t s.places,rfl,rfl,rfl⟩

section
variable (s)

theorem freeThread_places (c t : Nat) : (freeThread s c t).places =
    update s.places t (freed (s.threads t)).place := by
  funext u
  rw [State.places,freeThread_threads,update_apply]
  split <;> rfl

theorem freeThread_cur (c t : Nat) :
    (freeThread s c t).cur = if s.cur c = some t then update s.cur c none else s.cur := by
  unfold freeThread
  split <;> rfl

theorem freeThread_procs (c t : Nat) : (freeThread s c t).procs = s.procs := by
  unfold freeThread
  split <;> rfl

theorem freeThread_bkl (c t : Nat) : (freeThread s c t).bkl = s.bkl := by
  unfold freeThread
  split <;> rfl

theorem setProc_twice (p : Nat) (b d : Proc) : (s.setProc p b).setProc p d = s.setProc p d := by
  simp only [State.setProc,update_idem]

theorem setProc_self (p : Nat) (b : Proc) : (s.setProc p b).procs p = b := by
  rw [setProc_procs,if_pos rfl]

theorem releaseAddressSpace_threads (p : Nat) : (releaseAddressSpace s p).threads = s.threads := by
  unfold releaseAddressSpace
  dsimp only
  split <;> rfl

theorem Still.refl : Still s s := ⟨rfl,rfl,rfl,rfl⟩

theorem still_setLock (l : Nat) (k : SleepLock) : Still s (s.setLock l k) := ⟨rfl,rfl,rfl,rfl⟩

theorem still_wakeWaiters (l : Nat) : Still s (wakeWaiters s l) := by
  refine ⟨funext fun t => ?_,rfl,rfl,rfl⟩
  unfold State.places wakeWaiters
  dsimp only
  split <;> rfl

end

theorem freeThread_placed (placed : Placed s.places s.cur s.bkl)
    (apart : s.cur c = some t ∨ (s.threads t).running = false) :
    Placed (freeThread s c t).places (freeThread s c t).cur (freeThread s c t).bkl := by
  rw [freeThread_places,freeThread_cur,freeThread_bkl]
  exact placed.frees rfl rfl apart

theorem Loop.step {acc : State × Nat} (loop : Loop s p k acc) (ending : Ending n c p k acc.1) :
    Loop s p (k + 1) (endThread c p acc k) := by
  obtain ⟨now,left⟩ := acc
  obtain ⟨placed,others,mine,gone,procs,count⟩ := loop
  have below : ∀ t, t < k + 1 ↔ t < k ∨ t = k := fun t => by omega
  unfold endThread
  by_cases its : (now.threads k).proc = some p
  · rw [if_neg (not_not_intro its)]
    have owner := mine k its
    split
    · next busy =>
      have running : (now.places k).running :=
        busy.1.resolve_right (not_not_intro ((ending.unlocked k its).2.2 busy.2))
      have away : now.bkl ≠ some (now.places k).cpu := by
        intro here
        have cpu : c = (now.places k).cpu := some.inj (ending.locked.symm.trans here)
        exact busy.2 (cpu ▸ placed.run k running)
      refine ⟨?_,fun t other => ?_,fun t here => ?_,fun t here => ?_,procs,?_⟩
      · rw [setThread_places]
        exact placed.dooms running away
      · dsimp only
        rw [setThread_threads,if_neg (show t ≠ k from fun same => other (same ▸ owner)),others t other]
      · rw [setThread_threads] at here
        split at here
        · next same => exact same ▸ owner
        · exact mine t here
      · dsimp only
        rw [setThread_threads]
        split
        · exact .inl its
        · exact gone t here
      · refine iff_of_false (succ_ne_zero _) fun none => none k (lt_succ_self k) ?_
        rw [setThread_threads,if_pos rfl]
        exact its
    · next spared =>
      have apart : now.cur c = some k ∨ (now.threads k).running = false := by
        rcases not_and_or.mp spared with quiet | here
        · right
          simpa using (not_or.mp quiet).1
        · exact .inl (not_not.mp here)
      refine ⟨freeThread_placed placed apart,fun t other => ?_,fun t here => ?_,fun t here => ?_,?_,?_⟩
      · dsimp only
        rw [freeThread_threads,if_neg (show t ≠ k from fun same => other (same ▸ owner)),others t other]
      · rw [freeThread_threads] at here
        split at here
        · cases here
        · exact mine t here
      · dsimp only
        rw [freeThread_threads]
        split
        · exact .inr rfl
        · exact gone t here
      · exact (freeThread_procs ..).trans procs
      rw [count]
      constructor
      · intro none t small
        rw [freeThread_threads]
        split
        · exact nofun
        · next other => exact none t (((below t).mp small).resolve_right other)
      · intro none t small
        have here := none t (lt_succ_of_lt small)
        rwa [freeThread_threads,if_neg (Nat.ne_of_lt small)] at here
  · rw [if_pos its]
    refine ⟨placed,others,mine,gone,procs,count.trans ⟨fun none t small => ?_,fun none t small => ?_⟩⟩
    · rcases (below t).mp small with inside | rfl
      · exact none t inside
      · exact its
    · exact none t (lt_succ_of_lt small)

theorem endThreads_loop (ending : Ending n c p 0 s) (placed : Placed s.places s.cur s.bkl) :
    Loop s p n (endThreads n s c p) := by
  have loop : ∀ k, Loop s p k ((range k).foldl (endThread c p) (s,0)) ∧
      Ending n c p k ((range k).foldl (endThread c p) (s,0)).1 := by
    intro k
    induction k with
    | zero => exact ⟨⟨placed,fun _ _ => rfl,fun _ => id,fun _ => .inl,rfl,by simp⟩,ending⟩
    | succ k before =>
      rw [range_succ,foldl_append]
      exact ⟨before.1.step before.2,before.2.step _⟩
  exact (loop n).1

theorem freeProcess_closed (empty : ∀ t, (s.threads t).proc ≠ some p) (gone : b.space = false) :
    freeProcess n (s.setProc p b) c p = s.setProc p {b with state := .unused} := by
  rw [freeProcess_empty (by exact empty),releaseAddressSpace_gone (by rw [setProc_self]; exact gone),setProc_twice,
    setProc_self]

theorem terminate_eq (ending : Ending n c p 0 s) (placed : Placed s.places s.cur s.bkl)
    (there : (s.procs p).space) : terminate n s c p = (endThreads n s c p).1.setProc p
      (if (endThreads n s c p).2 = 0 then closed (s.procs p) else lingering (s.procs p)) := by
  have loop := endThreads_loop ending placed
  have ended := ending.endsThreads
  unfold terminate
  generalize endThreads n s c p = ends at loop ended ⊢
  obtain ⟨u,left⟩ := ends
  dsimp only at loop ended ⊢
  have small : ∀ t, (u.threads t).proc = some p → t < n := fun t its =>
    (ended.inv.small its).1
  have settled : ∀ t, (u.threads t).proc = some p →
      (u.threads t).doomed ∧ (u.threads t).running ∧
        u.cur c ≠ some t := by
    intro t its
    have doomed := ended.doomed t (small t its) its
    obtain ⟨running,away⟩ := loop.placed.doom t doomed
    refine ⟨doomed,running,fun here => away ?_⟩
    rw [ended.locked,(loop.placed.onCpu c t here).2]
  have procs : u.procs p = s.procs p := by rw [loop.procs]
  split
  · next none =>
    have empty : ∀ t, (u.threads t).proc ≠ some p := fun t its =>
      loop.left.mp none t (small t its) its
    rw [releaseAddressSpace_there (by rw [procs]; exact there),procs,freeProcess_closed empty rfl]
    rfl
  rename_i some
  obtain ⟨same,count⟩ := endThreads_settled (n := n) settled
  have again : (endThreads n u c p).2 ≠ 0 := fun none =>
    some (loop.left.mpr (count.mp none))
  unfold freeProcess
  rw [if_pos again,same,procs]
  rfl

theorem Spaces.terminates (spaces : Spaces s) (ending : Ending n c p 0 s) (lives : alive (s.procs p)) :
    Spaces (terminate n s c p) := by
  obtain ⟨there,zero⟩ := (spaces.closes p).kept (alive_used lives).1
  have loop := endThreads_loop ending spaces.placed
  have ended := ending.endsThreads
  rw [terminate_eq ending spaces.placed there]
  refine ⟨loop.placed,fun q => ?_⟩
  rw [setProc_procs]
  by_cases here : q = p
  · subst here
    rw [if_pos rfl]
    split
    · next none =>
      have empty : ∀ t, ((endThreads n s c q).1.places t).proc ≠ some q := fun t its =>
        loop.left.mp none t (ended.inv.small its).1 its
      refine ⟨fun _ => ⟨rfl,le_of_eq (by rw [closed,zero]),empty⟩,fun used => absurd rfl used,nofun,
        fun t its => absurd its (empty t)⟩
    rename_i some
    refine ⟨nofun,fun _ => ⟨there,zero⟩,fun _ => ⟨rfl,?_⟩,fun _ _ _ => rfl⟩
    by_contra none
    exact some (loop.left.mpr fun t _ its => none ⟨t,its⟩)
  · rw [if_neg here,loop.procs]
    refine (spaces.closes q).frame fun t its => ?_
    have other : (s.threads t).proc ≠ some p := by
      intro mine
      rcases its with now | before
      · rcases loop.gone t mine with stays | freed
        · exact here (some.inj (now.symm.trans stays))
        · change ((endThreads n s c p).1.threads t).proc = some q at now
          rw [freed] at now
          cases now
      · exact here (some.inj (before.symm.trans mine))
    change ((endThreads n s c p).1.threads t).place = _
    rw [loop.others t other]
    rfl

theorem endDoomed_spaces (closes : ∀ q, Closes s.places (s.procs q) q) (gone : Inv n (freeThread s c t))
    (placed : Placed (freeThread s c t).places (freeThread s c t).cur (freeThread s c t).bkl)
    (mine : (s.threads t).proc = some p) (doomed : (s.threads t).doomed) : Spaces (endDoomed n s c t) := by
  -- the other processes keep their threads
  have others : ∀ q, q ≠ p → Closes (freeThread s c t).places (s.procs q) q := by
    intro q other
    refine (closes q).frame fun u its => ?_
    have apart : u ≠ t := by
      rintro rfl
      rcases its with now | before
      · rw [State.places,freeThread_threads,if_pos rfl] at now
        cases now
      · exact other (some.inj (before.symm.trans mine))
    rw [State.places,freeThread_threads,if_neg apart]
    rfl
  have ended := (closes p).doomed t mine doomed
  obtain ⟨reap,_⟩ := (closes p).last ended
  obtain ⟨there,zero⟩ := (closes p).kept (by rw [ended]; exact nofun)
  have procs := freeThread_procs s c t
  unfold endDoomed
  rw [mine]
  dsimp only
  split
  · next empty =>
    have nobody : ∀ u, ((freeThread s c t).threads u).proc ≠ some p := fun u owner =>
      absurd empty (Nat.ne_of_gt (countThreads_pos gone owner))
    rw [releaseAddressSpace_there (by rw [procs]; exact there),setProc_self,procs]
    rw [if_pos reap,setProc_twice,freeProcess_closed nobody rfl]
    refine ⟨placed,fun q => ?_⟩
    rw [setProc_procs,procs]
    split
    · next same =>
      subst same
      exact ⟨fun _ => ⟨rfl,Nat.le_of_eq (by rw [zero]),nobody⟩,fun used => absurd rfl used,nofun,
        fun u its => absurd its (nobody u)⟩
    · next other => exact others q other
  · next some =>
    refine ⟨placed,fun q => ?_⟩
    rw [procs]
    by_cases same : q = p
    · subst same
      refine ⟨fun unused => ?_,(closes q).kept,fun _ => ⟨reap,?_⟩,fun _ _ _ => ended⟩
      · rw [ended] at unused
        cases unused
      · obtain ⟨u,_,counted⟩ := countP_pos_iff.mp (Nat.pos_of_ne_zero some)
        exact ⟨u,(of_decide_eq_true counted).1⟩
    · exact others q same

theorem Spaces.endsDoomed (spaces : Spaces s) (inv : Inv n {s with bkl := some c}) (here : s.cur c = some t)
    (doomed : (s.threads t).doomed) (mine : (s.threads t).proc = some p)
    (unlocked : (s.threads t).held = [] ∧ (s.threads t).waits = none) :
    Spaces (endDoomed n {s with bkl := some c} c t) := by
  refine endDoomed_spaces spaces.closes (inv.freesThread c unlocked) ?_ mine doomed
  rw [freeThread_places,freeThread_cur,freeThread_bkl]
  have freed : Placed _ _ s.bkl :=
    spaces.placed.frees (c := c) (show (freed (s.threads t)).place.running = false from rfl) rfl (.inl here)
  refine freed.setBkl fun u doom cpu => ?_
  -- whoever else is doomed runs on another CPU
  by_cases same : u = t
  · rw [same,update_self] at doom
    cases doom
  rw [update_of_ne same] at doom cpu
  have current := spaces.placed.run u (spaces.placed.doom u doom).1
  rw [← some.inj cpu,here] at current
  exact same (some.inj current).symm

section
variable (used : (s.threads t).state ≠ .unused)
include used

theorem still_fallAsleep (tick : Nat) : Still s (fallAsleep s t tick) := by
  apply still_setThread
  simp [Thread.place,State.places,used]

theorem still_waitTurn : Still s (waitTurn s t l ticket) := by
  unfold waitTurn
  split
  · exact (still_setLock s l _).trans (still_setThread rfl)
  · exact still_fallAsleep used 0

theorem still_queueUp : Still s (queueUp s t l) := by
  have drawn : Still s (asked s t l) := (still_setLock s l _).trans (still_setThread rfl)
  exact drawn.trans (still_waitTurn (drawn.used used))

theorem still_lock (canSleep : Bool) : Still s (lock s t l canSleep) := by
  unfold lock
  dsimp only
  split
  · exact (still_setLock s l _).trans (still_setThread rfl)
  · split
    · exact .refl s
    · exact still_queueUp used

end

theorem still_unlock (s : State) (t l : Nat) : Still s (unlock s t l) := by
  have dropped : Still s (s.setThread t {s.threads t with held := (s.threads t).held.erase l}) := still_setThread rfl
  have released : ∀ {after}, Still s after → ∀ k j, Still s (if (s.locks l).depth - 1 = 0 then
      wakeWaiters (after.setLock l k) l else after.setLock l j) := by
    intro after counted k j
    split
    · exact (counted.trans (still_setLock _ l _)).trans (still_wakeWaiters _ l)
    · exact counted.trans (still_setLock _ l _)
  unfold unlock
  dsimp only
  cases (s.locks l).owner with
  | none => exact released dropped _ _
  | some o =>
    refine released ?_ _ _
    exact dropped.trans (still_setThread rfl)

theorem still_pass (used : (s.threads t).state ≠ .unused) (canSleep : Bool) : Still s (pass s t l canSleep) := by
  unfold pass
  dsimp only
  split
  · exact .refl s
  have marked : Still s (s.setThread t {s.threads t with holds := (s.threads t).holds + 1, passing := true}) :=
    still_setThread rfl
  have released := marked.trans (still_unlock _ t l)
  exact released.trans (still_queueUp (released.used used))

section
variable (spaces : Spaces s)
include spaces

theorem Spaces.still (still : Still s u) : Spaces u := by
  refine ⟨?_,fun p => ?_⟩
  · rw [still.places,still.cur,still.bkl]
    exact spaces.placed
  · rw [still.places,still.procs]
    exact spaces.closes p

theorem Spaces.setBkl {now : Option Nat}
    (away : ∀ t, (s.threads t).doomed → now ≠ some (s.threads t).cpu) : Spaces {s with bkl := now} :=
  ⟨spaces.placed.setBkl away,spaces.closes⟩

theorem Spaces.take (healthy : ∀ t, s.cur c = some t → (s.threads t).doomed = false) :
    Spaces {s with bkl := some c} := by
  refine spaces.setBkl fun t doomed here => ?_
  have cpu : c = (s.threads t).cpu := some.inj here
  have current := spaces.placed.run t (spaces.placed.doom t doomed).1
  change s.cur (s.threads t).cpu = some t at current
  rw [← cpu] at current
  rw [healthy t current] at doomed
  cases doomed

theorem Spaces.setProc (lives : alive (s.procs p)) (living : alive b)
    (space : b.space = (s.procs p).space) (destroyed : b.destroyed = (s.procs p).destroyed) :
    Spaces (s.setProc p b) := by
  refine ⟨spaces.placed,fun q => ?_⟩
  rw [setProc_procs]
  split
  · next same =>
    subst same
    obtain ⟨there,zero⟩ := (spaces.closes q).kept (alive_used lives).1
    refine ⟨fun unused => absurd unused (alive_used living).1,fun _ => ⟨space.trans there,destroyed.trans zero⟩,
      fun ended => absurd ended (alive_used living).2,fun t its doomed => ?_⟩
    exact absurd ((spaces.closes q).doomed t its doomed) (alive_used lives).2
  · exact spaces.closes q

theorem Spaces.news (unused : (s.threads slot).state = .unused)
    (vacant : (s.threads slot).proc = none) (lives : (s.procs p).state ≠ .unused) :
    Spaces (s.setThread slot (newThread p cpu)) := by
  have quiet : (s.threads slot).running = false :=
    spaces.placed.vacant slot (by simp [State.places,Thread.place,unused])
  have places : (s.setThread slot (newThread p cpu)).places =
      update s.places slot (newThread p cpu).place := setThread_places ..
  refine ⟨?_,fun q => ?_⟩
  · rw [places]
    refine spaces.placed.changes (fun _ _ _ => Iff.rfl) (fun d => ?_) nofun fun _ => rfl
    refine (spaces.placed.cur_iff d).trans (iff_of_false ?_ (by simp [Thread.place,newThread]))
    simp [State.places,Thread.place,quiet]
  rw [places]
  by_cases here : q = p
  · subst here
    refine ⟨fun unused => absurd unused lives,(spaces.closes q).kept,fun ended => ?_,fun t its doomed => ?_⟩
    · exact ⟨((spaces.closes q).last ended).1,slot,by rw [update_self]; rfl⟩
    by_cases same : t = slot
    · rw [same,update_self] at doomed
      cases doomed
    · rw [update_of_ne same] at its doomed
      exact (spaces.closes q).doomed t its doomed
  · refine (spaces.closes q).frame fun t its => ?_
    refine update_of_ne ?_ ..
    rintro rfl
    rcases its with now | before
    · rw [update_self] at now
      exact here (some.inj now).symm
    · change (s.threads t).proc = some q at before
      rw [vacant] at before
      cases before

end

theorem Placed.switches {places : Nat → Place} {next : Option Nat}
    (placed : Placed places cur (some c)) (cpu : ∀ u, (now u).cpu = (places u).cpu)
    (doomed : ∀ u, (now u).doomed = (places u).doomed) (away : ∀ u, (places u).cpu ≠ c → now u = places u)
    (runs : ∀ u, (places u).cpu = c → (now u).running = decide (next = some u))
    (fit : ∀ u, next = some u → (places u).cpu = c ∧ (now u).unused = false) :
    Placed now (update cur c next) (some c) := by
  refine ⟨fun d u here => ?_,fun u running => ?_,fun u doom => ?_,fun u unused => ?_⟩
  · by_cases same : d = c
    · subst same
      rw [update_self] at here
      rw [cpu,runs u (fit u here).1]
      exact ⟨decide_eq_true here,(fit u here).1⟩
    rw [update_of_ne same] at here
    have before := placed.onCpu d u here
    rw [away u (before.2 ▸ same)]
    exact before
  · rw [cpu]
    by_cases mine : (places u).cpu = c
    · rw [runs u mine] at running
      rw [mine,update_self]
      exact of_decide_eq_true running
    · rw [update_of_ne mine]
      rw [away u mine] at running
      exact placed.run u running
  · rw [doomed] at doom
    have before := placed.doom u doom
    rw [away u fun mine => before.2 (by rw [mine])]
    exact before
  · by_cases mine : (places u).cpu = c
    · rw [runs u mine]
      refine decide_eq_false fun here => ?_
      rw [(fit u here).2] at unused
      cases unused
    · rw [away u mine] at unused ⊢
      exact placed.vacant u unused

theorem Closes.congr {places : Nat → Place} (closes : Closes places b p) (proc : ∀ t, (now t).proc = (places t).proc)
    (doomed : ∀ t, (now t).doomed = (places t).doomed) : Closes now b p := by
  refine ⟨fun unused => ?_,closes.kept,fun ended => ?_,fun t its doom => ?_⟩
  · simpa only [proc] using closes.free unused
  · simpa only [proc] using closes.last ended
  · rw [proc] at its
    rw [doomed] at doom
    exact closes.doomed t its doom

theorem Inv.living (inv : Inv n s) (works : Works s t) (mine : (s.threads t).proc = some p) : alive (s.procs p) := by
  obtain ⟨q,its,lives⟩ := (inv.fits t).home works.used
  obtain rfl : p = q := some.inj (mine.symm.trans its)
  refine lives ?_
  by_contra doomed
  exact Bool.noConfusion (works.kernel.symm.trans ((inv.fits t).dooms (by simpa using doomed)))

section
variable (s)

theorem stopCurrent_cur (c : Nat) : (stopCurrent s c).cur = s.cur := by
  unfold stopCurrent
  split <;> rfl

theorem stopCurrent_procs (c : Nat) : (stopCurrent s c).procs = s.procs := by
  unfold stopCurrent
  split <;> rfl

theorem stopCurrent_places (c u : Nat) : (stopCurrent s c).places u =
    if s.cur c = some u then {s.places u with running := false} else s.places u := by
  unfold stopCurrent
  cases here : s.cur c with
  | none => rfl
  | some t =>
    rw [setThread_places,update_apply]
    by_cases same : u = t
    · rw [if_pos same,if_pos (by rw [same]),same]
      rfl
    · rw [if_neg same,if_neg fun other => same (some.inj other).symm]

theorem dispatch_places (c last u : Nat) : (dispatch n s c last).places u =
    if pickNext n s c last = some u then {s.places u with running := true, unused := false}
    else if s.cur c = some u then {s.places u with running := false} else s.places u := by
  unfold dispatch
  cases picked : pickNext n s c last with
  | none => exact stopCurrent_places s c u
  | some t =>
    change ((stopCurrent s c).setThread t _).places u = _
    rw [setThread_places,update_apply]
    by_cases same : u = t
    · subst same
      rw [if_pos rfl,if_pos rfl]
      have stopped := stopCurrent_places s c u
      split at stopped
      · exact congrArg (fun place : Place => (⟨false,true,place.cpu,place.doomed,place.proc⟩ : Place)) stopped
      · exact congrArg (fun place : Place => (⟨false,true,place.cpu,place.doomed,place.proc⟩ : Place)) stopped
    · rw [if_neg same,if_neg fun other => same (some.inj other).symm]
      exact stopCurrent_places s c u

theorem dispatch_cur (c last : Nat) :
    (dispatch n s c last).cur = update s.cur c (pickNext n s c last) := by
  unfold dispatch
  split
  · next picked =>
    rw [picked]
    exact congrArg (update · c _) (stopCurrent_cur s c)
  · next picked =>
    rw [picked]
    exact congrArg (update · c _) (stopCurrent_cur s c)

theorem dispatch_procs (c last : Nat) : (dispatch n s c last).procs = s.procs := by
  unfold dispatch
  split <;> exact stopCurrent_procs s c

theorem dispatch_bkl (c last : Nat) : (dispatch n s c last).bkl = s.bkl := by
  unfold dispatch
  split <;> exact stopCurrent_bkl s c

end

theorem Spaces.dispatches (spaces : Spaces s) (locked : s.bkl = some c) (last : Nat) :
    Spaces (dispatch n s c last) := by
  have kept : ∀ u, ((dispatch n s c last).places u).cpu = (s.places u).cpu ∧
      ((dispatch n s c last).places u).doomed = (s.places u).doomed ∧
      ((dispatch n s c last).places u).proc = (s.places u).proc := fun u => by
    rw [dispatch_places]
    split
    · exact ⟨rfl,rfl,rfl⟩
    · split <;> exact ⟨rfl,rfl,rfl⟩
  have fit : ∀ u, pickNext n s c last = some u → (s.places u).cpu = c := by
    intro u picked
    have eligible := (pickNext_eligible picked).2.1
    simp only [Cpu.eligible,decide_eq_true_eq] at eligible
    exact eligible.2.1
  have placed := spaces.placed
  rw [locked] at placed
  refine ⟨?_,fun p => ?_⟩
  · rw [dispatch_cur,dispatch_bkl,locked]
    refine placed.switches (fun u => (kept u).1) (fun u => (kept u).2.1) (fun u other => ?_) (fun u mine => ?_) fun u picked => ⟨fit u picked,?_⟩
    · rw [dispatch_places,if_neg fun picked => other (fit u picked),
        if_neg fun here => other (placed.onCpu c u here).2]
    · rw [dispatch_places]
      by_cases picked : pickNext n s c last = some u
      · rw [if_pos picked]
        exact (decide_eq_true picked).symm
      rw [if_neg picked,decide_eq_false picked]
      split
      · rfl
      rename_i elsewhere
      -- a thread of CPU `c` runs only as its current one
      by_contra running
      exact elsewhere (mine ▸ placed.run u (by simpa using running))
    · rw [dispatch_places,if_pos picked]
  · rw [dispatch_procs]
    exact (spaces.closes p).congr (fun u => (kept u).2.2) fun u => (kept u).2.1

section
variable (spaces : Spaces s)
include spaces

theorem Spaces.home (inv : Inv n s) (here : s.cur c = some t) :
    ∃ p, (s.threads t).proc = some p ∧ ((s.threads t).doomed = false → alive (s.procs p)) := by
  refine (inv.fits t).home fun unused => ?_
  have quiet := spaces.placed.vacant t (by simp [State.places,Thread.place,unused])
  rw [(spaces.placed.onCpu c t here).1] at quiet
  cases quiet

theorem Spaces.freesOwn (here : s.cur c = some t) (mine : (s.threads t).proc = some p)
    (lives : alive (s.procs p)) : Spaces (freeThread s c t) := by
  refine ⟨freeThread_placed spaces.placed (.inl here),fun q => ?_⟩
  rw [freeThread_procs]
  have proc : ∀ u, ((freeThread s c t).places u).proc = some q →
      u ≠ t ∧ (freeThread s c t).places u = s.places u := by
    intro u its
    rw [freeThread_places] at its ⊢
    have apart : u ≠ t := by
      rintro rfl
      rw [update_self] at its
      cases its
    exact ⟨apart,update_of_ne apart ..⟩
  refine ⟨fun unused => ?_,(spaces.closes q).kept,fun ended => ?_,fun u its doomed => ?_⟩
  · obtain ⟨space,once,empty⟩ := (spaces.closes q).free unused
    refine ⟨space,once,fun u its => empty u ?_⟩
    rwa [(proc u its).2] at its
  · have apart : q ≠ p := by
      rintro rfl
      exact (alive_used lives).2 ended
    obtain ⟨reap,u,its⟩ := (spaces.closes q).last ended
    refine ⟨reap,u,?_⟩
    rw [freeThread_places,update_of_ne]
    · exact its
    · rintro rfl
      exact apart (some.inj (its.symm.trans mine))
  · obtain ⟨_,same⟩ := proc u its
    rw [same] at its doomed
    exact (spaces.closes q).doomed u its doomed

theorem Spaces.launches (unused : (s.procs p).state = .unused)
    (live : alive b) (space : b.space) (zero : b.destroyed = 0) : Spaces (s.setProc p b) := by
  refine ⟨spaces.placed,fun q => ?_⟩
  rw [setProc_procs]
  split
  · next same =>
    subst same
    obtain ⟨_,_,empty⟩ := (spaces.closes q).free unused
    exact ⟨fun unused => absurd unused (alive_used live).1,fun _ => ⟨space,zero⟩,
      fun ended => absurd ended (alive_used live).2,fun t its => absurd its (empty t)⟩
  · exact spaces.closes q

theorem Spaces.enters (inv : Inv n s) (open_ : s.bkl = none) (here : s.cur c = some t)
    (user : (s.threads t).user) (doomed : (s.threads t).doomed) :
    Spaces (endDoomed n {s with bkl := some c} c t) := by
  obtain ⟨p,mine,_⟩ := spaces.home inv here
  exact spaces.endsDoomed (inv.take open_ c) here doomed mine ((inv.fits t).outside user)

theorem Spaces.takes (here : s.cur c = some t) (healthy : (s.threads t).doomed = false) :
    Spaces {s with bkl := some c} := by
  refine spaces.take fun u current => ?_
  obtain rfl : t = u := some.inj (here.symm.trans current)
  exact healthy

end

inductive Turn (n : Nat) (s : State) (a : Action) : State → Prop
  | still {u : State} (same : Still s u) : Turn n s a u
  | yields : Turn n s a {s with bkl := none}
  | interrupts (c : Nat) (nobody : s.cur c = none) : Turn n s a {s with bkl := some c}
  | dispatches (c last : Nat) (locked : s.bkl = some c) : Turn n s a (dispatch n s c last)
  | enters (c t : Nat) (here : s.cur c = some t) (healthy : (s.threads t).doomed = false) :
    Turn n s a (State.setThread {s with bkl := some c} t {s.threads t with user := false})
  | leaves (t : Nat) : Turn n s a {s.setThread t {s.threads t with user := true} with bkl := none}
  | ends (c t : Nat) (open_ : s.bkl = none) (here : s.cur c = some t) (user : (s.threads t).user)
    (doomed : (s.threads t).doomed) : Turn n s a (endDoomed n {s with bkl := some c} c t)
  | lingers (c t : Nat) (here : s.cur c = some t) (inside : inKernel s c t)
    (doomed : (s.threads t).doomed) : Turn n s a (endDoomed n s c t)
  | faults (c t p : Nat) (crash : a = .fault c) (open_ : s.bkl = none) (here : s.cur c = some t)
    (user : (s.threads t).user) (healthy : (s.threads t).doomed = false)
    (mine : (s.threads t).proc = some p) : Turn n s a (terminate n {s with bkl := some c} c p)
  | exits (c t p : Nat) (last : a = .exit c ∨ countThreads n s p ≤ 1) (here : s.cur c = some t)
    (inside : inKernel s c t) (done : free (s.threads t)) (mine : (s.threads t).proc = some p) :
    Turn n s a (terminate n s c p)
  | frees (c t p : Nat) (here : s.cur c = some t) (inside : inKernel s c t)
    (mine : (s.threads t).proc = some p) : Turn n s a (freeThread s c t)
  | creates (c t p slot cpu : Nat) (here : s.cur c = some t) (inside : inKernel s c t)
    (unused : (s.threads slot).state = .unused) (mine : (s.threads t).proc = some p) :
    Turn n s a (s.setThread slot (newThread p cpu))
  | launches (p slot cpu : Nat) (kernel : Bool) (unused : (s.threads slot).state = .unused)
    (vacant : (s.procs p).state = .unused) :
    Turn n s a ((s.setProc p ⟨.live,cpu,kernel,false,false,true,0⟩).setThread slot (newThread p cpu))
  | marks (p : Nat) (b : Proc) (before : alive (s.procs p)) (after : alive b)
    (space : b.space = (s.procs p).space) (destroyed : b.destroyed = (s.procs p).destroyed) :
    Turn n s a (s.setProc p b)
  | serves (c p : Nat) (locked : s.bkl = some c) (lives : alive (s.procs p)) (idle : holdsLocks n s p = false) :
    Turn n s a (terminate n s c p)

theorem step_turn (taken : Step n s a u) : Turn n s a u := by
  cases a with
  | enter c =>
    simp only [Step,step] at taken
    split at taken
    · next t open_ here =>
      obtain ⟨user,⟨⟩⟩ := ite_none_right_eq_some.mp taken
      split
      · next doomed => exact .ends c t open_ here user doomed
      · next healthy => exact .enters c t here (by simpa using healthy)
    · cases taken
  | fault c =>
    simp only [Step,step] at taken
    split at taken
    · next t open_ here =>
      obtain ⟨user,fell⟩ := ite_none_right_eq_some.mp taken
      split at fell
      · next doomed =>
        cases fell
        exact .ends c t open_ here user doomed
      · next healthy =>
        obtain ⟨p,mine,rfl⟩ := map_eq_some_iff.mp fell
        exact .faults c t p rfl open_ here user (by simpa using healthy) mine
    · cases taken
  | leave c =>
    obtain ⟨t,here,⟨inside,_⟩,ended⟩ := bind_guard taken
    split at ended
    · next doomed =>
      cases ended
      exact .lingers c t here inside doomed
    · obtain ⟨p,_,_,⟨⟩⟩ := bind_guard ended
      exact .leaves t
  | resume c =>
    obtain ⟨t,_,_,⟨⟩⟩ := bind_guard taken
    exact .yields
  | interruptIdle c =>
    obtain ⟨⟨_,nobody⟩,⟨⟩⟩ := ite_none_right_eq_some.mp taken
    exact .interrupts c nobody
  | idle c =>
    obtain ⟨_,⟨⟩⟩ := ite_none_right_eq_some.mp taken
    exact .yields
  | dispatch c last =>
    obtain ⟨locked,⟨⟩⟩ := ite_none_right_eq_some.mp taken
    exact .dispatches c last locked
  | lock c l canSleep =>
    obtain ⟨t,_,⟨inside,_⟩,⟨⟩⟩ := bind_guard taken
    exact .still (still_lock (inKernel_works inside).2.2.used canSleep)
  | unlock c l =>
    obtain ⟨t,_,_,⟨⟩⟩ := bind_guard taken
    exact .still (still_unlock s t l)
  | pass c l canSleep =>
    obtain ⟨t,_,⟨inside,_⟩,⟨⟩⟩ := bind_guard taken
    exact .still (still_pass (inKernel_works inside).2.2.used canSleep)
  | retry c =>
    obtain ⟨t,_,inside,again⟩ := bind_guard taken
    obtain ⟨w,_,rfl⟩ := map_eq_some_iff.mp again
    exact .still (still_waitTurn (inKernel_works inside).2.2.used)
  | sleep c tick =>
    obtain ⟨t,_,⟨inside,_⟩,⟨⟩⟩ := bind_guard taken
    exact .still (still_fallAsleep (inKernel_works inside).2.2.used tick)
  | wake t =>
    cases taken
    exact .still (still_setThread rfl)
  | tick =>
    cases taken
    exact .still ⟨rfl,rfl,rfl,rfl⟩
  | exit c =>
    obtain ⟨t,here,⟨inside,done⟩,left⟩ := bind_guard taken
    obtain ⟨p,mine,rfl⟩ := map_eq_some_iff.mp left
    exact .exits c t p (.inl rfl) here inside done mine
  | threadExit c =>
    obtain ⟨t,here,⟨inside,done⟩,left⟩ := bind_guard taken
    obtain ⟨p,mine,rfl⟩ := map_eq_some_iff.mp left
    split
    · next alone => exact .exits c t p (.inr alone) here inside done mine
    · exact .frees c t p here inside mine
  | create c slot cpu =>
    obtain ⟨t,here,⟨inside,_,unused⟩,made⟩ := bind_guard taken
    obtain ⟨p,mine,rfl⟩ := map_eq_some_iff.mp made
    exact .creates c t p slot cpu here inside unused mine
  | launch c p slot cpu kernel =>
    obtain ⟨⟨_,_,unused,vacant⟩,⟨⟩⟩ := ite_none_right_eq_some.mp taken
    exact .launches p slot cpu kernel unused vacant
  | requestEnd p =>
    obtain ⟨⟨lives,_⟩,⟨⟩⟩ := ite_none_right_eq_some.mp taken
    exact .marks p _ lives lives rfl rfl
  | pause p =>
    obtain ⟨⟨live,_⟩,⟨⟩⟩ := ite_none_right_eq_some.mp taken
    exact .marks p _ (by simp [alive,live]) rfl rfl rfl
  | proceed p =>
    obtain ⟨stopped,⟨⟩⟩ := ite_none_right_eq_some.mp taken
    exact .marks p _ (by simp [alive,stopped]) rfl rfl rfl
  | service c p =>
    obtain ⟨⟨locked,_,lives,_,idle⟩,⟨⟩⟩ := ite_none_right_eq_some.mp taken
    exact .serves c p locked lives (by simpa using idle)

theorem Spaces.steps (spaces : Spaces s) (inv : Inv n s) (allowed : Guarded n s a)
    (taken : Step n s a u) : Spaces u := by
  have start : ∀ {s : State} {c p : Nat}, Inv n s → s.bkl = some c → Unlocked s c p → Ending n c p 0 s :=
    fun inv locked unlocked => ⟨inv,locked,unlocked,fun t small => absurd small (not_lt_zero t)⟩
  cases step_turn taken with
  | still same => exact spaces.still same
  | yields => exact spaces.setBkl fun _ _ => nofun
  | interrupts c nobody => exact spaces.take fun t here => absurd (nobody.symm.trans here) nofun
  | dispatches c last locked => exact spaces.dispatches locked last
  | enters c t here healthy => exact (spaces.takes here healthy).still (still_setThread rfl)
  | leaves t =>
    have left : Spaces (s.setThread t {s.threads t with user := true}) := spaces.still (still_setThread rfl)
    exact left.setBkl fun _ _ => nofun
  | ends c t open_ here user doomed => exact spaces.enters inv open_ here user doomed
  | lingers c t here inside doomed =>
    have user := (inv.fits t).dooms doomed
    rw [(inKernel_works inside).2.2.kernel] at user
    cases user
  | faults c t p crash open_ here user healthy mine =>
    subst crash
    obtain ⟨q,its,lives⟩ := spaces.home inv here
    obtain rfl : p = q := some.inj (mine.symm.trans its)
    have locked := inv.take open_ c
    have unlocked := locked.unlocked_of_spares here mine allowed ((inv.fits t).outside user)
    exact (spaces.takes here healthy).terminates (start locked rfl unlocked) (lives healthy)
  | exits c t p last here inside done mine =>
    obtain ⟨locked,_,works⟩ := inKernel_works inside
    have unlocked : Unlocked s c p := by
      rcases last with rfl | alone
      · exact inv.unlocked_of_spares here mine allowed (free_unlocked done)
      · exact inv.unlocked_alone here mine alone (free_unlocked done)
    exact spaces.terminates (start inv locked unlocked) (inv.living works mine)
  | frees c t p here inside mine =>
    exact spaces.freesOwn here mine (inv.living (inKernel_works inside).2.2 mine)
  | creates c t p slot cpu here inside unused mine =>
    have lives := inv.living (inKernel_works inside).2.2 mine
    exact spaces.news unused ((inv.fits slot).vacant unused).1 (alive_used lives).1
  | launches p slot cpu kernel unused vacant =>
    have launched : Spaces (s.setProc p ⟨.live,cpu,kernel,false,false,true,0⟩) :=
      spaces.launches vacant rfl rfl rfl
    refine launched.news unused ((inv.fits slot).vacant unused).1 ?_
    rw [setProc_self]
    exact nofun
  | marks p b before after space destroyed => exact spaces.setProc before after space destroyed
  | serves c p locked lives idle => exact spaces.terminates (start inv locked (inv.unlocked_idle idle)) lives

end SurfaceOS.Cpu
