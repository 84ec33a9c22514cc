import Mathlib.Data.List.Basic
import SurfaceOS.Lib.Transition

/-! Threads, processes and sleep locks (cpu/process.cpp). The kernel runs under one big lock
and is not preempted: what a CPU does between two points where it may switch is one step.
A thread sleeps inside the kernel, on its own stack, with the locks it holds. -/
namespace SurfaceOS.Cpu
open Function List

inductive PState
  | unused | live | stopped | ended
  deriving DecidableEq

inductive TState
  | unused | runnable | blocked
  deriving DecidableEq

/-- A slot of the thread table. The last four fields say where the thread's own code is: in
the program or in the kernel, which locks it has taken, which ticket it waits with in `lock`,
and whether that `lock` is the second half of a `pass`. -/
structure Thread where
  state : TState
  proc : Option Nat
  cpu : Nat
  running : Bool
  doomed : Bool
  holds : Nat
  woken : Bool
  wakeTick : Nat
  user : Bool
  held : List Nat
  waits : Option (Nat × Nat)
  passing : Bool

/-- `space` is that `cr3` is set; `destroyed` counts the times it went. -/
structure Proc where
  state : PState
  cpu : Nat
  kernel : Bool
  endRequested : Bool
  reapWhenEmpty : Bool
  space : Bool
  destroyed : Nat

structure SleepLock where
  owner : Option Nat
  depth : Nat
  next : Nat
  serving : Nat

/-- `cur` is each CPU's `cur_thread`, `bkl` the CPU that is in the kernel. -/
structure State where
  threads : Nat → Thread
  procs : Nat → Proc
  locks : Nat → SleepLock
  cur : Nat → Option Nat
  bkl : Option Nat
  ticks : Nat

def State.setThread (s : State) (t : Nat) (b : Thread) : State :=
  {s with threads := update s.threads t b}

def State.setProc (s : State) (p : Nat) (b : Proc) : State :=
  {s with procs := update s.procs p b}

def State.setLock (s : State) (l : Nat) (b : SleepLock) : State :=
  {s with locks := update s.locks l b}

def State.setCur (s : State) (c : Nat) (t : Option Nat) : State :=
  {s with cur := update s.cur c t}

@[simp] theorem setThread_threads (s : State) (t u : Nat) (b : Thread) :
    (s.setThread t b).threads u = if u = t then b else s.threads u := update_apply ..

@[simp] theorem setThread_procs (s : State) (t : Nat) (b : Thread) : (s.setThread t b).procs = s.procs := rfl

@[simp] theorem setProc_procs (s : State) (p q : Nat) (b : Proc) :
    (s.setProc p b).procs q = if q = p then b else s.procs q := update_apply ..

@[simp] theorem setLock_locks (s : State) (l m : Nat) (b : SleepLock) :
    (s.setLock l b).locks m = if m = l then b else s.locks m := update_apply ..

@[simp] theorem setCur_cur (s : State) (c d : Nat) (t : Option Nat) :
    (s.setCur c t).cur d = if d = c then t else s.cur d := update_apply ..

def alive (p : Proc) : Bool := p.state = .live ∨ p.state = .stopped

def freed (t : Thread) : Thread :=
  {t with state := .unused, proc := none, running := false, doomed := false}

def freeThread (s : State) (c t : Nat) : State :=
  let s := if s.cur c = some t then s.setCur c none else s
  s.setThread t (freed (s.threads t))

/-- The body of the loop of `end_threads`, with how many threads are left so far. -/
def endThread (c p : Nat) (acc : State × Nat) (t : Nat) : State × Nat :=
  let b := acc.1.threads t
  if b.proc ≠ some p then acc
  else if (b.running ∨ b.holds ≠ 0) ∧ acc.1.cur c ≠ some t then
    (acc.1.setThread t {b with doomed := true},acc.2 + 1)
  else (freeThread acc.1 c t,acc.2)

def endThreads (n : Nat) (s : State) (c p : Nat) : State × Nat :=
  (range n).foldl (endThread c p) (s,0)

def releaseAddressSpace (s : State) (p : Nat) : State :=
  let b := s.procs p
  if b.space then s.setProc p {b with space := false, destroyed := b.destroyed + 1} else s

def freeProcess (n : Nat) (s : State) (c p : Nat) : State :=
  let after := endThreads n s c p
  if after.2 ≠ 0 then after.1.setProc p {after.1.procs p with state := .ended, reapWhenEmpty := true}
  else
    let s := releaseAddressSpace after.1 p
    s.setProc p {s.procs p with state := .unused}

def terminate (n : Nat) (s : State) (c p : Nat) : State :=
  let after := endThreads n s c p
  freeProcess n (if after.2 = 0 then releaseAddressSpace after.1 p else after.1) c p

def countThreads (n : Nat) (s : State) (p : Nat) : Nat :=
  (range n).countP fun t => (s.threads t).proc = some p ∧ (s.threads t).state ≠ .unused

/-- The doomed half of `end_if_doomed`. -/
def endDoomed (n : Nat) (s : State) (c t : Nat) : State :=
  match (s.threads t).proc with
  | none => s
  | some p =>
    let s := freeThread s c t
    if countThreads n s p = 0 then
      let s := releaseAddressSpace s p
      if (s.procs p).reapWhenEmpty then
        freeProcess n (s.setProc p {s.procs p with reapWhenEmpty := false}) c p
      else s
    else s

def holdsLocks (n : Nat) (s : State) (p : Nat) : Bool :=
  (range n).any fun t =>
    (s.threads t).proc = some p ∧ (s.threads t).state ≠ .unused ∧ (s.threads t).holds ≠ 0

def wakeReady (s : State) (t : Nat) : Bool :=
  ((s.threads t).proc.any fun p => (s.procs p).endRequested) ∨ (s.threads t).woken ∨
    ((s.threads t).wakeTick ≠ 0 ∧ (s.threads t).wakeTick ≤ s.ticks)

def eligible (s : State) (c t : Nat) : Bool :=
  (s.threads t).state ≠ .unused ∧ (s.threads t).cpu = c ∧ (s.threads t).proc.any fun p =>
    (s.procs p).state = .live ∨ ((s.procs p).state = .stopped ∧ (s.threads t).holds ≠ 0)

def ready (s : State) (t : Nat) : Bool :=
  (s.threads t).state = .runnable ∨ ((s.threads t).state = .blocked ∧ wakeReady s t)

def pickNext (n : Nat) (s : State) (c last : Nat) : Option Nat :=
  ((range n).map fun i => (last + 1 + i) % n).find? fun t => eligible s c t && ready s t

def myTurn (s : State) (l ticket : Nat) : Bool := (s.locks l).depth = 0 ∧ (s.locks l).serving = ticket

/-- The end of `lock`: the turn has come. A `pass` then gives up its extra hold. -/
def takeLock (s : State) (t l : Nat) : State :=
  let b := s.threads t
  (s.setLock l {s.locks l with owner := some t, depth := 1}).setThread t
    {b with held := l :: b.held, waits := none, passing := false, holds := b.holds - b.passing.toNat}

def fallAsleep (s : State) (t tick : Nat) : State :=
  s.setThread t {s.threads t with state := .blocked, woken := false, wakeTick := tick}

/-- The loop of `lock`: take it in its turn, else sleep. -/
def waitTurn (s : State) (t l ticket : Nat) : State :=
  if myTurn s l ticket then takeLock s t l else fallAsleep s t 0

def queueUp (s : State) (t l : Nat) : State :=
  let ticket := (s.locks l).next
  let b := s.threads t
  waitTurn ((s.setLock l {s.locks l with next := ticket + 1}).setThread t
    {b with holds := b.holds + 1, waits := some (l,ticket)}) t l ticket

def lock (s : State) (t l : Nat) (canSleep : Bool) : State :=
  let k := s.locks l
  let b := s.threads t
  if k.depth ≠ 0 ∧ k.owner = some t then
    (s.setLock l {k with depth := k.depth + 1}).setThread t
      {b with holds := b.holds + 1, held := l :: b.held}
  else if !canSleep ∧ ¬ (k.depth = 0 ∧ k.serving = k.next) then s
  else queueUp s t l

def wakeWaiters (s : State) (l : Nat) : State :=
  {s with threads := fun t =>
    let b := s.threads t
    if b.waits.map Prod.fst = some l then {b with woken := true} else b}

/-- `unlock` by thread `t`; the counter that goes down is the owner's. -/
def unlock (s : State) (t l : Nat) : State :=
  let k := s.locks l
  let s := s.setThread t {s.threads t with held := (s.threads t).held.erase l}
  let s := match k.owner with
    | some o => s.setThread o {s.threads o with holds := (s.threads o).holds - 1}
    | none => s
  if k.depth - 1 = 0 then
    wakeWaiters (s.setLock l {k with owner := none, depth := 0, serving := k.serving + 1}) l
  else s.setLock l {k with depth := k.depth - 1}

def pass (s : State) (t l : Nat) (canSleep : Bool) : State :=
  let k := s.locks l
  if k.owner ≠ some t ∨ k.depth ≠ 1 ∨ k.next = k.serving + 1 ∨ !canSleep then s
  else
    let s := s.setThread t {s.threads t with holds := (s.threads t).holds + 1, passing := true}
    queueUp (unlock s t l) t l

/-- What CPU `c` does, and what happens around it. `enter`, `fault` and `leave` are the ways
into and out of the kernel, `resume` a thread that has no kernel work going on, `dispatch`
the second half of `schedule`; `service` is `service_requests` reaching one process. -/
inductive Action
  | enter (c : Nat)
  | fault (c : Nat)
  | leave (c : Nat)
  | resume (c : Nat)
  | interruptIdle (c : Nat)
  | idle (c : Nat)
  | dispatch (c last : Nat)
  | lock (c l : Nat) (canSleep : Bool)
  | unlock (c l : Nat)
  | pass (c l : Nat) (canSleep : Bool)
  | retry (c : Nat)
  | sleep (c tick : Nat)
  | wake (t : Nat)
  | tick
  | exit (c : Nat)
  | threadExit (c : Nat)
  | create (c t cpu : Nat)
  | launch (c p t cpu : Nat) (kernel : Bool)
  | requestEnd (p : Nat)
  | pause (p : Nat)
  | proceed (p : Nat)
  | service (c p : Nat)

def inKernel (s : State) (c t : Nat) : Bool :=
  s.bkl = some c ∧ s.cur c = some t ∧ (s.threads t).user = false ∧ (s.threads t).state = .runnable

def free (b : Thread) : Bool := b.held = [] ∧ b.waits = none

def stopCurrent (s : State) (c : Nat) : State :=
  match s.cur c with
  | some t => s.setThread t {s.threads t with running := false}
  | none => s

def dispatch (n : Nat) (s : State) (c last : Nat) : State :=
  let stopped := stopCurrent s c
  match pickNext n s c last with
  | some t => (stopped.setThread t {stopped.threads t with running := true, state := .runnable}).setCur c (some t)
  | none => stopped.setCur c none

def newThread (p cpu : Nat) : Thread := ⟨.runnable,some p,cpu,false,false,0,false,0,true,[],none,false⟩

def step (n : Nat) (s : State) : Action → Option State
  | .enter c => match s.bkl, s.cur c with
    | none, some t =>
      if (s.threads t).user then
        let s := {s with bkl := some c}
        some (if (s.threads t).doomed then endDoomed n s c t
          else s.setThread t {s.threads t with user := false})
      else none
    | _, _ => none
  | .fault c => match s.bkl, s.cur c with
    | none, some t =>
      if (s.threads t).user then
        let s := {s with bkl := some c}
        if (s.threads t).doomed then some (endDoomed n s c t)
        else (s.threads t).proc.map fun p => terminate n s c p
      else none
    | _, _ => none
  | .leave c => (s.cur c).bind fun t =>
    if inKernel s c t ∧ free (s.threads t) then
      if (s.threads t).doomed then some (endDoomed n s c t)
      else (s.threads t).proc.bind fun p =>
        if (s.procs p).state = .live then
          some {s.setThread t {s.threads t with user := true} with bkl := none}
        else none
    else none
  | .resume c => (s.cur c).bind fun t =>
    if s.bkl = some c ∧ (s.threads t).user then some {s with bkl := none} else none
  | .interruptIdle c => if s.bkl = none ∧ s.cur c = none then some {s with bkl := some c} else none
  | .idle c => if s.bkl = some c ∧ s.cur c = none then some {s with bkl := none} else none
  | .dispatch c last => if s.bkl = some c then some (dispatch n s c last) else none
  | .lock c l canSleep => (s.cur c).bind fun t =>
    if inKernel s c t ∧ (s.threads t).waits = none then some (lock s t l canSleep) else none
  | .unlock c l => (s.cur c).bind fun t =>
    if inKernel s c t ∧ (s.threads t).waits = none ∧ l ∈ (s.threads t).held then some (unlock s t l)
    else none
  | .pass c l canSleep => (s.cur c).bind fun t =>
    if inKernel s c t ∧ (s.threads t).waits = none then some (pass s t l canSleep) else none
  | .retry c => (s.cur c).bind fun t =>
    if inKernel s c t then (s.threads t).waits.map fun w => waitTurn s t w.1 w.2 else none
  | .sleep c tick => (s.cur c).bind fun t =>
    if inKernel s c t ∧ (s.threads t).waits = none then some (fallAsleep s t tick) else none
  | .wake t => some (s.setThread t {s.threads t with woken := true})
  | .tick => some {s with ticks := s.ticks + 1}
  | .exit c => (s.cur c).bind fun t =>
    if inKernel s c t ∧ free (s.threads t) then (s.threads t).proc.map fun p => terminate n s c p else none
  | .threadExit c => (s.cur c).bind fun t =>
    if inKernel s c t ∧ free (s.threads t) then
      (s.threads t).proc.map fun p =>
        if countThreads n s p ≤ 1 then terminate n s c p else freeThread s c t
    else none
  | .create c slot cpu => (s.cur c).bind fun t =>
    if inKernel s c t ∧ slot < n ∧ (s.threads slot).state = .unused then
      (s.threads t).proc.map fun p => s.setThread slot (newThread p cpu)
    else none
  | .launch c p slot cpu kernel =>
    if s.bkl = some c ∧ slot < n ∧ (s.threads slot).state = .unused ∧ (s.procs p).state = .unused then
      some ((s.setProc p ⟨.live,cpu,kernel,false,false,true,0⟩).setThread slot (newThread p cpu))
    else none
  | .requestEnd p =>
    if alive (s.procs p) ∧ !(s.procs p).kernel then some (s.setProc p {s.procs p with endRequested := true})
    else none
  | .pause p =>
    if (s.procs p).state = .live ∧ !(s.procs p).kernel then
      some (s.setProc p {s.procs p with state := .stopped})
    else none
  | .proceed p =>
    if (s.procs p).state = .stopped then some (s.setProc p {s.procs p with state := .live}) else none
  | .service c p =>
    if s.bkl = some c ∧ (s.procs p).cpu = c ∧ alive (s.procs p) ∧ (s.procs p).endRequested ∧
        !holdsLocks n s p then some (terminate n s c p)
    else none

def Step (n : Nat) (s : State) (a : Action) (t : State) : Prop := step n s a = some t

def Initial (s : State) : Prop :=
  (∀ t, (s.threads t).state = .unused ∧ (s.threads t).running = false ∧ (s.threads t).doomed = false ∧
    (s.threads t).holds = 0 ∧ (s.threads t).proc = none ∧ (s.threads t).held = [] ∧
    (s.threads t).waits = none ∧ (s.threads t).passing = false) ∧
  (∀ l, (s.locks l).owner = none ∧ (s.locks l).depth = 0) ∧ (∀ c, s.cur c = none) ∧ s.bkl = none

end SurfaceOS.Cpu
