import SurfaceOS.Errno
import SurfaceOS.Lib.Ring
import SurfaceOS.Lib.Transition

/-! Pipes (fs/pipe.cpp): two ends share a ring, calls on them sleep and carry on in any
order, and the last end to go frees the ring. A call is a thread inside `pipe_read` or
`pipe_write`; between two of its turns any other thread may run. The kernel does not
preempt itself, so what one turn does is one step. -/
namespace SurfaceOS.Pipe
open Lib Function Option

def pipeSize : Nat := 16 * 1024

structure PipeBuf where
  data : Nat → UInt8
  head : Nat
  count : Nat
  readerGone : Bool
  writerGone : Bool

def PipeBuf.cleared : PipeBuf := ⟨fun _ => 0,0,0,false,false⟩

def PipeBuf.ring (p : PipeBuf) : List UInt8 := Ring.contents pipeSize p.data p.head p.count

inductive End
  | read | write
  deriving DecidableEq

def readable (p : PipeBuf) : Bool := p.count != 0 || p.writerGone

def writable (p : PipeBuf) : Bool := p.count < pipeSize || p.readerGone

/-- What `pipe_read` does once `readable` holds: the bytes it hands out, the ring after. -/
def take (p : PipeBuf) (len : Nat) : List UInt8 × PipeBuf :=
  let n := if len < p.count then len else p.count
  (Ring.contents pipeSize p.data p.head n,
    {p with head := (p.head + n) % pipeSize, count := p.count - n})

/-- One piece of `pipe_write` once there is room: as much of `rest` as fits. -/
def fill (p : PipeBuf) (rest : List UInt8) : Nat × PipeBuf :=
  let room := pipeSize - p.count
  let n := if rest.length < room then rest.length else room
  (n,{p with data := Ring.store pipeSize p.data (p.head + p.count) (rest.take n), count := p.count + n})

inductive Call
  | read (len : Nat)
  | write (input : List UInt8) (done : Nat)

def Call.side : Call → End
  | .read _ => .read
  | .write _ _ => .write

/-- A thread inside a call; asleep it waits on the pipe's queue. -/
structure Pending where
  call : Call
  awake : Bool

inductive Reply
  | read (result : Except Errno (List UInt8))
  | write (result : Except Errno Unit) (done : Nat)

/-- `buf` is what the memory at the `pipe_buf` holds, also after `kfree`. `accepted` and
`delivered` record the bytes written into the ring and handed to readers. -/
structure State where
  buf : PipeBuf
  frees : Nat
  openEnd : End → Bool
  calls : Nat → Option Pending
  accepted : List UInt8
  delivered : List UInt8

variable {s : State}

def State.created : State := ⟨.cleared,0,fun _ => true,fun _ => none,[],[]⟩

def State.wakeUp (s : State) : State :=
  {s with calls := fun c => (s.calls c).map fun p => {p with awake := true}}

def State.setCall (s : State) (c : Nat) (p : Option Pending) : State :=
  {s with calls := update s.calls c p}

def pipeRead (s : State) (c len : Nat) : State × Option Reply :=
  if readable s.buf then
    let (out,p) := take s.buf len
    (State.wakeUp {s.setCall c none with buf := p, delivered := s.delivered ++ out},
      some (.read (.ok out)))
  else (s.setCall c (some ⟨.read len,false⟩),none)

def pipeWrite (s : State) (c : Nat) (input : List UInt8) (done : Nat) : State × Option Reply :=
  if done < input.length then
    if writable s.buf then
      if s.buf.readerGone then (s.setCall c none,some (.write (.error .epipe) done))
      else
        let (n,p) := fill s.buf (input.drop done)
        (State.wakeUp {s.setCall c (some ⟨.write input (done + n),true⟩) with
          buf := p, accepted := s.accepted ++ (input.drop done).take n},none)
    else (s.setCall c (some ⟨.write input done,false⟩),none)
  else (s.setCall c none,some (.write (.ok ()) done))

def pipeRelease (s : State) (e : End) : State :=
  let closed := {s with openEnd := update s.openEnd e false}
  let otherGone := match e with
    | .read => s.buf.writerGone
    | .write => s.buf.readerGone
  if otherGone then {closed with frees := s.frees + 1}
  else match e with
    | .read => State.wakeUp {closed with buf := {s.buf with readerGone := true}}
    | .write => State.wakeUp {closed with buf := {s.buf with writerGone := true}}

/-- `interrupt` is the end request that makes `wait_event` give up on a sleeping call;
`reuse` is whoever got the memory after `kfree` writing into it. -/
inductive Action
  | enter (c : Nat) (call : Call)
  | run (c : Nat)
  | interrupt (c : Nat)
  | close (e : End)
  | reuse (memory : PipeBuf)

/-- A call is entered through a live vnode of its end, a read never with length 0
(vfs.h; `do_read` returns before). -/
def admits (s : State) : Call → Bool
  | .read len => s.openEnd .read && 0 < len
  | .write _ done => s.openEnd .write && done == 0

def step (s : State) : Action → Option (State × Option Reply)
  | .enter c call =>
    if (s.calls c).isNone && admits s call then some (s.setCall c (some ⟨call,true⟩),none) else none
  | .run c => match s.calls c with
    | some ⟨.read len,true⟩ => some (pipeRead s c len)
    | some ⟨.write input done,true⟩ => some (pipeWrite s c input done)
    | _ => none
  | .interrupt c => match s.calls c with
    | some ⟨.read _,false⟩ => some (s.setCall c none,some (.read (.error .eintr)))
    | some ⟨.write _ done,false⟩ => some (s.setCall c none,some (.write (.error .eintr) done))
    | _ => none
  | .close e => if s.openEnd e then some (pipeRelease s e,none) else none
  | .reuse memory => if 0 < s.frees then some ({s with buf := memory},none) else none

def Step (s : State) (a : Action) (t : State) : Prop := (step s a).map Prod.fst = some t

/-- The pipe's promise: while the ring lives it holds exactly what was accepted and not yet
delivered, and never more than fits; nothing but accepted bytes is delivered, in order; a
read ends the stream only on an empty ring without a writer; the ring is freed once, by
the second of its ends. -/
structure Faithful (s : State) : Prop where
  history : s.frees = 0 → s.delivered ++ s.buf.ring = s.accepted
  ordered : s.delivered <+: s.accepted
  capacity : s.frees = 0 → s.buf.count ≤ pipeSize
  ending : ∀ c t, step s (.run c) = some (t,some (.read (.ok []))) →
    s.frees = 0 ∧ s.buf.ring = [] ∧ s.openEnd .write = false
  released : s.frees = if s.openEnd .read || s.openEnd .write then 0 else 1

def Unused (s : State) : Action → Prop
  | .close e => ∀ c p, s.calls c = some p → p.call.side ≠ e
  | _ => True

section
variable (p : PipeBuf)
include p

theorem take_ring (len : Nat) : (take p len).1 ++ (take p len).2.ring = p.ring := by
  have bound : (if len < p.count then len else p.count) ≤ p.count := by split <;> omega
  exact (Ring.contents_take pipeSize p.data p.head p.count _ bound).symm

theorem take_count (len : Nat) : (take p len).2.count ≤ p.count := by
  simp only [take]
  omega

theorem take_nil (len : Nat) (asked : 0 < len) (empty : (take p len).1 = []) : p.count = 0 := by
  have size := congrArg List.length empty
  simp only [take,Ring.contents_length,List.length_nil] at size
  split at size <;> omega

theorem fill_ring (rest : List UInt8) (bound : p.count ≤ pipeSize) :
    (fill p rest).2.ring = p.ring ++ rest.take (fill p rest).1 := by
  have fits : (if rest.length < pipeSize - p.count then rest.length else pipeSize - p.count) ≤
      rest.length := by split <;> omega
  have length := List.length_take_of_le fits
  have stored := Ring.contents_store pipeSize p.data p.head p.count (rest.take _)
    (by rw [length]; split <;> omega)
  rw [length] at stored
  exact stored

theorem fill_count (rest : List UInt8) (bound : p.count ≤ pipeSize) : (fill p rest).2.count ≤ pipeSize := by
  simp only [fill]
  split <;> omega

end

/-- What carries `Faithful` through a run: besides the history itself, that the ring's own
flags tell which ends are open, and that a thread inside a call keeps its end open. -/
structure Inv (s : State) : Prop where
  history : s.frees = 0 → s.delivered ++ s.buf.ring = s.accepted
  ordered : s.delivered <+: s.accepted
  capacity : s.frees = 0 → s.buf.count ≤ pipeSize
  released : s.frees = if s.openEnd .read || s.openEnd .write then 0 else 1
  flags : s.frees = 0 → s.buf.readerGone = !s.openEnd .read ∧ s.buf.writerGone = !s.openEnd .write
  inside : ∀ c p, s.calls c = some p → s.openEnd p.call.side
  asking : ∀ c len awake, s.calls c = some ⟨.read len,awake⟩ → 0 < len

theorem Inv.alive (inv : Inv s) (c : Nat) (p : Pending) (called : s.calls c = some p) : s.frees = 0 := by
  have isOpen := inv.inside c p called
  rw [inv.released]
  cases side : p.call.side <;> simp_all

theorem created_inv : Inv State.created where
  history := by simp [State.created,PipeBuf.cleared,PipeBuf.ring,Ring.contents]
  ordered := by simp [State.created]
  capacity := by simp [State.created,PipeBuf.cleared]
  released := by simp [State.created]
  flags := by simp [State.created,PipeBuf.cleared]
  inside := by simp [State.created]
  asking := by simp [State.created]

theorem Inv.setCall (inv : Inv s) (c : Nat) (next : Option Pending)
    (side : ∀ p, next = some p → s.openEnd p.call.side)
    (asks : ∀ len awake, next = some ⟨.read len,awake⟩ → 0 < len) : Inv (s.setCall c next) where
  history := inv.history
  ordered := inv.ordered
  capacity := inv.capacity
  released := inv.released
  flags := inv.flags
  inside := by
    intro d p called
    simp only [State.setCall] at called
    by_cases same : d = c
    · subst d
      exact side p (by simpa using called)
    · exact inv.inside d p (by simpa [same] using called)
  asking := by
    intro d len awake called
    simp only [State.setCall] at called
    by_cases same : d = c
    · subst d
      exact asks len awake (by simpa using called)
    · exact inv.asking d len awake (by simpa [same] using called)

theorem Inv.wakeUp (inv : Inv s) : Inv s.wakeUp where
  history := inv.history
  ordered := inv.ordered
  capacity := inv.capacity
  released := inv.released
  flags := inv.flags
  inside := by
    intro c p called
    obtain ⟨q,before,rfl⟩ := map_eq_some_iff.mp called
    exact inv.inside c q before
  asking := by
    intro c len awake called
    obtain ⟨q,before,equal⟩ := map_eq_some_iff.mp called
    cases q with
    | mk call was =>
      obtain ⟨rfl,_⟩ := equal
      exact inv.asking c len was before

theorem Inv.move (inv : Inv s) (buf : PipeBuf) (accepted delivered : List UInt8)
    (history : delivered ++ buf.ring = accepted) (capacity : buf.count ≤ pipeSize)
    (reader : buf.readerGone = s.buf.readerGone) (writer : buf.writerGone = s.buf.writerGone) :
    Inv {s with buf := buf, accepted := accepted, delivered := delivered} where
  history := fun _ => history
  ordered := ⟨buf.ring,history⟩
  capacity := fun _ => capacity
  released := inv.released
  flags := by
    intro live
    have := inv.flags live
    simpa only [reader,writer] using this
  inside := inv.inside
  asking := inv.asking

theorem pipeRead_inv (s : State) (inv : Inv s) (c len : Nat) (awake : Bool)
    (called : s.calls c = some ⟨.read len,awake⟩) : Inv (pipeRead s c len).1 := by
  have live := inv.alive c _ called
  have isOpen : s.openEnd .read := inv.inside c _ called
  unfold pipeRead
  split
  · apply Inv.wakeUp
    have done := inv.setCall c none (by simp) (by simp)
    apply done.move _ s.accepted
    · rw [List.append_assoc,take_ring]
      exact inv.history live
    · exact Nat.le_trans (take_count s.buf len) (inv.capacity live)
    · rfl
    · rfl
  · apply inv.setCall
    · intro p equal
      obtain rfl := some.inj equal
      exact isOpen
    intro len' awake' equal
    obtain ⟨rfl,_⟩ := equal
    exact inv.asking c len awake called

theorem pipeWrite_inv (s : State) (inv : Inv s) (c : Nat) (input : List UInt8) (done : Nat) (awake : Bool)
    (called : s.calls c = some ⟨.write input done,awake⟩) : Inv (pipeWrite s c input done).1 := by
  have live := inv.alive c _ called
  have isOpen := inv.inside c _ called
  have stays (next : Nat) (up : Bool) : Inv (s.setCall c (some ⟨.write input next,up⟩)) := by
    apply inv.setCall
    · intro p equal
      obtain rfl := some.inj equal
      exact isOpen
    · intro len awake equal
      simp at equal
  have returns : Inv (s.setCall c none) := inv.setCall c none (by simp) (by simp)
  unfold pipeWrite
  split
  · split
    · split
      · exact returns
      apply Inv.wakeUp
      apply (stays _ true).move _ _ s.delivered
      · rw [fill_ring _ _ (inv.capacity live),← List.append_assoc,inv.history live]
      · exact fill_count _ _ (inv.capacity live)
      · rfl
      · rfl
    · exact stays done false
  · exact returns

/-- Closing an end nobody is inside of: the first close only tells the other end, the second
frees the ring, and then no call is left that could touch it. -/
theorem pipeRelease_inv (s : State) (inv : Inv s) (e : End) (isOpen : s.openEnd e)
    (unused : ∀ c p, s.calls c = some p → p.call.side ≠ e) : Inv (pipeRelease s e) := by
  have live : s.frees = 0 := by
    rw [inv.released]
    cases e <;> simp_all
  have flags := inv.flags live
  have inside : ∀ c p, s.calls c = some p →
      (update s.openEnd e false) p.call.side := by
    intro c p called
    rw [update_of_ne (unused c p called)]
    exact inv.inside c p called
  fun_cases pipeRelease s e with
  | case1 e closed otherGone gone =>
    refine ⟨by simp,inv.ordered,by simp,?_,by simp,inside,inv.asking⟩
    cases e <;> simp_all [closed,otherGone]
  | case2 closed otherGone here | case3 closed otherGone here =>
    apply Inv.wakeUp
    refine ⟨inv.history,inv.ordered,inv.capacity,?_,fun _ => ?_,inside,inv.asking⟩
    · simp_all [closed,otherGone]
    · simp_all [closed,otherGone]

theorem step_inv (s : State) (a : Action) (t : State) (inv : Inv s) (unused : Unused s a)
    (taken : Step s a t) : Inv t := by
  obtain ⟨⟨t,reply⟩,moved,rfl⟩ := map_eq_some_iff.mp taken
  revert moved
  fun_cases step s a with
  | case1 c call admitted =>
    rintro ⟨⟩
    apply inv.setCall
    · intro p equal
      obtain rfl := some.inj equal
      cases call <;> simp_all [admits,Call.side]
    intro len awake equal
    simp_all [admits]
  | case3 c len called =>
    intro moved
    obtain rfl := congrArg Prod.fst (some.inj moved)
    exact pipeRead_inv s inv c len true called
  | case4 c input done called =>
    intro moved
    obtain rfl := congrArg Prod.fst (some.inj moved)
    exact pipeWrite_inv s inv c input done true called
  | case6 c | case7 c =>
    rintro ⟨⟩
    exact inv.setCall c none (by simp) (by simp)
  | case9 e isOpen =>
    rintro ⟨⟩
    exact pipeRelease_inv s inv e isOpen unused
  | case11 memory freed =>
    rintro ⟨⟩
    have dead : s.frees ≠ 0 := by omega
    exact ⟨fun live => absurd live dead,inv.ordered,fun live => absurd live dead,inv.released,
      fun live => absurd live dead,inv.inside,inv.asking⟩
  | _ => rintro ⟨⟩

theorem Inv.ending (inv : Inv s) (c : Nat) (t : State) (moved : step s (.run c) = some (t,some (.read (.ok [])))) :
    s.frees = 0 ∧ s.buf.ring = [] ∧ s.openEnd .write = false := by
  simp only [step] at moved
  split at moved
  · rename_i len called
    have live := inv.alive c _ called
    revert moved
    fun_cases pipeRead s c len with
    | case1 ready out p taken =>
      intro moved
      have reply := congrArg Prod.snd (some.inj moved)
      simp only [some.injEq,Reply.read.injEq,Except.ok.injEq] at reply
      have empty := take_nil s.buf len (inv.asking c len true called) (by rw [taken]; exact reply)
      have gone : s.buf.writerGone := by simpa [readable,empty] using ready
      refine ⟨live,by simp [PipeBuf.ring,empty,Ring.contents],?_⟩
      simpa [gone] using (inv.flags live).2
    | case2 => rintro ⟨⟩
  · rename_i input done called
    revert moved
    fun_cases pipeWrite s c input done <;> rintro ⟨⟩
  · cases moved

theorem Inv.faithful (inv : Inv s) : Faithful s :=
  ⟨inv.history,inv.ordered,inv.capacity,inv.ending,inv.released⟩

/-- Every run in which an end goes only when no thread is inside a call on it. -/
theorem runs_faithful (s : State) (reached : Reach (· = State.created) Unused Step s) : Faithful s := by
  refine (Reach.invariant Inv ?_ step_inv s reached).faithful
  rintro _ rfl
  exact created_inv

theorem runs_faithful_handover :
    ∃ s, Reach (· = State.created) Unused Step s ∧ s.delivered = [97] ∧ s.openEnd .write = false ∧
      Faithful s := by
  have written : Reach (· = State.created) Unused Step _ :=
    .next _ _ (.run 0) (.next _ _ (.run 0) (.next _ _ (.enter 0 (.write [97] 0)) (.start _ rfl)
      trivial rfl) trivial rfl) trivial rfl
  have closed : Reach (· = State.created) Unused Step _ :=
    .next _ _ (.close .write) written (fun c p called => by cases c <;> cases called) rfl
  have delivered : Reach (· = State.created) Unused Step _ :=
    .next _ _ (.run 1) (.next _ _ (.enter 1 (.read 5)) closed trivial rfl) trivial rfl
  exact ⟨_,delivered,by decide,by decide,runs_faithful _ delivered⟩

/-- A read asleep on the empty ring is woken by a write; before it runs, its own end and
then the other one are closed, so the ring is freed under it and given away. -/
def closedUnderRead : List Action :=
  [.enter 0 (.read 1),.run 0,.enter 1 (.write [97] 0),.run 1,.run 1,.close .read,.close .write,
    .reuse {PipeBuf.cleared with data := fun _ => 88, count := 1},.run 0]

theorem closedUnderRead_delivers : (execute (fun s a => (step s a).map Prod.fst) State.created closedUnderRead).map
      (fun s => (s.delivered,s.accepted)) = some ([88],[97]) := by decide

theorem not_every_run_faithful : ¬ ∀ s, Reach (· = State.created) (fun _ _ => True) Step s → Faithful s := by
  intro always
  obtain ⟨s,ran,seen⟩ := map_eq_some_iff.mp closedUnderRead_delivers
  have reached : Reach (· = State.created) (fun _ _ => True) Step s :=
    Reach.execute (fun _ _ _ moved => ⟨trivial,moved⟩) _ _ s (.start _ rfl) ran
  have ordered := (always s reached).ordered
  simp only [Prod.mk.injEq] at seen
  rw [seen.1,seen.2] at ordered
  exact absurd ordered (by decide)

def stuck (p : PipeBuf) : Call → Bool
  | .read _ => !readable p
  | .write _ _ => !writable p

/-- Nobody sleeps who could go on. -/
def Waiting (s : State) : Prop := s.frees = 0 → ∀ c call, s.calls c = some ⟨call,false⟩ → stuck s.buf call

theorem waiting_wakeUp (s : State) : Waiting s.wakeUp := by
  intro _ c call asleep
  obtain ⟨p,_,⟨⟩⟩ := map_eq_some_iff.mp asleep

theorem Waiting.setCall (waiting : Waiting s) (c : Nat) (next : Option Pending)
    (sleeps : ∀ call, next = some ⟨call,false⟩ → stuck s.buf call) : Waiting (s.setCall c next) := by
  intro live d call asleep
  simp only [State.setCall,update_apply] at asleep
  split at asleep
  · exact sleeps call asleep
  · exact waiting live d call asleep

-- whatever changes the ring or ends a call for good wakes everybody
theorem Waiting.step (waiting : Waiting s) (a : Action) (t : State) (taken : Step s a t) : Waiting t := by
  obtain ⟨⟨t,reply⟩,moved,rfl⟩ := map_eq_some_iff.mp taken
  revert moved
  fun_cases Pipe.step s a with
  | case1 c call =>
    rintro ⟨⟩
    exact waiting.setCall c _ (by simp)
  | case3 c len =>
    fun_cases pipeRead s c len with
    | case1 =>
      rintro ⟨⟩
      exact waiting_wakeUp _
    | case2 empty =>
      rintro ⟨⟩
      exact waiting.setCall c _ (by simpa [stuck] using empty)
  | case4 c input done =>
    fun_cases pipeWrite s c input done with
    | case2 =>
      rintro ⟨⟩
      exact waiting_wakeUp _
    | case3 _ full =>
      rintro ⟨⟩
      exact waiting.setCall c _ (by simpa [stuck] using full)
    | _ =>
      rintro ⟨⟩
      exact waiting.setCall c none (by simp)
  | case6 c | case7 c =>
    rintro ⟨⟩
    exact waiting.setCall c none (by simp)
  | case9 e =>
    rintro ⟨⟩
    fun_cases pipeRelease s e with
    | case1 => exact fun live => absurd live (Nat.succ_ne_zero _)
    | _ => exact waiting_wakeUp _
  | case11 memory freed =>
    rintro ⟨⟩
    exact fun live => absurd live (Nat.ne_of_gt freed)
  | _ => rintro ⟨⟩

/-- Whatever the threads at the two ends do, and in whatever order: as long as the ring is there, no call
sleeps on what has come about already, and never is one asleep at each end. -/
theorem runs_never_stuck (reached : Reach (· = State.created) (fun _ _ => True) Step s) (live : s.frees = 0) :
    (∀ c call, s.calls c = some ⟨call,false⟩ → stuck s.buf call) ∧
    ∀ c d len input done, s.calls c = some ⟨.read len,false⟩ → s.calls d ≠ some ⟨.write input done,false⟩ := by
  have waiting : Waiting s := by
    refine Reach.invariant Waiting ?_ (fun s a t waiting _ taken => waiting.step a t taken) s reached
    rintro _ rfl _ c call ⟨⟩
  refine ⟨waiting live,fun c d len input done reads writes => ?_⟩
  have empty := waiting live c _ reads
  have full := waiting live d _ writes
  simp [stuck,readable,writable] at empty full
  simp [empty.1,pipeSize] at full

theorem runs_never_stuck_asleep : ∃ s : State, s.calls 0 = some ⟨.read 5,false⟩ ∧ s.frees = 0 ∧
    ∀ d input done, s.calls d ≠ some ⟨.write input done,false⟩ := by
  have reached : Reach (· = State.created) (fun _ _ => True) Step _ :=
    .next _ _ (.run 0) (.next _ _ (.enter 0 (.read 5)) (.start _ rfl) trivial rfl) trivial rfl
  exact ⟨_,rfl,rfl,fun d input done => (runs_never_stuck reached rfl).2 0 d 5 input done rfl⟩

end SurfaceOS.Pipe
