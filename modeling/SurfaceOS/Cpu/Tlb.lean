import SurfaceOS.Lib.Threads

/-! Page releases and the TLBs of the other CPUs (smp.cpp, release_range and the address space switches
of process.cpp, the kernel's entries in interrupts.asm, idt.cpp and irq.cpp). Only the holder of the
big kernel lock runs kernel code, so where it is there is kept with the lock. -/
namespace SurfaceOS.Cpu.Tlb
open Lib
open Function (update)

/-- The kernel's own address space has no page of a program. -/
inductive Pml4
  | kernel
  | user (id : Nat)
  deriving DecidableEq

/-- `prev` is load_program's local variable: the space to go back to from the borrowed one. -/
structure Thread where
  cr3 : Pml4
  borrowed : Option Pml4
  prev : Pml4
  running : Bool

/-- What the holder of the lock is doing. `handler` is an interrupt's handler above code that did
not have the lock. In `releasing` and `flushing`, `cr3` is the space of the caller; the CPUs below
`next` have had their interrupt sent. -/
inductive Job
  | handler
  | kernel
  | loading
  | releasing (cr3 : Pml4) (pages : List Nat) (freed : List Nat)
  | flushing (cr3 : Pml4) (next : Nat) (freed : List Nat)
  | released (freed : List Nat)
  deriving DecidableEq

inductive Ipi
  | none
  | sent
  | reloaded
  deriving DecidableEq

/-- Pages and frames are numbers of 4 KiB pages; `recorded` is the `cr3` field of each CPU's record,
`none` until the CPU first switches. -/
structure Shared where
  lock : Option (Nat × Job)
  threads : Nat → Option Thread
  spaces : Nat
  tables : Pml4 → Nat → Option Nat
  free : Nat → Bool
  recorded : Nat → Option Pml4
  pending : Nat
  ipi : Nat → Ipi

inductive Mode
  | user
  | trapped
  | waiting
  | inside
  | leaving
  | halting
  deriving DecidableEq

/-- How far irq_handler is: before try_enter, nested in a lock this CPU has, or with a lock it took. -/
inductive Irq
  | none
  | asking
  | nested
  | holding
  deriving DecidableEq

structure Core where
  mode : Mode
  on : Bool
  irq : Irq
  thread : Option Nat
  loaded : Pml4
  tlb : Nat → Option Nat

inductive Entry
  | trap
  | sti
  | enter
  | interrupt
  | ask
  | iret
  | preempt
  | leave
  | resume
  | rest
  | hlt

inductive Call
  | switchThread (t : Nat) (on : Bool)
  | switchKernelTask (on : Bool)
  | create (t : Nat)
  | exit
  | load
  | finish (start : Option Nat)
  | map (page frame : Nat)
  | take (frame : Nat)
  | release (addr pages : Nat)
  | unmap
  | flush
  | send
  | drain
  | done

inductive Action
  | fill (page : Nat)
  | reload
  | report
  | entry (e : Entry)
  | call (k : Call)

/-- The ways into the kernel and out of it. A system call and a fault of a program switch interrupts
on before they wait for the lock; an interrupt's handler never waits for it. -/
def entry (c : Nat) (lock : Option (Nat × Job)) (l : Core) : Entry → Option (Option (Nat × Job) × Core)
  | .trap => if l.mode = .user ∧ l.irq = .none then some (lock,{l with mode := .trapped, on := false}) else none
  | .sti => if l.mode = .trapped ∧ l.irq = .none then some (lock,{l with mode := .waiting, on := true}) else none
  | .enter =>
    if l.mode = .waiting ∧ l.irq = .none ∧ lock = none then some (some (c,.kernel),{l with mode := .inside})
    else none
  | .interrupt => if l.on ∧ l.irq = .none then some (lock,{l with irq := .asking, on := false}) else none
  | .ask =>
    if l.irq = .asking then
      match lock with
      | none => some (some (c,.handler),{l with irq := .holding})
      | some (owner,job) =>
        if owner = c then some (some (owner,job),{l with irq := .nested})
        else some (some (owner,job),{l with irq := .none, on := true})
    else none
  | .iret =>
    if l.irq = .nested then some (lock,{l with irq := .none, on := true})
    else if l.irq = .holding then some (none,{l with irq := .none, on := true})
    else none
  | .preempt =>
    if l.irq = .holding ∧ l.mode = .user then some (some (c,.kernel),{l with irq := .none, mode := .inside})
    else none
  | .leave =>
    if lock = some (c,.kernel) ∧ l.irq = .none ∧ l.thread.isSome then some (none,{l with mode := .leaving}) else none
  | .resume => if l.mode = .leaving ∧ l.irq = .none then some (lock,{l with mode := .user, on := true}) else none
  | .rest =>
    -- the idle loop drops the lock before it halts
    if lock = some (c,.kernel) ∧ l.irq = .none ∧ l.thread = none ∧ l.loaded = .kernel then
      some (none,{l with mode := .halting})
    else none
  | .hlt => if l.mode = .halting ∧ l.irq = .none then some (lock,{l with mode := .waiting, on := true}) else none

def switchAddressSpace (cr3 : Pml4) (l : Core) : Core :=
  if l.loaded = cr3 then l else {l with loaded := cr3, tlb := fun _ => none}

def stop (cur : Option Nat) (threads : Nat → Option Thread) : Nat → Option Thread :=
  match cur with
  | none => threads
  | some t => update threads t ((threads t).map fun th => {th with running := false})

def switchThread (c : Nat) (g : Shared) (l : Core) (t : Nat) (on : Bool) : Option (Shared × Core) :=
  match g.threads t with
  | none => none
  | some th =>
    if th.running then none else
      let cr3 := th.borrowed.getD th.cr3
      some ({g with
          lock := some (c,if th.borrowed.isSome then .loading else .kernel)
          threads := update (stop l.thread g.threads) t (some {th with running := true})
          recorded := update g.recorded c (some cr3)},
        {switchAddressSpace cr3 l with thread := some t, on := on})

def switchKernelTask (c : Nat) (g : Shared) (l : Core) (on : Bool) : Shared × Core :=
  ({g with
      lock := some (c,.kernel)
      threads := stop l.thread g.threads
      recorded := update g.recorded c (some .kernel)},
    {switchAddressSpace .kernel l with thread := none, on := on})

def start (t : Nat) (cr3 : Pml4) (threads : Nat → Option Thread) : Option (Nat → Option Thread) :=
  if (threads t).isSome then none else some (update threads t (some ⟨cr3,none,.kernel,false⟩))

/-- load_program up to the first page of the new space: that space is loaded, the CPU's record is
left as it is. -/
def load (c : Nat) (g : Shared) (l : Core) : Option (Shared × Core) :=
  match l.thread with
  | none => none
  | some t => (g.threads t).map fun th =>
    ({g with
        lock := some (c,.loading)
        spaces := g.spaces + 1
        tables := update g.tables (.user g.spaces) fun _ => none
        threads := update g.threads t
          (some {th with borrowed := some (.user g.spaces), prev := l.loaded})},
      switchAddressSpace (.user g.spaces) l)

/-- The end of load_program: back to `prev`, again without a word to the CPU's record. The new
space is the one of a new thread, or of nobody. -/
def finish (c : Nat) (g : Shared) (l : Core) (fresh : Option Nat) : Option (Shared × Core) :=
  match l.thread with
  | none => none
  | some t =>
    match g.threads t with
    | none => none
    | some th =>
      match th.borrowed with
      | none => none
      | some cr3 =>
        let threads := update g.threads t (some {th with borrowed := none})
        (match fresh with
          | none => some threads
          | some t => start t cr3 threads).map fun threads =>
        ({g with lock := some (c,.kernel), threads := threads},switchAddressSpace th.prev l)

def mapUserPage (g : Shared) (l : Core) (page frame : Nat) : Option (Shared × Core) :=
  if l.loaded ≠ .kernel ∧ g.tables l.loaded page = none ∧ g.free frame then
    some ({g with
        tables := update g.tables l.loaded (update (g.tables l.loaded) page (some frame))
        free := update g.free frame false},
      {l with tlb := update l.tlb page none})
  else none

def unmapPage (c : Nat) (g : Shared) (l : Core) (cr3 : Pml4) (page : Nat) (pages freed : List Nat) : Shared × Core :=
  match g.tables l.loaded page with
  | none => ({g with lock := some (c,.releasing cr3 pages freed)},l)
  | some frame =>
    ({g with
        lock := some (c,.releasing cr3 pages (frame :: freed))
        tables := update g.tables l.loaded (update (g.tables l.loaded) page none)
        free := update g.free frame true},
      {l with tlb := update l.tlb page none})

def target (recorded : Nat → Option Pml4) (me : Nat) (cr3 : Pml4) (d : Nat) : Bool :=
  d ≠ me && recorded d = some cr3

def flushTlb (n c : Nat) (g : Shared) (cr3 : Pml4) (freed : List Nat) : Shared :=
  let targets := ((List.range n).filter (target g.recorded c cr3)).length
  if targets = 0 then {g with lock := some (c,.released freed)}
  else {g with lock := some (c,.flushing cr3 0 freed), pending := targets}

def sendVector (c : Nat) (g : Shared) (cr3 : Pml4) (next : Nat) (freed : List Nat) : Shared :=
  {g with
    lock := some (c,.flushing cr3 (next + 1) freed)
    ipi := if target g.recorded c cr3 next then update g.ipi next .sent else g.ipi}

def call (n c : Nat) (g : Shared) (l : Core) : Job → Call → Option (Shared × Core)
  | .kernel, .switchThread t on => switchThread c g l t on
  | .loading, .switchThread t on => switchThread c g l t on
  | .kernel, .switchKernelTask on => some (switchKernelTask c g l on)
  | .loading, .switchKernelTask on => some (switchKernelTask c g l on)
  | .kernel, .create t =>
    match l.thread.bind g.threads with
    | none => none
    | some th => (start t th.cr3 g.threads).map fun threads => ({g with threads := threads},l)
  | .kernel, .exit =>
    match l.thread with
    | none => none
    | some t => some ({g with threads := update g.threads t none},{l with thread := none})
  | .kernel, .load => load c g l
  | .loading, .finish fresh => finish c g l fresh
  | .kernel, .map page frame => mapUserPage g l page frame
  | .loading, .map page frame => mapUserPage g l page frame
  | .kernel, .take frame => if g.free frame then some ({g with free := update g.free frame false},l) else none
  | .loading, .take frame => if g.free frame then some ({g with free := update g.free frame false},l) else none
  | .kernel, .release addr pages =>
    some ({g with lock := some (c,.releasing l.loaded ((List.range pages).map (addr + ·)) [])},l)
  | .releasing cr3 (page :: pages) freed, .unmap => some (unmapPage c g l cr3 page pages freed)
  | .releasing _ [] freed, .flush => some (flushTlb n c g l.loaded freed,l)
  | .flushing cr3 next freed, .send => if next < n then some (sendVector c g cr3 next freed,l) else none
  | .flushing _ next freed, .drain =>
    if n ≤ next ∧ g.pending = 0 then some ({g with lock := some (c,.released freed)},l) else none
  | .released _, .done => some ({g with lock := some (c,.kernel)},l)
  | _, _ => none

/-- A step of CPU `c`, one of `n`. The processor may walk the tables of its space at any time; the
interrupt of flush_tlb is taken where interrupts are on, and its handler takes no lock. -/
def move (n c : Nat) (g : Shared) (l : Core) (a : Action) : Option (Shared × Core) :=
  if n ≤ c then none else
    match a with
    | .fill page => (g.tables l.loaded page).map fun frame =>
      (g,{l with tlb := update l.tlb page (some frame)})
    | .reload =>
      if g.ipi c = .sent ∧ l.on ∧ l.irq = .none then
        some ({g with ipi := update g.ipi c .reloaded},{l with on := false, tlb := fun _ => none})
      else none
    | .report =>
      if g.ipi c = .reloaded then
        some ({g with ipi := update g.ipi c .none, pending := g.pending - 1},{l with on := true})
      else none
    | .entry e =>
      if g.ipi c = .reloaded then none
      else (entry c g.lock l e).map fun out => ({g with lock := out.1},out.2)
    | .call k =>
      match g.lock with
      | some (owner,job) => if owner = c ∧ l.irq = .none ∧ g.ipi c ≠ .reloaded then call n c g l job k else none
      | none => none

abbrev State := Threads Shared Core

def Made (spaces : Nat) : Pml4 → Prop
  | .kernel => True
  | .user id => id < spaces

structure Thread.Made (spaces : Nat) (th : Thread) : Prop where
  own : Tlb.Made spaces th.cr3
  back : Tlb.Made spaces th.prev
  lent : ∀ cr3 ∈ th.borrowed, Tlb.Made spaces cr3

structure Mapped (tables : Pml4 → Nat → Option Nat) (free : Nat → Bool) : Prop where
  kernel : ∀ page, tables .kernel page = none
  used : ∀ cr3 page frame, tables cr3 page = some frame → free frame = false
  once : ∀ a b p q frame, tables a p = some frame → tables b q = some frame → a = b ∧ p = q

/-- The machine as it starts to run threads: the boot CPU has the lock, the other ones have been
started and are about to take it, their interrupts on or off. -/
structure Initial (s : State) : Prop where
  lock : s.shared.lock = some (0,.kernel)
  threads : ∀ t th, s.shared.threads t = some th → th.Made s.shared.spaces
  mapped : Mapped s.shared.tables s.shared.free
  recorded : ∀ c, s.shared.recorded c = none
  ipi : ∀ c, s.shared.ipi c = .none
  mode : ∀ c, (s.locals c).mode = if c = 0 then .inside else .waiting
  irq : ∀ c, (s.locals c).irq = .none
  loaded : ∀ c, (s.locals c).loaded = .kernel
  tlb : ∀ c page, (s.locals c).tlb page = none

/-- A load ends on a CPU whose record still has the space to go back to: it has not slept. -/
def Awake (s : State) : Nat × Action → Prop
  | (c,.call (.finish _)) => ∀ t th, (s.locals c).thread = some t → s.shared.threads t = some th →
    s.shared.recorded c = some th.prev
  | _ => True

def anyRun (_ : State) (_ : Nat × Action) : Prop := True

end SurfaceOS.Cpu.Tlb
