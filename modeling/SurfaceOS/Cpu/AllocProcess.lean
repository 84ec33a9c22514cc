import SurfaceOS.Cpu.Scheduler

/-! The slots that the start of a process takes (`alloc_process`, cpu/process.cpp), and what a start
that fails gives back of them. -/
namespace SurfaceOS.Cpu.Start
open Function List

def maxProcesses : Nat := 64

def maxThreads : Nat := 128

def maxProcObjs : Nat := maxProcesses * 2

structure Process where
  state : PState
  pid : Nat
  obj : Option Nat

/-- `kstack` is the slot's kernel stack, which stays with the slot; 0 for none. -/
structure Thread where
  state : TState
  proc : Option Nat
  kstack : Nat

def Process.free (p : Process) : Bool := p.state = .unused ∧ p.pid = 0

def Thread.free (t : Thread) : Bool := t.state = .unused ∧ t.proc = none

/-- `used` are the marks of `proc_objs`. -/
structure Tables where
  table : Nat → Process
  threads : Nat → Thread
  used : Nat → Bool
  nextPid : Nat
  started : 0 < nextPid

namespace Tables

/-- The first free slot of the threads, with a kernel stack; `frames` is what `pmm::alloc_frames`
returns if it has to be asked. -/
def allocThread (s : Tables) (p frames : Nat) : Option Nat × Tables :=
  match (range maxThreads).find? fun i => (s.threads i).free with
  | none => (none,s)
  | some i =>
    let ks := (s.threads i).kstack
    if ks = 0 ∧ frames = 0 then (none,{s with threads := update s.threads i ⟨.unused,none,0⟩})
    else (some i,{s with threads := update s.threads i ⟨.unused,some p,if ks = 0 then frames else ks⟩})

def freeThread (s : Tables) (t : Nat) : Tables :=
  {s with threads := update s.threads t {s.threads t with state := .unused, proc := none}}

def procObjNew (s : Tables) : Option Nat := (range maxProcObjs).find? fun i => !s.used i

def allocProcess (s : Tables) (frames : Nat) : Option Nat × Tables :=
  match (range maxProcesses).find? fun i => (s.table i).free with
  | none => (none,s)
  | some i =>
    match allocThread {s with table := update s.table i ⟨.unused,0,none⟩} i frames with
    | (none,s) => (none,s)
    | (some t,s) =>
      let made : Tables := {s with
        table := update s.table i ⟨.unused,s.nextPid,none⟩
        nextPid := if s.nextPid + 1 < 2^31 then s.nextPid + 1 else 1
        started := by split <;> omega}
      match s.procObjNew with
      | none => (none,made.freeThread t)
      | some o => (some i,{made with
          table := update s.table i ⟨.unused,s.nextPid,some o⟩, used := update s.used o true})

def starts (s : Tables) : List Nat → Tables
  | [] => s
  | frames :: rest => (s.allocProcess frames).2.starts rest

def AllFail (s : Tables) : List Nat → Prop
  | [] => True
  | frames :: rest => (s.allocProcess frames).1 = none ∧ (s.allocProcess frames).2.AllFail rest

/-- The free slots, the pids of the table, the stacks of the threads in use and the objects are the
same; a stack that a free slot keeps is there for the next thread. -/
structure AsAvailable (s t : Tables) : Prop where
  slots : ∀ i, (t.table i).free = (s.table i).free
  pids : ∀ i, (t.table i).pid = (s.table i).pid
  threads : ∀ i, (t.threads i).free = (s.threads i).free
  kstacks : ∀ i, (s.threads i).free = false → (t.threads i).kstack = (s.threads i).kstack
  objects : t.used = s.used

/-- A slot and a thread with a stack can be had, but all the objects are in use. -/
def Spills (s : Tables) (frames : Nat) : Prop :=
  (∃ i < maxProcesses, (s.table i).free) ∧
    (∃ i, ((range maxThreads).find? fun i => (s.threads i).free) = some i ∧
      ((s.threads i).kstack ≠ 0 ∨ frames ≠ 0)) ∧ ∀ o < maxProcObjs, s.used o

def NoneSpills (s : Tables) : List Nat → Prop
  | [] => True
  | frames :: rest => ¬ s.Spills frames ∧ (s.allocProcess frames).2.NoneSpills rest

variable {s t u : Tables}

theorem AsAvailable.trans (first : AsAvailable s t) (second : AsAvailable t u) : AsAvailable s u where
  slots i := (second.slots i).trans (first.slots i)
  pids i := (second.pids i).trans (first.pids i)
  threads i := (second.threads i).trans (first.threads i)
  kstacks i inUse := (second.kstacks i ((first.threads i).trans inUse)).trans (first.kstacks i inUse)
  objects := second.objects.trans first.objects

theorem AsAvailable.symm (same : AsAvailable s t) : AsAvailable t s where
  slots i := (same.slots i).symm
  pids i := (same.pids i).symm
  threads i := (same.threads i).symm
  kstacks i inUse := (same.kstacks i ((same.threads i).symm.trans inUse)).symm
  objects := same.objects.symm

theorem find_free {α : Type} {free : α → Bool} {slots : Nat → α} {n i : Nat}
    (found : ((range n).find? fun i => free (slots i)) = some i) : i < n ∧ free (slots i) :=
  ⟨mem_range.mp (mem_of_find?_eq_some found),find?_some (p := fun i => free (slots i)) found⟩

theorem AsAvailable.cleared {i : Nat} (free : (s.table i).free) (table : t.table = update s.table i ⟨.unused,0,none⟩)
    (threads : ∀ j, t.threads j = s.threads j ∨ (s.threads j).free ∧ (t.threads j).free) (used : t.used = s.used) :
    AsAvailable s t := by
  have slot (j : Nat) : (t.table j).free = (s.table j).free ∧ (t.table j).pid = (s.table j).pid := by
    rw [table]
    by_cases here : j = i
    · subst here
      rw [update_self]
      exact ⟨free.symm,(of_decide_eq_true free).2.symm⟩
    · rw [update_of_ne here]
      exact ⟨rfl,rfl⟩
  refine ⟨fun j => (slot j).1,fun j => (slot j).2,fun j => ?_,fun j inUse => ?_,used⟩
  · rcases threads j with same | ⟨before,after⟩
    · rw [same]
    · rw [before,after]
  rcases threads j with same | ⟨before,-⟩
  · rw [same]
  · rw [before] at inUse
    cases inUse

section
variable {frames : Nat} (failed : s.allocProcess frames = (none,t))
include failed

theorem allocProcess_none :
    s.Spills frames ∧ (∃ i, (s.table i).free ∧ t.table = update s.table i ⟨.unused,s.nextPid,none⟩) ∨
      ¬ s.Spills frames ∧ AsAvailable s t := by
  unfold allocProcess allocThread at failed
  split at failed
  · next none =>
    cases failed
    refine .inr ⟨fun ⟨⟨i,bound,free⟩,_⟩ => ?_,⟨fun _ => rfl,fun _ => rfl,fun _ => rfl,fun _ _ => rfl,rfl⟩⟩
    exact absurd free (find?_eq_none.mp none i (mem_range.mpr bound))
  rename_i i found
  obtain ⟨bound,free⟩ := find_free found
  cases first : (range maxThreads).find? fun j => (s.threads j).free with
  | none =>
    simp only [first] at failed
    cases failed
    refine .inr ⟨fun ⟨_,⟨j,its,_⟩,_⟩ => ?_,.cleared free rfl (fun _ => .inl rfl) rfl⟩
    rw [first] at its
    cases its
  | some j =>
    obtain ⟨-,empty⟩ := find_free first
    simp only [first] at failed
    by_cases without : (s.threads j).kstack = 0 ∧ frames = 0
    · simp only [without] at failed
      cases failed
      refine .inr ⟨fun ⟨_,⟨k,its,stack⟩,_⟩ => ?_,.cleared free rfl (fun k => ?_) rfl⟩
      · cases first.symm.trans its
        tauto
      by_cases here : k = j
      · subst here
        exact .inr ⟨empty,by simp [Thread.free]⟩
      · exact .inl (update_of_ne here ..)
    · rw [if_neg without] at failed
      dsimp only at failed
      split at failed
      · next full =>
        cases failed
        refine .inl ⟨⟨⟨i,bound,free⟩,⟨j,first,by tauto⟩,fun o inside => ?_⟩,i,free,update_idem ..⟩
        simpa using find?_eq_none.mp full o (mem_range.mpr inside)
      · cases failed

theorem allocProcess_shrinks {i : Nat} (free : (t.table i).free) : (s.table i).free := by
  rcases allocProcess_none failed with ⟨-,j,was,table⟩ | ⟨-,same⟩
  · by_cases here : i = j
    · exact here ▸ was
    · rwa [table,update_of_ne here] at free
  · exact (same.slots i).symm.trans free

end

theorem starts_shrinks {kstacks : List Nat} (failed : s.AllFail kstacks) {i : Nat}
    (free : ((s.starts kstacks).table i).free) : (s.table i).free := by
  induction kstacks generalizing s with
  | nil => exact free
  | cons frames rest ih => exact allocProcess_shrinks (Prod.ext failed.1 rfl) (ih failed.2 free)

/-- After any number of starts that fail all is as available as before exactly when none of them
found a slot and a thread and then no object. -/
theorem failed_starts_iff (s : Tables) (kstacks : List Nat) (failed : s.AllFail kstacks) :
    AsAvailable s (s.starts kstacks) ↔ s.NoneSpills kstacks := by
  induction kstacks generalizing s with
  | nil => exact ⟨fun _ => trivial,fun _ => ⟨fun _ => rfl,fun _ => rfl,fun _ => rfl,fun _ _ => rfl,rfl⟩⟩
  | cons frames rest ih =>
    have later := ih _ failed.2
    rcases allocProcess_none (Prod.ext failed.1 rfl) with ⟨spills,i,free,table⟩ | ⟨clean,same⟩
    · refine ⟨fun all => ?_,fun none => absurd spills none.1⟩
      have still := starts_shrinks failed.2 ((all.slots i).trans free)
      rw [table,update_self] at still
      exact absurd (of_decide_eq_true still).2 (Nat.ne_of_gt s.started)
    · exact ⟨fun all => ⟨clean,later.mp (same.symm.trans all)⟩,fun none => same.trans (later.mpr none.2)⟩

def idle (full : Bool) : Tables := ⟨fun _ => ⟨.unused,0,none⟩,fun _ => ⟨.unused,none,0⟩,fun _ => full,1,by decide⟩

theorem failed_starts_iff_idle : (idle false).AllFail [0] ∧ AsAvailable (idle false) ((idle false).starts [0]) := by
  have failed : (idle false).AllFail [0] := ⟨by decide +kernel,trivial⟩
  refine ⟨failed,(failed_starts_iff _ _ failed).mpr ⟨fun ⟨_,⟨_,_,stack⟩,_⟩ => ?_,trivial⟩⟩
  rcases stack with kept | given
  · exact kept rfl
  · exact given rfl

/-- With all objects in use one start is enough to lose a slot. -/
theorem not_every_failed_start_harmless : ¬ ∀ s frames t, allocProcess s frames = (none,t) → AsAvailable s t := by
  intro always
  have same := (always (idle true) 1 _ (Prod.ext (by decide +kernel) rfl)).slots 0
  revert same
  decide +kernel

end Tables
end SurfaceOS.Cpu.Start
