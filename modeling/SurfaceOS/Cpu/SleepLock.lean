import Mathlib.Algebra.BigOperators.Group.Finset.Basic
import SurfaceOS.Cpu.Schedulable

/-! Sleep locks under any interleaving of the threads that take, retake, release and pass them. The
tickets from the one behind the owner's to the last one given out are the waiting threads', each
its own; a lock goes to the first of them. -/
namespace SurfaceOS.Cpu
open Lib Function List Option Nat

variable {m ticket v : Nat}

/-- The calls of thread `t`; `retry` is a waiting thread that was woken. -/
inductive LockCall
  | lock (t l : Nat) (canSleep : Bool)
  | unlock (t l : Nat)
  | pass (t l : Nat) (canSleep : Bool)
  | retry (t : Nat)

variable {a : LockCall}

/-- A thread makes a call when it does not wait, and releases what it has taken. -/
def lockStep (s : State) : LockCall → Option State
  | .lock t l canSleep => if (s.threads t).waits = none then some (lock s t l canSleep) else none
  | .unlock t l =>
    if (s.threads t).waits = none ∧ l ∈ (s.threads t).held then some (unlock s t l) else none
  | .pass t l canSleep => if (s.threads t).waits = none then some (pass s t l canSleep) else none
  | .retry t => (s.threads t).waits.map fun w => waitTurn s t w.1 w.2

def LockStep (s : State) (a : LockCall) (u : State) : Prop := lockStep s a = some u

structure Role where
  held : List Nat
  waits : Option (Nat × Nat)
  passing : Bool
  holds : Nat

def Thread.role (b : Thread) : Role := ⟨b.held,b.waits,b.passing,b.holds⟩

def State.roles (s : State) (t : Nat) : Role := (s.threads t).role

def Idle (s : State) : Prop :=
  (∀ t, s.roles t = ⟨[],none,false,0⟩) ∧
    ∀ l, (s.locks l).owner = none ∧ (s.locks l).depth = 0 ∧ (s.locks l).next = (s.locks l).serving

def SleepLock.first (k : SleepLock) : Nat := k.serving + if k.depth = 0 then 0 else 1

structure Queue (l : Nat) (roles : Nat → Role) (k : SleepLock) : Prop where
  range : ∀ t j, (roles t).waits = some (l,j) → k.first ≤ j ∧ j < k.next
  distinct : ∀ t u j, (roles t).waits = some (l,j) → (roles u).waits = some (l,j) → t = u
  complete : ∀ j, k.first ≤ j → j < k.next → ∃ t, (roles t).waits = some (l,j)
  room : k.first ≤ k.next

structure Fair (roles : Nat → Role) (locks : Nat → SleepLock) : Prop where
  owned : ∀ l t, (roles t).held.count l = if (locks l).owner = some t then (locks l).depth else 0
  free : ∀ l, (locks l).owner = none ↔ (locks l).depth = 0
  counted : ∀ t, (roles t).holds = (roles t).held.length + (roles t).waits.isSome.toNat + (roles t).passing.toNat
  passing : ∀ t, (roles t).waits = none → (roles t).passing = false
  queue : ∀ l, Queue l roles (locks l)

variable {roles : Nat → Role} {locks : Nat → SleepLock} {t l : Nat} {r : Role} {k : SleepLock}

section
variable (queue : Queue l roles k)
include queue

theorem Queue.ask (idle : (roles t).waits = none) (waits : r.waits = some (l,k.next)) :
    Queue l (update roles t r) {k with next := k.next + 1} := by
  have old : ∀ u j, (update roles t r u).waits = some (l,j) →
      u = t ∧ j = k.next ∨ u ≠ t ∧ (roles u).waits = some (l,j) := by
    intro u j here
    rcases eq_or_ne u t with rfl | same
    · rw [update_self,waits] at here
      exact .inl ⟨rfl,(Prod.mk.inj (some.inj here)).2.symm⟩
    · rw [update_of_ne same] at here
      exact .inr ⟨same,here⟩
  refine ⟨fun u j here => ?_,fun u v j first second => ?_,fun j low high => ?_,?_⟩
  · show k.first ≤ j ∧ j < k.next + 1
    have room := queue.room
    rcases old u j here with ⟨_,rfl⟩ | ⟨_,before⟩
    · omega
    · have range := queue.range u j before
      omega
  · rcases old u j first with ⟨rfl,rfl⟩ | ⟨_,before⟩
    · rcases old v k.next second with ⟨rfl,_⟩ | ⟨_,beyond⟩
      · rfl
      · exact absurd (queue.range v _ beyond).2 (lt_irrefl _)
    · rcases old v j second with ⟨_,rfl⟩ | ⟨_,also⟩
      · exact absurd (queue.range u _ before).2 (lt_irrefl _)
      · exact queue.distinct u v j before also
  · change k.first ≤ j at low
    change j < k.next + 1 at high
    rcases lt_or_ge j k.next with inside | last
    · obtain ⟨u,here⟩ := queue.complete j low inside
      refine ⟨u,?_⟩
      rw [update_of_ne,here]
      rintro rfl
      rw [idle] at here
      cases here
    · obtain rfl : j = k.next := by omega
      exact ⟨t,by rw [update_self,waits]⟩
  · exact le_succ_of_le queue.room

theorem Queue.take (turn : (roles t).waits = some (l,k.serving)) (empty : k.depth = 0) (waits : r.waits = none) :
    Queue l (update roles t r) {k with owner := some t, depth := 1} := by
  have before : k.first = k.serving := by rw [SleepLock.first,if_pos empty]; rfl
  have old : ∀ u j, (update roles t r u).waits = some (l,j) → u ≠ t ∧ (roles u).waits = some (l,j) := by
    intro u j here
    rcases eq_or_ne u t with rfl | same
    · rw [update_self,waits] at here
      cases here
    · rw [update_of_ne same] at here
      exact ⟨same,here⟩
  refine ⟨fun u j here => ?_,fun u v j first second => ?_,fun j low high => ?_,?_⟩
  · show k.serving + 1 ≤ j ∧ j < k.next
    obtain ⟨other,waiting⟩ := old u j here
    have range := queue.range u j waiting
    have later : j ≠ k.serving := by
      rintro rfl
      exact other (queue.distinct u t _ waiting turn)
    omega
  · exact queue.distinct u v j (old u j first).2 (old v j second).2
  · change k.serving + 1 ≤ j at low
    obtain ⟨u,here⟩ := queue.complete j (by omega) high
    refine ⟨u,?_⟩
    rw [update_of_ne,here]
    rintro rfl
    rw [turn] at here
    have same := (Prod.mk.inj (some.inj here)).2
    omega
  · show k.serving + 1 ≤ k.next
    exact (queue.range t _ turn).2

theorem Queue.same {now : SleepLock} (waits : ∀ j, r.waits = some (l,j) ↔ (roles t).waits = some (l,j))
    (first : now.first = k.first) (next : now.next = k.next) : Queue l (update roles t r) now := by
  have old : ∀ u j, (update roles t r u).waits = some (l,j) ↔ (roles u).waits = some (l,j) := by
    intro u j
    rcases eq_or_ne u t with rfl | same
    · rw [update_self,waits]
    · rw [update_of_ne same]
  refine ⟨fun u j here => ?_,fun u v j one two => ?_,fun j low high => ?_,?_⟩
  · rw [first,next]
    exact queue.range u j ((old u j).mp here)
  · exact queue.distinct u v j ((old u j).mp one) ((old v j).mp two)
  · rw [first] at low
    rw [next] at high
    obtain ⟨u,here⟩ := queue.complete j low high
    exact ⟨u,(old u j).mpr here⟩
  · rw [first,next]
    exact queue.room

end

def SleepLock.released (k : SleepLock) : SleepLock :=
  if k.depth - 1 = 0 then {k with owner := none, depth := 0, serving := k.serving + 1}
  else {k with depth := k.depth - 1}

section
variable (fair : Fair roles locks)
include fair

theorem Fair.change (held : ∀ m, m ≠ l → r.held.count m = (roles t).held.count m)
    (mine : r.held.count l = if k.owner = some t then k.depth else 0)
    (yours : ∀ u, u ≠ t → (roles u).held.count l = if k.owner = some u then k.depth else 0)
    (free : k.owner = none ↔ k.depth = 0) (counted : r.holds = r.held.length + r.waits.isSome.toNat + r.passing.toNat)
    (passing : r.waits = none → r.passing = false)
    (away : ∀ m j, m ≠ l → (r.waits = some (m,j) ↔ (roles t).waits = some (m,j)))
    (queue : Queue l (update roles t r) k) : Fair (update roles t r) (update locks l k) := by
  refine ⟨fun m u => ?_,fun m => ?_,fun u => ?_,fun u => ?_,fun m => ?_⟩
  · rcases eq_or_ne u t with rfl | here <;> rcases eq_or_ne m l with rfl | same
    · rw [update_self,update_self]
      exact mine
    · rw [update_self,update_of_ne same,held m same]
      exact fair.owned m u
    · rw [update_of_ne here,update_self]
      exact yours u here
    · rw [update_of_ne here,update_of_ne same]
      exact fair.owned m u
  · rw [update_apply]
    split
    · exact free
    · exact fair.free m
  · rw [update_apply]
    split
    · exact counted
    · exact fair.counted u
  · rw [update_apply]
    split
    · exact passing
    · exact fair.passing u
  · rcases eq_or_ne m l with rfl | same
    · rw [update_self]
      exact queue
    · rw [update_of_ne same]
      exact (fair.queue m).same (fun j => away m j same) rfl rfl

theorem Fair.depth_of_owner (mine : (locks l).owner = some t) : (locks l).depth ≠ 0 := by
  intro zero
  rw [(fair.free l).mpr zero] at mine
  cases mine

theorem Fair.owner_of_mem (held : l ∈ (roles t).held) : (locks l).owner = some t := by
  have positive : 0 < (roles t).held.count l := count_pos_iff.mpr held
  by_contra other
  rw [fair.owned,if_neg other] at positive
  exact absurd positive (lt_irrefl 0)

theorem Fair.again (mine : (locks l).owner = some t) :
    Fair (update roles t {roles t with held := l :: (roles t).held, holds := (roles t).holds + 1})
      (update locks l {locks l with depth := (locks l).depth + 1}) := by
  have deep := fair.depth_of_owner mine
  refine fair.change (fun m other => ?_) ?_ (fun u other => ?_) ?_ ?_ ?_ (fun m j _ => Iff.rfl) ?_
  · exact count_cons_of_ne (Ne.symm other)
  · rw [count_cons_self,fair.owned,if_pos mine]
    exact (if_pos mine).symm
  · have away : (locks l).owner ≠ some u := by
      rw [mine]
      exact fun same => other (some.inj same).symm
    rw [fair.owned,if_neg away]
    exact (if_neg away).symm
  · rw [mine]
    simp
  · have counted := fair.counted t
    rw [length_cons]
    dsimp only
    omega
  · exact fair.passing t
  · refine (fair.queue l).same (fun j => Iff.rfl) ?_ rfl
    rw [SleepLock.first,SleepLock.first,if_neg (succ_ne_zero _),if_neg deep]

theorem Fair.ask (idle : (roles t).waits = none) (passing : Bool) : Fair (update roles t {roles t with
        waits := some (l,(locks l).next), passing := passing, holds := (roles t).holds + 1 + passing.toNat})
      (update locks l {locks l with next := (locks l).next + 1}) := by
  refine fair.change (fun m _ => rfl) (fair.owned l t) (fun u _ => fair.owned l u) (fair.free l) ?_ nofun
    (fun m j other => ?_) ((fair.queue l).ask idle rfl)
  · have counted := fair.counted t
    rw [idle,fair.passing t idle] at counted
    simp only [isSome_none,Bool.toNat_false,isSome_some,Bool.toNat_true] at counted ⊢
    omega
  · rw [idle]
    refine iff_of_false (fun same => ?_) nofun
    exact other (Prod.mk.inj (some.inj same)).1.symm

theorem Fair.take (turn : (roles t).waits = some (l,(locks l).serving)) (empty : (locks l).depth = 0) :
    Fair (update roles t {roles t with
        held := l :: (roles t).held, waits := none, passing := false
        holds := (roles t).holds - (roles t).passing.toNat})
      (update locks l {locks l with owner := some t, depth := 1}) := by
  have nobody : ∀ u, (roles u).held.count l = 0 := by
    intro u
    rw [fair.owned,empty,ite_self]
  refine fair.change (fun m other => ?_) ?_ (fun u other => ?_) ?_ ?_ (fun _ => rfl) (fun m j other => ?_)
    ((fair.queue l).take turn empty rfl)
  · exact count_cons_of_ne (Ne.symm other)
  · rw [count_cons_self,nobody,if_pos rfl]
  · rw [nobody,if_neg fun same => other (some.inj same).symm]
  · simp
  · have counted := fair.counted t
    rw [turn] at counted
    simp only [isSome_some,Bool.toNat_true,length_cons,isSome_none,Bool.toNat_false] at counted ⊢
    omega
  · rw [turn]
    refine iff_of_false nofun fun same => ?_
    exact other (Prod.mk.inj (some.inj same)).1.symm

theorem Fair.release (held : l ∈ (roles t).held) : Fair (update roles t {roles t with
        held := (roles t).held.erase l, holds := (roles t).holds - 1})
      (update locks l (locks l).released) := by
  have mine := fair.owner_of_mem held
  have deep := fair.depth_of_owner mine
  have count := fair.owned l t
  rw [if_pos mine] at count
  have away : ∀ u, u ≠ t → (roles u).held.count l = 0 := by
    intro u other
    rw [fair.owned,mine,if_neg fun same => other (some.inj same).symm]
  have counted : (roles t).holds - 1 = ((roles t).held.erase l).length + (roles t).waits.isSome.toNat +
      (roles t).passing.toNat := by
    have counted := fair.counted t
    have length := length_erase_of_mem held
    have some := length_pos_of_mem held
    omega
  have rest : ∀ m, m ≠ l → ((roles t).held.erase l).count m = (roles t).held.count m :=
    fun m other => count_erase_of_ne other
  unfold SleepLock.released
  split
  · next last =>
    refine fair.change rest ?_ (fun u other => ?_) (by simp) counted (fair.passing t) (fun m j _ => Iff.rfl)
      ((fair.queue l).same (fun j => Iff.rfl) ?_ rfl)
    · rw [count_erase_self,count,last]
      rfl
    · rw [away u other]
      rfl
    · rw [SleepLock.first,SleepLock.first,if_pos rfl,if_neg deep]
  · next more =>
    refine fair.change rest ?_ (fun u other => ?_) ?_ counted (fair.passing t) (fun m j _ => Iff.rfl)
      ((fair.queue l).same (fun j => Iff.rfl) ?_ rfl)
    · rw [count_erase_self,count,if_pos mine]
    · rw [away u other,mine,if_neg fun same => other (some.inj same).symm]
    · rw [mine]
      exact iff_of_false nofun more
    · rw [SleepLock.first,SleepLock.first,if_neg more,if_neg deep]

end

variable {s u : State}

def asked (s : State) (t l : Nat) : State :=
  (s.setLock l {s.locks l with next := (s.locks l).next + 1}).setThread t
    {s.threads t with holds := (s.threads t).holds + 1, waits := some (l,(s.locks l).next)}

section
variable (s)

theorem setThread_roles (t : Nat) (b : Thread) : (s.setThread t b).roles = update s.roles t b.role := by
  funext v
  rw [State.roles,setThread_threads,update_apply]
  split <;> rfl

theorem wakeWaiters_roles (l : Nat) : (wakeWaiters s l).roles = s.roles := by
  funext v
  unfold State.roles wakeWaiters
  dsimp only
  split <;> rfl

theorem fallAsleep_roles (t tick : Nat) : (fallAsleep s t tick).roles = s.roles := by
  rw [fallAsleep,setThread_roles]
  exact update_eq_self t s.roles

theorem asked_waits (t l : Nat) : ((asked s t l).threads t).waits = some (l,(s.locks l).next) := by
  rw [asked,setThread_threads,if_pos rfl]

theorem asked_roles (t l : Nat) : (asked s t l).roles = update s.roles t
    {s.roles t with holds := (s.roles t).holds + 1, waits := some (l,(s.locks l).next)} :=
  setThread_roles ..

theorem asked_locks (t l m : Nat) : (asked s t l).locks m =
    if m = l then {s.locks l with next := (s.locks l).next + 1} else s.locks m :=
  setLock_locks ..

theorem queueUp_eq (t l : Nat) : queueUp s t l = waitTurn (asked s t l) t l (s.locks l).next := rfl

end

theorem Fair.waitsTurn (fair : Fair s.roles s.locks) (waits : (s.threads t).waits = some (l,ticket)) :
    Fair (waitTurn s t l ticket).roles (waitTurn s t l ticket).locks := by
  unfold waitTurn
  split
  · next turn =>
    simp only [myTurn,decide_eq_true_eq] at turn
    have taken := fair.take (t := t) (l := l) (by rw [turn.2]; exact waits) turn.1
    rw [takeLock,setThread_roles]
    exact taken
  · rw [fallAsleep_roles]
    exact fair

theorem Fair.takes (fair : Fair s.roles s.locks) (idle : (s.threads t).waits = none) (canSleep : Bool) :
    Fair (lock s t l canSleep).roles (lock s t l canSleep).locks := by
  unfold lock
  dsimp only
  split
  · next mine =>
    rw [setThread_roles]
    exact fair.again mine.2
  split
  · exact fair
  rw [queueUp_eq]
  refine Fair.waitsTurn ?_ (asked_waits s t l)
  have ask := fair.ask (t := t) (l := l) idle false
  have clear : (s.roles t).passing = false := fair.passing t idle
  rw [asked_roles]
  rw [← clear] at ask
  rwa [show (s.roles t).holds + 1 + (s.roles t).passing.toNat = (s.roles t).holds + 1 by rw [clear]; rfl] at ask

theorem unlock_roles (mine : (s.locks l).owner = some t) : (unlock s t l).roles =
      update s.roles t {s.roles t with
        held := (s.roles t).held.erase l, holds := (s.roles t).holds - 1} ∧
    (unlock s t l).locks = update s.locks l (s.locks l).released := by
  rw [unlock_eq mine]
  unfold SleepLock.released
  split
  · exact ⟨(wakeWaiters_roles ..).trans (setThread_roles ..),rfl⟩
  · exact ⟨setThread_roles ..,rfl⟩

section
variable (fair : Fair s.roles s.locks)
include fair

theorem Fair.unlocks (held : l ∈ (s.threads t).held) : Fair (unlock s t l).roles (unlock s t l).locks := by
  obtain ⟨roles,locks⟩ := unlock_roles (fair.owner_of_mem (t := t) held)
  rw [roles,locks]
  exact fair.release held

theorem Fair.passes (idle : (s.threads t).waits = none) (canSleep : Bool) :
    Fair (pass s t l canSleep).roles (pass s t l canSleep).locks := by
  unfold pass
  dsimp only
  split
  · exact fair
  rename_i going
  simp only [not_or,not_not] at going
  obtain ⟨mine,once,_⟩ := going
  have held : l ∈ (s.roles t).held := by
    rw [← count_pos_iff,fair.owned,if_pos mine,once]
    exact one_pos
  have some : 1 ≤ (s.roles t).holds := by
    have counted := fair.counted t
    have length := length_pos_of_mem held
    omega
  generalize mark : s.setThread t {s.threads t with holds := (s.threads t).holds + 1, passing := true} = marked
  have markedRoles : marked.roles = update s.roles t
      {s.roles t with holds := (s.roles t).holds + 1, passing := true} := by
    rw [← mark]
    exact setThread_roles ..
  have markedLocks : marked.locks = s.locks := by
    rw [← mark]
    rfl
  obtain ⟨roles,locks⟩ := unlock_roles (s := marked) (t := t) (l := l) (by rw [markedLocks]; exact mine)
  have ask := (fair.release held).ask (t := t) (l := l)
    (by rw [update_self]; exact idle) true
  rw [queueUp_eq]
  refine Fair.waitsTurn ?_ (asked_waits ..)
  rw [asked_roles]
  have same : (asked (unlock marked t l) t l).locks = update (unlock marked t l).locks l
    {(unlock marked t l).locks l with next := ((unlock marked t l).locks l).next + 1} := rfl
  rw [same,roles,locks,markedRoles,markedLocks]
  simp only [update_self,update_idem] at ask ⊢
  have holds : (s.roles t).holds + 1 - 1 + 1 = (s.roles t).holds - 1 + 1 + Bool.toNat true := by
    rw [Bool.toNat_true]
    omega
  rw [holds]
  exact ask

theorem Fair.steps (moved : LockStep s a u) : Fair u.roles u.locks := by
  cases a with
  | lock t l canSleep =>
    obtain ⟨idle,⟨⟩⟩ := ite_none_right_eq_some.mp moved
    exact fair.takes idle canSleep
  | unlock t l =>
    obtain ⟨held,⟨⟩⟩ := ite_none_right_eq_some.mp moved
    exact fair.unlocks held.2
  | pass t l canSleep =>
    obtain ⟨idle,⟨⟩⟩ := ite_none_right_eq_some.mp moved
    exact fair.passes idle canSleep
  | retry t =>
    obtain ⟨w,waits,rfl⟩ := map_eq_some_iff.mp moved
    exact fair.waitsTurn waits

end

theorem waitTurn_owner (now : ((waitTurn s t l ticket).locks m).owner = some v) :
    (s.locks m).owner = some v ∨ m = l ∧ v = t ∧ myTurn s l ticket := by
  unfold waitTurn at now
  split at now
  · next turn =>
    change ((s.setLock l {s.locks l with owner := some t, depth := 1}).locks m).owner = some v at now
    rw [setLock_locks] at now
    split at now
    · next here => exact .inr ⟨here,(some.inj now).symm,turn⟩
    · exact .inl now
  · exact .inl now

theorem queueUp_owner (now : ((queueUp s t l).locks m).owner = some v) :
    (s.locks m).owner = some v ∨ m = l ∧ v = t ∧ (s.locks l).depth = 0 ∧ (s.locks l).serving = (s.locks l).next := by
  rw [queueUp_eq] at now
  rcases waitTurn_owner now with old | ⟨here,same,turn⟩
  · left
    rw [asked_locks] at old
    split at old
    · next here => exact here ▸ old
    · exact old
  · simp only [myTurn,decide_eq_true_eq,asked_locks] at turn
    exact .inr ⟨here,same,turn⟩

theorem Fair.in_turn (fair : Fair s.roles s.locks) (moved : LockStep s a u)
    (before : (s.locks l).owner ≠ some t) (now : (u.locks l).owner = some t) {j : Nat}
    (waiting : (s.threads v).waits = some (l,j)) (other : v ≠ t) : ∃ k, (s.threads t).waits = some (l,k) ∧ k < j := by
  have queue := fair.queue l
  have range := queue.range v j waiting
  -- nobody waits for a lock whose next ticket is being served
  have busy : ¬ ((s.locks l).depth = 0 ∧ (s.locks l).serving = (s.locks l).next) := by
    rintro ⟨empty,last⟩
    rw [SleepLock.first] at range
    omega
  have releases {b : State} {c m : Nat} (mine : (b.locks m).owner = some c) (same : b.locks = s.locks)
      (now : ((unlock b c m).locks l).owner = some t) : False := by
    rw [(unlock_roles mine).2,same,update_apply] at now
    grind [SleepLock.released]
  revert moved
  unfold LockStep
  fun_cases lockStep s a with
  | case1 c m canSleep =>
    rintro ⟨⟩
    revert now
    fun_cases lock s c m canSleep with
    | case1 =>
      simp only [State.setThread,State.setLock,update_apply]
      grind
    | case2 => exact fun now => absurd now before
    | case3 =>
      intro now
      rcases queueUp_owner now with old | ⟨rfl,_,free⟩
      · exact absurd old before
      · exact absurd free busy
  | case3 c m held =>
    rintro ⟨⟩
    exact (releases (fair.owner_of_mem (t := c) held.2) rfl now).elim
  | case5 c m canSleep =>
    rintro ⟨⟩
    revert now
    fun_cases pass s c m canSleep with
    | case1 => exact fun now => absurd now before
    | case2 k going marked =>
      simp only [not_or,not_not] at going
      have mine : (marked.locks m).owner = some c := going.1
      intro now
      rcases queueUp_owner now with old | ⟨rfl,_,_,turn⟩
      · exact (releases mine rfl old).elim
      · rw [(unlock_roles mine).2,update_self] at turn
        grind [SleepLock.released,State.setThread]
  | case7 c =>
    intro moved
    obtain ⟨⟨m,k⟩,waits,rfl⟩ := map_eq_some_iff.mp moved
    rcases waitTurn_owner now with old | ⟨rfl,rfl,turn⟩
    · exact absurd old before
    simp only [myTurn,decide_eq_true_eq] at turn
    refine ⟨k,waits,?_⟩
    rw [SleepLock.first,if_pos turn.1,turn.2] at range
    refine lt_of_le_of_ne range.1 fun same => other ?_
    subst same
    exact queue.distinct v t k waiting waits
  | _ => rintro ⟨⟩

theorem fair_everywhere (reached : Reach Idle (fun _ _ => True) LockStep s) : Fair s.roles s.locks := by
  refine Reach.invariant (fun s : State => Fair s.roles s.locks) (fun s idle => ?_)
    (fun s a u fair _ moved => fair.steps moved) s reached
  obtain ⟨roles,locks⟩ := idle
  refine ⟨fun l t => ?_,fun l => ?_,fun t => ?_,fun t _ => ?_,fun l => ⟨fun t j here => ?_,fun t v j here => ?_,?_,?_⟩⟩
  · rw [roles t,(locks l).2.1,ite_self]
    rfl
  · rw [(locks l).1,(locks l).2.1]
    simp
  · rw [roles t]
    rfl
  · rw [roles t]
  · rw [roles t] at here
    cases here
  · rw [roles t] at here
    cases here
  · intro j low high
    rw [SleepLock.first] at low
    have same := (locks l).2.2
    omega
  · rw [SleepLock.first,if_pos (locks l).2.1,(locks l).2.2]
    rfl

/-- One owner, tickets in order, the depth that many acquires not yet released, and `holds` the depths
of a thread's locks with one for a lock it waits for and one inside `pass`. -/
theorem sleep_locks_fair (reached : Reach Idle (fun _ _ => True) LockStep s) :
    (∀ l t v, l ∈ (s.threads t).held → l ∈ (s.threads v).held → t = v) ∧
    (∀ l t, (s.locks l).owner = some t → (s.locks l).depth = (s.threads t).held.count l) ∧
    (∀ a u l t, LockStep s a u → (s.locks l).owner ≠ some t → (u.locks l).owner = some t →
      ∀ v j, v ≠ t → (s.threads v).waits = some (l,j) → ∃ k, (s.threads t).waits = some (l,k) ∧ k < j) ∧
    (∀ t, (s.threads t).holds = ∑ l ∈ (s.threads t).held.toFinset, (s.locks l).depth +
      (s.threads t).waits.isSome.toNat + (s.threads t).passing.toNat) ∧
    ∀ t, (s.threads t).waits = none → ((s.threads t).holds = 0 ↔ ∀ l, (s.locks l).owner ≠ some t) := by
  have fair := fair_everywhere reached
  have owner : ∀ l t, (s.locks l).owner = some t → l ∈ (s.threads t).held := by
    intro l t mine
    have count := fair.owned l t
    rw [if_pos mine] at count
    exact count_pos_iff.mp (count ▸ Nat.pos_of_ne_zero (fair.depth_of_owner mine))
  refine ⟨fun l t v first second => ?_,fun l t mine => ?_,fun a u l t moved before now v j other waiting => ?_,
    fun t => ?_,fun t idle => ?_⟩
  · exact some.inj ((fair.owner_of_mem (t := t) first).symm.trans (fair.owner_of_mem (t := v) second))
  · have count := fair.owned l t
    rw [if_pos mine] at count
    exact count.symm
  · exact fair.in_turn moved before now waiting other
  · have depths : ∑ l ∈ (s.threads t).held.toFinset, (s.locks l).depth = (s.threads t).held.length := by
      rw [← sum_toFinset_count_eq_length]
      apply Finset.sum_congr rfl
      intro l member
      have count := fair.owned l t
      rw [if_pos (fair.owner_of_mem (t := t) (mem_toFinset.mp member))] at count
      exact count.symm
    rw [depths]
    exact fair.counted t
  · have counted := fair.counted t
    rw [fair.passing t idle] at counted
    change (s.threads t).holds = (s.threads t).held.length + (s.threads t).waits.isSome.toNat + 0 at counted
    rw [idle] at counted
    constructor
    · intro zero l mine
      have some := length_pos_of_mem (owner l t mine)
      omega
    intro none
    have empty : (s.threads t).held = [] := by
      apply eq_nil_iff_forall_not_mem.mpr
      exact fun l member => none l (fair.owner_of_mem (t := t) member)
    rw [empty] at counted
    exact counted

/-- Thread 0 takes lock 0 twice, releases it once and passes it on; thread 1, which came meanwhile,
gets it, and thread 0 waits inside `pass` with two holds. -/
def passedOn : List LockCall := [.lock 0 0 true,.lock 0 0 true,.lock 1 0 true,.unlock 0 0,.pass 0 0 true,.retry 1]

theorem sleep_locks_fair_passed : ∃ s, execute lockStep booted passedOn = some s ∧
    (s.locks 0).owner = some 1 ∧ (s.threads 0).waits = some (0,2) ∧
    (s.threads 0).holds = ∑ l ∈ (s.threads 0).held.toFinset, (s.locks l).depth +
      (s.threads 0).waits.isSome.toNat + (s.threads 0).passing.toNat := by
  have ran : execute lockStep booted passedOn = some ((execute lockStep booted passedOn).getD booted) := rfl
  have reached : Reach Idle (fun _ _ => True) LockStep ((execute lockStep booted passedOn).getD booted) :=
    Reach.execute (fun _ _ _ moved => ⟨trivial,moved⟩) passedOn booted _
      (.start _ ⟨fun _ => rfl,fun _ => ⟨rfl,rfl,rfl⟩⟩) ran
  exact ⟨_,ran,rfl,rfl,(sleep_locks_fair reached).2.2.2.1 0⟩

/-- No ticket is left behind: a free lock serves that of a waiting thread, whose retry takes it. -/
theorem queue_moves_on (reached : Reach Idle (fun _ _ => True) LockStep s) (free : (s.locks l).owner = none)
    (asked : (s.locks l).next ≠ (s.locks l).serving) : ∃ t u, (s.threads t).waits = some (l,(s.locks l).serving) ∧
      (s.threads t).holds ≠ 0 ∧ LockStep s (.retry t) u ∧ (u.locks l).owner = some t := by
  have fair := fair_everywhere reached
  have empty := (fair.free l).mp free
  have room := (fair.queue l).room
  have first : (s.locks l).first = (s.locks l).serving := by simp [SleepLock.first,empty]
  obtain ⟨t,waits⟩ := (fair.queue l).complete _ first.le (by omega)
  have counted := fair.counted t
  rw [waits] at counted
  refine ⟨t,_,waits,fun zero => ?_,congrArg (Option.map _) waits,?_⟩
  · exact absurd (counted.symm.trans zero) (by simp)
  · simp [waitTurn,myTurn,empty,takeLock,State.setThread,State.setLock]

theorem queue_moves_on_passed : ∃ s t u, Reach Idle (fun _ _ => True) LockStep s ∧ LockStep s (.retry t) u ∧
    (u.locks 0).owner = some t := by
  have reached : Reach Idle (fun _ _ => True) LockStep _ := Reach.execute (fun _ _ _ moved => ⟨trivial,moved⟩)
    passedOn.dropLast booted _ (.start _ ⟨fun _ => rfl,fun _ => ⟨rfl,rfl,rfl⟩⟩) rfl
  obtain ⟨t,u,-,-,taken⟩ := queue_moves_on (l := 0) reached rfl (by decide)
  exact ⟨_,t,u,reached,taken⟩

end SurfaceOS.Cpu
