import Mathlib.Data.UInt
import SurfaceOS.Errno
import SurfaceOS.Lib.Chain
import SurfaceOS.Lib.Transition

/-! Kernel objects and handle tables (obj/object.cpp). An object counts its references in 32 bits; the
slots of the tables are some of them, the rest are with its creator and with whoever borrowed it.
None of the kernel's destructors puts another object; one that does is a history in which its puts
follow. -/
namespace SurfaceOS.Obj.Handles
open Lib Function List Option Nat

variable {h i n : Nat} {after : State}

inductive ObjType
  | none | file | process | event | thread
  deriving DecidableEq

structure Kobject where
  type : ObjType
  refcnt : UInt32
  destroyed : Nat
  deriving DecidableEq

def tableSize : Nat := 64

structure State where
  objs : Nat → Option Kobject
  tables : Nat
  slots : Nat → Nat → Option Nat
  refs : Nat → Nat

namespace State

def alter (s : State) (o : Nat) (change : Kobject → Kobject) : State :=
  {s with objs := update s.objs o ((s.objs o).map change)}

def get (s : State) (o : Nat) : State := s.alter o fun k => {k with refcnt := k.refcnt + 1}

def drop (k : Kobject) : Kobject :=
  if k.refcnt = 0 then k
  else {k with
    refcnt := k.refcnt - 1
    destroyed := if k.refcnt - 1 = 0 then k.destroyed + 1 else k.destroyed}

def put (s : State) (o : Nat) : State := s.alter o drop

def setSlot (s : State) (t h : Nat) (x : Option Nat) : State :=
  {s with slots := update s.slots t (update (s.slots t) h x)}

def release (s : State) (t h : Nat) : State :=
  match s.slots t h with
  | some o => (s.setSlot t h none).put o
  | none => s.setSlot t h none

def install (s : State) (t o : Nat) : Except Errno Nat × State :=
  match (List.range tableSize).find? fun h => (s.slots t h).isNone with
  | some h => (.ok h,(s.get o).setSlot t h (some o))
  | none => (.error .emfile,s)

def inRange (h : Int) : Bool := 0 ≤ h ∧ h < tableSize

def close (s : State) (t : Nat) (h : Int) : Except Errno Unit × State :=
  if !inRange h ∨ s.slots t h.toNat = none then (.error .ebadf,s) else (.ok (),s.release t h.toNat)

def closeAll (s : State) (t : Nat) : State :=
  (List.range tableSize).foldl (fun s i => if (s.slots t i).isSome then s.release t i else s) s

end State

/-- `create` makes an object of its own and `table` a table; the other calls are the kernel's. -/
inductive Call
  | create (o : Nat) (type : ObjType)
  | table
  | get (o : Nat)
  | put (o : Nat)
  | install (t o : Nat)
  | find (t : Nat) (h : Int) (want : ObjType)
  | close (t : Nat) (h : Int)
  | closeAll (t : Nat)

namespace State

def call (s : State) : Call → State
  | .create o type => {s with
      objs := update s.objs o (some ⟨type,1,0⟩)
      refs := update s.refs o 1}
  | .table => {s with
      tables := s.tables + 1
      slots := update s.slots s.tables fun _ => none}
  | .get o => {s.get o with refs := update s.refs o (s.refs o + 1)}
  | .put o => {s.put o with refs := update s.refs o (s.refs o - 1)}
  | .install t o => (s.install t o).2
  | .find _ _ _ => s
  | .close t h => (s.close t h).2
  | .closeAll t => s.closeAll t

def naming (s : State) (o : Nat) : Nat :=
  (List.range (s.tables * tableSize)).countP fun k => s.slots (k / tableSize) (k % tableSize) = some o

def holders (s : State) (o : Nat) : Nat := s.refs o + s.naming o

/-- A call comes from someone who may make it: a new object is new, an object is got or installed by
someone who holds or found it, and a put gives a reference back. -/
def Matched (s : State) : Call → Prop
  | .create o _ => s.objs o = none
  | .get o => 0 < s.holders o
  | .put o => 0 < s.refs o
  | .install t o => t < s.tables ∧ 0 < s.holders o
  | .close t _ => t < s.tables
  | .closeAll t => t < s.tables
  | _ => True

def Roomy (s : State) : Call → Prop
  | .get o => s.holders o + 1 < 2^32
  | .install _ o => s.holders o + 1 < 2^32
  | _ => True

def Start (s : State) : Prop := (∀ o, s.objs o = none) ∧ s.tables = 0 ∧ ∀ o, s.refs o = 0

/-- The count is the number of references, and destroy has run once just when there are none left. -/
structure Counted (s : State) (o : Nat) (k : Kobject) : Prop where
  count : k.refcnt.toNat = s.holders o
  destroyed : k.destroyed = if s.holders o = 0 then 1 else 0

structure Inv (s : State) : Prop where
  counted : ∀ o k, s.objs o = some k → Counted s o k
  absent : ∀ o, s.objs o = none → s.holders o = 0

variable {s t : State} {o : Nat} {k : Kobject}

theorem drop_last (counted : k.refcnt.toNat = 1) : drop k = {k with refcnt := 0, destroyed := k.destroyed + 1} := by
  have one : k.refcnt = 1 := UInt32.toNat_inj.mp counted
  simp [drop,one]

theorem drop_more (counted : k.refcnt.toNat = n + 2) :
    (drop k).refcnt.toNat = n + 1 ∧ (drop k).destroyed = k.destroyed := by
  have some : k.refcnt ≠ 0 := fun zero => by simp [zero] at counted
  have less : (k.refcnt - 1).toNat = n + 1 := by
    rw [UInt32.toNat_sub_of_le _ _ (by rw [UInt32.le_iff_toNat_le,counted]; simp),counted]
    rfl
  have more : k.refcnt - 1 ≠ 0 := fun zero => by simp [zero] at less
  simp [drop,some,more,less]

theorem Counted.drops (counted : Counted s o k) (fewer : after.holders o + 1 = s.holders o) :
    Counted after o (drop k) := by
  have count := counted.count
  rw [← fewer] at count
  have alive : k.destroyed = 0 := by rw [counted.destroyed,if_neg (by omega)]
  cases left : after.holders o with
  | zero =>
    rw [left] at count
    rw [drop_last count]
    exact ⟨left.symm,by rw [left,alive,if_pos rfl]⟩
  | succ n =>
    rw [left] at count
    obtain ⟨less,same⟩ := drop_more count
    exact ⟨by rw [less,left],by rw [same,alive,left,if_neg (succ_ne_zero n)]⟩

theorem Counted.gains (counted : Counted s o k) (more : after.holders o = s.holders o + 1)
    (held : 0 < s.holders o) (room : s.holders o + 1 < 2^32) : Counted after o {k with refcnt := k.refcnt + 1} := by
  refine ⟨?_,?_⟩
  · change (k.refcnt + 1).toNat = _
    rw [UInt32.toNat_add,counted.count,more]
    exact mod_eq_of_lt room
  · change k.destroyed = _
    rw [counted.destroyed,if_neg (by omega),if_neg (by omega)]

theorem naming_setSlot {x : Option Nat} (inside : i < s.tables) (small : h < tableSize) :
    (s.setSlot i h x).naming o + (if s.slots i h = some o then 1 else 0) =
      s.naming o + (if x = some o then 1 else 0) := by
  have place : (i * tableSize + h) / tableSize = i ∧ (i * tableSize + h) % tableSize = h := by
    unfold tableSize at *
    omega
  have member : i * tableSize + h ∈ List.range (s.tables * tableSize) := by
    rw [mem_range]
    unfold tableSize at *
    omega
  have here : (s.setSlot i h x).slots ((i * tableSize + h) / tableSize) ((i * tableSize + h) % tableSize) = x := by
    simp [setSlot,place]
  have others : ∀ d, d ≠ i * tableSize + h →
      (s.setSlot i h x).slots (d / tableSize) (d % tableSize) = s.slots (d / tableSize) (d % tableSize) := by
    intro d other
    have moved : d / tableSize ≠ i ∨ d % tableSize ≠ h := by
      unfold tableSize at *
      omega
    unfold setSlot
    dsimp only
    by_cases same : d / tableSize = i
    · rw [same,update_self,update_of_ne (moved.resolve_left (fun apart => apart same))]
    · rw [update_of_ne same]
  by_cases was : s.slots i h = some o <;> by_cases now : x = some o
  · rw [if_pos was,if_pos now]
    congr 1
    refine countP_congr fun d _ => ?_
    by_cases same : d = i * tableSize + h
    · subst same
      rw [here,place.1,place.2,was,now]
    · rw [others d same]
  · rw [if_pos was,if_neg now]
    exact countP_erase nodup_range member (by simp [place,was]) (decide_eq_false fun same => now (here.symm.trans same))
      fun d other => by rw [others d other]
  · rw [if_neg was,if_pos now]
    exact (countP_erase nodup_range member (decide_eq_true (here.trans now)) (by simp [place,was])
      fun d other => by rw [others d other]).symm
  · rw [if_neg was,if_neg now]
    refine countP_congr fun d _ => ?_
    by_cases same : d = i * tableSize + h
    · subst same
      rw [here,place.1,place.2]
      simp [was,now]
    · rw [others d same]

theorem naming_table : (s.call .table).naming o = s.naming o := by
  have fresh : ∀ k ∈ (List.range tableSize).map (s.tables * tableSize + ·),
      decide ((s.call .table).slots (k / tableSize) (k % tableSize) = some o) = false := by
    intro k member
    obtain ⟨h,small,rfl⟩ := mem_map.mp member
    have place : (s.tables * tableSize + h) / tableSize = s.tables := by
      rw [mem_range] at small
      unfold tableSize at *
      omega
    simp [call,place]
  have old : ∀ k ∈ List.range (s.tables * tableSize),
      (s.call .table).slots (k / tableSize) (k % tableSize) = s.slots (k / tableSize) (k % tableSize) := by
    intro k member
    have other : k / tableSize ≠ s.tables := by
      rw [mem_range] at member
      unfold tableSize at *
      omega
    exact congrFun (update_of_ne other ..) _
  have none := countP_eq_zero.mpr fun k member => Bool.not_eq_true _ ▸ fresh k member
  change (List.range ((s.tables + 1) * tableSize)).countP _ = _
  rw [add_mul,one_mul,range_add,countP_append,none]
  exact countP_congr fun k member => by rw [old k member]

theorem Inv.others (inv : Inv s) (p : Nat) (objs : ∀ o, o ≠ p → t.objs o = s.objs o)
    (holders : ∀ o, o ≠ p → t.holders o = s.holders o) (here : ∀ k, t.objs p = some k → Counted t p k)
    (gone : t.objs p = none → t.holders p = 0) : Inv t := by
  refine ⟨fun o k exists_ => ?_,fun o absent => ?_⟩
  · by_cases same : o = p
    · exact same ▸ here k (same ▸ exists_)
    · have before := inv.counted o k (objs o same ▸ exists_)
      exact ⟨before.count.trans (holders o same).symm,by rw [before.destroyed,holders o same]⟩
  by_cases same : o = p
  · exact same ▸ gone (same ▸ absent)
  · rw [holders o same]
    exact inv.absent o (objs o same ▸ absent)

theorem Inv.exists_of_held (inv : Inv s) (held : 0 < s.holders o) : ∃ k, s.objs o = some k ∧ Counted s o k := by
  cases exists_ : s.objs o with
  | none => exact absurd (inv.absent o exists_) (Nat.pos_iff_ne_zero.mp held)
  | some k => exact ⟨k,rfl,inv.counted o k exists_⟩

theorem Inv.altered (inv : Inv s) (p : Nat) (change : Kobject → Kobject) (held : 0 < s.holders p)
    (objs : t.objs = (s.alter p change).objs) (holders : ∀ o, o ≠ p → t.holders o = s.holders o)
    (counted : ∀ k, s.objs p = some k → Counted s p k → Counted t p (change k)) : Inv t := by
  obtain ⟨k,exists_,before⟩ := inv.exists_of_held held
  have here : t.objs p = some (change k) := by simp [objs,alter,exists_]
  refine inv.others p (fun o other => ?_) holders (fun now found => ?_) fun absent => ?_
  · rw [objs]
    exact update_of_ne other ..
  · rw [here] at found
    exact some.inj found ▸ counted k exists_ before
  · rw [here] at absent
    cases absent

section
variable {i h : Nat} (inv : Inv s) (inside : i < s.tables) (small : h < tableSize)
include inv inside small

theorem Inv.releases (taken : s.slots i h = some o) : Inv (s.release i h) := by
  have count (p : Nat) := naming_setSlot (o := p) (x := none) inside small
  simp only [taken,reduceCtorEq,if_false,add_zero,some_inj] at count
  have fewer : (s.setSlot i h none).holders o + 1 = s.holders o := by
    have here := count o
    rw [if_pos rfl] at here
    unfold holders
    rw [← here]
    rfl
  unfold release
  rw [taken]
  refine inv.altered o drop (by omega) rfl (fun p other => ?_) fun k _ before => before.drops fewer
  have there := count p
  rw [if_neg (Ne.symm other)] at there
  change s.refs p + (s.setSlot i h none).naming p = s.refs p + s.naming p
  rw [← there,add_zero]

theorem Inv.installs (free : s.slots i h = none) (held : 0 < s.holders o) (room : s.holders o + 1 < 2^32) :
    Inv ((s.get o).setSlot i h (some o)) := by
  have count (p : Nat) := naming_setSlot (o := p) (x := some o) inside small
  simp only [free,some_inj] at count
  refine inv.altered o (fun k => {k with refcnt := k.refcnt + 1}) held rfl (fun p other => ?_)
    fun k _ before => before.gains ?_ held room
  · have there := count p
    rw [if_neg (Ne.symm other)] at there
    exact congrArg (s.refs p + ·) there
  · have here := count o
    rw [if_pos rfl] at here
    exact (congrArg (s.refs o + ·) here).trans (add_assoc ..).symm

end

theorem releases_tables (i h : Nat) : (s.release i h).tables = s.tables := by
  unfold release
  split <;> rfl

theorem Inv.closesAll (inv : Inv s) (inside : i < s.tables) (hs : List Nat) (small : ∀ h ∈ hs, h < tableSize) :
    Inv (hs.foldl (fun s h => if (s.slots i h).isSome then s.release i h else s) s) := by
  induction hs generalizing s with
  | nil => exact inv
  | cons h rest ih =>
    rw [foldl_cons]
    have later : ∀ j ∈ rest, j < tableSize := fun j member => small j (mem_cons_of_mem h member)
    cases taken : s.slots i h with
    | none => exact ih inv inside later
    | some o =>
      exact ih (inv.releases inside (small h (mem_cons_self ..)) taken)
        (lt_of_lt_of_eq inside (releases_tables i h).symm) later

theorem install_cases (s : State) (i o : Nat) :
    (∃ h, h < tableSize ∧ s.slots i h = none ∧ (∀ j < h, s.slots i j ≠ none) ∧
      s.install i o = (.ok h,(s.get o).setSlot i h (some o))) ∨
    ((∀ h < tableSize, s.slots i h ≠ none) ∧ s.install i o = (.error .emfile,s)) := by
  unfold install
  cases found : (List.range tableSize).find? fun h => (s.slots i h).isNone with
  | some h =>
    obtain ⟨free,before⟩ := find?_range_eq_some.mp found |>.imp_right And.right
    have member := mem_range.mp (mem_of_find?_eq_some found)
    refine .inl ⟨h,member,by simpa using free,fun j less => ?_,rfl⟩
    have taken := before j less
    intro empty
    simp [empty] at taken
  | none =>
    refine .inr ⟨fun h small empty => ?_,rfl⟩
    have taken := find?_eq_none.mp found h (mem_range.mpr small)
    simp [empty] at taken

theorem Inv.call (inv : Inv s) (c : Call) (matched : s.Matched c) (roomy : s.Roomy c) : Inv (s.call c) := by
  cases c with
  | create p type =>
    have none := inv.absent p matched
    have unheld : s.refs p = 0 ∧ s.naming p = 0 := by
      unfold holders at none
      omega
    have one : (s.call (.create p type)).holders p = 1 := by
      change update s.refs p 1 p + s.naming p = 1
      rw [update_self,unheld.2]
    refine inv.others p (fun o other => update_of_ne other ..) (fun o other => ?_) (fun k found => ?_) ?_
    · change update s.refs p 1 o + s.naming o = _
      rw [update_of_ne other]
      rfl
    · have made : k = ⟨type,1,0⟩ := by simpa [State.call] using found.symm
      rw [made]
      exact ⟨one.symm,by rw [one]; rfl⟩
    · intro absent
      simp [State.call] at absent
  | table =>
    have same : ∀ o, (s.call .table).holders o = s.holders o := fun o => congrArg (s.refs o + ·) naming_table
    refine ⟨fun o k found => ?_,fun o absent => (same o).trans (inv.absent o absent)⟩
    have before := inv.counted o k found
    exact ⟨before.count.trans (same o).symm,by rw [before.destroyed,same o]⟩
  | get p =>
    refine inv.altered p (fun k => {k with refcnt := k.refcnt + 1}) matched rfl (fun o other => ?_)
      fun k _ before => before.gains ?_ matched roomy
    · exact congrArg (· + s.naming o) (update_of_ne other ..)
    · change update s.refs p (s.refs p + 1) p + s.naming p = _
      rw [update_self]
      exact Nat.add_right_comm ..
  | put p =>
    have held : 0 < s.refs p := matched
    refine inv.altered p drop (Nat.lt_of_lt_of_le held (Nat.le_add_right ..)) rfl (fun o other => ?_)
      fun k _ before => before.drops ?_
    · exact congrArg (· + s.naming o) (update_of_ne other ..)
    · change update s.refs p (s.refs p - 1) p + s.naming p + 1 = s.refs p + s.naming p
      rw [update_self]
      omega
  | install i p =>
    rcases install_cases s i p with ⟨h,small,free,_,ran⟩ | ⟨_,ran⟩
    · change Inv (s.install i p).2
      rw [ran]
      exact inv.installs matched.1 small free matched.2 roomy
    · change Inv (s.install i p).2
      rw [ran]
      exact inv
  | find i h want => exact inv
  | close i h =>
    change Inv (s.close i h).2
    unfold close
    split
    · exact inv
    rename_i open_
    rw [not_or] at open_
    obtain ⟨o,taken⟩ := ne_none_iff_exists'.mp open_.2
    have range : 0 ≤ h ∧ h < tableSize := by simpa [inRange] using open_.1
    exact inv.releases matched (by omega) taken
  | closeAll i => exact inv.closesAll matched _ fun h member => mem_range.mp member

abbrev Reached (guard : State → Call → Prop) : State → Prop :=
  Reach Start (fun s c => s.Matched c ∧ guard s c) fun s c t => t = s.call c

theorem Reached.step {guard : State → Call → Prop} (reached : Reached guard s) (c : Call) (matched : s.Matched c)
    (admitted : guard s c) : Reached guard (s.call c) :=
  .next _ _ c reached ⟨matched,admitted⟩ rfl

theorem Start.inv (start : Start s) : Inv s := by
  have none (o : Nat) : s.holders o = 0 := by
    unfold holders naming
    rw [start.2.1,start.2.2 o]
    rfl
  refine ⟨fun o k found => ?_,fun o _ => none o⟩
  rw [start.1 o] at found
  cases found

theorem Reached.inv (reached : Reached Roomy s) : Inv s := by
  refine Reach.invariant Inv (fun s start => start.inv) ?_ s reached
  rintro s c _ inv ⟨matched,roomy⟩ rfl
  exact inv.call c matched roomy

/-- What is promised of every state: the counts, the lowest slot, and that failures change nothing. -/
structure Right (s : State) : Prop where
  count : ∀ o k, s.objs o = some k → k.refcnt.toNat = s.refs o + s.naming o
  destroyed : ∀ o k, s.objs o = some k → k.destroyed = if s.refs o + s.naming o = 0 then 1 else 0
  lowest : ∀ t o h, (s.install t o).1 = .ok h → h < tableSize ∧ s.slots t h = none ∧ (∀ j < h, s.slots t j ≠ none) ∧
    (s.install t o).2.slots t h = some o
  full : ∀ t o e, (s.install t o).1 = .error e → (s.install t o).2 = s
  refused : ∀ t h e, (s.close t h).1 = .error e → (s.close t h).2 = s

theorem Inv.right (inv : Inv s) : Right s := by
  refine ⟨fun o k found => (inv.counted o k found).count,fun o k found => (inv.counted o k found).destroyed,
    fun i o h ok => ?_,fun i o e failed => ?_,fun i h e failed => ?_⟩
  · rcases install_cases s i o with ⟨j,small,free,before,ran⟩ | ⟨_,ran⟩
    · rw [ran] at ok ⊢
      cases ok
      exact ⟨small,free,before,by simp [setSlot]⟩
    · rw [ran] at ok
      cases ok
  · rcases install_cases s i o with ⟨j,_,_,_,ran⟩ | ⟨_,ran⟩
    · rw [ran] at failed
      cases failed
    · rw [ran]
  unfold close at failed ⊢
  split at failed
  · next shut => rw [if_pos shut]
  · cases failed

/-- Where no object ever gets 2^32 references, every call leaves counts, slots and failures right. -/
theorem handles_right (reached : Reached Roomy s) : Right s := reached.inv.right

def empty : State := ⟨fun _ => none,0,fun _ _ => none,fun _ => 0⟩

def lent : State := (empty.call (.create 0 .file)).call .table

def handedOver : State := ((lent.call (.install 0 0)).call (.put 0)).call (.closeAll 0)

theorem handles_right_handedOver : Right handedOver ∧ handedOver.objs 0 = some ⟨.file,0,1⟩ := by
  have start : Reached Roomy empty := .start _ ⟨fun _ => rfl,rfl,fun _ => rfl⟩
  have made : Reached Roomy lent := (start.step (.create 0 .file) rfl trivial).step .table trivial trivial
  have one : lent.holders 0 = 1 := by decide +kernel
  have installed := made.step (.install 0 0) ⟨zero_lt_one,lt_of_lt_of_eq zero_lt_one one.symm⟩
    (lt_of_le_of_lt (le_of_eq (congrArg (· + 1) one)) (by decide))
  have held : 0 < (lent.call (.install 0 0)).refs 0 := by decide +kernel
  have put := installed.step (.put 0) held trivial
  have tables : 0 < ((lent.call (.install 0 0)).call (.put 0)).tables := by decide +kernel
  exact ⟨handles_right (put.step (.closeAll 0) tables trivial),by decide +kernel⟩

theorem borrowed (n : Nat) : ∃ s, Reached (fun _ _ => True) s ∧ s.objs 0 = some ⟨.file,UInt32.ofNat (n + 1),0⟩ ∧
    s.refs 0 = n + 1 := by
  induction n with
  | zero =>
    have start : Reached (fun _ _ => True) empty := .start _ ⟨fun _ => rfl,rfl,fun _ => rfl⟩
    exact ⟨_,start.step (.create 0 .file) rfl trivial,rfl,rfl⟩
  | succ n ih =>
    obtain ⟨s,reached,object,held⟩ := ih
    have some : 0 < s.holders 0 := by
      unfold holders
      omega
    refine ⟨s.call (.get 0),reached.step (.get 0) some trivial,?_,?_⟩
    · simp [call,State.get,alter,object]
    · simp [call,held]

/-- With 2^32 borrowers the count has come round to 0. -/
theorem not_every_history_right : ¬ ∀ s, Reached (fun _ _ => True) s → Right s := by
  intro right
  obtain ⟨s,reached,object,held⟩ := borrowed (2^32 - 1)
  have count := (right s reached).count 0 _ object
  have wrapped : (UInt32.ofNat (2^32 - 1 + 1)).toNat = 0 := by decide
  change (UInt32.ofNat (2^32 - 1 + 1)).toNat = _ at count
  omega

end State
end SurfaceOS.Obj.Handles
