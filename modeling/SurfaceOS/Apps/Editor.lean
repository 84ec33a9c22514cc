import SurfaceOS.Lib.Replay
import SurfaceOS.Lib.Transition
import Mathlib.Logic.Function.Iterate
import Mathlib.Data.Nat.Basic

/-! The editor's bytes and its journal of changes (apps/explorer/editor.cpp), every allocation
succeeding. Typing joins the last change, an edit cuts off what was undone, and the changes of one
group are undone and done again together. -/
namespace SurfaceOS.Apps.Editor
open Lib List

variable {bytes data loaded : List UInt8} {pos count : Nat}

def rawInsert (data : List UInt8) (pos : Nat) (bytes : List UInt8) : List UInt8 :=
  data.take pos ++ bytes ++ data.drop pos

def rawRemove (data : List UInt8) (pos count : Nat) : List UInt8 := data.take pos ++ data.drop (pos + count)

structure Change where
  pos : Nat
  bytes : List UInt8
  group : Nat
  insert : Bool
  deriving DecidableEq

variable {changes : List Change}

def Change.redo (c : Change) (data : List UInt8) : List UInt8 :=
  if c.insert then rawInsert data c.pos c.bytes else rawRemove data c.pos c.bytes.length

def Change.undo (c : Change) (data : List UInt8) : List UInt8 :=
  if c.insert then rawRemove data c.pos c.bytes.length else rawInsert data c.pos c.bytes

def Change.cursor (c : Change) (inserted : Bool) : Nat := if inserted then c.pos + c.bytes.length else c.pos

structure State where
  data : List UInt8
  changes : List Change
  undoTop : Nat
  group : Nat
  grouping : Bool
  sealed : Bool
  savedTop : Int
  cur : Nat
  anchor : Option Nat
  deriving DecidableEq

def newline : UInt8 := 10

namespace State

/-- Edit() with the bytes Load has read; Group goes on counting from file to file. -/
def opened (data : List UInt8) (group : Nat) : State := ⟨data,[],0,group,false,true,0,0,none⟩

def modified (s : State) : Bool := s.savedTop ≠ s.undoTop

def cut (s : State) : State :=
  {s with changes := s.changes.take s.undoTop, savedTop := if s.savedTop > s.undoTop then -1 else s.savedTop}

def joined (s : State) (insert : Bool) (pos : Nat) (bytes : List UInt8) : Option Change :=
  match s.changes.getLast?, bytes with
  | some c, [b] =>
    if insert && !s.sealed && !s.grouping && b != newline && c.insert && c.pos + c.bytes.length == pos
    then some {c with bytes := c.bytes ++ [b]} else none
  | _, _ => none

def record (s : State) (insert : Bool) (pos : Nat) (bytes : List UInt8) : State :=
  let s := s.cut
  match s.joined insert pos bytes with
  | some longer => {s with changes := s.changes.dropLast ++ [longer]}
  | none =>
    let group := if s.grouping then s.group else (s.group + 1) % 2 ^ 32
    {s with changes := s.changes ++ [⟨pos,bytes,group,insert⟩], group := group,
            undoTop := s.changes.length + 1, sealed := false}

def insert (s : State) (pos : Nat) (bytes : List UInt8) : State :=
  if bytes.length = 0 then s
  else {s with data := rawInsert s.data pos bytes}.record true pos bytes

def remove (s : State) (pos count : Nat) : State :=
  if count = 0 then s
  else
    let t := s.record false pos ((s.data.drop pos).take count)
    {t with data := rawRemove t.data pos count}

def beginGroup (s : State) : State := {s with group := (s.group + 1) % 2 ^ 32, grouping := true}

def endGroup (s : State) : State := {s with grouping := false, sealed := true}

def undoWhile (changes : List Change) (group : Nat) : Nat → List UInt8 → Nat → Nat × List UInt8 × Nat
  | 0, data, cur => (0,data,cur)
  | top + 1, data, cur =>
    match changes[top]? with
    | some c =>
      if c.group = group then undoWhile changes group top (c.undo data) (c.cursor (!c.insert))
      else (top + 1,data,cur)
    | none => (top + 1,data,cur)

def redoWhile (group : Nat) : List Change → Nat → List UInt8 → Nat → Nat × List UInt8 × Nat
  | [], top, data, cur => (top,data,cur)
  | c :: rest, top, data, cur =>
    if c.group = group then redoWhile group rest (top + 1) (c.redo data) (c.cursor c.insert)
    else (top,data,cur)

def settle (s : State) (top : Nat) (data : List UInt8) (cur : Nat) : State :=
  {s with undoTop := top, data := data, cur := cur, sealed := true, anchor := none}

def undo (s : State) : State :=
  match s.undoTop with
  | 0 => s
  | last + 1 =>
    match s.changes[last]? with
    | none => s
    | some c =>
      let done := undoWhile s.changes c.group s.undoTop s.data s.cur
      s.settle done.1 done.2.1 done.2.2

def redo (s : State) : State :=
  match s.changes[s.undoTop]? with
  | none => s
  | some c =>
    let done := redoWhile c.group (s.changes.drop s.undoTop) s.undoTop s.data s.cur
    s.settle done.1 done.2.1 done.2.2

def save (s : State) : State := {s with savedTop := s.undoTop, sealed := true}

end State

/-- What the editor does to its bytes. `type` ends a group that goes on being typed into, `move` is
all that only seals the last change; a save that fails changes nothing here. -/
inductive Call
  | insert (pos : Nat) (bytes : List UInt8)
  | remove (pos count : Nat)
  | beginGroup
  | endGroup
  | type
  | move (cur : Nat) (anchor : Option Nat)
  | undo
  | redo
  | save (written : Bool)
  deriving DecidableEq

structure Session where
  editor : State
  loaded : List UInt8
  saved : Option (List UInt8)
  deriving DecidableEq

namespace Session

def call (s : Session) : Call → Session
  | .insert pos bytes => {s with editor := s.editor.insert pos bytes}
  | .remove pos count => {s with editor := s.editor.remove pos count}
  | .beginGroup => {s with editor := s.editor.beginGroup}
  | .endGroup => {s with editor := s.editor.endGroup}
  | .type => {s with editor := {s.editor with grouping := false}}
  | .move cur anchor => {s with editor := {s.editor with cur := cur, anchor := anchor, sealed := true}}
  | .undo => {s with editor := s.editor.undo}
  | .redo => {s with editor := s.editor.redo}
  | .save true => {s with editor := s.editor.save, saved := some s.editor.data}
  | .save false => s

def InRange (s : Session) : Call → Prop
  | .insert pos _ => pos ≤ s.editor.data.length
  | .remove pos count => pos + count ≤ s.editor.data.length
  | _ => True

instance (s : Session) (a : Call) : Decidable (s.InRange a) := by
  cases a <;> unfold InRange <;> infer_instance

def Starts (s : Session) : Prop := ∃ data group, s = ⟨.opened data group,data,none⟩

abbrev Reached : Session → Prop := Reach Starts InRange fun s a t => s.call a = t

end Session

def Change.Fits (c : Change) (data : List UInt8) : Prop :=
  if c.insert then c.pos ≤ data.length
  else c.pos + c.bytes.length ≤ data.length ∧ (data.drop c.pos).take c.bytes.length = c.bytes

theorem rawRemove_rawInsert (inside : pos ≤ data.length) :
    rawRemove (rawInsert data pos bytes) pos bytes.length = data := by
  have front : (data.take pos).length = pos := by simp [inside]
  unfold rawInsert rawRemove
  rw [append_assoc,take_append_of_le_length (by omega),take_take,Nat.min_self,
    drop_append,front,drop_of_length_le (by omega)]
  simp

theorem rawInsert_rawRemove (inside : pos + bytes.length ≤ data.length)
    (same : (data.drop pos).take bytes.length = bytes) :
    rawInsert (rawRemove data pos bytes.length) pos bytes = data := by
  have front : (data.take pos).length = pos := by
    simp
    omega
  unfold rawInsert rawRemove
  rw [take_append_of_le_length (by omega),take_take,Nat.min_self,drop_append,front,
    drop_of_length_le (by omega),Nat.sub_self,drop_zero,nil_append,← drop_drop]
  have rest : bytes ++ (data.drop pos).drop bytes.length = data.drop pos := by
    conv => lhs; lhs; rw [← same]
    exact take_append_drop bytes.length (data.drop pos)
  rw [append_assoc,rest,take_append_drop]

theorem rawInsert_append (more : List UInt8) (inside : pos ≤ data.length) :
    rawInsert (rawInsert data pos bytes) (pos + bytes.length) more = rawInsert data pos (bytes ++ more) := by
  have front : (data.take pos ++ bytes).length = pos + bytes.length := by simp [inside]
  unfold rawInsert
  rw [take_append_of_le_length (by omega),take_of_length_le (by omega),drop_append,
    drop_of_length_le (by omega),front,Nat.sub_self]
  simp

def journal : Reversible (List UInt8) Change where
  apply := Change.redo
  revert := Change.undo
  fits := Change.Fits
  revert_apply c data fits := by
    cases insert : c.insert with
    | true =>
      simp only [Change.Fits,insert,if_true] at fits
      simpa [Change.redo,Change.undo,insert] using rawRemove_rawInsert fits
    | false =>
      simp only [Change.Fits,insert,Bool.false_eq_true,if_false] at fits
      simpa [Change.redo,Change.undo,insert] using rawInsert_rawRemove fits.1 fits.2

def groupAt (changes : List Change) (k : Nat) : Option Nat := changes[k]?.map Change.group

theorem undoWhile_spec (fits : journal.Fits loaded changes) (group : Nat)
    (top cur : Nat) (bound : top ≤ changes.length) :
    ∃ t cur', State.undoWhile changes group top (journal.replay loaded (changes.take top)) cur =
        (t,journal.replay loaded (changes.take t),cur') ∧ t ≤ top ∧
      (∀ k, t ≤ k → k < top → groupAt changes k = some group) ∧
      (t = 0 ∨ groupAt changes (t - 1) ≠ some group) := by
  induction top generalizing cur with
  | zero => exact ⟨0,cur,rfl,le_rfl,by omega,.inl rfl⟩
  | succ top ih =>
    have here : changes[top]? = some changes[top] := getElem?_eq_getElem bound
    by_cases same : changes[top].group = group
    · obtain ⟨t,cur',ran,below,all,stop⟩ := ih (changes[top].cursor (!changes[top].insert)) (by omega)
      refine ⟨t,cur',?_,by omega,fun k low high => ?_,stop⟩
      · simp only [State.undoWhile,here,same,if_true]
        rw [← ran,← journal.revert_replay fits here]
        rfl
      · by_cases last : k = top
        · simp [groupAt,last,here,same]
        · exact all k low (by omega)
    · refine ⟨top + 1,cur,by simp [State.undoWhile,here,same],le_rfl,by omega,.inr ?_⟩
      simpa [groupAt,here] using same

theorem redoWhile_spec (loaded : List UInt8) (group : Nat) (rest : List Change)
    (top cur : Nat) (bound : top ≤ changes.length) (left : changes.drop top = rest) :
    ∃ t cur', State.redoWhile group rest top (journal.replay loaded (changes.take top)) cur =
        (t,journal.replay loaded (changes.take t),cur') ∧ top ≤ t ∧ t ≤ changes.length ∧
      (∀ k, top ≤ k → k < t → groupAt changes k = some group) ∧
      (t = changes.length ∨ groupAt changes t ≠ some group) := by
  induction rest generalizing top cur with
  | nil =>
    have ended : changes.length ≤ top := drop_eq_nil_iff.mp left
    exact ⟨top,cur,rfl,le_rfl,bound,by omega,.inl (by omega)⟩
  | cons c rest ih =>
    have here : changes[top]? = some c := by
      rw [← head?_drop,left]
      rfl
    have inside : top < changes.length := (List.getElem?_eq_some_iff.mp here).1
    by_cases same : c.group = group
    · have after : changes.drop (top + 1) = rest := by
        rw [← drop_drop,left]
        rfl
      obtain ⟨t,cur',ran,above,within,all,stop⟩ := ih (top + 1) (c.cursor c.insert) inside after
      refine ⟨t,cur',?_,by omega,within,fun k low high => ?_,stop⟩
      · simp only [State.redoWhile,same,if_true]
        rw [← ran,← journal.apply_replay here]
        rfl
      · by_cases first : k = top
        · simp [groupAt,first,here,same]
        · exact all k (by omega) high
    · refine ⟨top,cur,by simp [State.redoWhile,same],le_rfl,bound,by omega,.inr ?_⟩
      simpa [groupAt,here] using same

namespace State

/-- The journal leads from the loaded bytes to the buffer, its top lies between two groups, and the
saved mark is at the saved bytes. A change that may still grow is the last one and not yet saved. -/
structure Inv (s : State) (loaded saved : List UInt8) : Prop where
  fits : journal.Fits loaded s.changes
  bound : s.undoTop ≤ s.changes.length
  data : s.data = journal.replay loaded (s.changes.take s.undoTop)
  between : s.undoTop = 0 ∨ s.undoTop = s.changes.length ∨
    groupAt s.changes (s.undoTop - 1) ≠ groupAt s.changes s.undoTop
  mark : ∀ k : Nat, s.savedTop = k → k ≤ s.changes.length ∧ journal.replay loaded (s.changes.take k) = saved
  growing : s.sealed = false → s.undoTop = s.changes.length ∧ s.savedTop ≠ s.changes.length

variable {s : State} {loaded saved : List UInt8}

theorem settle_undoTop (top cur : Nat) (data : List UInt8) : (s.settle top data cur).undoTop = top := rfl

theorem settle_changes (top cur : Nat) (data : List UInt8) : (s.settle top data cur).changes = s.changes := rfl

section
variable (inv : Inv s loaded saved)
include inv

theorem undo_spec (some : s.undoTop ≠ 0) :
    ∃ t cur group, s.undo = s.settle t (journal.replay loaded (s.changes.take t)) cur ∧ t < s.undoTop ∧
      (∀ k, t ≤ k → k < s.undoTop → groupAt s.changes k = Option.some group) ∧
      (t = 0 ∨ groupAt s.changes (t - 1) ≠ Option.some group) := by
  obtain ⟨last,top⟩ := Nat.exists_eq_succ_of_ne_zero some
  have inside : last < s.changes.length := by
    have := inv.bound
    omega
  have here : s.changes[last]? = Option.some s.changes[last] := getElem?_eq_getElem inside
  obtain ⟨t,cur,ran,below,all,stop⟩ := undoWhile_spec inv.fits s.changes[last].group s.undoTop s.cur inv.bound
  rw [← inv.data] at ran
  refine ⟨t,cur,s.changes[last].group,?_,?_,all,stop⟩
  · simp only [undo]
    split
    · omega
    · rename_i last' top'
      obtain rfl : last' = last := by omega
      simp only [here,ran]
  -- the first round of the loop undoes a change of the group it looks for
  rcases Nat.lt_or_ge t s.undoTop with less | more
  · exact less
  obtain rfl : t = s.undoTop := by omega
  rcases stop with zero | other
  · exact absurd zero some
  · simp [groupAt,top,here] at other

theorem redo_spec (some : s.undoTop ≠ s.changes.length) :
    ∃ t cur group, s.redo = s.settle t (journal.replay loaded (s.changes.take t)) cur ∧
      s.undoTop < t ∧ t ≤ s.changes.length ∧
      (∀ k, s.undoTop ≤ k → k < t → groupAt s.changes k = Option.some group) ∧
      (t = s.changes.length ∨ groupAt s.changes t ≠ Option.some group) := by
  have inside : s.undoTop < s.changes.length := lt_of_le_of_ne inv.bound some
  have here : s.changes[s.undoTop]? = Option.some s.changes[s.undoTop] := getElem?_eq_getElem inside
  obtain ⟨t,cur,ran,above,within,all,stop⟩ := redoWhile_spec loaded s.changes[s.undoTop].group
    (s.changes.drop s.undoTop) s.undoTop s.cur inv.bound rfl
  rw [← inv.data] at ran
  refine ⟨t,cur,s.changes[s.undoTop].group,?_,?_,within,all,stop⟩
  · simp only [redo,here,ran]
  rcases Nat.lt_or_ge s.undoTop t with more | less
  · exact more
  obtain rfl : t = s.undoTop := by omega
  rcases stop with ended | other
  · exact absurd ended some
  · simp [groupAt,here] at other

theorem Inv.moved (t cur : Nat) (bound : t ≤ s.changes.length)
    (between : t = 0 ∨ t = s.changes.length ∨ groupAt s.changes (t - 1) ≠ groupAt s.changes t) :
    Inv (s.settle t (journal.replay loaded (s.changes.take t)) cur) loaded saved :=
  ⟨inv.fits,bound,rfl,between,inv.mark,by simp [settle]⟩

theorem Inv.undo : Inv s.undo loaded saved := by
  by_cases none : s.undoTop = 0
  · have same : s.undo = s := by
      unfold State.undo
      split
      · rfl
      · omega
    rw [same]
    exact inv
  · obtain ⟨t,cur,group,ran,below,all,stop⟩ := undo_spec inv none
    rw [ran]
    apply inv.moved t cur (by have := inv.bound; omega)
    rcases stop with zero | other
    · exact .inl zero
    · rw [all t le_rfl below]
      exact .inr (.inr other)

theorem Inv.redo : Inv s.redo loaded saved := by
  by_cases none : s.undoTop = s.changes.length
  · have same : s.redo = s := by simp [State.redo,none]
    rw [same]
    exact inv
  obtain ⟨t,cur,group,ran,above,within,all,stop⟩ := redo_spec inv none
  rw [ran]
  apply inv.moved t cur within
  rcases stop with ended | other
  · exact .inr (.inl ended)
  · rw [all (t - 1) (by omega) (by omega)]
    exact .inr (.inr (Ne.symm other))

theorem undo_redo (some : s.undoTop ≠ 0) :
    s.undo.redo.data = s.data ∧ s.undo.redo.undoTop = s.undoTop := by
  obtain ⟨t,cur,group,ran,below,all,stop⟩ := undo_spec inv some
  have inv' := inv.undo
  rw [ran] at inv' ⊢
  have left : t ≠ s.changes.length := by
    have := inv.bound
    omega
  obtain ⟨u,cur',group',again,above,within,all',stop'⟩ := redo_spec inv' left
  simp only [settle_undoTop,settle_changes] at above within all' stop'
  have same : group' = group := by
    have first := all' t le_rfl above
    rw [all t le_rfl below] at first
    exact (Option.some.inj first).symm
  subst same
  have back : u = s.undoTop := by
    rcases lt_trichotomy u s.undoTop with less | equal | more
    · rcases stop' with ended | other
      · have := inv.bound
        omega
      · exact absurd (all u (by omega) less) other
    · exact equal
    have beyond := all' s.undoTop (by omega) more
    have before := all (s.undoTop - 1) (by omega) (by omega)
    rcases inv.between with zero | ended | differ
    · exact absurd zero some
    · omega
    · exact absurd (before.trans beyond.symm) differ
  rw [again,back]
  exact ⟨inv.data.symm,rfl⟩

theorem redo_undo (some : s.undoTop ≠ s.changes.length) :
    s.redo.undo.data = s.data ∧ s.redo.undo.undoTop = s.undoTop := by
  obtain ⟨t,cur,group,ran,above,within,all,stop⟩ := redo_spec inv some
  have inv' := inv.redo
  rw [ran] at inv' ⊢
  have left : t ≠ 0 := by omega
  obtain ⟨u,cur',group',again,below,all',stop'⟩ := undo_spec inv' left
  simp only [settle_undoTop,settle_changes] at below all' stop'
  have same : group' = group := by
    have last := all' (t - 1) (by omega) (by omega)
    rw [all (t - 1) (by omega) (by omega)] at last
    exact (Option.some.inj last).symm
  subst same
  have back : u = s.undoTop := by
    rcases lt_trichotomy u s.undoTop with less | equal | more
    · have before := all' (s.undoTop - 1) (by omega) (by omega)
      have beyond := all s.undoTop le_rfl above
      rcases inv.between with zero | ended | differ
      · omega
      · exact absurd ended some
      · exact absurd (before.trans beyond.symm) differ
    · exact equal
    · rcases stop' with zero | other
      · omega
      · exact absurd (all (u - 1) (by omega) (by omega)) other
  rw [again,back]
  exact ⟨inv.data.symm,rfl⟩

theorem undo_undoTop_le : s.undo.undoTop ≤ s.undoTop - 1 := by
  by_cases none : s.undoTop = 0
  · unfold undo
    split
    · omega
    · omega
  · obtain ⟨t,cur,group,ran,below,-⟩ := undo_spec inv none
    rw [ran]
    exact Nat.le_sub_one_of_lt below

theorem Inv.undo_iterate (n : Nat) :
    Inv (State.undo^[n] s) loaded saved ∧ (State.undo^[n] s).undoTop ≤ s.undoTop - n := by
  induction n with
  | zero => exact ⟨inv,le_rfl⟩
  | succ n ih =>
    rw [Function.iterate_succ_apply']
    have fewer := undo_undoTop_le ih.1
    exact ⟨ih.1.undo,by omega⟩

theorem undo_all (n : Nat) (enough : s.undoTop ≤ n) :
    (State.undo^[n] s).data = loaded ∧ (State.undo^[n] s).undoTop = 0 := by
  obtain ⟨last,few⟩ := inv.undo_iterate n
  have zero : (State.undo^[n] s).undoTop = 0 := by omega
  refine ⟨?_,zero⟩
  rw [last.data,zero]
  rfl

theorem data_of_not_modified (clean : s.modified = false) : s.data = saved := by
  have mark : s.savedTop = s.undoTop := by simpa [modified] using clean
  exact inv.data.trans (inv.mark s.undoTop mark).2

theorem Inv.cut : Inv s.cut loaded saved := by
  have size : (s.changes.take s.undoTop).length = s.undoTop := by
    rw [length_take]
    exact Nat.min_eq_left inv.bound
  refine ⟨journal.fits_take inv.fits s.undoTop,Nat.le_of_eq size.symm,?_,.inr (.inl size.symm),fun k mark => ?_,fun grows => ?_⟩
  · simp only [State.cut,take_take,Nat.min_self]
    exact inv.data
  · simp only [State.cut] at mark ⊢
    split at mark
    · omega
    · rw [size,take_take,Nat.min_eq_left (by omega)]
      exact ⟨by omega,(inv.mark k mark).2⟩
  obtain ⟨top,unsaved⟩ := inv.growing grows
  refine ⟨size.symm,?_⟩
  simp only [State.cut,size]
  split
  · omega
  · rw [top]
    exact unsaved

theorem cut_length : s.cut.changes.length = s.undoTop := by
  rw [State.cut,length_take]
  exact Nat.min_eq_left inv.bound

theorem Inv.appended (top : s.undoTop = s.changes.length) (c : Change) (group : Nat)
    (fits : c.Fits s.data) :
    Inv {s with changes := s.changes ++ [c], group := group, undoTop := s.changes.length + 1, sealed := false,
                data := c.redo s.data} loaded saved := by
  have all : journal.replay loaded s.changes = s.data := by rw [inv.data,top,take_length]
  refine ⟨?_,by simp,?_,.inr (.inl (by simp)),fun k mark => ?_,fun _ => ⟨by simp,fun mark => ?_⟩⟩
  · rw [journal.fits_append,all]
    exact ⟨inv.fits,fits,trivial⟩
  · rw [take_of_length_le (by simp),journal.replay_append,all]
    rfl
  · obtain ⟨low,same⟩ := inv.mark k mark
    rw [take_append_of_le_length low]
    exact ⟨by simp; omega,same⟩
  · have low := (inv.mark (s.changes.length + 1) (by simpa using mark)).1
    omega

theorem Inv.extended (open_ : s.sealed = false) (c : Change) (b : UInt8)
    (last : s.changes.getLast? = some c) (insert : c.insert) :
    Inv {s with changes := s.changes.dropLast ++ [{c with bytes := c.bytes ++ [b]}],
                data := rawInsert s.data (c.pos + c.bytes.length) [b]} loaded saved := by
  obtain ⟨top,unsaved⟩ := inv.growing open_
  obtain ⟨init,split⟩ := getLast?_eq_some_iff.mp last
  have size : s.changes.length = init.length + 1 := by simp [split]
  have fits := inv.fits
  rw [split,journal.fits_append] at fits
  have inside : c.pos ≤ (journal.replay loaded init).length := by
    have fit := fits.2.1
    simpa [journal,Change.Fits,insert] using fit
  have data : s.data = rawInsert (journal.replay loaded init) c.pos c.bytes := by
    rw [inv.data,top,take_length,split,journal.replay_append]
    simp [Reversible.replay,journal,Change.redo,insert]
  have dropped : s.changes.dropLast = init := by rw [split,dropLast_concat]
  rw [dropped]
  have still : s.undoTop = (init ++ [{c with bytes := c.bytes ++ [b]}]).length := by
    rw [top,size]
    simp
  refine ⟨?_,Nat.le_of_eq still,?_,.inr (.inl still),fun k mark => ?_,fun _ => ⟨still,?_⟩⟩
  · rw [journal.fits_append]
    refine ⟨fits.1,?_,trivial⟩
    simpa [journal,Change.Fits,insert] using inside
  · rw [take_of_length_le (Nat.le_of_eq still.symm),journal.replay_append,data,rawInsert_append [b] inside]
    simp [Reversible.replay,journal,Change.redo,insert]
  · obtain ⟨low,same⟩ := inv.mark k mark
    have below : k ≤ init.length := by
      have : k ≠ s.changes.length := fun eq => unsaved (eq ▸ mark)
      omega
    rw [take_append_of_le_length below]
    rw [split,take_append_of_le_length below] at same
    exact ⟨Nat.le_trans below (by simp),same⟩
  · rw [← still,top]
    exact unsaved

end

theorem joined_spec {insert : Bool} {longer : Change} (join : s.joined insert pos bytes = some longer) :
    ∃ c b, insert ∧ s.changes.getLast? = some c ∧ bytes = [b] ∧ s.sealed = false ∧ c.insert ∧
      c.pos + c.bytes.length = pos ∧ longer = {c with bytes := c.bytes ++ [b]} := by
  unfold joined at join
  split at join
  · rename_i c b last
    split at join
    · rename_i can
      simp only [Bool.and_eq_true,Bool.not_eq_true',bne_iff_ne,beq_iff_eq] at can
      obtain ⟨⟨⟨⟨⟨isInsert,open_⟩,-⟩,-⟩,kind⟩,place⟩ := can
      exact ⟨c,b,isInsert,last,rfl,open_,kind,place,(Option.some.inj join).symm⟩
    · simp at join
  · simp at join

theorem Inv.insert (inv : Inv s loaded saved) (bytes : List UInt8) (inside : pos ≤ s.data.length) :
    Inv (s.insert pos bytes) loaded saved := by
  unfold State.insert
  split
  · exact inv
  have cutInv := inv.cut
  have top := cut_length inv
  simp only [record]
  split
  · rename_i longer join
    obtain ⟨c,b,-,last,rfl,open_,kind,rfl,rfl⟩ := joined_spec join
    exact cutInv.extended open_ c b last kind
  · exact cutInv.appended top.symm ⟨pos,bytes,_,true⟩ _ inside

theorem Inv.remove (inv : Inv s loaded saved) (inside : pos + count ≤ s.data.length) :
    Inv (s.remove pos count) loaded saved := by
  unfold State.remove
  split
  · exact inv
  have cutInv := inv.cut
  have top := cut_length inv
  have size : ((s.data.drop pos).take count).length = count := by
    simp
    omega
  simp only [record]
  split
  · rename_i longer join
    obtain ⟨c,b,impossible,-⟩ := joined_spec join
    exact absurd impossible (by decide)
  have added := cutInv.appended top.symm ⟨pos,(s.data.drop pos).take count,
    if s.grouping then s.group else (s.group + 1) % 2 ^ 32,false⟩ (if s.grouping then s.group else (s.group + 1) % 2 ^ 32)
    ⟨size.symm ▸ inside,size.symm ▸ rfl⟩
  simp only [Change.redo,Bool.false_eq_true,if_false,size] at added
  exact added

end State

namespace Session

/-- What Undo, Redo and the saved mark promise in one state. -/
structure Faithful (s : Session) : Prop where
  undo_redo : s.editor.undo ≠ s.editor →
    s.editor.undo.redo.data = s.editor.data ∧ s.editor.undo.redo.undoTop = s.editor.undoTop
  redo_undo : s.editor.redo ≠ s.editor →
    s.editor.redo.undo.data = s.editor.data ∧ s.editor.redo.undo.undoTop = s.editor.undoTop
  undo_all : ∀ n, s.editor.undoTop ≤ n →
    (State.undo^[n] s.editor).data = s.loaded ∧ (State.undo^[n] s.editor).undoTop = 0
  clean : s.editor.modified = false → s.editor.data = s.saved.getD s.loaded

def Holds (s : Session) : Prop := s.editor.Inv s.loaded (s.saved.getD s.loaded)

theorem Holds.starts (s : Session) (start : s.Starts) : s.Holds := by
  obtain ⟨data,group,rfl⟩ := start
  exact ⟨trivial,le_rfl,rfl,.inl rfl,fun k mark => ⟨by simp [State.opened] at mark; omega,by simp [State.opened]; rfl⟩,
    by simp [State.opened]⟩

theorem Holds.call (s : Session) (a : Call) (inv : s.Holds) (inRange : s.InRange a) : (s.call a).Holds := by
  cases a with
  | insert pos bytes => exact State.Inv.insert inv bytes inRange
  | remove pos count => exact State.Inv.remove inv inRange
  | beginGroup => exact ⟨inv.fits,inv.bound,inv.data,inv.between,inv.mark,inv.growing⟩
  | endGroup => exact ⟨inv.fits,inv.bound,inv.data,inv.between,inv.mark,by simp [Session.call,State.endGroup]⟩
  | type => exact ⟨inv.fits,inv.bound,inv.data,inv.between,inv.mark,inv.growing⟩
  | move cur anchor => exact ⟨inv.fits,inv.bound,inv.data,inv.between,inv.mark,by simp [Session.call]⟩
  | undo => exact State.Inv.undo inv
  | redo => exact State.Inv.redo inv
  | save written =>
    cases written with
    | false => exact inv
    | true =>
      refine ⟨inv.fits,inv.bound,inv.data,inv.between,fun k mark => ?_,by simp [Session.call,State.save]⟩
      have here : s.editor.undoTop = k := Int.ofNat_inj.mp mark
      subst here
      exact ⟨inv.bound,inv.data.symm⟩

theorem Reached.holds (s : Session) (reached : Reached s) : s.Holds :=
  Reach.invariant Holds Holds.starts (fun s a t inv inRange (moved : s.call a = t) => moved ▸ inv.call s a inRange) s reached

/-- In every session, whatever was typed, removed, undone, redone and saved before. -/
theorem reached_faithful (s : Session) (reached : Reached s) : s.Faithful := by
  have inv := reached.holds
  refine ⟨fun changed => State.undo_redo inv fun zero => changed ?_,
    fun changed => State.redo_undo inv fun ended => changed ?_,
    fun n enough => State.undo_all inv n enough,fun clean => State.data_of_not_modified inv clean⟩
  · unfold State.undo
    split
    · rfl
    · omega
  · simp [State.redo,ended]

def corrected : Session :=
  [.insert 2 [99],.save true,.remove 0 1,.undo].foldl call ⟨.opened [97,98] 0,[97,98],none⟩

theorem Reached.step {s : Session} (reached : Reached s) (a : Call) (inRange : s.InRange a) : Reached (s.call a) :=
  .next s _ a reached inRange rfl

theorem reached_faithful_corrected : Reached corrected ∧ corrected.Faithful ∧ corrected.editor.modified = false ∧
      corrected.saved = some [97,98,99] := by
  have start : Reached ⟨.opened [97,98] 0,[97,98],none⟩ := .start _ ⟨[97,98],0,rfl⟩
  have reached : Reached corrected :=
    (((start.step (.insert 2 [99]) (by decide)).step (.save true) trivial).step (.remove 0 1) (by decide)).step
      .undo trivial
  exact ⟨reached,reached_faithful corrected reached,by decide,by decide⟩

end Session

end SurfaceOS.Apps.Editor
