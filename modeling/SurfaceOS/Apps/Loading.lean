import SurfaceOS.Apps.Editor

/-! Load and Save of the editor (apps/explorer/editor.cpp). What the file's calls do is given by the place they
are made at: they move some of the bytes asked for, or fail. Load leaves its loop at a read that fails or
gives nothing, and reports success all the same. -/
namespace SurfaceOS.Apps.Editor
open Lib List

variable {length pos rounds : Nat} {reads writes : Nat → Option Nat} {data content : List UInt8}

def maxFile : Nat := 64 * 1024 * 1024

def piece (left : Nat) : Nat := min left (1024 * 1024)

/-- Every round adds a byte at least, so that the file's length bounds the rounds. -/
def loadLoop (length : Nat) (reads : Nat → Option Nat) : Nat → Nat → Nat
  | 0, size => size
  | rounds + 1, size =>
    if size < length then
      match reads size with
      | none => size
      | some n =>
        let n := min n (piece (length - size))
        if n = 0 then size else loadLoop length reads rounds (size + n)
    else size

def load (file : Option (List UInt8)) (opens memory : Bool) (reads : Nat → Option Nat) : Option (List UInt8) :=
  if !opens then none
  else match file with
    | none => if memory then some [] else none
    | some bytes =>
      if maxFile < bytes.length then none
      else if memory then some (bytes.take (loadLoop bytes.length reads bytes.length 0)) else none

/-- Whether all was written, and the bytes the truncated file has then. -/
def saveLoop (data : List UInt8) (writes : Nat → Option Nat) : Nat → Nat → Bool × List UInt8
  | 0, done => (true,data.take done)
  | rounds + 1, done =>
    if done < data.length then
      let n := piece (data.length - done)
      match writes done with
      | none => (false,data.take done)
      | some w => if w < n then (false,data.take (done + w)) else saveLoop data writes rounds (done + n)
    else (true,data.take done)

def save (old data : List UInt8) (opens : Bool) (writes : Nat → Option Nat) : Bool × List UInt8 :=
  if opens then saveLoop data writes data.length 0 else (false,old)

/-- Where Load reads. -/
inductive Reads (length : Nat) (reads : Nat → Option Nat) : Nat → Prop
  | first : Reads length reads 0
  | next (pos n : Nat) (here : Reads length reads pos) (before : pos < length) (given : reads pos = some n) :
      Reads length reads (pos + min n (piece (length - pos)))

theorem Reads.loop (reaches : Reads length reads pos) : ∃ rounds, length ≤ pos + rounds ∧
    loadLoop length reads length 0 = loadLoop length reads rounds pos := by
  induction reaches with
  | first => exact ⟨length,Nat.le_add_left ..,rfl⟩
  | next pos n _ before given ih =>
    obtain ⟨_ | rounds,enough,same⟩ := ih
    · omega
    by_cases none_ : min n (piece (length - pos)) = 0
    · exact ⟨rounds + 1,by omega,by rwa [none_]⟩
    · refine ⟨rounds,by omega,same.trans ?_⟩
      simp only [loadLoop,if_pos before,given,if_neg none_]

theorem loadLoop_whole (given : ∀ pos, Reads length reads pos → pos < length → (reads pos).getD 0 ≠ 0)
    (reaches : Reads length reads pos) (enough : length ≤ pos + rounds) :
    length ≤ loadLoop length reads rounds pos := by
  induction rounds generalizing pos with
  | zero => exact enough
  | succ rounds ih =>
    rw [loadLoop]
    split
    · rename_i before
      have some_ := given pos reaches before
      cases answer : reads pos with
      | none => simp [answer] at some_
      | some n =>
        rw [answer,Option.getD_some] at some_
        have gained : min n (piece (length - pos)) ≠ 0 := by
          unfold piece
          omega
        simp only [if_neg gained]
        exact ih (.next pos n reaches before answer) (by omega)
    · omega

theorem loadLoop_iff : length ≤ loadLoop length reads length 0 ↔
    ∀ pos, Reads length reads pos → pos < length → (reads pos).getD 0 ≠ 0 := by
  refine ⟨fun whole pos reaches before failed => ?_,fun given => loadLoop_whole given .first (Nat.le_add_left ..)⟩
  obtain ⟨_ | rounds,enough,same⟩ := reaches.loop
  · omega
  rw [same,loadLoop,if_pos before] at whole
  cases answer : reads pos with
  | none =>
    simp only [answer] at whole
    omega
  | some n =>
    rw [answer,Option.getD_some] at failed
    simp only [answer,failed,Nat.zero_min,if_true] at whole
    omega

theorem saveLoop_ok {done : Nat} (enough : data.length ≤ done + rounds)
    (ok : saveLoop data writes rounds done = (true,content)) : content = data := by
  fun_induction saveLoop data writes rounds done with
  | case1 =>
    cases ok
    exact take_of_length_le enough
  | case4 _ _ _ n _ _ _ ih =>
    refine ih ?_ ok
    simp only [n,piece]
    omega
  | case5 =>
    cases ok
    exact take_of_length_le (by omega)
  | _ => cases ok

variable {file : Option (List UInt8)} {opens memory : Bool}

theorem load_ok (loaded : load file opens memory reads = some data) :
    data = (file.getD []).take (loadLoop (file.getD []).length reads (file.getD []).length 0) := by
  cases file <;> simp only [load] at loaded <;> split at loaded <;> simp_all

/-- The buffer is the file, and what any later successful Save leaves is the file with the changes done to it. -/
def Right (old data : List UInt8) : Prop :=
  data = old ∧ ∀ s, Session.Reached s → s.loaded = data → ∀ opens writes content,
    save old s.editor.data opens writes = (true,content) →
      content = journal.replay old (s.editor.changes.take s.editor.undoTop)

/-- A Load that reports success is right exactly when no read before the end failed or gave nothing. -/
theorem load_right_iff (loaded : load file opens memory reads = some data) : Right (file.getD []) data ↔
    ∀ pos, Reads (file.getD []).length reads pos → pos < (file.getD []).length → (reads pos).getD 0 ≠ 0 := by
  have read := load_ok loaded
  rw [← loadLoop_iff]
  refine ⟨fun ⟨same,_⟩ => ?_,fun whole => ?_⟩
  · have size := congrArg List.length (same.symm.trans read)
    rw [length_take] at size
    omega
  rw [take_of_length_le whole] at read
  refine ⟨read,fun s reached from_ opens writes content saved => ?_⟩
  cases opens with
  | false => cases saved
  | true =>
    rw [saveLoop_ok (Nat.le_add_left _ _) saved,← read,← from_]
    exact reached.holds.data

theorem load_right_pieces : Right [97,98,99] [97,98,99] :=
  have loaded : load (some [97,98,99]) true true (fun _ => some 2) = some [97,98,99] := by decide
  (load_right_iff loaded).mpr fun _ _ _ => by decide

def cutShort : Session := Session.call ⟨.opened [97,98] 0,[97,98],none⟩ (.insert 0 [100])

/-- The second read of three bytes fails; a byte typed in front and saved cuts the third off. -/
theorem unread_byte_lost :
    load (some [97,98,99]) true true (fun pos => if pos = 0 then some 2 else none) = some [97,98] ∧
      Session.Reached cutShort ∧ save [97,98,99] cutShort.editor.data true (fun _ => some 4) = (true,[100,97,98]) ∧
      journal.replay [97,98,99] (cutShort.editor.changes.take cutShort.editor.undoTop) = [100,97,98,99] :=
  ⟨by decide,Session.Reached.step (.start _ ⟨[97,98],0,rfl⟩) _ (Nat.zero_le _),by decide,by decide⟩

end SurfaceOS.Apps.Editor
