import SurfaceOS.Fat.DirCreate
import SurfaceOS.Fat.Fatdir

/-! What creating and removing records changes in the slots of a directory, and what a scan shows of
it. The long name of a record is buffered from the slots behind the last one that is no part of a
long name, so changes before that one do not reach it. -/
namespace SurfaceOS.Fat
open Lib.Memory Function List Option Nat Fatdir

variable {new : Fresh} {after run slots : List Slot} {count i need p perCluster room start : Nat} {s : Slot}

/-- Two states of the scan that later slots cannot tell apart: they may differ in characters that are still to come. -/
structure Lfn.Alike (a b : Lfn) : Prop where
  count : a.count = b.count
  expect : a.expect = b.expect
  valid : a.valid = b.valid
  checksum : a.checksum = b.checksum
  chars : ∀ k, a.expect ≤ k → k < a.count → a.chars k = b.chars k
  whole : a.valid → a.expect = 0

theorem Lfn.alike_reset (a b : Lfn) : a.reset.Alike b.reset := ⟨rfl,rfl,rfl,rfl,nofun,nofun⟩

theorem Lfn.alike_empty : Lfn.empty.Alike .empty := ⟨rfl,rfl,rfl,rfl,nofun,nofun⟩

def Lfn.begin (sc : Lfn) (s : Slot) : Lfn :=
  if s.isLast then {sc.reset with checksum := s.checksum, expect := s.ord, count := s.ord} else sc

variable {e : Entry} {a b : Lfn} {k : Nat} {t : Slot}

/-- The last slot of a long name starts it anew, whatever was before. -/
theorem Lfn.Alike.begin (alike : a.Alike b) (s : Slot) : (a.begin s).Alike (b.begin s) := by
  unfold Lfn.begin
  split
  · refine ⟨rfl,rfl,rfl,rfl,fun k low high => ?_,nofun⟩
    dsimp only at low high
    omega
  · exact alike

theorem Lfn.take_eq (sc : Lfn) (s : Slot) : sc.take s =
    if 1 ≤ s.ord ∧ s.ord ≤ maxLfnEntries ∧ s.checksum = (sc.begin s).checksum ∧ s.ord = (sc.begin s).expect then
      {sc.begin s with
        chars := update (sc.begin s).chars (s.ord - 1) s.units
        expect := s.ord - 1
        valid := (sc.begin s).valid || s.ord - 1 = 0}
    else (sc.begin s).reset := rfl

section
variable (alike : a.Alike b)
include alike

theorem Lfn.Alike.take (s : Slot) : (a.take s).Alike (b.take s) := by
  have begun := alike.begin s
  rw [Lfn.take_eq,Lfn.take_eq,← begun.checksum,← begun.expect]
  split
  · next fits =>
    refine ⟨begun.count,rfl,?_,begun.checksum,fun k low high => ?_,fun valid => ?_⟩
    · dsimp only
      rw [begun.valid]
    · dsimp only at low ⊢
      by_cases here : k = s.ord - 1
      · rw [here,update_self,update_self]
      · rw [update_of_ne here,update_of_ne here]
        exact begun.chars k (by omega) high
    rw [Bool.or_eq_true,decide_eq_true_eq] at valid
    rcases valid with old | done
    · have zero := begun.whole old
      omega
    · exact done
  · exact Lfn.alike_reset ..

theorem Lfn.Alike.pass (s : Slot) : (a.pass s).Alike (b.pass s) := by
  unfold Lfn.pass
  split
  · exact Lfn.alike_reset ..
  · split
    · exact alike.take s
    · exact Lfn.alike_reset ..

theorem Lfn.Alike.fold (slots : List Slot) : (slots.foldl Lfn.pass a).Alike (slots.foldl Lfn.pass b) := by
  induction slots generalizing a b with
  | nil => exact alike
  | cons s rest ih => exact ih (alike.pass s)

/-- Two alike states give a record the same long name, or both none. -/
theorem Lfn.Alike.matching (name11 : List UInt8) : ((a.matching name11).isSome = (b.matching name11).isSome) ∧
    ∀ sc tc, a.matching name11 = some sc → b.matching name11 = some tc → sc.text = tc.text := by
  unfold Lfn.matching
  rw [← alike.valid,← alike.count,← alike.checksum]
  split
  · next fits =>
    refine ⟨rfl,fun sc tc first second => ?_⟩
    obtain rfl := some.inj first
    obtain rfl := some.inj second
    have zero := alike.whole fits.1
    unfold Lfn.text
    rw [← alike.count]
    congr 1
    refine flatMap_congr fun k member => ?_
    rw [alike.chars k (by omega) (mem_range.mp member)]
  · exact ⟨rfl,nofun⟩

end

/-- A slot that ends a long name begun before it. -/
def Slot.Breaks (s : Slot) : Prop := s 0 = 0xE5 ∨ s.isLfn = false

theorem Slot.Breaks.pass (breaks : s.Breaks) (sc : Lfn) : sc.pass s = sc.reset := by
  unfold Lfn.pass
  rcases breaks with free | short
  · rw [if_pos free]
  · rw [short]
    split <;> rfl

theorem Slot.isRecord_iff : s.isRecord ↔ s 0 ≠ 0xE5 ∧ s.isLfn = false ∧ s.isVolumeId = false := by
  unfold Slot.isRecord
  simp

/-- What `scan_dir` remembers of a long name when it comes to slot `i`. -/
def contextAt (slots : List Slot) (i : Nat) : Lfn := (slots.take i).foldl Lfn.pass .empty

def entryAt (slots : List Slot) (i : Nat) (s : Slot) : Entry := ⟨i,s,(contextAt slots i).matching s.name11⟩

def Open (slots : List Slot) (i : Nat) : Prop := ∀ k ≤ i, ∀ t, slots[k]? = some t → t.isEnd = false

structure Shown (slots : List Slot) (i : Nat) (s : Slot) : Prop where
  here : slots[i]? = some s
  record : s.isRecord
  opened : Open slots i

theorem mem_scanFrom {sc : Lfn} : e ∈ scanFrom sc i slots ↔
    ∃ k s, Shown slots k s ∧ e = ⟨i + k,s,((slots.take k).foldl Lfn.pass sc).matching s.name11⟩ := by
  induction slots generalizing sc i with
  | nil =>
    constructor
    · rintro ⟨⟩
    · rintro ⟨k,s,shown,-⟩
      cases shown.here
  | cons t rest ih =>
    -- slot 0 by hand, the others are those of the rest
    have later : (∃ k s, Shown (t :: rest) k s ∧
        e = ⟨i + k,s,(((t :: rest).take k).foldl Lfn.pass sc).matching s.name11⟩) ↔
        t.isEnd = false ∧ ((t.isRecord ∧ e = ⟨i,t,sc.matching t.name11⟩) ∨
          e ∈ scanFrom (sc.pass t) (i + 1) rest) := by
      rw [ih]
      constructor
      · rintro ⟨k,s,shown,same⟩
        refine ⟨shown.opened 0 (zero_le k) t rfl,?_⟩
        cases k with
        | zero =>
          obtain rfl := some.inj shown.here
          exact .inl ⟨shown.record,same⟩
        | succ k =>
          refine .inr ⟨k,s,⟨shown.here,shown.record,fun j low u there => ?_⟩,?_⟩
          · exact shown.opened (j + 1) (by omega) u there
          · rw [same,show i + (k + 1) = i + 1 + k by omega]
            rfl
      · rintro ⟨opened,⟨record,same⟩ | ⟨k,s,shown,same⟩⟩
        · refine ⟨0,t,⟨rfl,record,fun j low u there => ?_⟩,same⟩
          obtain rfl : j = 0 := by omega
          obtain rfl := some.inj there
          exact opened
        refine ⟨k + 1,s,⟨shown.here,shown.record,fun j low u there => ?_⟩,?_⟩
        · cases j with
          | zero =>
            obtain rfl := some.inj there
            exact opened
          | succ j => exact shown.opened j (by omega) u there
        · rw [same,show i + (k + 1) = i + 1 + k by omega]
          rfl
    rw [later,scanFrom]
    by_cases ended : t.isEnd = true
    · rw [ended]
      exact ⟨by simp,by simp⟩
    by_cases record : t.isRecord = true
    · rw [if_pos record]
      simp [record]
    · rw [if_neg record]
      simp [record]

/-- A record is delivered when it stands in a slot before the end mark, with the long name that the slots before it give. -/
theorem mem_scanDir : e ∈ scanDir slots ↔ ∃ i s, Shown slots i s ∧ e = entryAt slots i s := by
  rw [scanDir,mem_scanFrom]
  simp only [zero_add]
  rfl

theorem scanDir_unique {d : Entry} (first : e ∈ scanDir slots) (second : d ∈ scanDir slots)
    (same : e.index = d.index) : e = d := by
  obtain ⟨i,s,shown,rfl⟩ := mem_scanDir.mp first
  obtain ⟨j,t,there,rfl⟩ := mem_scanDir.mp second
  obtain rfl : i = j := same
  obtain rfl : s = t := some.inj (shown.here.symm.trans there.here)
  rfl

structure Entry.Alike (e d : Entry) : Prop where
  index : e.index = d.index
  slot : e.slot = d.slot
  long : e.lfn.isSome = d.lfn.isSome
  name : e.name = d.name

theorem entryAt_alike (s : Slot)
    (alike : (contextAt slots i).Alike (contextAt after i)) : (entryAt slots i s).Alike (entryAt after i s) := by
  obtain ⟨long,text⟩ := alike.matching s.name11
  refine ⟨rfl,rfl,long,?_⟩
  unfold entryAt
  cases first : (contextAt slots i).matching s.name11 with
  | none =>
    rw [first] at long
    cases second : (contextAt after i).matching s.name11 with
    | none => rfl
    | some tc =>
      rw [second] at long
      cases long
  | some sc =>
    rw [first] at long
    cases second : (contextAt after i).matching s.name11 with
    | none =>
      rw [second] at long
      cases long
    | some tc => exact text sc tc first second

theorem contextAt_succ (here : slots[i]? = some s) :
    contextAt slots (i + 1) = (contextAt slots i).pass s := by
  unfold contextAt
  rw [take_add_one,here]
  simp

theorem contextAt_alike (slots : List Slot) (i : Nat) : (contextAt slots i).Alike (contextAt slots i) :=
  Lfn.alike_empty.fold _

/-- Behind a slot that breaks long names on both sides the contexts agree, whatever stands before it. -/
theorem contextAt_behind (behind : p < i)
    (here : slots[p]? = some s) (there : after[p]? = some t) (breaks : s.Breaks) (broken : t.Breaks)
    (same : ∀ k, p < k → k < i → slots[k]? = after[k]?) : (contextAt slots i).Alike (contextAt after i) := by
  induction i with
  | zero => cases behind
  | succ i ih =>
    by_cases last : p = i
    · subst last
      rw [contextAt_succ here,contextAt_succ there,breaks.pass,broken.pass]
      exact Lfn.alike_reset ..
    have before := ih (by omega) fun k low high => same k low (by omega)
    have slot := same i (by omega) (lt_succ_self i)
    cases found : slots[i]? with
    | none =>
      rw [found] at slot
      have first : slots.length ≤ i := getElem?_eq_none_iff.mp found
      have second : after.length ≤ i := getElem?_eq_none_iff.mp slot.symm
      unfold contextAt at before ⊢
      rw [take_of_length_le (by omega),take_of_length_le (by omega)]
      rwa [take_of_length_le first,take_of_length_le second] at before
    | some u =>
      rw [found] at slot
      rw [contextAt_succ found,contextAt_succ slot.symm]
      exact before.pass u

theorem contextAt_congr (same : ∀ k < i, slots[k]? = after[k]?) :
    contextAt slots i = contextAt after i := by
  unfold contextAt
  congr 1
  apply ext_getElem?
  intro k
  rw [getElem?_take,getElem?_take]
  split
  · next inside => exact same k inside
  · rfl

/-- A long-name slot that a record with this checksum takes for its own. -/
def Owned (sum : UInt8) (s : Slot) : Prop := s.isLfn ∧ s 0 ≠ 0xE5 ∧ s.checksum = sum

instance (sum : UInt8) (s : Slot) : Decidable (Owned sum s) := by
  unfold Owned
  infer_instance

def removeLfn (sum : UInt8) : Nat → List Slot → List Slot
  | 0, slots => slots
  | index + 1, slots => match slots[index]? with
    | none => slots
    | some raw => if Owned sum raw then removeLfn sum index (slots.set index (freed raw)) else slots

def remove (slots : List Slot) (index : Nat) : Except Errno Unit × List Slot :=
  match slots[index]? with
  | none => (.error .enxio,slots)
  | some e =>
    if e.isFree then (.error .enoent,slots)
    else (.ok (),removeLfn (shortChecksum e.name11) index (slots.set index (freed e)))

theorem freed_first (s : Slot) : freed s 0 = 0xE5 := rfl

/-- `remove` goes back over the owned slots and stops before the first that is not; only these are freed. -/
theorem removeLfn_spec (sum : UInt8) (index : Nat) (slots : List Slot) : ∃ start ≤ index,
    (∀ k, start ≤ k → k < index → ∃ t, slots[k]? = some t ∧ Owned sum t) ∧
    (0 < start → ∀ t, slots[start - 1]? = some t → ¬ Owned sum t) ∧
    ∀ k, (removeLfn sum index slots)[k]? =
      if start ≤ k ∧ k < index then (slots[k]?).map freed else slots[k]? := by
  induction index generalizing slots with
  | zero => exact ⟨0,le_refl 0,fun k _ none => absurd none (Nat.not_lt_zero k),nofun,
      fun k => (if_neg (by omega)).symm⟩
  | succ index ih =>
    unfold removeLfn
    cases here : slots[index]? with
    | none =>
      refine ⟨index + 1,le_refl _,fun k low high => by omega,fun _ t found => ?_,fun k => (if_neg (by omega)).symm⟩
      rw [Nat.add_sub_cancel,here] at found
      cases found
    | some raw =>
      dsimp only
      by_cases owned : Owned sum raw
      · rw [if_pos owned]
        obtain ⟨start,low,long,stop,result⟩ := ih (slots.set index (freed raw))
        have before : ∀ k < index, (slots.set index (freed raw))[k]? = slots[k]? := fun k below =>
          getElem?_set_ne (by omega)
        refine ⟨start,by omega,fun k first second => ?_,?_,fun k => ?_⟩
        · by_cases last : k = index
          · subst last
            exact ⟨raw,here,owned⟩
          · have found := long k first (by omega)
            rwa [before k (by omega)] at found
        · intro pos t found
          exact stop pos t (by rwa [before _ (by omega)])
        rw [result k]
        by_cases last : k = index
        · subst last
          rw [if_neg (by omega),if_pos ⟨low,lt_succ_self k⟩,here,
            List.getElem?_set_self (List.getElem?_eq_some_iff.mp here).1]
          rfl
        rw [getElem?_set_ne (Ne.symm last)]
        by_cases inside : start ≤ k ∧ k < index
        · rw [if_pos inside,if_pos ⟨inside.1,by omega⟩]
        · rw [if_neg inside,if_neg (by omega)]
      · rw [if_neg owned]
        refine ⟨index + 1,le_refl _,fun k low high => by omega,fun _ t found => ?_,
          fun k => (if_neg (by omega)).symm⟩
        rw [Nat.add_sub_cancel,here] at found
        exact some.inj found ▸ owned

structure Removed (slots : List Slot) (i : Nat) (s : Slot) (start : Nat) (after : List Slot) : Prop where
  here : slots[i]? = some s
  taken : s.isFree = false
  low : start ≤ i
  long : ∀ k, start ≤ k → k < i → ∃ t, slots[k]? = some t ∧ Owned (shortChecksum s.name11) t
  stop : 0 < start → ∀ t, slots[start - 1]? = some t → ¬ Owned (shortChecksum s.name11) t
  result : ∀ k, after[k]? = if start ≤ k ∧ k ≤ i then (slots[k]?).map freed else slots[k]?

theorem remove_removed (ran : remove slots i = (.ok (),after)) :
    ∃ s start, Removed slots i s start after := by
  revert ran
  fun_cases remove slots i with
  | case3 s here free =>
    intro ran
    obtain rfl := (Prod.mk.inj ran).2
    obtain ⟨start,low,long,stop,result⟩ :=
      removeLfn_spec (shortChecksum s.name11) i (slots.set i (freed s))
    have inside := (List.getElem?_eq_some_iff.mp here).1
    refine ⟨s,start,here,Bool.not_eq_true _ ▸ free,low,fun k first second => ?_,fun pos t found => ?_,fun k => ?_⟩
    · have found := long k first second
      rwa [getElem?_set_ne (by omega)] at found
    · exact stop pos t (by rwa [getElem?_set_ne (by omega)])
    rw [result k]
    by_cases last : k = i
    · subst last
      rw [if_neg (by omega),if_pos ⟨low,le_refl k⟩,here,getElem?_set_self inside]
      rfl
    rw [getElem?_set_ne (Ne.symm last)]
    by_cases between : start ≤ k ∧ k < i
    · rw [if_pos between,if_pos ⟨between.1,by omega⟩]
    · rw [if_neg between,if_neg (by omega)]
  | _ => nofun

section
variable {slots after : List Slot} {i start : Nat} {s : Slot}
variable (removed : Removed slots i s start after)
include removed

theorem Removed.length : after.length = slots.length := by
  have none : ∀ k : Nat, after[k]? = none ↔ slots[k]? = none := by
    intro k
    rw [removed.result]
    split
    · exact map_eq_none_iff
    · rfl
  simp only [getElem?_eq_none_iff] at none
  have first := (none after.length).mp (le_refl _)
  have second := (none slots.length).mpr (le_refl _)
  omega

/-- The slots that are freed besides the record's are long-name slots, so no other record is among them. -/
theorem Removed.outside (here : slots[k]? = some t) (record : t.isRecord) (other : k ≠ i) : ¬ (start ≤ k ∧ k ≤ i) := by
  rintro ⟨low,high⟩
  obtain ⟨u,found,long,_⟩ := removed.long k low (by omega)
  rw [here] at found
  cases found
  rw [(Slot.isRecord_iff.mp record).2.1] at long
  cases long

theorem Removed.opens (opened : Open slots k) : Open after k := by
  intro j low t found
  rw [removed.result] at found
  split at found
  · obtain ⟨u,_,rfl⟩ := map_eq_some_iff.mp found
    rfl
  · exact opened j low t found

/-- Every other record stays, with its long name. -/
theorem Removed.keeps (record : s.isRecord)
    (shown : Shown slots k t) (other : k ≠ i) : Shown after k t ∧ (entryAt slots k t).Alike (entryAt after k t) := by
  have outside := removed.outside shown.here shown.record other
  refine ⟨⟨?_,shown.record,removed.opens shown.opened⟩,entryAt_alike t ?_⟩
  · rw [removed.result,if_neg outside]
    exact shown.here
  rcases lt_or_ge k i with before | behind
  · have same : contextAt slots k = contextAt after k := contextAt_congr fun j below => by
      rw [removed.result,if_neg (by omega)]
    rw [← same]
    exact contextAt_alike slots k
  have gone : after[i]? = some (freed s) := by
    rw [removed.result,if_pos ⟨removed.low,le_refl i⟩,removed.here]
    rfl
  refine contextAt_behind (show i < k by omega) removed.here gone (.inr (Slot.isRecord_iff.mp record).2.1)
    (.inl (freed_first s)) fun j low _ => ?_
  rw [removed.result,if_neg (by omega)]

/-- After `remove` the directory shows all it showed but the one record. -/
theorem Removed.shown_iff (shown : Shown slots i s) : Shown after k t ↔ k ≠ i ∧ Shown slots k t := by
  constructor
  · intro now
    have here := now.here
    rw [removed.result] at here
    split at here
    · obtain ⟨u,_,rfl⟩ := map_eq_some_iff.mp here
      have record := now.record
      cases record
    rename_i outside
    refine ⟨fun same => outside ⟨by have := removed.low; omega,by omega⟩,here,now.record,fun j low u found => ?_⟩
    by_cases between : start ≤ j ∧ j ≤ i
    · exact shown.opened j between.2 u found
    · exact now.opened j low u (by rw [removed.result,if_neg between]; exact found)
  · rintro ⟨other,before⟩
    exact (removed.keeps shown.record before other).1

end

/-! A new record. -/

theorem place_getElem? (fits : start ≤ slots.length) (k : Nat) :
    (place slots start run)[k]? = if start ≤ k ∧ k < start + run.length then run[k - start]? else slots[k]? := by
  have front : (slots.take start).length = start := by rw [length_take,min_eq_left fits]
  unfold place
  rw [append_assoc]
  rcases lt_or_ge k start with before | later
  · rw [getElem?_append_left (by omega),getElem?_take_of_lt before,if_neg (by omega)]
  rw [getElem?_append_right (by omega),front]
  rcases lt_or_ge k (start + run.length) with inside | behind
  · rw [getElem?_append_left (by omega),if_pos ⟨later,inside⟩]
  · rw [getElem?_append_right (by omega),getElem?_drop,if_neg (by omega)]
    congr 1
    omega

theorem recordRun_length {units : List Nat} {name11 : List UInt8} {flags : UInt8} :
    (recordRun units count name11 flags new).length = count + 1 := by
  simp [recordRun]

section
variable {dir after : Dir} {name : Name} {new : Fresh} {slot count start more : Nat} {name11 : List UInt8}
  {grown : List Slot}

theorem Created.shape (made : Created dir name new slot after name11 count start more grown) :
    name11.length = 11 ∧ ∃ c rest, name11 = c :: rest ∧ c ≠ 0 := by
  have chosen := made.chosen
  by_cases long : (makeShortName name).needsLfn = true
  · obtain ⟨n,-,-,size,c,rest,begins,unmarked⟩ := made.numbered long
    exact ⟨size,c,rest,begins,fun zero => unmarked (.inr zero)⟩
  obtain ⟨base,ext,halves⟩ := halves_of_short (Bool.not_eq_true _ ▸ long)
  rw [makeShortName_halves halves,chooseShort,if_neg Bool.false_ne_true] at chosen
  split at chosen
  · cases chosen
  cases chosen
  obtain ⟨c,rest,rfl⟩ := exists_cons_of_ne_nil halves.some
  refine ⟨packed_length halves.baseFits halves.extFits,upper c,_,rfl,fun zero => made.text ?_⟩
  rw [← upper_zero.mp zero]
  rcases halves.split with ⟨rfl,_⟩ | rfl
  · exact mem_cons_self ..
  · exact mem_cons_self ..

def newRun (name : Name) (count : Nat) (name11 : List UInt8) (new : Fresh) : List Slot :=
  recordRun (utf8ToUcs2 nameMax name) count name11
    (if (makeShortName name).needsLfn then 0 else (makeShortName name).ntFlags) new

theorem newRun_long (inside : k < count) : (newRun name count name11 new)[k]? =
      some (lfnSlot (utf8ToUcs2 nameMax name) (shortChecksum name11) count (count - k)) := by
  unfold newRun recordRun
  rw [getElem?_append_left (by simpa using inside),getElem?_map,getElem?_range inside]
  rfl

theorem newRun_short : (newRun name count name11 new)[count]? =
    some (shortSlot name11 (if (makeShortName name).needsLfn then 0 else (makeShortName name).ntFlags) new) := by
  unfold newRun recordRun
  simp

section
variable (made : Created dir name new slot after name11 count start more grown)
include made

theorem Created.result (k : Nat) :
    after.slots[k]? = if start ≤ k ∧ k ≤ slot then (newRun name count name11 new)[k - start]? else grown[k]? := by
  have inside : start ≤ grown.length := by
    have := made.first.1.fits (succ_pos count)
    omega
  rw [made.placed,place_getElem? inside,recordRun_length,made.index]
  by_cases between : start ≤ k ∧ k ≤ start + count
  · rw [if_pos between,if_pos ⟨between.1,by omega⟩]
    rfl
  · rw [if_neg between,if_neg (by omega)]

/-- The slots of the new record were free. -/
theorem Created.free (low : start ≤ k) (high : k ≤ slot) : ∃ s, grown[k]? = some s ∧ s.isFree := by
  have index := made.index
  obtain ⟨s,here,free⟩ := made.first.1 (k - start) (by omega)
  rw [Nat.add_sub_cancel' low] at here
  exact ⟨s,here,free⟩

theorem Created.unmarked (here : (newRun name count name11 new)[k]? = some s) : s.isEnd = false := by
  rcases lt_trichotomy k count with inside | rfl | behind
  · rw [newRun_long inside] at here
    obtain rfl := some.inj here
    have fits : count ≤ 20 := made.fits
    exact decide_eq_false fun zero => lfnSlot_unmarked (by omega) (by omega) (.inr zero)
  · rw [newRun_short] at here
    obtain rfl := some.inj here
    obtain ⟨_,c,rest,begins,text⟩ := made.shape
    exact shortSlot_isEnd begins text
  · have length : (newRun name count name11 new).length = count + 1 := recordRun_length
    rw [getElem?_eq_none (by omega)] at here
    cases here

theorem Created.grown_getElem? (here : dir.slots[k]? = some s) : grown[k]? = some s := by
  rw [made.grew,List.getElem?_append_left (List.getElem?_eq_some_iff.mp here).1]
  exact here

end

theorem isFree_of_end (ended : s.isEnd) : s.isFree := by
  unfold Slot.isEnd at ended
  unfold Slot.isFree
  rw [decide_eq_true_eq] at ended ⊢
  exact .inr ended

theorem not_free_of_record (record : s.isRecord) (opened : s.isEnd = false) : s.isFree = false := by
  unfold Slot.isEnd at opened
  unfold Slot.isFree
  rw [decide_eq_false_iff_not] at opened ⊢
  rintro (free | zero)
  · exact (Slot.isRecord_iff.mp record).1 free
  · exact opened zero

section
variable (made : Created dir name new slot after name11 count start more grown)
include made

/-- A slot that was taken is none of the new record's. -/
theorem Created.outside
    (here : grown[k]? = some s) (taken : s.isFree = false) : ¬ (start ≤ k ∧ k ≤ slot) := by
  rintro ⟨low,high⟩
  obtain ⟨t,found,free⟩ := made.free low high
  rw [here] at found
  cases found
  rw [taken] at free
  cases free

theorem Created.shortSlot_at : after.slots[slot]? =
      some (shortSlot name11 (if (makeShortName name).needsLfn then 0 else (makeShortName name).ntFlags) new) := by
  have index := made.index
  rw [made.result,if_pos ⟨by omega,le_refl _⟩,show slot - start = count by omega,newRun_short]

theorem Created.breaks (flags : UInt8) : (shortSlot name11 flags new).Breaks := by
  right
  unfold Slot.isLfn
  rw [shortSlot_attr made.shape.1]
  cases new.isDir <;> decide

end

theorem free_breaks (free : s.isFree) (opened : s.isEnd = false) : s.Breaks := by
  unfold Slot.isFree at free
  rw [decide_eq_true_eq] at free
  unfold Slot.isEnd at opened
  rw [decide_eq_false_iff_not] at opened
  exact .inl (free.resolve_right opened)

/-- `create` leaves every record and its long name. -/
theorem Created.keeps (made : Created dir name new slot after name11 count start more grown)
    (shown : Shown dir.slots k s) :
    Shown after.slots k s ∧ (entryAt dir.slots k s).Alike (entryAt after.slots k s) := by
  have taken := not_free_of_record shown.record (shown.opened k (le_refl k) s shown.here)
  have outside := made.outside (made.grown_getElem? shown.here) taken
  have inside := (List.getElem?_eq_some_iff.mp shown.here).1
  have old : ∀ j ≤ k, grown[j]? = dir.slots[j]? := fun j low => by
    rw [made.grew,getElem?_append_left (by omega)]
  refine ⟨⟨?_,shown.record,fun j low t found => ?_⟩,entryAt_alike s ?_⟩
  · rw [made.result,if_neg outside]
    exact made.grown_getElem? shown.here
  · rw [made.result] at found
    split at found
    · exact made.unmarked found
    · rw [old j low] at found
      exact shown.opened j low t found
  rcases lt_or_ge k start with before | behind
  · have same : contextAt dir.slots k = contextAt after.slots k := contextAt_congr fun j below => by
      rw [made.result,if_neg (by omega),old j (by omega)]
    rw [← same]
    exact contextAt_alike dir.slots k
  have index := made.index
  obtain ⟨t,there,free⟩ := made.free (show start ≤ slot by omega) (le_refl slot)
  rw [old slot (by omega)] at there
  have opened := shown.opened slot (by omega) t there
  refine contextAt_behind (show slot < k by omega) there made.shortSlot_at (free_breaks free opened)
    (made.breaks _) fun j low high => ?_
  rw [made.result,if_neg (by omega),old j (by omega)]

end

def Trailing (kind : Slot → Prop) (slots : List Slot) : Prop :=
  ∀ (i j : Nat) (s t : Slot), i < j → slots[i]? = some s → s.isEnd → slots[j]? = some t → kind t

def Padded (slots grown : List Slot) : Prop := ∃ more, grown = slots ++ List.replicate more fun _ => 0

section
variable {kind : Slot → Prop} {slots grown : List Slot}
variable (padded : Padded slots grown)
include padded

theorem Padded.getElem? (here : grown[k]? = some s) :
    slots[k]? = some s ∨ slots.length ≤ k ∧ s = fun _ => 0 := by
  obtain ⟨more,same⟩ := padded
  obtain ⟨t,found,which⟩ := getElem_grown same (List.getElem?_eq_some_iff.mp here).1
  rw [here] at found
  cases found
  exact which

theorem Padded.old (inside : k < slots.length) : grown[k]? = slots[k]? := by
  obtain ⟨more,rfl⟩ := padded
  exact getElem?_append_left inside

theorem Padded.trailing (zero : kind fun _ => 0) (trailing : Trailing kind slots) : Trailing kind grown := by
  intro i j s t behind here ended there
  rcases padded.getElem? there with old | ⟨_,rfl⟩
  · have inside := (List.getElem?_eq_some_iff.mp old).1
    rw [padded.old (by omega)] at here
    exact trailing i j s t behind here ended old
  · exact zero

/-- Zeros at the end show no record. -/
theorem Padded.shown_iff : Shown grown k s ↔ Shown slots k s := by
  constructor
  · intro shown
    rcases padded.getElem? shown.here with old | ⟨_,rfl⟩
    · have inside := (List.getElem?_eq_some_iff.mp old).1
      refine ⟨old,shown.record,fun j low t found => shown.opened j low t ?_⟩
      rw [padded.old (by omega)]
      exact found
    · have opened := shown.opened k (le_refl k) _ shown.here
      cases opened
  · intro shown
    have inside := (List.getElem?_eq_some_iff.mp shown.here).1
    refine ⟨?_,shown.record,fun j low t found => shown.opened j low t ?_⟩
    · rw [padded.old inside]
      exact shown.here
    · rwa [padded.old (by omega)] at found

theorem Padded.entryAt (inside : k < slots.length) (s : Slot) : entryAt grown k s = entryAt slots k s := by
  unfold Fat.entryAt
  rw [contextAt_congr fun j low => padded.old (show j < slots.length by omega)]

end

theorem reserveRun_padded {result : Except Errno Nat} {dir : Dir}
    (ran : reserveRun perCluster need room slots = (result,dir)) : Padded slots dir.slots := by
  fun_induction reserveRun perCluster need room slots with
  | case3 _ _ _ ih =>
    obtain ⟨more,same⟩ := ih ran
    refine ⟨perCluster + more,?_⟩
    rw [same,growDir,append_assoc,replicate_append_replicate]
  | _ =>
    cases ran
    exact ⟨0,by simp⟩

theorem create_failed {dir after : Dir} {name : Name} {e : Errno}
    (ran : create perCluster dir name new = (.error e,after)) : Padded dir.slots after.slots := by
  revert ran
  fun_cases create perCluster dir name new with
  | case5 _ _ _ _ _ _ _ _ _ _ reserved =>
    rintro ⟨⟩
    exact reserveRun_padded reserved
  | case6 => rintro ⟨⟩
  | _ =>
    rintro ⟨⟩
    exact ⟨0,by simp⟩

section
variable {kind : Slot → Prop} {dir after : Dir} {name : Name} {new : Fresh} {slot count start more : Nat}
  {name11 : List UInt8} {grown : List Slot}
variable (made : Created dir name new slot after name11 count start more grown)
include made

theorem Created.padded : Padded dir.slots grown := ⟨more,made.grew⟩

section
variable (free : ∀ s, kind s → s.isFree)
include free

theorem Created.opened (zero : kind fun _ => 0) (trailing : Trailing kind dir.slots)
    (before : i < start) (here : grown[i]? = some s) : s.isEnd = false := by
  by_contra ended
  rw [Bool.not_eq_false] at ended
  have trailing := made.padded.trailing zero trailing
  have fits := made.first.1.fits (succ_pos count)
  refine made.first.2 i before fun k small => ?_
  cases k with
  | zero => exact ⟨s,here,isFree_of_end ended⟩
  | succ k =>
    have inside : i + (k + 1) < grown.length := by omega
    exact ⟨_,getElem?_eq_getElem inside,free _ (trailing i _ s _ (by omega) here ended
      (getElem?_eq_getElem inside))⟩

theorem Created.trailing (zero : kind fun _ => 0)
    (trailing : Trailing kind dir.slots) : Trailing kind after.slots := by
  intro i j s t behind here ended there
  rw [made.result] at here
  split at here
  · have unmarked := made.unmarked here
    rw [ended] at unmarked
    cases unmarked
  have late : slot < i := by
    by_contra early
    have open_ := made.opened free zero trailing (show i < start by omega) here
    rw [ended] at open_
    cases open_
  rw [made.result,if_neg (by omega)] at there
  exact made.padded.trailing zero trailing i j s t behind here ended there

theorem Created.shown (zero : kind fun _ => 0) (trailing : Trailing kind dir.slots)
    (shown : Shown after.slots k s) : k = slot ∨ Shown dir.slots k s := by
  by_cases own : k = slot
  · exact .inl own
  right
  have here := shown.here
  have index := made.index
  rw [made.result] at here
  split at here
  · next inside =>
    rw [newRun_long (by omega)] at here
    obtain rfl := some.inj here
    have short := (Slot.isRecord_iff.mp shown.record).2.1
    rw [lfnSlot_isLfn] at short
    cases short
  refine made.padded.shown_iff.mp ⟨here,shown.record,fun j low t found => ?_⟩
  by_cases between : start ≤ j ∧ j ≤ slot
  · by_contra ended
    rw [Bool.not_eq_false] at ended
    have tail := free s (made.padded.trailing zero trailing j k t s (by omega) found ended here)
    have taken := not_free_of_record shown.record (shown.opened k (le_refl k) s shown.here)
    rw [taken] at tail
    cases tail
  · exact shown.opened j low t (by rw [made.result,if_neg between]; exact found)

end

end

theorem Removed.trailing {kind : Slot → Prop}
    (removed : Removed slots i s start after) (opened : Open slots i) (trailing : Trailing kind slots) :
    Trailing kind after := by
  intro k j t u behind here ended there
  rw [removed.result] at here
  split at here
  · obtain ⟨w,_,rfl⟩ := map_eq_some_iff.mp here
    cases ended
  have late : i < k := by
    by_contra early
    have open_ := opened k (by omega) t here
    rw [ended] at open_
    cases open_
  rw [removed.result,if_neg (by omega)] at there
  exact trailing k j t u behind here ended there

def removeName (slots : List Slot) (name : Name) : List Slot :=
  match find slots name with
  | none => slots
  | some e => (remove slots e.index).2

theorem removeName_cases (slots : List Slot) (name : Name) :
    removeName slots name = slots ∨ ∃ e s start, find slots name = some e ∧ Shown slots e.index s ∧
      Removed slots e.index s start (removeName slots name) := by
  unfold removeName
  cases found : find slots name with
  | none => exact .inl rfl
  | some e =>
    dsimp only
    obtain ⟨i,s,shown,rfl⟩ := mem_scanDir.mp (mem_of_find?_eq_some found)
    rcases ran : remove slots (entryAt slots i s).index with ⟨e | u,after⟩
    · left
      revert ran
      fun_cases remove slots (entryAt slots i s).index with
      | case3 => nofun
      | _ =>
        rintro ⟨⟩
        rfl
    obtain ⟨t,start,removed⟩ := remove_removed ran
    obtain rfl : s = t := some.inj (shown.here.symm.trans removed.here)
    exact .inr ⟨_,s,start,rfl,shown,removed⟩

end SurfaceOS.Fat
