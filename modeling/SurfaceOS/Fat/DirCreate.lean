import Mathlib.Tactic.IntervalCases
import SurfaceOS.Fat.DirScan

/-! A created record and the scans after it: which names `create` stores so that `find` and a listing
give them back. -/
namespace SurfaceOS.Fat
open Lib.Memory Function List Nat

variable {slots : List Slot} {i count k left n perCluster slot v : Nat} {base ext name : Name} {new : Fresh}
  {units : List Nat} {alias11 name11 : List UInt8} {flags sum : UInt8}

theorem le16_bytes (small : v < 2^16) :
    (UInt8.ofNat v).toNat + 256 * (UInt8.ofNat (v / 256)).toNat = v := by
  rw [UInt8.toNat_ofNat',UInt8.toNat_ofNat']
  omega

theorem Slot.units_eq (s : Slot) : s.units = (range 13).map fun k =>
    le16 s (if k < 5 then 1 + 2 * k else if k < 11 then 14 + 2 * (k - 5) else 28 + 2 * (k - 11)) := rfl

theorem slotUnits_small (small : ∀ c ∈ units, c < 2^16) (s i : Nat) :
    (if (s - 1) * 13 + i < units.length then units.getD ((s - 1) * 13 + i) 0
      else if (s - 1) * 13 + i = units.length then 0x0000 else 0xFFFF) < 2^16 := by
  split
  · next inside =>
    rw [getD_eq_getElem?_getD,getElem?_eq_getElem inside]
    exact small _ (getElem_mem inside)
  · split <;> decide

variable {sc : Lfn} {rest : List UInt8} {c : UInt8}

section
variable {units : List Nat} {sum : UInt8} {count s : Nat}

theorem lfnSlot_units (small : ∀ c ∈ units, c < 2^16) : (lfnSlot units sum count s).units = slotUnits units s := by
  rw [Slot.units_eq]
  refine map_congr_left fun k member => ?_
  have bound := mem_range.mp member
  have pair := le16_bytes (slotUnits_small small s k)
  interval_cases k <;> exact pair

theorem lfnSlot_isLfn : (lfnSlot units sum count s).isLfn := by
  have attr : (lfnSlot units sum count s).attr = 0x0F := rfl
  rw [Slot.isLfn,attr]
  decide

theorem lfnSlot_byte (small : s ≤ 20) : (lfnSlot units sum count s 0).toNat = s + if s = count then 0x40 else 0 := by
  exact toNat_ofNat (by split <;> omega)

theorem lfnSlot_ord (small : s ≤ 20) : (lfnSlot units sum count s).ord = s := by
  rw [Slot.ord,lfnSlot_byte small]
  split <;> omega

theorem lfnSlot_isLast (small : s ≤ 20) : (lfnSlot units sum count s).isLast = decide (s = count) := by
  unfold Slot.isLast
  rw [lfnSlot_byte small]
  split
  · next same => simp; omega
  · next other => simp; omega

theorem lfnSlot_unmarked (low : 1 ≤ s) (small : s ≤ 20) : ¬ Marked (lfnSlot units sum count s 0) := by
  have byte := @lfnSlot_byte units sum count s small
  rintro (free | zero)
  · rw [free] at byte
    have : (0xE5 : UInt8).toNat = 229 := rfl
    split at byte <;> omega
  · rw [zero] at byte
    have : (0x00 : UInt8).toNat = 0 := rfl
    split at byte <;> omega

theorem pass_lfnSlot (low : 1 ≤ s) (small : s ≤ 20) (sc : Lfn) :
    sc.pass (lfnSlot units sum count s) = sc.take (lfnSlot units sum count s) := by
  rw [Lfn.pass,if_neg fun free => lfnSlot_unmarked low small (.inl free),if_pos lfnSlot_isLfn]

structure Buffered (units : List Nat) (sum : UInt8) (count k : Nat) (sc : Lfn) : Prop where
  total : sc.count = count
  expect : sc.expect = count - k
  valid : sc.valid = decide (k = count)
  checksum : sc.checksum = sum
  chars : ∀ j, count - k ≤ j → j < count → sc.chars j = slotUnits units (j + 1)

section
variable (small : ∀ c ∈ units, c < 2^16)
include small

theorem buffered_first (some : 1 ≤ count) (fits : count ≤ 20) (sc : Lfn) :
    Buffered units sum count 1 (sc.pass (lfnSlot units sum count count)) := by
  rw [pass_lfnSlot some fits,Lfn.take,lfnSlot_isLast fits,lfnSlot_ord fits,lfnSlot_units small,
    decide_eq_true rfl,if_pos rfl]
  dsimp only [Lfn.reset]
  rw [if_pos ⟨some,fits,rfl,rfl⟩]
  refine ⟨rfl,rfl,?_,rfl,fun j low high => ?_⟩
  · rw [Bool.false_or]
    exact decide_eq_decide.mpr (by omega)
  · obtain rfl : j = count - 1 := by omega
    dsimp only
    rw [update_self,Nat.sub_add_cancel some]

theorem buffered_next (fits : count ≤ 20) (some : 1 ≤ k) (more : k < count)
    (buffered : Buffered units sum count k sc) :
    Buffered units sum count (k + 1) (sc.pass (lfnSlot units sum count (count - k))) := by
  have low : 1 ≤ count - k := by omega
  have high : count - k ≤ 20 := by omega
  rw [pass_lfnSlot low high,Lfn.take,lfnSlot_isLast high,lfnSlot_ord high,lfnSlot_units small,
    decide_eq_false (by omega),if_neg Bool.false_ne_true]
  rw [if_pos ⟨low,high,buffered.checksum.symm,buffered.expect.symm⟩]
  refine ⟨buffered.total,by dsimp only; omega,?_,buffered.checksum,fun j after inside => ?_⟩
  · dsimp only
    rw [buffered.valid,decide_eq_false (by omega)]
    exact decide_eq_decide.mpr (by omega)
  dsimp only
  rcases Nat.eq_or_lt_of_le after with same | later
  · obtain rfl : j = count - k - 1 := by omega
    rw [update_self,Nat.sub_add_cancel low]
  · rw [update_of_ne (by omega),buffered.chars j (by omega) inside]

theorem buffered_run (some : 1 ≤ count) (fits : count ≤ 20) (sc : Lfn) : Buffered units sum count count
      (((range count).map fun j => lfnSlot units sum count (count - j)).foldl Lfn.pass sc) := by
  have upTo : ∀ k, 1 ≤ k → k ≤ count → Buffered units sum count k
      (((range k).map fun j => lfnSlot units sum count (count - j)).foldl Lfn.pass sc) := by
    intro k low high
    induction k with
    | zero => omega
    | succ k ih =>
      rw [range_succ,map_append,foldl_append]
      cases k with
      | zero => exact buffered_first small some fits sc
      | succ k => exact buffered_next small fits (by omega) (by omega) (ih (by omega) (by omega))
  exact upTo count some (le_refl _)

end

end

theorem Buffered.text
    (buffered : Buffered units sum (slotsFor units.length) (slotsFor units.length) sc) :
    sc.text = (slotsText units).take nameMax := by
  rw [Lfn.text,buffered.total]
  congr 1
  refine flatMap_congr fun j member => ?_
  rw [buffered.chars j (by omega) (mem_range.mp member)]

theorem Buffered.matching (some : 1 ≤ count)
    (buffered : Buffered units (shortChecksum name11) count count sc) : sc.matching name11 = .some sc := by
  rw [Lfn.matching,if_pos ⟨by rw [buffered.valid]; exact decide_eq_true rfl,by rw [buffered.total]; exact some,
    buffered.checksum⟩]

theorem slotsText_le (name : Name) : (slotsText (utf8ToUcs2 nameMax name)).length ≤ name.length := by
  refine le_trans ?_ (utf8ToUcs2_spent nameMax name)
  rw [slotsText_blocks,← blocks_bytes]
  exact flatMap_length_le fun j _ => ucs2ToUtf8_le ..

theorem text_iff (small : name.length ≤ nameMax) :
    (slotsText (utf8ToUcs2 nameMax name)).take nameMax = name ↔ ∃ cs, Spelled name cs := by
  rw [take_of_length_le (le_trans (slotsText_le name) small)]
  constructor
  · exact fun same => ⟨_,spelled_of_text same⟩
  · rintro ⟨cs,spelled⟩
    rw [spelled.units small]
    exact spelled.text

section
variable {name11 : List UInt8} {flags : UInt8} {new : Fresh}

section
variable (size : name11.length = 11)
include size

theorem shortSlot_behind (i : Nat) : shortSlot name11 flags new (11 + i) =
    (([0x20 ||| if new.isDir then 0x10 else 0,flags,0] ++ bytes16 new.time ++ bytes16 new.date ++ bytes16 new.date ++
      bytes16 (new.firstCluster / 65536) ++ bytes16 new.time ++ bytes16 new.date ++ bytes16 new.firstCluster ++
      bytes32 0)[i]?).getD 0 := by
  rw [shortSlot,patch,if_pos (Nat.zero_le _),Nat.sub_zero]
  simp only [append_assoc]
  rw [getElem?_append_right (by omega),size,Nat.add_sub_cancel_left]

theorem shortSlot_name11 : (shortSlot name11 flags new).name11 = name11 := by
  unfold Slot.name11 shortSlot
  simp only [append_assoc]
  apply ext_getElem?
  intro i
  rcases Nat.lt_or_ge i 11 with inside | behind
  · rw [slice_getElem? _ _ _ _ inside,Nat.zero_add,patch,Nat.sub_zero,
      getElem?_append_left (by omega),getElem?_eq_getElem (by omega)]
    rfl
  · rw [getElem?_eq_none (by rw [slice_length]; exact behind),getElem?_eq_none (by omega)]

theorem shortSlot_attr : (shortSlot name11 flags new).attr = 0x20 ||| if new.isDir then 0x10 else 0 :=
  shortSlot_behind size 0

theorem shortSlot_ntFlags : (shortSlot name11 flags new).ntFlags = flags :=
  shortSlot_behind size 1

end

section
variable (start : name11 = c :: rest)
include start

theorem shortSlot_first : shortSlot name11 flags new 0 = c := by
  rw [start]
  rfl

theorem shortSlot_isEnd (text : c ≠ 0) : (shortSlot name11 flags new).isEnd = false := by
  rw [Slot.isEnd,shortSlot_first start]
  exact decide_eq_false text

theorem shortSlot_isRecord (size : name11.length = 11) :
    (shortSlot name11 flags new).isRecord = decide (c ≠ 0xE5) := by
  unfold Slot.isRecord Slot.isLfn Slot.isVolumeId
  rw [shortSlot_first start,shortSlot_attr size]
  cases new.isDir <;> simp <;> intro _ <;> decide

theorem scan_shortSlot (size : name11.length = 11)
    (text : c ≠ 0) (sc : Lfn) (i : Nat) (back : List Slot) : scanFrom sc i (shortSlot name11 flags new :: back) =
      (if c = 0xE5 then [] else [⟨i,shortSlot name11 flags new,sc.matching name11⟩]) ++
        scanFrom (sc.pass (shortSlot name11 flags new)) (i + 1) back := by
  rw [scanFrom,shortSlot_isEnd start text,if_neg Bool.false_ne_true,shortSlot_isRecord start size,shortSlot_name11 size]
  by_cases free : c = 0xE5
  · rw [if_neg (by simp [free]),if_pos free]
    rfl
  · rw [if_pos (by simp [free]),if_neg free]
    rfl

end

end

/-- `find` gives the record in slot `i` for the name, and a listing reports the name there. -/
def Reported (slots : List Slot) (i : Nat) (name : Name) : Prop :=
  (∃ e, find slots name = some e ∧ e.index = i) ∧ (i,name) ∈ listing slots slots.length 0

theorem eqNocase_refl (name : Name) : eqNocase name name := by
  simp [eqNocase]

theorem reported_iff {before after : List Entry} {e : Entry}
    (scan : scanDir slots = before ++ e :: after) (here : e.index = i) (others : ∀ d ∈ before, d.answers name = false)
    (below : ∀ d ∈ before, d.index < i) (above : ∀ d ∈ after, i < d.index) :
    Reported slots i name ↔ e.name = name := by
  rw [Reported,mem_listing]
  constructor
  · rintro ⟨_,d,member,place,shown⟩
    rw [scan] at member
    rcases mem_append.mp member with early | late
    · exact absurd place (Nat.ne_of_lt (below d early))
    · rcases mem_cons.mp late with rfl | behind
      · exact shown
      · exact absurd place (ne_of_gt (above d behind))
  · intro shown
    have answers : e.answers name := by
      rw [Entry.answers,shown,eqNocase_refl]
      rfl
    refine ⟨⟨e,?_,here⟩,e,?_,here,shown⟩
    · have none : before.find? (·.answers name) = none :=
        find?_eq_none.mpr fun d member => by rw [others d member]; exact Bool.false_ne_true
      have first : (e :: after).find? (·.answers name) = some e := find?_cons_of_pos answers
      rw [find,scan,find?_append,none,Option.none_or,first]
    · rw [scan]
      exact mem_append_right _ (mem_cons_self ..)

theorem not_reported (away : ∀ d ∈ scanDir slots, d.index ≠ i) : ¬ Reported slots i name := by
  rintro ⟨_,listed⟩
  obtain ⟨d,member,place,_⟩ := mem_listing.mp listed
  exact away d member place

structure Created (dir : Dir) (name : Name) (new : Fresh) (slot : Nat) (after : Dir) (name11 : List UInt8)
    (count start more : Nat) (grown : List Slot) : Prop where
  filled : name ≠ []
  text : 0 ∉ name
  small : name.length ≤ nameMax
  fresh : find dir.slots name = none
  chosen : chooseShort dir.slots (makeShortName name) = .ok name11
  slots : count = if (makeShortName name).needsLfn then slotsFor (utf8ToUcs2 nameMax name).length else 0
  fits : count ≤ maxLfnEntries
  grew : grown = dir.slots ++ replicate more (fun _ => 0)
  first : FirstRun grown (count + 1) (some start)
  index : slot = start + count
  placed : after.slots = place grown start (recordRun (utf8ToUcs2 nameMax name) count name11
    (if (makeShortName name).needsLfn then 0 else (makeShortName name).ntFlags) new)

theorem create_created {dir : Dir} {after : Dir}
    (created : create perCluster dir name new = (.ok slot,after)) :
    ∃ name11 count start more grown, Created dir name new slot after name11 count start more grown := by
  revert created
  fun_cases create perCluster dir name new with
  | case6 valid fresh _ _ name11 chosen count fits start grown reserved =>
    rintro ⟨⟩
    obtain ⟨more,grew,first⟩ := reserveRun_ok (succ_pos _) reserved
    simp only [validName,Bool.not_not,Bool.not_eq_true',Bool.not_eq_false,Bool.and_eq_true,decide_eq_true_eq,
      all_eq_true] at valid
    obtain ⟨⟨some,chars⟩,small⟩ := valid
    refine ⟨name11,count,start,more,grown.slots,some,fun zero => ?_,small,?_,chosen,rfl,
      not_lt.mp fits,grew,first,rfl,rfl⟩
    · exact absurd (chars 0 zero).1.1 (by decide)
    · simpa using fresh
  | _ => nofun

theorem name_long (i : Nat) (s : Slot) (sc : Lfn) : Entry.name ⟨i,s,some sc⟩ = sc.text := rfl

theorem name_short (i : Nat) (s : Slot) : Entry.name ⟨i,s,none⟩ = formatShort s.name11 s.ntFlags := rfl

theorem scanFrom_lfn (long : ∀ s ∈ slots, s.isLfn) (sc : Lfn) (i : Nat) : scanFrom sc i slots = [] := by
  induction slots generalizing sc i with
  | nil => rfl
  | cons s rest ih =>
    have skipped : s.isRecord = false := by
      rw [Slot.isRecord,long s (mem_cons_self ..)]
      exact decide_eq_false (by simp)
    rw [scanFrom,skipped,ih fun t member => long t (mem_cons_of_mem s member)]
    split <;> rfl

def bufferedRun (units : List Nat) (count : Nat) (name11 : List UInt8) (sc : Lfn) : Lfn :=
  ((range count).map fun j => lfnSlot units (shortChecksum name11) count (count - j)).foldl Lfn.pass sc

theorem scan_recordRun
    (begins : name11 = c :: rest) (size : name11.length = 11) (text : c ≠ 0)
    (fits : count ≤ maxLfnEntries) (sc : Lfn) (i : Nat) (back : List Slot) :
    ∃ behind, scanFrom sc i (recordRun units count name11 flags new ++ back) = (if c = 0xE5 then []
        else [⟨i + count,shortSlot name11 flags new,(bufferedRun units count name11 sc).matching name11⟩]) ++
        scanFrom behind (i + count + 1) back := by
  have low : ∀ s ∈ (range count).map (fun j => lfnSlot units (shortChecksum name11) count (count - j)),
      s.isEnd = false ∧ s.isLfn := by
    intro s member
    obtain ⟨j,inside,rfl⟩ := mem_map.mp member
    have bound := mem_range.mp inside
    have small : count ≤ 20 := fits
    refine ⟨decide_eq_false fun zero => ?_,lfnSlot_isLfn⟩
    exact lfnSlot_unmarked (s := count - j) (by omega) (by omega) (.inr zero)
  rw [recordRun,append_assoc,scanFrom_append fun s member => (low s member).1,
    scanFrom_lfn fun s member => (low s member).2,nil_append,length_map,length_range,cons_append,
    nil_append,scan_shortSlot begins size text]
  exact ⟨_,rfl⟩

section
variable {dir after : Dir} {name : Name} {new : Fresh} {slot count start more : Nat} {name11 : List UInt8}
  {grown : List Slot}

section
variable (made : Created dir name new slot after name11 count start more grown)
include made

theorem Created.inside : start ≤ dir.slots.length :=
  firstRun_start made.grew (succ_pos _) made.first

theorem Created.layout :
    ∃ back, after.slots = dir.slots.take start ++ (recordRun (utf8ToUcs2 nameMax name) count name11
      (if (makeShortName name).needsLfn then 0 else (makeShortName name).ntFlags) new ++ back) := by
  have placed := made.placed
  rw [place,take_grown made.grew made.inside,append_assoc] at placed
  exact ⟨_,placed⟩

theorem Created.hidden {s : Slot}
    (member : s ∈ dir.slots.take start) (ended : s.isEnd) : ¬ Reported after.slots slot name := by
  obtain ⟨back,layout⟩ := made.layout
  refine not_reported fun d seen => ?_
  rw [layout,scanDir,scanFrom_ended member ended] at seen
  have bound := (scanFrom_index seen).2
  rw [length_take] at bound
  have index := made.index
  omega

theorem Created.silent (opened : ∀ s ∈ dir.slots.take start, s.isEnd = false) :
    ∀ d ∈ scanFrom .empty 0 (dir.slots.take start), d.answers name = false := by
  intro d member
  have whole : d ∈ scanDir dir.slots := by
    rw [scanDir,← take_append_drop start dir.slots,scanFrom_append opened]
    exact mem_append_left _ member
  have none := find?_eq_none.mp made.fresh d whole
  simpa using none

theorem Created.seen (begins : name11 = c :: rest) (size : name11.length = 11) (text : c ≠ 0)
    (opened : ∀ s ∈ dir.slots.take start, s.isEnd = false) : Reported after.slots slot name ↔ c ≠ 0xE5 ∧
      Entry.name ⟨slot,shortSlot name11 (if (makeShortName name).needsLfn then 0 else (makeShortName name).ntFlags) new,
        (bufferedRun (utf8ToUcs2 nameMax name) count name11
          ((dir.slots.take start).foldl Lfn.pass .empty)).matching name11⟩ = name := by
  obtain ⟨back,layout⟩ := made.layout
  obtain ⟨behind,run⟩ := scan_recordRun begins size text made.fits
    ((dir.slots.take start).foldl Lfn.pass .empty) start back
  have here : (dir.slots.take start).length = start := by rw [length_take,min_eq_left made.inside]
  have scan := scanFrom_append opened (recordRun (utf8ToUcs2 nameMax name) count name11
    (if (makeShortName name).needsLfn then 0 else (makeShortName name).ntFlags) new ++ back) .empty 0
  rw [here,zero_add,run,← layout,← made.index] at scan
  have below : ∀ d ∈ scanFrom .empty 0 (dir.slots.take start), d.index < slot := by
    intro d member
    have bound := (scanFrom_index member).2
    have index := made.index
    omega
  have above : ∀ d ∈ scanFrom behind (slot + 1) back, slot < d.index := fun d member => (scanFrom_index member).1
  by_cases free : c = 0xE5
  · refine iff_of_false (not_reported fun d member => ?_) fun both => both.1 free
    rw [scanDir,scan,if_pos free] at member
    rcases mem_append.mp member with early | late
    · exact Nat.ne_of_lt (below d early)
    · exact ne_of_gt (above d late)
  · rw [if_neg free] at scan
    rw [reported_iff scan rfl (made.silent opened) below above]
    exact (and_iff_right free).symm

end

theorem numberLoop_ok (chosen : numberLoop slots alias11 left n = .ok name11) :
    ∃ m, name11 = numbered alias11 m ∧ (suffix m).length ≤ 7 := by
  fun_induction numberLoop slots alias11 left n with
  | case1 | case2 => cases chosen
  | case3 _ _ _ _ ih => exact ih chosen
  | case4 left n short => exact ⟨n,(Except.ok.inj chosen).symm,not_lt.mp short⟩

theorem slotsFor_pos (some : name ≠ []) : 1 ≤ slotsFor (utf8ToUcs2 nameMax name).length := by
  obtain ⟨b,p,rfl⟩ := exists_cons_of_ne_nil some
  have turn := @utf8ToUcs2_turn _ _ 254 b p rfl
  have covers := slotsFor_covers (utf8ToUcs2 nameMax (b :: p)).length
  rw [show nameMax = 254 + 1 from rfl,turn,length_cons] at covers ⊢
  omega

theorem Created.numbered (made : Created dir name new slot after name11 count start more grown)
    (long : (makeShortName name).needsLfn) : ∃ n, name11 = numbered (makeShortName name).name11 n ∧
      (suffix n).length ≤ 7 ∧ name11.length = 11 ∧ ∃ c rest, name11 = c :: rest ∧ ¬ Marked c := by
  have chosen := made.chosen
  rw [chooseShort,if_pos long] at chosen
  obtain ⟨n,rfl,fits⟩ := numberLoop_ok chosen
  obtain ⟨size,a,tail,begins,unmarked⟩ := makeShortName_alias made.filled made.text long
  exact ⟨n,rfl,fits,numbered_shape size begins unmarked fits⟩

theorem Created.long_reported (made : Created dir name new slot after name11 count start more grown)
    (long : (makeShortName name).needsLfn) : Reported after.slots slot name ↔
      ∃ cs, Spelled name cs ∧ RoomBeforeEnd dir.slots (slotsFor cs.length + 1) := by
  have slots : count = slotsFor (utf8ToUcs2 nameMax name).length := by
    rw [made.slots,if_pos long]
  have room := roomBeforeEnd_iff made.grew (succ_pos _) made.first
  have spelling : (∃ cs, Spelled name cs ∧ RoomBeforeEnd dir.slots (slotsFor cs.length + 1)) ↔
      (∃ cs, Spelled name cs) ∧ ∀ s ∈ dir.slots.take start, s.isEnd = false := by
    rw [← room,slots]
    constructor
    · rintro ⟨cs,spelled,fits⟩
      rw [spelled.units made.small]
      exact ⟨⟨cs,spelled⟩,fits⟩
    · rintro ⟨⟨cs,spelled⟩,fits⟩
      rw [spelled.units made.small] at fits
      exact ⟨cs,spelled,fits⟩
  rw [spelling]
  by_cases opened : ∀ s ∈ dir.slots.take start, s.isEnd = false
  · rw [and_iff_left opened]
    obtain ⟨n,rfl,fits,size,c,rest,begins,unmarked⟩ := made.numbered long
    rw [made.seen begins size (fun zero => unmarked (.inr zero)) opened,and_iff_right fun free => unmarked (.inl free)]
    have some := slotsFor_pos made.filled
    have small : slotsFor (utf8ToUcs2 nameMax name).length ≤ 20 := slots ▸ made.fits
    have run : Buffered (utf8ToUcs2 nameMax name) (shortChecksum (Fat.numbered (makeShortName name).name11 n)) _ _ _ :=
      buffered_run (fun c member => (utf8ToUcs2_plain member).2) some small
        ((dir.slots.take start).foldl Lfn.pass .empty)
    rw [slots,bufferedRun,run.matching some,← text_iff made.small,name_long,run.text]
  · refine iff_of_false ?_ fun both => opened both.2
    obtain ⟨s,broken⟩ := not_forall.mp opened
    obtain ⟨member,ended⟩ := Classical.not_imp.mp broken
    exact made.hidden member (by simpa using ended)

def buffered (slots : List Slot) : Lfn := (slots.takeWhile (!·.isFree)).foldl Lfn.pass .empty

/-- An 8.3 name is given back by the run of a long name that happens to end right before it, or
else by itself; then only a dot at its end is lost. -/
def ShortReturns (slots : List Slot) (base ext name : Name) : Prop :=
  match (buffered slots).matching (packed base ext) with
  | some run => run.text = name
  | none => name.getLast? ≠ some 46

theorem formatShort_returns (halves : Halves base ext name) (text : 0 ∉ name) :
    formatShort (packed base ext) (caseFlags base ext) = name ↔ name.getLast? ≠ some 46 := by
  rw [formatShort_packed halves text]
  have last : base.getLast? ≠ some 46 := fun dot => halves.basePlain.clean (mem_of_getLast? dot)
  rcases halves.split with ⟨rfl,rfl⟩ | rfl
  · exact iff_of_true (by simp) last
  cases ext with
  | nil => simp
  | cons c rest =>
    refine iff_of_true rfl fun dot => halves.extPlain.clean ?_
    rw [getLast?_append,getLast?_cons_cons] at dot
    refine mem_of_getLast? (a := 46) ?_
    cases back : (c :: rest).getLast? with
    | none => simp at back
    | some d =>
      rw [back] at dot
      exact dot

theorem Created.short_reported (made : Created dir name new slot after name11 count start more grown)
    (halves : Halves base ext name) :
    Reported after.slots slot name ↔ name.head? ≠ some 0xE5 ∧ ShortReturns dir.slots base ext name := by
  have short := makeShortName_halves halves
  have slots : count = 0 := by
    rw [made.slots,short]
    rfl
  subst slots
  have chosen := made.chosen
  rw [short,chooseShort,if_neg Bool.false_ne_true] at chosen
  split at chosen
  · cases chosen
  cases chosen
  obtain ⟨c,rest,rfl⟩ := exists_cons_of_ne_nil halves.some
  have front := firstRun_one made.grew made.first
  have opened : ∀ s ∈ dir.slots.take start, s.isEnd = false := by
    intro s member
    rw [front] at member
    have taken := mem_takeWhile_imp member
    simp only [Slot.isFree,Bool.not_eq_true',decide_eq_false_iff_not,not_or] at taken
    exact decide_eq_false taken.2
  have head : name.head? = some c := by
    rcases halves.split with ⟨rfl,_⟩ | rfl
    · rfl
    · rfl
  have text : c ≠ 0 := fun zero => made.text (zero ▸ mem_of_head? head)
  have size : (packed (c :: rest) ext).length = 11 := packed_length halves.baseFits halves.extFits
  rw [made.seen rfl size (fun zero => text (upper_zero.mp zero)) opened,head,Option.some_inj.ne,ne_eq,upper_free,
    front,short]
  refine and_congr_right fun _ => ?_
  show Entry.name ⟨slot,_,(buffered dir.slots).matching _⟩ = name ↔ _
  unfold ShortReturns
  cases (buffered dir.slots).matching (packed (c :: rest) ext) with
  | some run => rfl
  | none =>
    rw [name_short,shortSlot_name11 size,shortSlot_ntFlags size]
    exact formatShort_returns halves made.text

end

/-- The names a directory gives back: an 8.3 name that does not start with the mark of a free record
and survives, or one that needs a long name, can be spelled in UCS-2 slots and finds room for
them before the end mark. -/
def Storable (slots : List Slot) (name : Name) : Prop :=
  (∃ base ext, Halves base ext name ∧ name.head? ≠ some 0xE5 ∧ ShortReturns slots base ext name) ∨
    (∀ base ext, ¬ Halves base ext name) ∧
      ∃ cs, Spelled name cs ∧ RoomBeforeEnd slots (slotsFor cs.length + 1)

theorem create_reported_iff {perCluster : Nat} {dir after : Dir} {name : Name} {new : Fresh} {slot : Nat}
    (created : create perCluster dir name new = (.ok slot,after)) :
    Reported after.slots slot name ↔ Storable dir.slots name := by
  obtain ⟨name11,count,start,more,grown,made⟩ := create_created created
  by_cases short : (makeShortName name).needsLfn = true
  · have long : ∀ base ext, ¬ Halves base ext name := fun base ext halves => by
      rw [makeShortName_halves halves] at short
      cases short
    rw [made.long_reported short]
    constructor
    · exact fun spelled => .inr ⟨long,spelled⟩
    · rintro (⟨base,ext,halves,_⟩ | ⟨_,spelled⟩)
      · exact absurd halves (long base ext)
      · exact spelled
  · obtain ⟨base,ext,halves⟩ := halves_of_short (Bool.not_eq_true _ ▸ short)
    constructor
    · exact fun reported => .inl ⟨base,ext,halves,(made.short_reported halves).mp reported⟩
    · rintro (⟨base,ext,halves,returns⟩ | ⟨long,_⟩)
      · exact (made.short_reported halves).mpr returns
      · exact absurd halves (long base ext)

def emptyDir : Dir := ⟨replicate 16 fun _ => 0,0⟩

theorem create_reported_spaced :
    create 16 emptyDir [65,32,98] ⟨false,0,0,0⟩ = (.ok 1,(create 16 emptyDir [65,32,98] ⟨false,0,0,0⟩).2) ∧
      Reported (create 16 emptyDir [65,32,98] ⟨false,0,0,0⟩).2.slots 1 [65,32,98] := by
  have slot : (create 16 emptyDir [65,32,98] ⟨false,0,0,0⟩).1 = .ok 1 := by decide +kernel
  have created := slot ▸ (Prod.eta (create 16 emptyDir [65,32,98] ⟨false,0,0,0⟩)).symm
  refine ⟨created,(create_reported_iff created).mpr (.inr ⟨fun base ext halves => ?_,[65,32,98],?_,0,?_,?_⟩)⟩
  · have short := makeShortName_halves halves
    have long : (makeShortName [65,32,98]).needsLfn := by decide
    rw [short] at long
    cases long
  · refine ⟨by unfold IsChar; decide,by decide,fun j crowded => ?_⟩
    have size := crowded.1
    rw [block_length,length_cons,length_cons,length_cons,length_nil] at size
    omega
  · exact nofun
  intro i _ s here
  have member := mem_of_getElem? here
  rw [eq_of_mem_replicate member]
  decide

/-- "foo." comes back as "foo". -/
theorem create_drops_final_dot : ¬ ∀ (perCluster : Nat) (dir after : Dir) (name : Name) (new : Fresh) (slot : Nat),
    validName name → find dir.slots name = none → create perCluster dir name new = (.ok slot,after) →
      Reported after.slots slot name := by
  intro returned
  have slot : (create 16 emptyDir [102,111,111,46] ⟨false,0,0,0⟩).1 = .ok 0 := by decide +kernel
  have created := slot ▸ (Prod.eta (create 16 emptyDir [102,111,111,46] ⟨false,0,0,0⟩)).symm
  have absent : (0,[102,111,111,46]) ∉
      listing (create 16 emptyDir [102,111,111,46] ⟨false,0,0,0⟩).2.slots
        (create 16 emptyDir [102,111,111,46] ⟨false,0,0,0⟩).2.slots.length 0 := by decide +kernel
  exact absent (returned 16 emptyDir _ [102,111,111,46] ⟨false,0,0,0⟩ 0 (by decide) rfl created).2

end SurfaceOS.Fat
