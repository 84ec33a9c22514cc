import Mathlib.Data.FinEnum
import Mathlib.Data.List.TakeWhile
import Mathlib.Data.UInt

/-! Names on a FAT32 volume (fat32/dir.cpp): byte strings compared without regard to ASCII
case, and the packed 8.3 form a record stores. -/
namespace SurfaceOS.Fat
open List Nat

variable {alias11 rest : List UInt8} {d i n : Nat}

/-- A C string's bytes, without the ending zero. -/
abbrev Name := List UInt8

def upper (c : UInt8) : UInt8 := if 97 ≤ c ∧ c ≤ 122 then c - 32 else c

def lower (c : UInt8) : UInt8 := if 65 ≤ c ∧ c ≤ 90 then c + 32 else c

def eqNocase (a b : Name) : Bool := a.map upper == b.map upper

def nameMax : Nat := 255

def validName (name : Name) : Bool :=
  name ≠ [] && name.all (fun c => 0x20 ≤ c && c ≠ 0x7F && c ∉ [34,42,47,58,60,62,63,92,124]) &&
    name.length ≤ nameMax

def cString (buffer : List UInt8) : Name := buffer.takeWhile (· ≠ 0)

def shortChecksum (name11 : List UInt8) : UInt8 :=
  name11.foldl (fun sum b => (if sum &&& 1 ≠ 0 then (0x80 : UInt8) else 0) + (sum >>> 1) + b) 0

def formatShort (name11 : List UInt8) (ntFlags : UInt8) : Name :=
  let base := ((name11.take 8).takeWhile (· ≠ 32)).map (if ntFlags &&& 0x08 ≠ 0 then lower else id)
  let ext := ((name11.drop 8).takeWhile (· ≠ 32)).map (if ntFlags &&& 0x10 ≠ 0 then lower else id)
  cString (base ++ if ext = [] then [] else 46 :: ext)

def dotLoop : Name → Nat → Option Nat → Option Nat
  | [], _, dot => dot
  | c :: rest, i, dot => dotLoop rest (i + 1) (if c = 46 then some i else dot)

def lastDot (name : Name) : Option Nat := dotLoop (name.drop 1) 1 none

def pad (n : Nat) (part : Name) : List UInt8 := part ++ replicate (n - part.length) 32

def packed (base ext : Name) : List UInt8 := pad 8 (base.map upper) ++ pad 3 (ext.map upper)

def isLower (c : UInt8) : Bool := 97 ≤ c ∧ c ≤ 122
def isUpper (c : UInt8) : Bool := 65 ≤ c ∧ c ≤ 90

def aliasChar (c : UInt8) : UInt8 :=
  let c := upper c
  if c = 32 ∨ c = 46 ∨ c = 126 then 95 else c

structure Short where
  name11 : List UInt8
  needsLfn : Bool
  ntFlags : UInt8

def splitName (name : Name) : Name × Name :=
  match lastDot name with
  | none => (name,[])
  | some d => (name.take d,name.drop (d + 1))

def makeShortName (name : Name) : Short :=
  let base := (splitName name).1
  let ext := (splitName name).2
  if 1 ≤ base.length ∧ base.length ≤ 8 ∧ ext.length ≤ 3 ∧ !base.any isUpper ∧ !ext.any isUpper ∧
      (∀ c ∈ base, c ≠ 32 ∧ c ≠ 46) ∧ (∀ c ∈ ext, c ≠ 32 ∧ c ≠ 46) then
    -- lower case is stored as upper case with the flag of its half
    { name11 := packed base ext
      needsLfn := false
      ntFlags := (if base.any isLower then 0x08 else 0) ||| (if ext.any isLower then 0x10 else 0) }
  else
    let front := (base.map aliasChar).take 8
    let front := if front.head? = some 0xE5 then 95 :: front.tail else front
    { name11 := pad 8 front ++ pad 3 ((ext.map aliasChar).take 3)
      needsLfn := true
      ntFlags := 0 }

def decimals : Nat → Nat → List UInt8 → List UInt8
  | 0, _, after => after
  | fuel + 1, v, after => if v = 0 then after else decimals fuel (v / 10) (UInt8.ofNat (48 + v % 10) :: after)

def suffix (n : Nat) : List UInt8 := 126 :: decimals 7 n []

def numbered (alias11 : List UInt8) (n : Nat) : List UInt8 :=
  pad 8 (((alias11.take 8).takeWhile (· ≠ 32)).take (8 - (suffix n).length) ++ suffix n) ++ alias11.drop 8

theorem upper_dot (c : UInt8) (same : upper c = 46) : c = 46 := by
  unfold upper at same
  split at same
  · rename_i lower
    have toNat := congrArg UInt8.toNat same
    rw [UInt8.toNat_sub_of_le _ _ (UInt8.le_trans (by decide) lower.1)] at toNat
    have least := UInt8.le_iff_toNat_le.mp lower.1
    simp at toNat least
    omega
  · exact same

theorem eqNocase_dots (n : Nat) (name : Name) (same : eqNocase (replicate n 46) name) : name = replicate n 46 := by
  simp only [eqNocase,beq_iff_eq,map_replicate] at same
  have size := congrArg List.length same
  refine eq_replicate_iff.mpr ⟨by simpa using size.symm,fun c member => upper_dot c ?_⟩
  exact eq_of_mem_replicate (same ▸ mem_map_of_mem member)

theorem dotLoop_append (front back : Name) (i : Nat) (dot : Option Nat) :
    dotLoop (front ++ back) i dot = dotLoop back (i + front.length) (dotLoop front i dot) := by
  induction front generalizing i dot with
  | nil => rfl
  | cons c front ih =>
    rw [cons_append,dotLoop,ih,length_cons,dotLoop,add_assoc,add_comm 1]

variable {base ext name part : Name} {c : UInt8}

theorem dotLoop_clean (clean : 46 ∉ part) (i : Nat) (dot : Option Nat) : dotLoop part i dot = dot := by
  induction part generalizing i with
  | nil => rfl
  | cons c rest ih =>
    obtain ⟨other,later⟩ := not_or.mp (mem_cons.not.mp clean)
    rw [dotLoop,if_neg (Ne.symm other),ih later]

theorem lastDot_joined (some : base ≠ []) (clean : 46 ∉ ext) : lastDot (base ++ 46 :: ext) = .some base.length := by
  obtain ⟨c,rest,rfl⟩ := exists_cons_of_ne_nil some
  rw [lastDot,cons_append,drop_one,tail_cons,dotLoop_append,dotLoop,if_pos rfl,dotLoop_clean clean,
    length_cons,add_comm]

theorem dotLoop_found {dot : Option Nat} (found : dotLoop part i dot = some d) :
    dot = some d ∨ ∃ k, d = i + k ∧ part[k]? = some 46 := by
  induction part generalizing i dot with
  | nil => exact .inl found
  | cons c rest ih =>
    rcases ih found with here | ⟨k,place,byte⟩
    · split at here
      · next same => exact .inr ⟨0,(Option.some.inj here).symm,by rw [same]; rfl⟩
      · exact .inl here
    · exact .inr ⟨k + 1,by omega,byte⟩

theorem lastDot_splits (found : lastDot name = some d) :
    1 ≤ d ∧ name = name.take d ++ 46 :: name.drop (d + 1) := by
  rcases dotLoop_found found with none | ⟨k,rfl,byte⟩
  · cases none
  rw [getElem?_drop] at byte
  obtain ⟨inside,here⟩ := List.getElem?_eq_some_iff.mp byte
  refine ⟨by omega,?_⟩
  rw [← here,getElem_cons_drop,take_append_drop]

/-- A half of an 8.3 name that keeps its case: no capital, no space, no dot. -/
def Plain (part : Name) : Prop := ∀ c ∈ part, c ≠ 32 ∧ c ≠ 46 ∧ isUpper c = false

/-- `name` is an 8.3 name with the halves `base` and `ext`; an empty extension may have its dot. -/
structure Halves (base ext name : Name) : Prop where
  some : base ≠ []
  baseFits : base.length ≤ 8
  extFits : ext.length ≤ 3
  basePlain : Plain base
  extPlain : Plain ext
  split : name = base ∧ ext = [] ∨ name = base ++ 46 :: ext

def caseFlags (base ext : Name) : UInt8 :=
  (if base.any isLower then 0x08 else 0) ||| (if ext.any isLower then 0x10 else 0)

theorem Plain.clean (plain : Plain part) : 46 ∉ part := fun member => (plain 46 member).2.1 rfl

theorem plain_iff : Plain part ↔ (!part.any isUpper) = true ∧ ∀ c ∈ part, c ≠ 32 ∧ c ≠ 46 := by
  simp only [Bool.not_eq_true',any_eq_false,Bool.not_eq_true]
  exact ⟨fun plain => ⟨fun c member => (plain c member).2.2,fun c member => ⟨(plain c member).1,(plain c member).2.1⟩⟩,
    fun ⟨upper,rest⟩ c member => ⟨(rest c member).1,(rest c member).2,upper c member⟩⟩

theorem makeShortName_halves (halves : Halves base ext name) :
    makeShortName name = ⟨packed base ext,false,caseFlags base ext⟩ := by
  have size : 1 ≤ base.length := length_pos_iff.mpr halves.some
  have baseOk := plain_iff.mp halves.basePlain
  have extOk := plain_iff.mp halves.extPlain
  have parts : splitName name = (base,ext) := by
    unfold splitName
    rcases halves.split with ⟨rfl,rfl⟩ | rfl
    · rw [show lastDot _ = none from dotLoop_clean (fun member => halves.basePlain.clean (mem_of_mem_drop member)) 1 none]
    · rw [lastDot_joined halves.some halves.extPlain.clean]
      simp
  unfold makeShortName
  rw [parts]
  rw [if_pos ⟨size,halves.baseFits,halves.extFits,baseOk.1,extOk.1,baseOk.2,extOk.2⟩]
  rfl

theorem halves_of_short (short : (makeShortName name).needsLfn = false) : ∃ base ext, Halves base ext name := by
  unfold makeShortName at short
  dsimp only at short
  split at short
  · next fits =>
    obtain ⟨size,baseFits,extFits,baseUpper,extUpper,baseOk,extOk⟩ := fits
    refine ⟨_,_,length_pos_iff.mp size,baseFits,extFits,plain_iff.mpr ⟨baseUpper,baseOk⟩,
      plain_iff.mpr ⟨extUpper,extOk⟩,?_⟩
    unfold splitName
    cases dot : lastDot name with
    | none => exact .inl ⟨rfl,rfl⟩
    | some d => exact .inr (lastDot_splits dot).2
  · cases short

theorem lower_upper (plain : isUpper c = false) : lower (upper c) = c := by
  simp only [isUpper] at plain
  unfold lower upper
  grind

theorem upper_ne_space (other : c ≠ 32) : upper c ≠ 32 := by
  unfold upper
  split <;> grind

theorem upper_of_not_lower (plain : isLower c = false) : upper c = c := by
  simp only [isLower,decide_eq_false_iff_not] at plain
  exact if_neg plain

theorem unpack_half (plain : Plain part) (n : Nat) :
    ((pad n (part.map upper)).takeWhile (· ≠ 32)).map (if part.any isLower then lower else id) = part := by
  have front : (pad n (part.map upper)).takeWhile (· ≠ 32) = part.map upper := by
    rw [pad,takeWhile_append_of_pos]
    · rw [takeWhile_replicate]
      simp
    · intro c member
      obtain ⟨d,inside,rfl⟩ := mem_map.mp member
      exact decide_eq_true (upper_ne_space (plain d inside).1)
  rw [front,map_map]
  refine (map_congr_left fun c member => ?_).trans (map_id part)
  split
  · exact lower_upper (plain c member).2.2
  rename_i none
  have small : isLower c = false := by
    simp only [Bool.not_eq_true,any_eq_false] at none
    simpa using none c member
  exact upper_of_not_lower small

theorem pad_length (fits : part.length ≤ n) : (pad n part).length = n := by
  rw [pad,length_append,length_replicate]
  omega

theorem packed_length (baseFits : base.length ≤ 8) (extFits : ext.length ≤ 3) : (packed base ext).length = 11 := by
  rw [packed,length_append,pad_length (by rwa [length_map]),pad_length (by rwa [length_map])]

theorem caseFlags_base (base ext : Name) : (caseFlags base ext &&& 0x08 ≠ 0) ↔ base.any isLower = true := by
  unfold caseFlags
  cases base.any isLower <;> cases ext.any isLower <;> decide

theorem caseFlags_ext (base ext : Name) : (caseFlags base ext &&& 0x10 ≠ 0) ↔ ext.any isLower = true := by
  unfold caseFlags
  cases base.any isLower <;> cases ext.any isLower <;> decide

theorem formatShort_packed (halves : Halves base ext name) (text : 0 ∉ name) :
    formatShort (packed base ext) (caseFlags base ext) = base ++ if ext = [] then [] else 46 :: ext := by
  have front : (packed base ext).take 8 = pad 8 (base.map upper) :=
    take_left' (pad_length (by rw [length_map]; exact halves.baseFits))
  have back : (packed base ext).drop 8 = pad 3 (ext.map upper) :=
    drop_left' (pad_length (by rw [length_map]; exact halves.baseFits))
  unfold formatShort
  simp only [front,back,caseFlags_base,caseFlags_ext,unpack_half halves.basePlain,unpack_half halves.extPlain]
  refine takeWhile_eq_self_iff.mpr fun c member => decide_eq_true fun zero => text ?_
  subst zero
  rcases halves.split with ⟨rfl,rfl⟩ | rfl
  · simpa using member
  rcases mem_append.mp member with inside | behind
  · exact mem_append_left _ inside
  · split at behind
    · cases behind
    · exact mem_append_right _ behind

theorem upper_free : upper c = 0xE5 ↔ c = 0xE5 := by
  unfold upper
  split <;> grind

theorem upper_zero : upper c = 0 ↔ c = 0 := by
  unfold upper
  split <;> grind

def Marked (c : UInt8) : Prop := c = 0xE5 ∨ c = 0x00

theorem aliasChar_zero (text : c ≠ 0) : aliasChar c ≠ 0 := by
  unfold aliasChar
  dsimp only
  split
  · decide
  · exact fun zero => text (upper_zero.mp zero)

theorem splitName_base (some : name ≠ []) : (splitName name).1 ≠ [] ∧ ∀ c ∈ (splitName name).1, c ∈ name := by
  unfold splitName
  cases dot : lastDot name with
  | none => exact ⟨some,fun c member => member⟩
  | some d =>
    obtain ⟨low,_⟩ := lastDot_splits dot
    refine ⟨fun none => ?_,fun c member => mem_of_mem_take member⟩
    rcases take_eq_nil_iff.mp none with zero | empty
    · omega
    · exact some empty

theorem makeShortName_alias (some : name ≠ []) (text : 0 ∉ name)
    (long : (makeShortName name).needsLfn) : (makeShortName name).name11.length = 11 ∧
      ∃ c rest, (makeShortName name).name11 = c :: rest ∧ ¬ Marked c := by
  obtain ⟨filled,inside⟩ := splitName_base some
  unfold makeShortName at long ⊢
  dsimp only at long ⊢
  split at long
  · cases long
  rename_i other
  rw [if_neg other]
  obtain ⟨b,rest,base⟩ := exists_cons_of_ne_nil filled
  have start : ((splitName name).1.map aliasChar).take 8 = aliasChar b :: (rest.map aliasChar).take 7 := by
    rw [base]
    rfl
  have size : ((rest.map aliasChar).take 7).length ≤ 7 := length_take_le ..
  have extSize : (((splitName name).2.map aliasChar).take 3).length ≤ 3 := length_take_le ..
  rw [start,head?_cons,tail_cons]
  split
  · refine ⟨?_,95,_,rfl,by unfold Marked; decide⟩
    rw [length_append,pad_length (by rw [length_cons]; omega),pad_length extSize]
  rename_i plain
  refine ⟨?_,aliasChar b,_,rfl,?_⟩
  · rw [length_append,pad_length (by rw [length_cons]; omega),pad_length extSize]
  rintro (free | zero)
  · exact plain (by rw [free])
  · refine aliasChar_zero (fun zero => text ?_) zero
    exact zero ▸ inside b (by rw [base]; exact mem_cons_self ..)

theorem numbered_shape (size : alias11.length = 11)
    (start : alias11 = c :: rest) (unmarked : ¬ Marked c) (fits : (suffix n).length ≤ 7) :
    (numbered alias11 n).length = 11 ∧ ∃ d tail, numbered alias11 n = d :: tail ∧ ¬ Marked d := by
  generalize front : ((alias11.take 8).takeWhile (· ≠ 32)).take (8 - (suffix n).length) = kept
  have short : kept.length ≤ 8 - (suffix n).length := by
    rw [← front]
    exact length_take_le ..
  have whole : numbered alias11 n = pad 8 (kept ++ suffix n) ++ alias11.drop 8 := by
    rw [← front]
    rfl
  rw [whole]
  constructor
  · rw [length_append,pad_length (by rw [length_append]; omega),length_drop,size]
  cases kept with
  | nil => exact ⟨126,_,rfl,by unfold Marked; decide⟩
  | cons d tail =>
    refine ⟨d,_,rfl,?_⟩
    have first : d = c := by
      rw [start,take_succ_cons,takeWhile_cons] at front
      split at front
      · obtain ⟨m,room⟩ : ∃ m, 8 - (suffix n).length = m + 1 := ⟨7 - (suffix n).length,by omega⟩
        rw [room] at front
        exact (List.cons.inj front).1.symm
      · rw [take_nil] at front
        cases front
    rwa [first]

end SurfaceOS.Fat
