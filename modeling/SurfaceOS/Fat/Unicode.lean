import SurfaceOS.Fat.Names

/-! The two conversions of dir.cpp between UTF-8 and the UCS-2 units of a long name. The masks and
shifts of the source are remainders and quotients here. -/
namespace SurfaceOS.Fat
open List Nat

def isSurrogate (c : Nat) : Bool := 0xD800 ≤ c ∧ c ≤ 0xDFFF

def unitBytes (c : Nat) : List UInt8 :=
  if isSurrogate c then [63]
  else if c < 0x80 then [UInt8.ofNat c]
  else if c < 0x800 then [UInt8.ofNat (0xC0 + c / 64),UInt8.ofNat (0x80 + c % 64)]
  else [UInt8.ofNat (0xE0 + c / 4096),UInt8.ofNat (0x80 + c / 64 % 64),UInt8.ofNat (0x80 + c % 64)]

def ucs2ToUtf8 (outmax : Nat) : List Nat → Nat → List UInt8
  | [], _ => []
  | c :: rest, n =>
    if c = 0x0000 ∨ c = 0xFFFF then []
    else if n + 4 ≥ outmax then []
    else unitBytes c ++ ucs2ToUtf8 outmax rest (n + (unitBytes c).length)

def isTail (b : UInt8) : Bool := b.toNat / 64 = 2

def bmp (c : Nat) : Nat := if isSurrogate c then 63 else c

/-- One turn of `utf8_to_ucs2`: the unit and the bytes left. The string's end is no tail byte. -/
def utf8Unit (b : UInt8) (p : List UInt8) : Nat × List UInt8 :=
  if b.toNat < 0x80 then (b.toNat,p)
  else if b.toNat / 32 = 6 then match p with
    | t :: q => if isTail t then (bmp (b.toNat % 32 * 64 + t.toNat % 64),q) else (63,p)
    | [] => (63,[])
  else if b.toNat / 16 = 14 then match p with
    | t :: q => if isTail t then match q with
        | u :: r => if isTail u then (bmp (b.toNat % 16 * 4096 + t.toNat % 64 * 64 + u.toNat % 64),r) else (63,q)
        | [] => (63,[])
      else (63,p)
    | [] => (63,[])
  else (63,p.dropWhile isTail)

def utf8ToUcs2 : Nat → List UInt8 → List Nat
  | 0, _ => []
  | _ + 1, [] => []
  | outmax + 1, b :: p => (utf8Unit b p).1 :: utf8ToUcs2 outmax (utf8Unit b p).2

/-- A character that has a unit of its own and is no terminator or padding. -/
def IsChar (c : Nat) : Prop := 0 < c ∧ c < 0xFFFF ∧ isSurrogate c = false

theorem unitBytes_pos (c : Nat) : 0 < (unitBytes c).length := by
  unfold unitBytes
  split
  · decide
  · split
    · simp
    · split <;> simp

theorem unitBytes_le (c : Nat) : (unitBytes c).length ≤ 3 := by
  unfold unitBytes
  split
  · decide
  · split
    · simp
    · split <;> simp

variable {cs : List Nat} {q : List UInt8} {name : Name} {c j n outmax : Nat}

theorem unitBytes_three (plain : isSurrogate c = false) : (unitBytes c).length = 3 ↔ 0x800 ≤ c := by
  unfold unitBytes
  rw [if_neg (by simp [plain])]
  split
  · simp
    omega
  split
  · simp
    omega
  · simp
    omega

theorem toNat_ofNat (small : n < 256) : (UInt8.ofNat n).toNat = n :=
  UInt8.toNat_ofNat_of_lt' small

theorem utf8Unit_short (ascii : c < 0x80) (rest : List UInt8) : utf8Unit (UInt8.ofNat c) rest = (c,rest) := by
  have byte := toNat_ofNat (show c < 256 by omega)
  unfold utf8Unit
  rw [byte,if_pos ascii]

theorem isTail_ofNat (small : n < 64) : isTail (UInt8.ofNat (0x80 + n)) := by
  unfold isTail
  rw [toNat_ofNat (by omega)]
  exact decide_eq_true (by omega)

theorem utf8Unit_two (low : 0x80 ≤ c) (high : c < 0x800) (rest : List UInt8) :
    utf8Unit (UInt8.ofNat (0xC0 + c / 64)) (UInt8.ofNat (0x80 + c % 64) :: rest) = (c,rest) := by
  have lead := toNat_ofNat (show 0xC0 + c / 64 < 256 by omega)
  have last := toNat_ofNat (show 0x80 + c % 64 < 256 by omega)
  have value : (0xC0 + c / 64) % 32 * 64 + (0x80 + c % 64) % 64 = c := by omega
  have plain : isSurrogate c = false := decide_eq_false (by omega)
  unfold utf8Unit
  rw [lead,if_neg (by omega),if_pos (by omega)]
  dsimp only
  rw [if_pos (isTail_ofNat (by omega)),last,value,bmp,if_neg (by simp [plain])]

theorem utf8Unit_three (low : 0x800 ≤ c) (high : c < 2^16) (plain : isSurrogate c = false)
    (rest : List UInt8) : utf8Unit (UInt8.ofNat (0xE0 + c / 4096))
      (UInt8.ofNat (0x80 + c / 64 % 64) :: UInt8.ofNat (0x80 + c % 64) :: rest) = (c,rest) := by
  have lead := toNat_ofNat (show 0xE0 + c / 4096 < 256 by omega)
  have middle := toNat_ofNat (show 0x80 + c / 64 % 64 < 256 by omega)
  have last := toNat_ofNat (show 0x80 + c % 64 < 256 by omega)
  have value : (0xE0 + c / 4096) % 16 * 4096 + (0x80 + c / 64 % 64) % 64 * 64 + (0x80 + c % 64) % 64 = c := by omega
  unfold utf8Unit
  rw [lead,if_neg (by omega),if_neg (by omega),if_pos (by omega)]
  dsimp only
  rw [if_pos (isTail_ofNat (by omega)),if_pos (isTail_ofNat (by omega)),middle,last,value,bmp,
    if_neg (by simp [plain])]

theorem utf8ToUcs2_turn {b : UInt8} {p : List UInt8} (turn : utf8Unit b p = (c,q)) :
    utf8ToUcs2 (outmax + 1) (b :: p) = c :: utf8ToUcs2 outmax q := by
  rw [utf8ToUcs2,turn]

theorem utf8ToUcs2_char (char : IsChar c) (outmax : Nat) (rest : List UInt8) :
    utf8ToUcs2 (outmax + 1) (unitBytes c ++ rest) = c :: utf8ToUcs2 outmax rest := by
  obtain ⟨_,small,plain⟩ := char
  unfold unitBytes
  rw [if_neg (by simp [plain])]
  split
  · next ascii => exact utf8ToUcs2_turn (utf8Unit_short ascii rest)
  rename_i low
  split
  · next high => exact utf8ToUcs2_turn (utf8Unit_two (not_lt.mp low) high rest)
  · next large => exact utf8ToUcs2_turn (utf8Unit_three (not_lt.mp large) (by omega) plain rest)

theorem utf8ToUcs2_chars (chars : ∀ c ∈ cs, IsChar c) (room : cs.length ≤ outmax) :
    utf8ToUcs2 outmax (cs.flatMap unitBytes) = cs := by
  induction cs generalizing outmax with
  | nil => cases outmax <;> rfl
  | cons c rest ih =>
    obtain ⟨room',rfl⟩ : ∃ n, outmax = n + 1 := ⟨outmax - 1,by rw [length_cons] at room; omega⟩
    rw [flatMap_cons,utf8ToUcs2_char (chars c (mem_cons_self ..)),
      ih (fun d member => chars d (mem_cons_of_mem c member)) (by rw [length_cons] at room; omega)]

theorem bmp_plain (c : Nat) : isSurrogate (bmp c) = false := by
  unfold bmp
  split
  · decide
  · next plain => simpa using plain

theorem bmp_bytes (c : Nat) : (unitBytes (bmp c)).length ≤ (unitBytes c).length := by
  unfold bmp
  split
  · exact unitBytes_pos c
  · exact le_refl _

theorem unitBytes_one (small : c < 0x80) : (unitBytes c).length = 1 := by
  unfold unitBytes
  split <;> rfl

theorem unitBytes_two (small : c < 0x800) : (unitBytes c).length ≤ 2 := by
  unfold unitBytes
  split
  · decide
  · split <;> simp

/-- What one turn makes of `len` bytes: no surrogate, and a unit that takes no more bytes than
were read for it. -/
structure Turn (len : Nat) (out : Nat × List UInt8) : Prop where
  plain : isSurrogate out.1 = false
  small : out.1 < 2^16
  spent : (unitBytes out.1).length + out.2.length ≤ len

theorem turn_question {len : Nat} (shorter : q.length < len) : Turn len (63,q) :=
  ⟨rfl,show 63 < 2^16 by decide,show (unitBytes 63).length + q.length ≤ len by
    rw [unitBytes_one (by decide)]
    omega⟩

theorem turn_bmp {len : Nat} (small : c < 2^16) (spent : (unitBytes c).length + q.length ≤ len) :
    Turn len (bmp c,q) := by
  refine ⟨bmp_plain c,?_,Nat.le_trans (Nat.add_le_add_right (bmp_bytes c) _) spent⟩
  unfold bmp
  split
  · exact show 63 < 2^16 by decide
  · exact small

theorem utf8Unit_turn (b : UInt8) (p : List UInt8) : Turn (p.length + 1) (utf8Unit b p) := by
  unfold utf8Unit
  split
  · next ascii =>
    refine ⟨decide_eq_false (by omega),show b.toNat < 2^16 by omega,?_⟩
    rw [unitBytes_one ascii,add_comm]
  split
  · cases p with
    | nil => exact turn_question (zero_lt_one)
    | cons t q =>
      dsimp only
      split
      · have two := unitBytes_two (show b.toNat % 32 * 64 + t.toNat % 64 < 0x800 by omega)
        exact turn_bmp (by omega) (by rw [length_cons]; omega)
      · exact turn_question (by omega)
  · split
    · cases p with
      | nil => exact turn_question (zero_lt_one)
      | cons t q =>
        dsimp only
        split
        · cases q with
          | nil => exact turn_question (zero_lt_succ _)
          | cons u r =>
            dsimp only
            split
            · have three := unitBytes_le (b.toNat % 16 * 4096 + t.toNat % 64 * 64 + u.toNat % 64)
              exact turn_bmp (by omega) (by simp only [length_cons]; omega)
            · exact turn_question (by simp only [length_cons]; omega)
        · exact turn_question (by omega)
    · exact turn_question (lt_succ_of_le (dropWhile_suffix _).length_le)

theorem utf8ToUcs2_plain {name : List UInt8} (member : c ∈ utf8ToUcs2 outmax name) :
    isSurrogate c = false ∧ c < 2^16 := by
  induction outmax generalizing name with
  | zero => cases member
  | succ outmax ih =>
    cases name with
    | nil => cases member
    | cons b p =>
      have turn := utf8Unit_turn b p
      rcases mem_cons.mp member with rfl | later
      · exact ⟨turn.plain,turn.small⟩
      · exact ih later

theorem utf8ToUcs2_spent (outmax : Nat) (name : List UInt8) :
    ((utf8ToUcs2 outmax name).flatMap unitBytes).length ≤ name.length := by
  induction outmax generalizing name with
  | zero => exact zero_le _
  | succ outmax ih =>
    cases name with
    | nil => exact le_refl 0
    | cons b p =>
      have turn := (utf8Unit_turn b p).spent
      have rest := ih (utf8Unit b p).2
      rw [utf8ToUcs2,flatMap_cons,length_append,length_cons]
      omega

/-- `ucs2_to_utf8` comes to the end of the units: no mark stands among them, and before each of
them the buffer has room. -/
structure Whole (outmax n : Nat) (cs : List Nat) : Prop where
  unmarked : ∀ c ∈ cs, c ≠ 0 ∧ c ≠ 0xFFFF
  room : ∀ front c back, cs = front ++ c :: back → n + (front.flatMap unitBytes).length + 4 < outmax

theorem ucs2ToUtf8_le (outmax : Nat) (cs : List Nat) (n : Nat) :
    (ucs2ToUtf8 outmax cs n).length ≤ (cs.flatMap unitBytes).length := by
  induction cs generalizing n with
  | nil => exact Nat.le_refl 0
  | cons c rest ih =>
    rw [ucs2ToUtf8,flatMap_cons,length_append]
    split
    · exact Nat.zero_le _
    split
    · exact Nat.zero_le _
    · rw [length_append]
      exact Nat.add_le_add_left (ih _) _

theorem Whole.cons {rest : List Nat} (unmarked : ¬ (c = 0 ∨ c = 0xFFFF))
    (fits : n + 4 < outmax) (whole : Whole outmax (n + (unitBytes c).length) rest) : Whole outmax n (c :: rest) := by
  refine ⟨fun d member => ?_,fun front d back split => ?_⟩
  · rcases mem_cons.mp member with rfl | later
    · exact not_or.mp unmarked
    · exact whole.unmarked d later
  cases front with
  | nil => exact fits
  | cons e front =>
    obtain ⟨rfl,rest⟩ := List.cons.inj split
    have room := whole.room front d back rest
    rw [flatMap_cons,length_append]
    omega

theorem whole_of_length
    (same : (ucs2ToUtf8 outmax cs n).length = (cs.flatMap unitBytes).length) : Whole outmax n cs := by
  induction cs generalizing n with
  | nil => exact ⟨nofun,fun front c back split => absurd split (by simp)⟩
  | cons c rest ih =>
    have some := unitBytes_pos c
    rw [ucs2ToUtf8,flatMap_cons,length_append] at same
    split at same
    · rw [length_nil] at same
      omega
    rename_i unmarked
    split at same
    · rw [length_nil] at same
      omega
    · next fits =>
      rw [length_append] at same
      exact .cons unmarked (not_le.mp fits) (ih (by omega))

theorem Whole.written (whole : Whole outmax n cs) : ucs2ToUtf8 outmax cs n = cs.flatMap unitBytes := by
  induction cs generalizing n with
  | nil => rfl
  | cons c rest ih =>
    have fits := whole.room [] c rest rfl
    rw [ucs2ToUtf8,if_neg (not_or.mpr (whole.unmarked c (mem_cons_self ..))),
      if_neg (by rw [flatMap_nil] at fits; omega),flatMap_cons,ih]
    refine ⟨fun d member => whole.unmarked d (mem_cons_of_mem c member),fun front d back split => ?_⟩
    have room := whole.room (c :: front) d back (by rw [split]; rfl)
    rw [flatMap_cons,length_append] at room
    omega

/-- The 13 units of a long name's slot `s`, counted from 1: a zero ends the name, the rest is
padding. -/
def slotUnits (units : List Nat) (s : Nat) : List Nat :=
  (range 13).map fun i =>
    let ci := (s - 1) * 13 + i
    if ci < units.length then units.getD ci 0
    else if ci = units.length then 0x0000
    else 0xFFFF

def block (units : List Nat) (j : Nat) : List Nat := (units.drop (13 * j)).take 13

theorem block_length (units : List Nat) (j : Nat) : (block units j).length = min 13 (units.length - 13 * j) := by
  rw [block,length_take,length_drop]

theorem slotUnits_block {units : List Nat} (inside : 13 * j ≤ units.length) :
    slotUnits units (j + 1) = block units j ++
      if (block units j).length < 13 then 0 :: List.replicate (12 - (block units j).length) 0xFFFF else [] := by
  have size := block_length units j
  have slot : ∀ i, (slotUnits units (j + 1))[i]? = if i < 13 then
      some (if j * 13 + i < units.length then units.getD (j * 13 + i) 0
        else if j * 13 + i = units.length then 0x0000 else 0xFFFF) else none := by
    intro i
    rw [slotUnits,getElem?_map]
    split
    · next inside => rw [getElem?_range inside]; rfl
    · next outside => rw [getElem?_eq_none (by rw [length_range]; omega)]; rfl
  apply ext_getElem?
  intro i
  rw [slot]
  rcases lt_or_ge i (block units j).length with inside | behind
  · rw [getElem?_append_left inside,if_pos (by omega),if_pos (by omega),block,getElem?_take_of_lt (by omega),
      getElem?_drop,mul_comm 13 j,getD_eq_getElem?_getD,getElem?_eq_getElem (by omega)]
    rfl
  rw [getElem?_append_right behind]
  split
  · next small =>
    rw [if_neg (show ¬ j * 13 + i < units.length by omega),if_pos (show (block units j).length < 13 by omega)]
    rcases eq_or_lt_of_le behind with same | further
    · rw [if_pos (by omega),← same,Nat.sub_self]
      rfl
    · obtain ⟨k,rest⟩ : ∃ k, i - (block units j).length = k + 1 := ⟨i - (block units j).length - 1,by omega⟩
      rw [if_neg (by omega),rest,getElem?_cons_succ,getElem?_replicate_of_lt (by omega)]
  · next large =>
    refine (getElem?_eq_none ?_).symm
    split
    · rw [length_cons,length_replicate]
      omega
    · exact Nat.zero_le _

theorem ucs2ToUtf8_ended (outmax : Nat) (cs rest : List Nat) (n : Nat) :
    ucs2ToUtf8 outmax (cs ++ 0 :: rest) n = ucs2ToUtf8 outmax cs n := by
  induction cs generalizing n with
  | nil => rfl
  | cons c cs ih => simp only [cons_append,ucs2ToUtf8,ih]

theorem ucs2ToUtf8_slot {units : List Nat} (inside : 13 * j ≤ units.length) (outmax n : Nat) :
    ucs2ToUtf8 outmax (slotUnits units (j + 1)) n = ucs2ToUtf8 outmax (block units j) n := by
  rw [slotUnits_block inside]
  split
  · exact ucs2ToUtf8_ended ..
  · rw [append_nil]

theorem blocks_flatten (units : List Nat) (k : Nat) : (range k).flatMap (block units) = units.take (13 * k) := by
  induction k with
  | zero => rfl
  | succ k ih =>
    rw [range_succ,flatMap_append,ih,flatMap_singleton,mul_succ,take_add]
    rfl

/-- A slot of 13 characters of which the first twelve take three bytes each: the buffer of one
slot has no room for the last. -/
def Crowded (cs : List Nat) : Prop := cs.length = 13 ∧ ∀ c ∈ cs.take 12, 0x800 ≤ c

theorem flatMap_bytes_le (cs : List Nat) : (cs.flatMap unitBytes).length ≤ 3 * cs.length := by
  induction cs with
  | nil => exact le_refl 0
  | cons c rest ih =>
    have three := unitBytes_le c
    rw [flatMap_cons,length_append,length_cons]
    omega

theorem flatMap_bytes_eq (plain : ∀ c ∈ cs, isSurrogate c = false) :
    (cs.flatMap unitBytes).length = 3 * cs.length ↔ ∀ c ∈ cs, 0x800 ≤ c := by
  induction cs with
  | nil => simp
  | cons c rest ih =>
    have three := unitBytes_le c
    have bound := flatMap_bytes_le rest
    have large := unitBytes_three (plain c (mem_cons_self ..))
    have later := ih fun d member => plain d (mem_cons_of_mem c member)
    rw [forall_mem_cons,flatMap_cons,length_append,length_cons,← later]
    omega

theorem whole_iff (small : cs.length ≤ 13) (plain : ∀ c ∈ cs, isSurrogate c = false) :
    Whole 40 0 cs ↔ (∀ c ∈ cs, c ≠ 0 ∧ c ≠ 0xFFFF) ∧ ¬ Crowded cs := by
  constructor
  · intro whole
    refine ⟨whole.unmarked,fun cut => ?_⟩
    obtain ⟨c,last⟩ : ∃ c, cs.drop 12 = [c] := length_eq_one_iff.mp (by rw [length_drop,cut.1])
    have room := whole.room (cs.take 12) c [] (by rw [← last,take_append_drop])
    have bytes := (flatMap_bytes_eq fun c member => plain c (mem_of_mem_take member)).mpr cut.2
    rw [length_take,cut.1] at bytes
    omega
  · rintro ⟨unmarked,uncut⟩
    refine ⟨unmarked,fun front c back split => ?_⟩
    have bound := flatMap_bytes_le front
    have length : cs.length = front.length + 1 + back.length := by
      rw [split,length_append,length_cons]
      omega
    rcases lt_or_ge front.length 12 with early | late
    · omega
    have front12 : cs.take 12 = front := by rw [split,take_left' (by omega)]
    have bytes := flatMap_bytes_eq fun c member => plain c (by rw [split]; exact mem_append_left _ member)
    have short : ¬ (front.flatMap unitBytes).length = 3 * front.length := fun full =>
      uncut ⟨by omega,front12 ▸ bytes.mp full⟩
    omega

section
variable {ι : Type} {f g : ι → List UInt8} {parts : List ι} (le : ∀ j ∈ parts, (f j).length ≤ (g j).length)
include le

theorem flatMap_length_le : (parts.flatMap f).length ≤ (parts.flatMap g).length := by
  induction parts with
  | nil => exact Nat.le_refl 0
  | cons j rest ih =>
    simp only [flatMap_cons,length_append]
    exact Nat.add_le_add (le j (mem_cons_self ..)) (ih fun k member => le k (mem_cons_of_mem j member))

theorem lengths_eq (same : (parts.flatMap f).length = (parts.flatMap g).length) :
    ∀ j ∈ parts, (f j).length = (g j).length := by
  induction parts with
  | nil => nofun
  | cons j rest ih =>
    have here := le j (mem_cons_self ..)
    have others := fun k member => le k (mem_cons_of_mem j member)
    have later := flatMap_length_le others
    simp only [flatMap_cons,length_append] at same
    intro i member
    rcases mem_cons.mp member with rfl | inside
    · omega
    · exact ih others (by omega) i inside

end

def slotsFor (count : Nat) : Nat := count / 13 + if count % 13 ≠ 0 then 1 else 0

theorem slotsFor_covers (count : Nat) : count ≤ 13 * slotsFor count := by
  unfold slotsFor
  split <;> omega

theorem slotsFor_inside {count : Nat} (inside : j < slotsFor count) : 13 * j ≤ count := by
  unfold slotsFor at inside
  split at inside <;> omega

def slotsText (units : List Nat) : List UInt8 :=
  (range (slotsFor units.length)).flatMap fun j => ucs2ToUtf8 40 (slotUnits units (j + 1)) 0

theorem slotsText_blocks (units : List Nat) :
    slotsText units = (range (slotsFor units.length)).flatMap fun j => ucs2ToUtf8 40 (block units j) 0 := by
  refine flatMap_congr fun j member => ucs2ToUtf8_slot ?_ 40 0
  exact slotsFor_inside (mem_range.mp member)

theorem blocks_bytes (units : List Nat) :
    ((range (slotsFor units.length)).flatMap fun j => (block units j).flatMap unitBytes) =
      units.flatMap unitBytes := by
  rw [← flatMap_assoc,blocks_flatten,take_of_length_le (slotsFor_covers _)]

theorem mem_block {units : List Nat} (member : c ∈ block units j) : c ∈ units :=
  mem_of_mem_drop (mem_of_mem_take member)

theorem block_small (units : List Nat) (j : Nat) : (block units j).length ≤ 13 := by
  rw [block_length]
  exact min_le_left ..

/-- What a long name must be to come back: characters with a unit of their own, and no slot cut. -/
structure Spelled (name : Name) (cs : List Nat) : Prop where
  chars : ∀ c ∈ cs, IsChar c
  bytes : name = cs.flatMap unitBytes
  uncut : ∀ j, ¬ Crowded (block cs j)

theorem Spelled.text (spelled : Spelled name cs) : slotsText cs = name := by
  rw [slotsText_blocks,spelled.bytes,← blocks_bytes]
  refine flatMap_congr fun j _ => ((whole_iff (block_small cs j) fun c member => ?_).mpr
    ⟨fun c member => ?_,spelled.uncut j⟩).written
  · exact (spelled.chars c (mem_block member)).2.2
  · have char := spelled.chars c (mem_block member)
    exact ⟨by have := char.1; omega,by have := char.2.1; omega⟩

theorem Spelled.units (spelled : Spelled name cs) (small : name.length ≤ nameMax) : utf8ToUcs2 nameMax name = cs := by
  have count : cs.length ≤ (cs.flatMap unitBytes).length := by
    clear spelled
    induction cs with
    | nil => exact le_refl 0
    | cons c rest ih =>
      have some := unitBytes_pos c
      rw [flatMap_cons,length_append,length_cons]
      omega
  rw [spelled.bytes] at small ⊢
  exact utf8ToUcs2_chars spelled.chars (le_trans count small)

theorem spelled_of_text (same : slotsText (utf8ToUcs2 nameMax name) = name) :
    Spelled name (utf8ToUcs2 nameMax name) := by
  have plain : ∀ c ∈ utf8ToUcs2 nameMax name, isSurrogate c = false ∧ c < 2^16 :=
    fun c member => utf8ToUcs2_plain member
  have spent := utf8ToUcs2_spent nameMax name
  generalize utf8ToUcs2 nameMax name = cs at *
  have le : ∀ j ∈ range (slotsFor cs.length),
      (ucs2ToUtf8 40 (block cs j) 0).length ≤ ((block cs j).flatMap unitBytes).length :=
    fun j _ => ucs2ToUtf8_le ..
  have lengths := flatMap_length_le le
  rw [slotsText_blocks] at same
  have total := blocks_bytes cs
  rw [total,same] at lengths
  have whole : ∀ j < slotsFor cs.length, Whole 40 0 (block cs j) := by
    intro j inside
    refine whole_of_length (lengths_eq le ?_ j (mem_range.mpr inside))
    rw [total,same]
    omega
  have unmarked : ∀ c ∈ cs, c ≠ 0 ∧ c ≠ 0xFFFF := by
    intro c member
    rw [← take_of_length_le (slotsFor_covers cs.length),← blocks_flatten] at member
    obtain ⟨j,inside,here⟩ := mem_flatMap.mp member
    exact (whole j (mem_range.mp inside)).unmarked c here
  refine ⟨fun c member => ?_,?_,fun j => ?_⟩
  · have := plain c member
    have := unmarked c member
    exact ⟨by omega,by omega,(plain c member).1⟩
  · rw [← same,← total]
    exact flatMap_congr fun j inside => (whole j (mem_range.mp inside)).written
  rcases lt_or_ge j (slotsFor cs.length) with inside | behind
  · exact ((whole_iff (block_small cs j) fun c member => (plain c (mem_block member)).1).mp (whole j inside)).2
  intro crowded
  have covered := slotsFor_covers cs.length
  have length := block_length cs j
  rw [crowded.1] at length
  omega

end SurfaceOS.Fat
