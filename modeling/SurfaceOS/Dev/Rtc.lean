import Mathlib.Tactic.Common

/-! The clock chip (drivers/rtc.cpp). Its registers count in BCD or binary and to 12 or 24, as bits 2 and 1 of
status register B say. -/
namespace SurfaceOS.Rtc

structure Time where
  seconds : Nat
  minutes : Nat
  hours : Nat
  day : Nat
  month : Nat
  year : Nat
  weekday : Nat

structure Chip where
  raw : Time
  statusB : Nat

variable {t : Time} {value hour : Nat}

def bcdToBin (bcd : Nat) : Nat := (bcd >>> 4) * 10 + (bcd &&& 0x0F)

def binToBcd (bin : Nat) : Nat := (bin / 10) <<< 4 ||| bin % 10

def Chip.bcd (c : Chip) : Bool := c.statusB &&& 0x04 = 0

def Chip.half (c : Chip) : Bool := c.statusB &&& 0x02 = 0

def fromField (bcd : Bool) (raw : Nat) : Nat := if bcd then bcdToBin raw else raw

def fromHour (bcd half : Bool) (raw : Nat) : Nat :=
  let raw := if bcd then bcdToBin (raw &&& 0x7F) ||| (raw &&& 0x80) else raw
  if half ∧ raw &&& 0x80 ≠ 0 then ((raw &&& 0x7F) + 12) % 24 else raw

def readRaw (c : Chip) : Time :=
  ⟨fromField c.bcd c.raw.seconds,fromField c.bcd c.raw.minutes,fromHour c.bcd c.half c.raw.hours,
    fromField c.bcd c.raw.day,fromField c.bcd c.raw.month,2000 + fromField c.bcd c.raw.year,
    fromField c.bcd c.raw.weekday⟩

/-- Two readings a round until they agree; `chip` is what each reading meets. -/
def read (chip : Nat → Chip) : Nat → Nat → Option Time
  | 0, _ => none
  | rounds + 1, i =>
    let a := readRaw (chip i)
    let b := readRaw (chip (i + 1))
    if a.seconds ≠ b.seconds ∨ a.minutes ≠ b.minutes ∨ a.hours ≠ b.hours then read chip rounds (i + 2) else some a

def toField (bcd : Bool) (value : Nat) : Nat := if bcd then binToBcd value else value

def coded (bcd : Bool) (t : Time) (hour weekday : Nat) : Time :=
  ⟨toField bcd t.seconds,toField bcd t.minutes,hour,toField bcd t.day,toField bcd t.month,
    toField bcd (t.year % 100),weekday⟩

def write (c : Chip) (t : Time) : Chip := ⟨coded c.bcd t (toField c.bcd t.hours) c.raw.weekday,c.statusB &&& 0x7F⟩

structure Valid (t : Time) : Prop where
  clock : t.seconds < 60 ∧ t.minutes < 60 ∧ t.hours < 24
  date : 1 ≤ t.day ∧ t.day ≤ 31 ∧ 1 ≤ t.month ∧ t.month ≤ 12 ∧ 2000 ≤ t.year ∧ t.year ≤ 2099
  weekday : 1 ≤ t.weekday ∧ t.weekday ≤ 7

/-- The chip's own hours: 12 AM is 12 without the PM bit, 12 PM is 12 with it. -/
def hourCode (bcd half : Bool) (hour : Nat) : Nat :=
  if half then toField bcd (if hour % 12 = 0 then 12 else hour % 12) ||| (if hour < 12 then 0 else 0x80)
  else toField bcd hour

/-- The chip when it shows `t`. -/
def Chip.showing (c : Chip) (t : Time) : Chip :=
  {c with raw := coded c.bcd t (hourCode c.bcd c.half t.hours) (toField c.bcd t.weekday)}

theorem fromField_toField (small : value < 100) (bcd : Bool) : fromField bcd (toField bcd value) = value := by
  have back : ∀ value < 100, bcdToBin (binToBcd value) = value := by decide
  cases bcd
  · rfl
  · exact back value small

theorem fromHour_toField (small : hour < 24) (bcd half : Bool) : fromHour bcd half (toField bcd hour) = hour := by
  revert hour bcd half
  decide

theorem fromHour_hourCode (small : hour < 24) (bcd half : Bool) :
    fromHour bcd half (hourCode bcd half hour) = hour ↔ half = false ∨ hour % 12 ≠ 0 := by
  revert hour bcd half
  decide

theorem readRaw_coded (valid : Valid t) {c : Chip} {hour weekday h w : Nat} (raw : c.raw = coded c.bcd t hour weekday)
    (clock : fromHour c.bcd c.half hour = h) (week : fromField c.bcd weekday = w) :
    readRaw c = {t with hours := h, weekday := w} := by
  obtain ⟨⟨_,_,_⟩,⟨_,_,_,_,_,_⟩,_⟩ := valid
  rw [readRaw,raw]
  dsimp only [coded]
  rw [fromField_toField (by omega),fromField_toField (by omega),fromField_toField (by omega),
    fromField_toField (by omega),fromField_toField (by omega),show 2000 + t.year % 100 = t.year by omega,clock,week]

theorem read_still (c : Chip) (rounds i : Nat) : read (fun _ => c) (rounds + 1) i = some (readRaw c) := by
  simp [read]

/-- In 12-hour mode midnight is read as noon and noon as midnight. What was written is read back, with the day of
the week that `write` leaves alone. -/
theorem read_right_iff (valid : Valid t) (c : Chip) (rounds : Nat) : (read (fun _ => c.showing t) (rounds + 1) 0 = some t ∧
      read (fun _ => write c t) (rounds + 1) 0 = some {t with weekday := (readRaw c).weekday}) ↔
    c.statusB &&& 0x02 ≠ 0 ∨ t.hours % 12 ≠ 0 := by
  have bcd : (write c t).bcd = c.bcd := by simp only [Chip.bcd,write,Nat.and_assoc,Nat.reduceAnd]
  have written := readRaw_coded (h := t.hours) (w := (readRaw c).weekday) valid (c := write c t) (by rw [bcd]; rfl)
    (by rw [bcd]; exact fromHour_toField valid.clock.2.2 ..) (by rw [bcd]; rfl)
  have shown := readRaw_coded valid (c := c.showing t) rfl rfl
    (fromField_toField (by have := valid.weekday; omega) c.bcd)
  have mode : c.half = false ↔ c.statusB &&& 0x02 ≠ 0 := by simp [Chip.half]
  rw [read_still,read_still,written,and_iff_left rfl,Option.some.injEq,shown,← mode,
    ← fromHour_hourCode valid.clock.2.2 c.bcd c.half]
  exact ⟨fun same => congrArg Time.hours same,fun same => congrArg (fun hour => {t with hours := hour}) same⟩

def midnight : Time := ⟨0,0,0,1,1,2024,1⟩

theorem read_right_at_one : Valid {midnight with hours := 13} ∧ read (fun _ => Chip.showing ⟨midnight,0⟩
    {midnight with hours := 13}) 1 0 = some {midnight with hours := 13} :=
  have valid : Valid {midnight with hours := 13} := ⟨by decide,by decide,by decide⟩
  ⟨valid,((read_right_iff valid ⟨midnight,0⟩ 0).mpr (by decide)).1⟩

theorem midnight_read_as_noon : Valid midnight ∧
    read (fun _ => Chip.showing ⟨midnight,0⟩ midnight) 1 0 = some {midnight with hours := 12} :=
  ⟨⟨by decide,by decide,by decide⟩,rfl⟩

end SurfaceOS.Rtc
