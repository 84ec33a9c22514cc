import SurfaceOS.Fat.Times

/-! The date of an epoch second (cpu/sffile.cpp), and the day of a date in the ways of fs/vfs.cpp and
apps/find.cpp, against the calendar. -/
namespace SurfaceOS.Vfs
open Fat List

variable {d k m y yoe z : Nat}

structure DateTime where
  year : Nat
  month : Nat
  day : Nat
  hour : Nat
  minute : Nat
  second : Nat

def toDateTime (epoch : Nat) : DateTime :=
  let secs := epoch % 86400
  let z := epoch / 86400 + 719468
  ⟨civilYear z % 2^16,monthOf (dayOfYear z),dayOf (dayOfYear z),secs / 3600,secs / 60 % 60,secs % 60⟩

def daysFromCivil (y m d : Nat) : Int :=
  let y := y - if m ≤ 2 then 1 else 0
  let era := y / 400
  let yoe := y - era * 400
  let doy := (153 * (if m > 2 then m - 3 else m + 9) + 2) / 5 + d - 1
  let doe := yoe * 365 + yoe / 4 - yoe / 100 + doy
  (era * 146097 + doe : Nat) - 719468

def nowEpoch (t : DateTime) : Int :=
  if t.year < 1970 ∨ t.month < 1 ∨ t.month > 12 ∨ t.day < 1 then 0
  else daysFromCivil t.year t.month t.day * 86400 + t.hour * 3600 + t.minute * 60 + t.second

def leap (y : Nat) : Prop := y % 4 = 0 ∧ y % 100 ≠ 0 ∨ y % 400 = 0

instance (y : Nat) : Decidable (leap y) := inferInstanceAs (Decidable (_ ∨ _))

def before : List Nat := [0,31,59,90,120,151,181,212,243,273,304,334]

def daysOf (y m d : Nat) : Nat :=
  (y - 1970) * 365 + (y - 1969) / 4 - (y - 1901) / 100 + (y - 1601) / 400 +
    (before.getD ((m - 1) % 12) 0 + d - 1) + if leap y ∧ m > 2 then 1 else 0

def daysIn (y m : Nat) : Nat :=
  if m = 2 then if leap y then 29 else 28 else if m = 4 ∨ m = 6 ∨ m = 9 ∨ m = 11 then 30 else 31

/-- The days from 1 January 1970 to a date: whole years, whole months, days. -/
def dayNumber (y m d : Nat) : Nat :=
  ((range' 1970 (y - 1970)).map fun k => if leap k then 366 else 365).sum + ((range' 1 (m - 1)).map (daysIn y)).sum +
    (d - 1)

/-- The date and time of an epoch second in the Gregorian calendar. -/
structure Dated (epoch : Nat) (t : DateTime) : Prop where
  year : 1970 ≤ t.year
  month : 1 ≤ t.month ∧ t.month ≤ 12
  day : 1 ≤ t.day ∧ t.day ≤ daysIn t.year t.month
  date : dayNumber t.year t.month t.day = epoch / 86400
  clock : t.hour < 24 ∧ t.minute < 60 ∧ t.second < 60
  time : t.hour * 3600 + t.minute * 60 + t.second = epoch % 86400

theorem years_sum (n : Nat) : ((range' 1970 n).map fun k => if leap k then 366 else 365).sum =
    n * 365 + (n + 1) / 4 - (n + 69) / 100 + (n + 369) / 400 := by
  induction n with
  | zero => rfl
  | succ n ih =>
    rw [range'_concat,map_append,sum_append,ih,map_singleton,sum_singleton]
    split
    all_goals
      rename_i long
      unfold leap at long
      omega

theorem months_sum (y : Nat) (low : 1 ≤ m) (high : m ≤ 12) : ((range' 1 (m - 1)).map (daysIn y)).sum =
    before.getD ((m - 1) % 12) 0 + if leap y ∧ m > 2 then 1 else 0 := by
  by_cases long : leap y <;> interval_cases m <;> simp [range',daysIn,before,long]

theorem daysOf_eq (year : 1970 ≤ y) (low : 1 ≤ m) (high : m ≤ 12) (first : 1 ≤ d) :
    daysOf y m d = dayNumber y m d := by
  rw [dayNumber,years_sum,months_sum y low high,daysOf]
  omega

theorem before_march : ∀ k ≤ 11, k < 10 ∧ before.getD ((k + 3 - 1) % 12) 0 = (153 * k + 2) / 5 + 59 ∨
    10 ≤ k ∧ before.getD ((k - 9 - 1) % 12) 0 + 306 = (153 * k + 2) / 5 := by
  decide

theorem daysIn_march (y : Nat) (few : k < 10) : daysIn y (k + 3) + (153 * k + 2) / 5 = (153 * (k + 1) + 2) / 5 := by
  interval_cases k <;> simp [daysIn]

/-- The days before the year that begins in March of `y`. -/
def marchDays (y : Nat) : Nat := 365 * y + y / 4 - y / 100 + y / 400

theorem marchDays_succ (y : Nat) : marchDays (y + 1) = marchDays y + 365 + if leap (y + 1) then 1 else 0 := by
  have hundreds : (y + 1) % 100 = 0 → (y + 1) % 4 = 0 := by omega
  have eras : (y + 1) % 400 = 0 → (y + 1) % 100 = 0 := by omega
  have less : y / 100 ≤ 365 * y + y / 4 := by omega
  simp only [marchDays,leap,Nat.succ_div,Nat.dvd_iff_mod_eq_zero]
  grind

theorem marchDays_era (small : yoe < 400) (era : Nat) :
    marchDays (yoe + era * 400) = era * 146097 + daysBefore yoe := by
  unfold marchDays daysBefore
  omega

theorem daysOf_march (late : 1969 ≤ y) (m d : Nat) : daysOf (y + 1) m d + 719468 = marchDays y + 306 +
    (before.getD ((m - 1) % 12) 0 + d - 1) + if leap (y + 1) ∧ m > 2 then 1 else 0 := by
  unfold daysOf marchDays
  omega

theorem marchYear_day (z : Nat) : z = marchDays (marchYear z) + dayOfYear z ∧
    dayOfYear z < 365 + if leap (marchYear z + 1) then 1 else 0 := by
  obtain ⟨small,split_,next,-⟩ := inYear z
  have days := marchDays_era small (z / 146097)
  have succ := marchDays_succ (marchYear z)
  have whole : z / 146097 * 146097 + dayOfEra z = z := by
    unfold dayOfEra
    omega
  change marchDays (marchYear z) = _ at days
  refine ⟨by omega,?_⟩
  by_cases last : yearOfEra (dayOfEra z) = 399
  · have leaps : leap (marchYear z + 1) := by
      unfold leap marchYear
      omega
    have before := (inYear z).short
    rw [if_pos leaps]
    omega
  · have after := marchDays_era (show yearOfEra (dayOfEra z) + 1 < 400 by omega) (z / 146097)
    rw [Nat.add_right_comm] at after
    change marchDays (marchYear z + 1) = _ at after
    have inner : dayOfEra z ≠ 146096 := by
      intro same
      exact last (by rw [same]; rfl)
    omega

theorem civil_dated (late : 719468 ≤ z) :
    1970 ≤ civilYear z ∧ dayOf (dayOfYear z) ≤ daysIn (civilYear z) (monthOf (dayOfYear z)) ∧
      daysOf (civilYear z) (monthOf (dayOfYear z)) (dayOf (dayOfYear z)) + 719468 = z := by
  obtain ⟨days,inside⟩ := marchYear_day z
  have parts := month_parts (inYear z).short
  have table := before_march _ parts.1
  have later : dayOfYear z < (153 * (monthFrom (dayOfYear z) + 1) + 2) / 5 := by
    unfold monthFrom
    omega
  unfold civilYear monthOf dayOf
  generalize marchYear z = y at *
  generalize dayOfYear z = doy at *
  generalize monthFrom doy = k at *
  have early : 1969 ≤ y ∧ (doy < 306 → 1970 ≤ y) := by
    unfold marchDays at days
    omega
  rcases table with ⟨march,table⟩ | ⟨march,table⟩
  · obtain ⟨y,rfl⟩ := Nat.exists_eq_add_of_le' (show 1 ≤ y by omega)
    have length := daysIn_march (y + 1) march
    have succ := marchDays_succ y
    simp only [if_pos march,if_neg (show ¬ k + 3 ≤ 2 by omega),Nat.add_zero]
    rw [daysOf_march (by omega),table]
    simp only [show k + 3 > 2 by omega,and_true]
    exact ⟨by omega,by omega,by omega⟩
  · simp only [if_neg (Nat.not_lt.mpr march),if_pos (show k - 9 ≤ 2 by omega)]
    rw [daysOf_march (by omega),if_neg (by omega)]
    refine ⟨by omega,?_,by omega⟩
    unfold daysIn
    split
    · split <;> simp_all <;> omega
    · rw [if_neg (by omega)]
      omega

theorem clock_time (secs : Nat) : secs / 3600 * 3600 + secs / 60 % 60 * 60 + secs % 60 = secs := by
  omega

/-- Up to the year 65535 the date is the calendar's, and both ways back give its day. -/
theorem dates_agree {epoch : Nat} (small : epoch / 86400 < dayNumber 65536 1 1) :
    Dated epoch (toDateTime epoch) ∧
    daysFromCivil (toDateTime epoch).year (toDateTime epoch).month (toDateTime epoch).day = epoch / 86400 ∧
    daysOf (toDateTime epoch).year (toDateTime epoch).month (toDateTime epoch).day = epoch / 86400 ∧
    nowEpoch (toDateTime epoch) = epoch := by
  obtain ⟨year,day,days⟩ := civil_dated (Nat.le_add_left 719468 (epoch / 86400))
  obtain ⟨march,era,yoe,back,doy,doe,whole⟩ := civil_back (epoch / 86400 + 719468)
  have bounds := monthOf_bounds (inYear (epoch / 86400 + 719468)).short
  have fits : civilYear (epoch / 86400 + 719468) < 2^16 := by
    rw [← daysOf_eq (by decide) (by decide) (by decide) (by decide),show daysOf 65536 1 1 = 23217004 by decide] at small
    unfold daysOf at days
    omega
  clear small
  unfold toDateTime
  dsimp only
  rw [Nat.mod_eq_of_lt fits]
  have clock : epoch % 86400 / 3600 < 24 ∧ epoch % 86400 / 60 % 60 < 60 ∧ epoch % 86400 % 60 < 60 := by omega
  have civil : daysFromCivil (civilYear (epoch / 86400 + 719468)) (monthOf (dayOfYear (epoch / 86400 + 719468)))
      (dayOf (dayOfYear (epoch / 86400 + 719468))) = epoch / 86400 := by
    unfold daysFromCivil
    dsimp only
    rw [march,era,yoe,back,doy,doe,whole]
    omega
  refine ⟨⟨year,⟨bounds.1,bounds.2.1⟩,⟨bounds.2.2.1,day⟩,?_,clock,clock_time _⟩,civil,by omega,?_⟩
  · rw [← daysOf_eq year bounds.1 bounds.2.1 bounds.2.2.1]
    omega
  · have time := clock_time (epoch % 86400)
    dsimp only [nowEpoch]
    rw [if_neg (by omega),civil]
    omega

theorem dates_agree_leap : Dated 951868799 ⟨2000,2,29,23,59,59⟩ ∧ daysFromCivil 2000 2 29 = 11016 ∧
    daysOf 2000 2 29 = 11016 ∧ nowEpoch ⟨2000,2,29,23,59,59⟩ = 951868799 :=
  @dates_agree 951868799 (by rw [dayNumber,years_sum]; decide)

end SurfaceOS.Vfs
