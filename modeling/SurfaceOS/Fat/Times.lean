import Mathlib.Tactic.IntervalCases
import SurfaceOS.Fat.Vnodes

/-! The date and time words of a record (fat32/dir.cpp). Days are counted from 1 March of the year 0
in eras of 400 years, so that a leap day is the last of its year and no month needs a table. -/
namespace SurfaceOS.Fat

variable {doy later secs z : Nat}

def dayOfEra (z : Nat) : Nat := z - z / 146097 * 146097
def yearOfEra (doe : Nat) : Nat := (doe - doe / 1460 + doe / 36524 - doe / 146096) / 365
def daysBefore (yoe : Nat) : Nat := 365 * yoe + yoe / 4 - yoe / 100
def marchYear (z : Nat) : Nat := yearOfEra (dayOfEra z) + z / 146097 * 400
def dayOfYear (z : Nat) : Nat := dayOfEra z - daysBefore (yearOfEra (dayOfEra z))
def monthFrom (doy : Nat) : Nat := (5 * doy + 2) / 153
def dayOf (doy : Nat) : Nat := doy - (153 * monthFrom doy + 2) / 5 + 1
def monthOf (doy : Nat) : Nat := if monthFrom doy < 10 then monthFrom doy + 3 else monthFrom doy - 9
def civilYear (z : Nat) : Nat := marchYear z + if monthOf (dayOfYear z) ≤ 2 then 1 else 0

def dateWord (z : Nat) : Nat := (civilYear z - 1980) * 512 + monthOf (dayOfYear z) * 32 + dayOf (dayOfYear z)
def timeWord (secs : Nat) : Nat := secs / 3600 * 2048 + secs / 60 % 60 * 32 + secs % 60 / 2

def firstDay : Nat := 723120
def lastDay : Nat := 769870

section
variable {doe c : Nat}

theorem yearOfEra_century (small : doe < 146096) (here : doe / 36524 = c) : yearOfEra doe / 100 = c := by
  have few : c ≤ 3 := by omega
  rw [yearOfEra]
  interval_cases c <;> omega

theorem yearOfEra_starts (small : doe < 146096) : daysBefore (yearOfEra doe) ≤ doe := by
  obtain ⟨c,here⟩ : ∃ c, doe / 36524 = c := ⟨_,rfl⟩
  have hundred := yearOfEra_century small here
  have few : c ≤ 3 := by omega
  obtain ⟨y,year⟩ : ∃ y, yearOfEra doe = y := ⟨_,rfl⟩
  rw [year] at hundred ⊢
  rw [yearOfEra] at year
  unfold daysBefore
  interval_cases c <;> omega

theorem yearOfEra_ends (small : doe < 146096) : doe < daysBefore (yearOfEra doe + 1) := by
  obtain ⟨c,here⟩ : ∃ c, doe / 36524 = c := ⟨_,rfl⟩
  have hundred := yearOfEra_century small here
  have none : doe / 146096 = 0 := by omega
  obtain ⟨y,year⟩ : ∃ y, yearOfEra doe = y := ⟨_,rfl⟩
  rw [year] at hundred ⊢
  rw [yearOfEra] at year
  unfold daysBefore
  by_cases last : y = 100 * c + 99
  · omega
  · have quarter : doe / 1460 ≤ (y + 1) / 4 := by omega
    omega

end

structure InYear (z : Nat) : Prop where
  year : yearOfEra (dayOfEra z) < 400
  split : dayOfEra z = daysBefore (yearOfEra (dayOfEra z)) + dayOfYear z
  next : dayOfEra z < daysBefore (yearOfEra (dayOfEra z) + 1) ∨ dayOfEra z = 146096
  short : dayOfYear z ≤ 365

theorem inYear (z : Nat) : InYear z := by
  have bound : dayOfEra z < 146097 := by
    unfold dayOfEra
    omega
  by_cases last : dayOfEra z = 146096
  · have days : dayOfYear z = 365 := by
      rw [dayOfYear,last]
      decide
    exact ⟨by rw [last]; decide,by rw [days,last]; decide,.inr last,Nat.le_of_eq days⟩
  have small : dayOfEra z < 146096 := by omega
  have starts := yearOfEra_starts small
  have ends := yearOfEra_ends small
  refine ⟨?_,?_,.inl ends,?_⟩
  · unfold yearOfEra
    omega
  · unfold dayOfYear
    omega
  · unfold dayOfYear daysBefore at *
    omega

theorem month_parts (short : doy ≤ 365) :
    monthFrom doy ≤ 11 ∧ (153 * monthFrom doy + 2) / 5 ≤ doy ∧ doy < (153 * monthFrom doy + 2) / 5 + 31 := by
  unfold monthFrom
  omega

theorem monthOf_bounds (short : doy ≤ 365) : 1 ≤ monthOf doy ∧ monthOf doy ≤ 12 ∧ 1 ≤ dayOf doy ∧ dayOf doy ≤ 31 := by
  have parts := month_parts short
  unfold monthOf dayOf
  split <;> omega

theorem month_count (short : dayOfYear z ≤ 365) :
    civilYear z * 12 + monthOf (dayOfYear z) = marchYear z * 12 + monthFrom (dayOfYear z) + 3 := by
  have parts := month_parts short
  unfold civilYear monthOf
  split <;> split <;> omega

theorem timeWord_fields (day : secs < 86400) :
    timeWord secs / 2048 % 32 * 3600 + timeWord secs / 32 % 64 * 60 + timeWord secs % 32 * 2 = secs / 2 * 2 := by
  have hour : timeWord secs / 2048 % 32 = secs / 3600 := by
    unfold timeWord
    omega
  have minute : timeWord secs / 32 % 64 = secs / 60 % 60 := by
    unfold timeWord
    omega
  have second : timeWord secs % 32 = secs % 60 / 2 := by
    unfold timeWord
    omega
  omega

theorem civil_back (z : Nat) :
    (civilYear z - if monthOf (dayOfYear z) ≤ 2 then 1 else 0) = marchYear z ∧ marchYear z / 400 = z / 146097 ∧
    marchYear z - z / 146097 * 400 = yearOfEra (dayOfEra z) ∧
    (if monthOf (dayOfYear z) > 2 then monthOf (dayOfYear z) - 3 else monthOf (dayOfYear z) + 9) =
      monthFrom (dayOfYear z) ∧
    (153 * monthFrom (dayOfYear z) + 2) / 5 + dayOf (dayOfYear z) - 1 = dayOfYear z ∧
    yearOfEra (dayOfEra z) * 365 + yearOfEra (dayOfEra z) / 4 - yearOfEra (dayOfEra z) / 100 + dayOfYear z =
      dayOfEra z ∧ z / 146097 * 146097 + dayOfEra z = z := by
  obtain ⟨small,split_,next,short⟩ := inYear z
  have parts := month_parts short
  refine ⟨Nat.add_sub_cancel ..,?_,Nat.add_sub_cancel ..,?_,?_,?_,?_⟩
  · unfold marchYear
    omega
  · unfold monthOf
    split <;> split <;> omega
  · unfold dayOf
    omega
  · rw [Nat.mul_comm]
    exact split_.symm
  · unfold dayOfEra
    omega

theorem daysBefore_mono {y : Nat} (order : y ≤ later) : daysBefore y ≤ daysBefore later := by
  rcases Nat.eq_or_lt_of_le order with rfl | grows
  · exact Nat.le_refl _
  · have centuries : later / 100 ≤ y / 100 + (later - y) := by omega
    unfold daysBefore
    omega

theorem marchYear_mono (order : z ≤ later) : marchYear z ≤ marchYear later := by
  obtain ⟨small,split_,_,_⟩ := inYear z
  obtain ⟨small',split',next',short'⟩ := inYear later
  have days : dayOfEra z = z - z / 146097 * 146097 := rfl
  have days' : dayOfEra later = later - later / 146097 * 146097 := rfl
  unfold marchYear
  by_cases same : z / 146097 = later / 146097
  · by_contra back
    have years : yearOfEra (dayOfEra later) + 1 ≤ yearOfEra (dayOfEra z) := by omega
    have starts := daysBefore_mono years
    rcases next' with inside | last
    · omega
    · rw [last] at years
      exact absurd years (by rw [show yearOfEra 146096 = 399 from rfl]; omega)
  · omega

theorem monthDay_mono (order : doy ≤ later) :
    monthFrom doy < monthFrom later ∨ monthFrom doy = monthFrom later ∧ dayOf doy ≤ dayOf later := by
  by_cases same : monthFrom doy = monthFrom later
  · refine .inr ⟨same,?_⟩
    unfold dayOf
    omega
  · refine .inl (Nat.lt_of_le_of_ne ?_ same)
    unfold monthFrom
    omega

theorem timeWord_mono (order : secs ≤ later) : timeWord secs ≤ timeWord later := by
  have hours : secs / 3600 = secs / 60 / 60 ∧ later / 3600 = later / 60 / 60 := by omega
  unfold timeWord
  by_cases same : secs / 60 = later / 60
  · rw [same]
    omega
  · have minutes : secs / 60 < later / 60 := by omega
    omega

def WordsLe (a b : Nat × Nat) : Prop := a.1 < b.1 ∨ a.1 = b.1 ∧ a.2 ≤ b.2

section
variable (low : firstDay ≤ z) (high : z ≤ lastDay)
include low high

theorem civilYear_bounds : 1980 ≤ civilYear z ∧ civilYear z ≤ 2107 := by
  obtain ⟨year,split_,next,short⟩ := inYear z
  have months := month_count short
  have bounds := monthOf_bounds short
  unfold firstDay at low
  unfold lastDay at high
  unfold marchYear at months
  have days : dayOfEra z = z - z / 146097 * 146097 := rfl
  have early : z / 146097 = 4 ∨ z / 146097 = 5 := by omega
  generalize dayOfEra z = doe at *
  generalize yearOfEra doe = yoe at *
  generalize dayOfYear z = doy at *
  rcases early with era | era
  -- up to February 2000; the first year is the rest of 1979
  · rw [era] at months days
    have first : 379 ≤ yoe := by
      unfold daysBefore at split_
      omega
    have rest : yoe = 379 → 306 ≤ doy := by
      rintro rfl
      have before : daysBefore 379 = 138426 := rfl
      omega
    unfold monthFrom at months
    omega
  · rw [era] at months days
    have last : yoe ≤ 107 := by
      unfold daysBefore at split_
      omega
    have rest : yoe = 107 → doy ≤ 305 := by
      rintro rfl
      have before : daysBefore 107 = 39080 := rfl
      omega
    unfold monthFrom at months
    omega

theorem dateWord_fields :
    dateWord z ≠ 0 ∧ dateWord z / 32 % 16 = monthOf (dayOfYear z) ∧ dateWord z % 32 = dayOf (dayOfYear z) ∧
      1980 + dateWord z / 512 % 128 = civilYear z := by
  obtain ⟨early,late⟩ := civilYear_bounds low high
  have bounds := monthOf_bounds (inYear z).short
  unfold dateWord
  omega

theorem fatToEpoch_words (day : secs < 86400) :
    fatToEpoch (dateWord z) (timeWord secs) = (z - 719468) * 86400 + secs / 2 * 2 := by
  obtain ⟨filled,month,dayField,year⟩ := dateWord_fields low high
  obtain ⟨march,era,yoe,back,doy,doe,whole⟩ := civil_back z
  have bounds := monthOf_bounds (inYear z).short
  rw [fatToEpoch,if_neg filled]
  dsimp only
  rw [month,dayField,year,if_neg (by omega),march,era,yoe,back,doy,doe,Nat.add_assoc,Nat.add_assoc,
    ← Nat.add_assoc (_ * 3600),timeWord_fields day,whole]

end

theorem epochToFat_eq {e : Nat} (low : firstDay ≤ e / 86400 + 719468) (high : e / 86400 + 719468 ≤ lastDay) :
    epochToFat e = (dateWord (e / 86400 + 719468),timeWord (e % 86400)) := by
  obtain ⟨early,late⟩ := civilYear_bounds low high
  have bounds := monthOf_bounds (inYear (e / 86400 + 719468)).short
  have filled : e ≠ 0 := by
    rintro rfl
    exact absurd low (by decide)
  have words : epochToFat e = if e = 0 then (0,0)
      else if civilYear (e / 86400 + 719468) < 1980 then (33,0)
      else (((min (civilYear (e / 86400 + 719468)) 2107 - 1980) * 512 +
        monthOf (dayOfYear (e / 86400 + 719468)) * 32 + dayOf (dayOfYear (e / 86400 + 719468))) % 2^16,
        timeWord (e % 86400) % 2^16) := rfl
  rw [words,if_neg filled,if_neg (by omega),Nat.min_eq_left late,Nat.mod_eq_of_lt (by omega),Nat.mod_eq_of_lt ?_]
  · rfl
  · unfold timeWord
    omega

theorem dateWord_mono (low : firstDay ≤ z) (order : z ≤ later) (high : later ≤ lastDay) :
    dateWord z ≤ dateWord later := by
  have early := civilYear_bounds low (Nat.le_trans order high)
  have short := (inYear z).short
  have short' := (inYear later).short
  have months := month_count short
  have months' := month_count short'
  have bounds := monthOf_bounds short
  have bounds' := monthOf_bounds short'
  have parts := month_parts short
  have years := marchYear_mono order
  have inside : marchYear z = marchYear later → monthFrom (dayOfYear z) < monthFrom (dayOfYear later) ∨
      monthFrom (dayOfYear z) = monthFrom (dayOfYear later) ∧
        dayOf (dayOfYear z) ≤ dayOf (dayOfYear later) := by
    intro same
    refine monthDay_mono ?_
    obtain ⟨small,split_,_,_⟩ := inYear z
    obtain ⟨small',split',_,_⟩ := inYear later
    have days : dayOfEra z = z - z / 146097 * 146097 := rfl
    have days' : dayOfEra later = later - later / 146097 * 146097 := rfl
    unfold marchYear at same
    have year : yearOfEra (dayOfEra z) = yearOfEra (dayOfEra later) := by omega
    rw [year] at split_
    omega
  unfold dateWord
  omega

/-- From 1980-01-01 00:00:00 to 2107-12-31 23:59:59 the words give the time back but for the odd
second, and later times never make smaller words. -/
theorem times_round_trip {e : Nat} (low : 315532800 ≤ e) (high : e ≤ 4354819199) :
    fatToEpoch (epochToFat e).1 (epochToFat e).2 = e / 2 * 2 ∧
      ∀ later, e ≤ later → later ≤ 4354819199 → WordsLe (epochToFat e) (epochToFat later) := by
  have first : firstDay ≤ e / 86400 + 719468 := by
    unfold firstDay
    omega
  have bounded : ∀ later, later ≤ 4354819199 → later / 86400 + 719468 ≤ lastDay := by
    intro later inside
    unfold lastDay
    omega
  rw [epochToFat_eq first (bounded e high)]
  constructor
  · rw [fatToEpoch_words first (bounded e high) (Nat.mod_lt _ (by decide))]
    omega
  intro later order inside
  have days : e / 86400 + 719468 ≤ later / 86400 + 719468 := by omega
  rw [epochToFat_eq (Nat.le_trans first days) (bounded later inside)]
  rcases Nat.lt_or_eq_of_le (dateWord_mono first days (bounded later inside)) with grows | same
  · exact .inl grows
  refine .inr ⟨same,timeWord_mono ?_⟩
  -- equal dates are the same day, since the words give the day back
  have back := fatToEpoch_words first (bounded e high) (show 0 < 86400 by decide)
  rw [same,fatToEpoch_words (Nat.le_trans first days) (bounded later inside) (by decide)] at back
  omega

theorem times_round_trip_leap : epochToFat 951868799 = (10333,49021) ∧
    fatToEpoch 10333 49021 = 951868798 ∧ WordsLe (epochToFat 951868799) (epochToFat 951868800) := by
  have trip := @times_round_trip 951868799 (by decide) (by decide)
  exact ⟨rfl,trip.1,trip.2 951868800 (by decide) (by decide)⟩

end SurfaceOS.Fat
