import Mathlib.Algebra.BigOperators.Intervals
import Mathlib.Algebra.Order.BigOperators.Group.Finset
import Mathlib.Tactic.IntervalCases

/-!
# The Gregorian calendar

The calendar is extended to the years before it was introduced, and there is a
year 0. The days are numbered from the first day of one year, the epoch, on; the
days before it have negative numbers. A number belongs to at most one date.
-/

namespace NovaBase.Lib.Calendar

open Finset

/-- Every fourth year is a leap year, but of the centuries only every fourth. -/
def IsLeapYear (year : Int) : Prop := year % 4 = 0 ∧ (year % 100 ≠ 0 ∨ year % 400 = 0)

instance (year : Int) : Decidable (IsLeapYear year) := inferInstanceAs (Decidable (_ ∧ _))

/-- The days of a year. -/
def yearLength (year : Int) : Int := if IsLeapYear year then 366 else 365

/-- The days of a month. -/
def monthLength (year month : Int) : Int :=
  if month = 2 then if IsLeapYear year then 29 else 28
  else if month = 4 ∨ month = 6 ∨ month = 9 ∨ month = 11 then 30
  else 31

/-- The number of the first day of a year. -/
def daysBeforeYear (epoch year : Int) : Int :=
  ∑ i ∈ range (year - epoch).toNat, yearLength (epoch + i) -
    ∑ i ∈ range (epoch - year).toNat, yearLength (year + i)

/-- The days of a year before one of its months. -/
def daysBeforeMonth (year month : Int) : Int :=
  ∑ i ∈ range (month - 1).toNat, monthLength year (1 + i)

/-- A day of the calendar. -/
@[ext] structure Date where
  year : Int
  month : Int
  day : Int
  month_mem : 1 ≤ month ∧ month ≤ 12
  day_mem : 1 ≤ day ∧ day ≤ monthLength year month

/-- The number of a day, where the epoch's first day has the number 0. -/
def Date.dayNumber (epoch : Int) (date : Date) : Int :=
  daysBeforeYear epoch date.year + daysBeforeMonth date.year date.month + (date.day - 1)

section Years

variable {epoch year : Int}

theorem yearLength_pos (year : Int) : 0 < yearLength year := by
  unfold yearLength
  split <;> omega

/-- The first day of the next year is a year's length away. -/
theorem daysBeforeYear_succ (epoch year : Int) :
    daysBeforeYear epoch (year + 1) = daysBeforeYear epoch year + yearLength year := by
  unfold daysBeforeYear
  by_cases h : epoch ≤ year
  · have hpast : (year + 1 - epoch).toNat = (year - epoch).toNat + 1 := by omega
    have hnone : (epoch - (year + 1)).toNat = 0 := by omega
    have hnone' : (epoch - year).toNat = 0 := by omega
    have hlast : epoch + ((year - epoch).toNat : Int) = year := by omega
    rw [hpast, hnone, hnone', sum_range_succ, hlast]
    simp
  · have hcoming : (epoch - year).toNat = (epoch - (year + 1)).toNat + 1 := by omega
    have hnone : (year + 1 - epoch).toNat = 0 := by omega
    have hnone' : (year - epoch).toNat = 0 := by omega
    have hshift : ∀ i : Nat, year + ((i + 1 : Nat) : Int) = year + 1 + i := by omega
    rw [hcoming, hnone, hnone', sum_range_succ']
    simp only [hshift, range_zero, sum_empty, Nat.cast_zero, add_zero]
    omega

theorem yearLength_le (year : Int) : yearLength year ≤ 366 := by
  unfold yearLength
  split <;> omega

/-- The leap years come round every four centuries. -/
theorem yearLength_add_centuries (year era : Int) :
    yearLength (year + era * 400) = yearLength year := by
  have hleap : IsLeapYear (year + era * 400) ↔ IsLeapYear year := by
    unfold IsLeapYear
    omega
  unfold yearLength
  exact if_congr hleap rfl rfl

theorem daysBeforeYear_le (epoch : Int) {later : Int} (h : year ≤ later) :
    daysBeforeYear epoch year ≤ daysBeforeYear epoch later := by
  obtain ⟨passed, hpassed⟩ := Int.le.dest h
  induction passed generalizing later with
  | zero => exact (congrArg (daysBeforeYear epoch) (by omega)).le
  | succ passed ih =>
      have hearlier := @ih (later - 1) (by omega) (by omega)
      have hstep := daysBeforeYear_succ epoch (later - 1)
      have hpos := yearLength_pos (later - 1)
      rw [sub_add_cancel] at hstep
      omega

/-- The days from the start of the year 0 to that of another year, up to a constant. -/
def elapsedDays (year : Int) : Int :=
  365 * year + (year - 1) / 4 - (year - 1) / 100 + (year - 1) / 400

theorem elapsedDays_succ (year : Int) :
    elapsedDays (year + 1) = elapsedDays year + yearLength year := by
  unfold elapsedDays yearLength
  by_cases h : IsLeapYear year
  · rw [if_pos h]
    unfold IsLeapYear at h
    omega
  · rw [if_neg h]
    unfold IsLeapYear at h
    omega

/-- Every fourth year is a leap year, of the full centuries only every fourth. -/
theorem daysBeforeYear_eq (epoch year : Int) :
    daysBeforeYear epoch year = elapsedDays year - elapsedDays epoch := by
  induction year using Int.inductionOn' (b := epoch) with
  | zero => simp [daysBeforeYear]
  | succ year _ ih =>
      rw [daysBeforeYear_succ, elapsedDays_succ, ih]
      omega
  | pred year _ ih =>
      have hdays := daysBeforeYear_succ epoch (year - 1)
      have helapsed := elapsedDays_succ (year - 1)
      rw [sub_add_cancel] at hdays helapsed
      omega

end Years

section Months

variable {year month : Int}

theorem monthLength_pos (year month : Int) : 0 < monthLength year month := by
  unfold monthLength
  split
  · split <;> omega
  · split <;> omega

theorem monthLength_le (year month : Int) : monthLength year month ≤ 31 := by
  unfold monthLength
  split
  · split <;> omega
  · split <;> omega

theorem monthLength_february (year : Int) : monthLength year 2 = yearLength year - 337 := by
  rw [monthLength, if_pos rfl, yearLength]
  split <;> rfl

/-- From March on, five months have 153 days. -/
theorem monthLength_of_march (year : Int) {passed : Nat} (h : passed < 10) :
    monthLength year (3 + passed) = (153 * (passed + 1) + 2) / 5 - (153 * passed + 2) / 5 := by
  interval_cases passed <;> rfl

theorem daysBeforeMonth_succ (year : Int) (h : 1 ≤ month) :
    daysBeforeMonth year (month + 1) = daysBeforeMonth year month + monthLength year month := by
  unfold daysBeforeMonth
  have hpast : (month + 1 - 1).toNat = (month - 1).toNat + 1 := by omega
  have hlast : 1 + ((month - 1).toNat : Int) = month := by omega
  rw [hpast, sum_range_succ, hlast]

theorem daysBeforeMonth_nonneg (year month : Int) : 0 ≤ daysBeforeMonth year month :=
  sum_nonneg fun i _ => (monthLength_pos year (1 + i)).le

/-- A later month starts where the earlier one has ended. -/
theorem daysBeforeMonth_of_lt (year : Int) {later : Int} (hmonth : 1 ≤ month) (h : month < later) :
    daysBeforeMonth year month + monthLength year month ≤ daysBeforeMonth year later := by
  rw [← daysBeforeMonth_succ year hmonth]
  apply sum_le_sum_of_subset_of_nonneg
  · exact range_subset_range.mpr (by omega)
  · exact fun i _ _ => (monthLength_pos year (1 + i)).le

@[simp] theorem daysBeforeMonth_one (year : Int) : daysBeforeMonth year 1 = 0 := rfl

@[simp] theorem daysBeforeMonth_two (year : Int) : daysBeforeMonth year 2 = 31 := by
  rw [show (2 : Int) = 1 + 1 from rfl, daysBeforeMonth_succ year le_rfl]
  rfl

theorem daysBeforeMonth_three (year : Int) : daysBeforeMonth year 3 = yearLength year - 306 := by
  rw [show (3 : Int) = 2 + 1 from rfl, daysBeforeMonth_succ year (by omega), daysBeforeMonth_two,
    monthLength_february]
  omega

theorem daysBeforeMonth_of_march (year : Int) {passed : Nat} (h : passed ≤ 10) :
    daysBeforeMonth year (3 + passed) = yearLength year - 306 + (153 * passed + 2) / 5 := by
  induction passed with
  | zero => simpa using daysBeforeMonth_three year
  | succ passed ih =>
      have hstep := daysBeforeMonth_succ year (by omega : (1 : Int) ≤ 3 + passed)
      rw [Nat.cast_succ, ← add_assoc, hstep, ih (by omega), monthLength_of_march year h]
      omega

/-- The twelve months make up the year. -/
theorem daysBeforeMonth_thirteen (year : Int) : daysBeforeMonth year 13 = yearLength year := by
  have h := daysBeforeMonth_of_march year (le_refl 10)
  calc
    daysBeforeMonth year 13 = yearLength year - 306 + (153 * 10 + 2) / 5 := h
    _ = yearLength year := by omega

end Months

namespace Date

variable {epoch : Int} {earlier later : Date}

/-- The days of a date's year that have passed before its own end. -/
theorem daysBeforeMonth_add_day_le (date : Date) :
    daysBeforeMonth date.year date.month + date.day ≤ yearLength date.year := by
  have hmonth := date.month_mem
  have hday := date.day_mem
  have hnext := daysBeforeMonth_of_lt date.year hmonth.1
    (by omega : date.month < 13)
  rw [daysBeforeMonth_thirteen] at hnext
  omega

theorem dayNumber_lt_of_year_lt (h : earlier.year < later.year) :
    earlier.dayNumber epoch < later.dayNumber epoch := by
  have hend := earlier.daysBeforeMonth_add_day_le
  have hyears := daysBeforeYear_le epoch (by omega : earlier.year + 1 ≤ later.year)
  have hmonths := daysBeforeMonth_nonneg later.year later.month
  have hday := later.day_mem
  rw [daysBeforeYear_succ] at hyears
  unfold dayNumber
  omega

theorem dayNumber_lt_of_month_lt (hyear : earlier.year = later.year)
    (h : earlier.month < later.month) : earlier.dayNumber epoch < later.dayNumber epoch := by
  have hmonths := daysBeforeMonth_of_lt earlier.year earlier.month_mem.1 h
  have hend := earlier.day_mem
  have hday := later.day_mem
  unfold dayNumber
  rw [← hyear]
  omega

/-- From March on, the whole year's leap day has passed. -/
theorem dayNumber_of_march (epoch : Int) {date : Date} (h : 3 ≤ date.month) :
    date.dayNumber epoch = elapsedDays (date.year + 1) - elapsedDays epoch - 306 +
      (153 * (date.month - 3) + 2) / 5 + (date.day - 1) := by
  obtain ⟨passed, hpassed⟩ := Int.eq_ofNat_of_zero_le (sub_nonneg.mpr h)
  have hlast := date.month_mem.2
  have hmonth : date.month = 3 + passed := by omega
  rw [dayNumber, daysBeforeYear_eq, elapsedDays_succ, hmonth, daysBeforeMonth_of_march _ (by omega),
    add_sub_cancel_left]
  omega

/-- Before March there is only January. -/
theorem dayNumber_of_lt_march (epoch : Int) {date : Date} (h : date.month < 3) :
    date.dayNumber epoch = elapsedDays date.year - elapsedDays epoch + 31 * (date.month - 1) +
      (date.day - 1) := by
  have hfirst := date.month_mem.1
  rw [dayNumber, daysBeforeYear_eq]
  obtain hmonth | hmonth : date.month = 1 ∨ date.month = 2 := by omega
  · rw [hmonth, daysBeforeMonth_one]
    rfl
  · rw [hmonth, daysBeforeMonth_two]
    rfl

/-- A number belongs to at most one date. -/
theorem dayNumber_injective (epoch : Int) : Function.Injective (dayNumber epoch) := by
  intro a b h
  have hyear : a.year = b.year := by
    rcases lt_trichotomy a.year b.year with hlt | heq | hlt
    · exact absurd h (dayNumber_lt_of_year_lt hlt).ne
    · exact heq
    · exact absurd h (dayNumber_lt_of_year_lt hlt).ne'
  have hmonth : a.month = b.month := by
    rcases lt_trichotomy a.month b.month with hlt | heq | hlt
    · exact absurd h (dayNumber_lt_of_month_lt hyear hlt).ne
    · exact heq
    · exact absurd h (dayNumber_lt_of_month_lt hyear.symm hlt).ne'
  have hday : a.day = b.day := by
    unfold dayNumber at h
    rw [hyear, hmonth] at h
    omega
  ext
  · exact hyear
  · exact hmonth
  · exact hday

end Date

end NovaBase.Lib.Calendar
