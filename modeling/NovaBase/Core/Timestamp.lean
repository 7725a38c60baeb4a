import NovaBase.Core.Value
import NovaBase.Lib.Calendar

/-!
# Timestamps as text

A timestamp is written as a date and a time of day. The arithmetic is that of
`i64`, and a result out of its range is none at all.
-/

namespace NovaBase

open Lib.Calendar

/-- Milliseconds in a day. -/
def msPerDay : Int := 86400000

/-- Milliseconds in an hour. -/
def msPerHour : Int := 3600000

/-- Milliseconds in a minute. -/
def msPerMinute : Int := 60000

/-- Milliseconds in a second. -/
def msPerSecond : Int := 1000

/-- The result of an operation on `i64`, unless it overflows. -/
def i64 (n : Int) : Option Int :=
  if Int64.minValue.toInt ≤ n ∧ n ≤ Int64.maxValue.toInt then some n else none

/-- The year, month and day of so many days since 1970-01-01. A division truncates, and by a
positive constant it never overflows. -/
def civilFromDays (z : Int) : Option (Int × Int × Int) := do
  let z ← i64 (z + 719468)
  let era := (← (if 0 ≤ z then some z else i64 (z - 146096))).tdiv 146097
  let doe ← i64 (z - (← i64 (era * 146097)))
  let yoe := (← i64 ((← i64 ((← i64 (doe - doe.tdiv 1460)) + doe.tdiv 36524)) -
    doe.tdiv 146096)).tdiv 365
  let year ← i64 (yoe + (← i64 (era * 400)))
  let doy ← i64 (doe - (← i64 ((← i64 ((← i64 (365 * yoe)) + yoe.tdiv 4)) - yoe.tdiv 100)))
  let mp := (← i64 ((← i64 (5 * doy)) + 2)).tdiv 153
  let day ← i64 ((← i64 (doy - (← i64 ((← i64 (153 * mp)) + 2)).tdiv 5)) + 1)
  let month ← (if mp < 10 then i64 (mp + 3) else i64 (mp - 9))
  let year ← (if month ≤ 2 then i64 (year + 1) else some year)
  return (year, month, day)

/-- `{n:0width}`: zeros between the sign and the digits fill up the width. -/
def zeroPadded (width : Nat) (n : Int) : String :=
  let sign := if n < 0 then "-" else ""
  let digits := n.natAbs.repr
  sign ++ String.ofList (List.replicate (width - (sign.length + digits.length)) '0') ++ digits

/-- A date and a time of day, as text. -/
def iso8601 (year month day hour minute second millis : Int) : String :=
  zeroPadded 4 year ++ ("-" ++ (zeroPadded 2 month ++ ("-" ++ (zeroPadded 2 day ++ ("T" ++
    (zeroPadded 2 hour ++ (":" ++ (zeroPadded 2 minute ++ (":" ++ (zeroPadded 2 second ++ ("." ++
      (zeroPadded 3 millis ++ "Z"))))))))))))

/-- The text of a time in UTC, with milliseconds. There is none where the calendar overflows. -/
def NovaTimestamp.toIso8601 (timestamp : NovaTimestamp) : Option String := do
  -- Both round down, so the time of day is never negative.
  let days := timestamp.millis.toInt / msPerDay
  let rem := timestamp.millis.toInt % msPerDay
  let (year, month, day) ← civilFromDays days
  let hour := rem.tdiv msPerHour
  let minute := (rem.tdiv msPerMinute).tmod 60
  let second := (rem.tdiv msPerSecond).tmod 60
  let millis := rem.tmod msPerSecond
  return iso8601 year month day hour minute second millis

section Arithmetic

variable {α : Type} {n : Int} {f : Int → Option α}

theorem i64_eq_some (h : -9223372036854775808 ≤ n ∧ n ≤ 9223372036854775807) : i64 n = some n := by
  have hlow : Int64.minValue.toInt = -9223372036854775808 := rfl
  have hhigh : Int64.maxValue.toInt = 9223372036854775807 := rfl
  rw [i64, hlow, hhigh, if_pos h]

/-- An operation that does not overflow is followed by the next one. -/
theorem i64_bind (h : -9223372036854775808 ≤ n ∧ n ≤ 9223372036854775807) :
    (i64 n >>= f) = f n := by
  rw [i64_eq_some h]
  rfl

end Arithmetic

section Eras

variable {era doe century quad rest : Int}

/-- An era has four centuries, all but the last day of it, a century has 25 runs of four
years, and a run has a leap day at its end. -/
theorem yearOfEra_eq (hcentury : 0 ≤ century ∧ century ≤ 3) (hquad : 0 ≤ quad)
    (hrest : 0 ≤ rest ∧ rest ≤ 1460) (hlast : 1461 * quad + rest < 36524)
    (hdoe : doe = 36524 * century + 1461 * quad + rest) :
    (doe - doe / 1460 + doe / 36524 - doe / 146096) / 365 =
      100 * century + 4 * quad + min (rest / 365) 3 := by
  have hcenturies : doe / 36524 = century := by omega
  have heras : doe / 146096 = 0 := by omega
  have hquads : doe / 1460 = 25 * century + quad + (24 * century + quad + rest) / 1460 := by omega
  have hcarry : (24 * century + quad + rest) / 1460 = 0 ∨
      (24 * century + quad + rest) / 1460 = 1 := by omega
  rw [hcenturies, heras, hquads]
  cases hcarry with
  | inl h =>
      rw [h]
      omega
  | inr h =>
      rw [h]
      omega

/-- A day of an era lies in one of its 400 years, where a year starts with March. -/
theorem exists_yearOfEra (hdoe : 0 ≤ doe ∧ doe < 146097) :
    ∃ yoe doy, (doe - doe / 1460 + doe / 36524 - doe / 146096) / 365 = yoe ∧
      (0 ≤ yoe ∧ yoe ≤ 399) ∧ doe - (365 * yoe + yoe / 4 - yoe / 100) = doy ∧
      0 ≤ doy ∧ doy < yearLength (yoe + 1) := by
  by_cases hlast : doe = 146096
  · subst hlast
    exact ⟨399, 365, by decide⟩
  · obtain ⟨century, quad, rest, hcentury, hquad, hrest, hshort, hsplit⟩ :
        ∃ century quad rest, (0 ≤ century ∧ century ≤ 3) ∧ 0 ≤ quad ∧ (0 ≤ rest ∧ rest ≤ 1460) ∧
          1461 * quad + rest < 36524 ∧ doe = 36524 * century + 1461 * quad + rest :=
      ⟨doe / 36524, doe % 36524 / 1461, doe % 36524 % 1461, ⟨by omega, by omega⟩, by omega,
        ⟨by omega, by omega⟩, by omega, by omega⟩
    obtain ⟨years, hyears⟩ : ∃ years, years = min (rest / 365) 3 := ⟨_, rfl⟩
    have hquads : (100 * century + 4 * quad + years) / 4 = 25 * century + quad := by omega
    have hcenturies : (100 * century + 4 * quad + years) / 100 = century := by omega
    have hdoy : doe - (365 * (100 * century + 4 * quad + years) + (25 * century + quad) - century) =
        rest - 365 * years := by omega
    refine ⟨100 * century + 4 * quad + years, rest - 365 * years, ?_, ⟨by omega, by omega⟩, ?_,
      by omega, ?_⟩
    · rw [hyears]
      exact yearOfEra_eq hcentury hquad hrest hshort hsplit
    · rw [hquads, hcenturies, hdoy]
    · unfold yearLength
      by_cases hleap : IsLeapYear (100 * century + 4 * quad + years + 1)
      · rw [if_pos hleap]
        omega
      · rw [if_neg hleap]
        have hlong : ¬ (rest = 1460 ∧ years = 3) := by
          intro ⟨_, _⟩
          apply hleap
          constructor
          · omega
          · exact Or.inl (by omega)
        omega

end Eras

section Dates

variable {z era doe yoe doy mp month : Int}

/-- The era is the quotient rounded down, although the division truncates. -/
theorem tdiv_era (hdoe : 0 ≤ doe ∧ doe < 146097) (hera : -10000000 ≤ era ∧ era ≤ 10000000) :
    ∃ n, (if 0 ≤ era * 146097 + doe then some (era * 146097 + doe)
      else i64 (era * 146097 + doe - 146096)) = some n ∧ n.tdiv 146097 = era := by
  by_cases h : 0 ≤ era * 146097 + doe
  · rw [if_pos h]
    refine ⟨_, rfl, ?_⟩
    rw [Int.tdiv_eq_ediv_of_nonneg h]
    omega
  · rw [if_neg h, i64_eq_some (by omega)]
    refine ⟨_, rfl, ?_⟩
    have hneg : era * 146097 + doe - 146096 = -(-era * 146097 + (146096 - doe)) := by omega
    rw [hneg, Int.neg_tdiv, Int.tdiv_eq_ediv_of_nonneg (by omega)]
    omega

theorem civilFromDays_eq (hz : z + 719468 = era * 146097 + doe)
    (hera : -10000000 ≤ era ∧ era ≤ 10000000) (hdoe : 0 ≤ doe ∧ doe < 146097)
    (hyoe : (doe - doe / 1460 + doe / 36524 - doe / 146096) / 365 = yoe)
    (hyears : 0 ≤ yoe ∧ yoe ≤ 399)
    (hdoy : doe - (365 * yoe + yoe / 4 - yoe / 100) = doy) (hdays : 0 ≤ doy ∧ doy ≤ 365)
    (hmp : (5 * doy + 2) / 153 = mp) (hmonth : (if mp < 10 then mp + 3 else mp - 9) = month) :
    civilFromDays z = some (if month ≤ 2 then yoe + era * 400 + 1 else yoe + era * 400,
      month, doy - (153 * mp + 2) / 5 + 1) := by
  have hdiv : ∀ {n d : Int}, 0 ≤ n → n.tdiv d = n / d := Int.tdiv_eq_ediv_of_nonneg
  obtain ⟨shifted, hshifted, hquotient⟩ := tdiv_era hdoe hera
  unfold civilFromDays
  rw [hz]
  refine (i64_bind ⟨by omega, by omega⟩).trans ?_
  rw [hshifted]
  refine (Option.bind_some _ _).trans ?_
  -- The day of the era.
  rw [hquotient]
  refine (i64_bind ⟨by omega, by omega⟩).trans ?_
  rw [add_sub_cancel_left]
  refine (i64_bind ⟨by omega, by omega⟩).trans ?_
  -- The year of the era.
  rw [hdiv hdoe.1, hdiv hdoe.1, hdiv hdoe.1]
  refine (i64_bind ⟨by omega, by omega⟩).trans ?_
  refine (i64_bind ⟨by omega, by omega⟩).trans ?_
  refine (i64_bind ⟨by omega, by omega⟩).trans ?_
  rw [hdiv (by omega), hyoe]
  refine (i64_bind ⟨by omega, by omega⟩).trans ?_
  refine (i64_bind ⟨by omega, by omega⟩).trans ?_
  -- The day of the year.
  refine (i64_bind ⟨by omega, by omega⟩).trans ?_
  rw [hdiv hyears.1, hdiv hyears.1]
  refine (i64_bind ⟨by omega, by omega⟩).trans ?_
  refine (i64_bind ⟨by omega, by omega⟩).trans ?_
  rw [hdoy]
  refine (i64_bind ⟨by omega, by omega⟩).trans ?_
  -- The month, and the day of the month.
  refine (i64_bind ⟨by omega, by omega⟩).trans ?_
  refine (i64_bind ⟨by omega, by omega⟩).trans ?_
  rw [hdiv (by omega), hmp]
  refine (i64_bind ⟨by omega, by omega⟩).trans ?_
  refine (i64_bind ⟨by omega, by omega⟩).trans ?_
  rw [hdiv (by omega)]
  refine (i64_bind ⟨by omega, by omega⟩).trans ?_
  refine (i64_bind ⟨by omega, by omega⟩).trans ?_
  rw [i64_eq_some (by omega), i64_eq_some (by omega), ← apply_ite some, hmonth]
  refine (Option.bind_some _ _).trans ?_
  rw [i64_eq_some (by omega), ← apply_ite some]
  rfl

/-- A day of a year that starts with March: ten months later a new year has begun. -/
theorem exists_date (era : Int) (hyears : 0 ≤ yoe ∧ yoe ≤ 399)
    (hdays : 0 ≤ doy ∧ doy < yearLength (yoe + 1))
    (hmp : (5 * doy + 2) / 153 = mp) (hmonth : (if mp < 10 then mp + 3 else mp - 9) = month) :
    ∃ date : Date, date.year = (if month ≤ 2 then yoe + era * 400 + 1 else yoe + era * 400) ∧
      date.month = month ∧ date.day = doy - (153 * mp + 2) / 5 + 1 ∧
      date.dayNumber 1970 + 719468 =
        era * 146097 + (365 * yoe + yoe / 4 - yoe / 100 + doy) := by
  have hlength : yearLength (yoe + era * 400 + 1) = yearLength (yoe + 1) := by
    rw [add_right_comm]
    exact yearLength_add_centuries (yoe + 1) era
  have hlong := yearLength_le (yoe + 1)
  have helapsed : elapsedDays (yoe + era * 400 + 1) - elapsedDays 1970 + 719468 =
      era * 146097 + (365 * yoe + yoe / 4 - yoe / 100) + 306 := by
    unfold elapsedDays
    omega
  by_cases hmarch : mp < 10
  · obtain ⟨passed, hpassed⟩ := Int.eq_ofNat_of_zero_le (by omega : 0 ≤ mp)
    subst hpassed
    rw [if_pos hmarch] at hmonth
    have hmonthLength := monthLength_of_march (yoe + era * 400) (by omega : passed < 10)
    obtain ⟨date, hyear, hmonth', hday⟩ : ∃ date : Date, date.year = yoe + era * 400 ∧
        date.month = 3 + passed ∧ date.day = doy - (153 * passed + 2) / 5 + 1 :=
      ⟨⟨_, _, _, ⟨by omega, by omega⟩, ⟨by omega, by omega⟩⟩, rfl, rfl, rfl⟩
    have hnumber := Date.dayNumber_of_march 1970 (by omega : 3 ≤ date.month)
    rw [hyear, hmonth', hday, add_sub_cancel_left] at hnumber
    rw [if_neg (by omega)]
    exact ⟨date, hyear, by omega, hday, by omega⟩
  · rw [if_neg hmarch] at hmonth
    have hend : doy - (153 * mp + 2) / 5 + 1 ≤ monthLength (yoe + era * 400 + 1) month := by
      obtain hjanuary | hfebruary : month = 1 ∨ month = 2 := by omega
      · have hmonthLength : monthLength (yoe + era * 400 + 1) 1 = 31 := rfl
        rw [hjanuary, hmonthLength]
        omega
      · rw [hfebruary, monthLength_february, hlength]
        omega
    obtain ⟨date, hyear, hmonth', hday⟩ : ∃ date : Date, date.year = yoe + era * 400 + 1 ∧
        date.month = month ∧ date.day = doy - (153 * mp + 2) / 5 + 1 :=
      ⟨⟨_, _, _, ⟨by omega, by omega⟩, ⟨by omega, by omega⟩⟩, rfl, rfl, rfl⟩
    have hnumber := Date.dayNumber_of_lt_march 1970 (by omega : date.month < 3)
    rw [hyear, hmonth', hday] at hnumber
    rw [if_pos (by omega)]
    exact ⟨date, hyear, by omega, hday, by omega⟩

/-- The algorithm finds the date of every day that a timestamp can lie on. -/
theorem civilFromDays_date (hz : -1000000000000 ≤ z ∧ z ≤ 1000000000000) :
    ∃ date : Date, civilFromDays z = some (date.year, date.month, date.day) ∧
      date.dayNumber 1970 = z := by
  obtain ⟨era, doe, hsplit, hera, hdoe⟩ : ∃ era doe, z + 719468 = era * 146097 + doe ∧
      (-10000000 ≤ era ∧ era ≤ 10000000) ∧ 0 ≤ doe ∧ doe < 146097 :=
    ⟨(z + 719468) / 146097, (z + 719468) % 146097, by omega, by omega, by omega⟩
  obtain ⟨yoe, doy, hyoe, hyears, hdoy, hdays⟩ := exists_yearOfEra hdoe
  have hlong := yearLength_le (yoe + 1)
  have hcivil := civilFromDays_eq hsplit hera hdoe hyoe hyears hdoy (by omega) rfl rfl
  obtain ⟨date, hyear, hmonth, hday, hnumber⟩ := exists_date era hyears hdays rfl rfl
  refine ⟨date, ?_, by omega⟩
  rw [hcivil, hyear, hmonth, hday]

end Dates

section Padding

variable {width : Nat} {n : Int}

theorem length_repr (n : Nat) : n.repr.length = (Nat.toDigits 10 n).length := by
  rw [← String.length_toList, Nat.toList_repr]

theorem toList_zeroPadded_of_nonneg (hn : 0 ≤ n) : (zeroPadded width n).toList =
    List.replicate (width - (Nat.toDigits 10 n.natAbs).length) '0' ++ Nat.toDigits 10 n.natAbs := by
  simp [zeroPadded, not_lt.mpr hn, length_repr]

theorem toList_zeroPadded_of_neg (hn : n < 0) : (zeroPadded width n).toList =
    '-' :: (List.replicate (width - (1 + (Nat.toDigits 10 n.natAbs).length)) '0' ++
      Nat.toDigits 10 n.natAbs) := by
  have hsign : "-".length = 1 := rfl
  simp [zeroPadded, hn, hsign, length_repr]

/-- A sign is no digit. -/
theorem sign_notMem_digits (zeros n : Nat) :
    '-' ∉ List.replicate zeros '0' ++ Nat.toDigits 10 n := by
  intro h
  obtain hzero | hdigit := List.mem_append.mp h
  · exact absurd (List.eq_of_mem_replicate hzero) (by decide)
  · exact absurd (Nat.isDigit_of_mem_toDigits (by decide) (by decide) hdigit) (by decide)

/-- Zeros in front of a number do not change it. -/
theorem digits_unique {zeros zeros' m n : Nat} (h : List.replicate zeros '0' ++ Nat.toDigits 10 m =
    List.replicate zeros' '0' ++ Nat.toDigits 10 n) : m = n := by
  have hvalue : ∀ zeros n,
      Nat.ofDigitChars 10 (List.replicate zeros '0' ++ Nat.toDigits 10 n) 0 = n := by
    intro zeros n
    rw [Nat.ofDigitChars_append, Nat.ofDigitChars_replicate_zero, Nat.mul_zero,
      Nat.ofDigitChars_ten_toDigits]
  rw [← hvalue zeros m, h, hvalue]

/-- The sign and the digits can be read back. -/
theorem zeroPadded_injective (width : Nat) : Function.Injective (zeroPadded width) := by
  intro m n h
  have hchars := congrArg String.toList h
  by_cases hm : 0 ≤ m
  · rw [toList_zeroPadded_of_nonneg hm] at hchars
    by_cases hn : 0 ≤ n
    · rw [toList_zeroPadded_of_nonneg hn] at hchars
      have habs := digits_unique hchars
      omega
    · rw [toList_zeroPadded_of_neg (not_le.mp hn)] at hchars
      exact absurd (hchars ▸ List.mem_cons_self) (sign_notMem_digits _ _)
  · rw [toList_zeroPadded_of_neg (not_le.mp hm)] at hchars
    by_cases hn : 0 ≤ n
    · rw [toList_zeroPadded_of_nonneg hn] at hchars
      exact absurd (hchars ▸ List.mem_cons_self) (sign_notMem_digits _ _)
    · rw [toList_zeroPadded_of_neg (not_le.mp hn)] at hchars
      have habs := digits_unique (List.cons.inj hchars).2
      omega

/-- A number that fits is written at the very width. -/
theorem length_zeroPadded (hwidth : 0 < width) (hn : 0 ≤ n ∧ n < 10 ^ width) :
    (zeroPadded width n).length = width := by
  have hshort : (Nat.toDigits 10 n.natAbs).length ≤ width := by
    rw [Nat.length_toDigits_le_iff (by decide) hwidth]
    zify
    rw [abs_of_nonneg hn.1]
    exact hn.2
  rw [← String.length_toList, toList_zeroPadded_of_nonneg hn.1, List.length_append,
    List.length_replicate]
  omega

end Padding

/-- A time of day, to the millisecond. -/
structure IsClock (hour minute second millis : Int) : Prop where
  hour_mem : 0 ≤ hour ∧ hour < 24
  minute_mem : 0 ≤ minute ∧ minute < 60
  second_mem : 0 ≤ second ∧ second < 60
  millis_mem : 0 ≤ millis ∧ millis < 1000

section Texts

variable {width : Nat} {m n : Int} {s t : String}

/-- A number in front of texts of the same length can be read back. -/
theorem zeroPadded_append_unique (hlength : s.length = t.length)
    (h : zeroPadded width m ++ s = zeroPadded width n ++ t) : m = n ∧ s = t := by
  have hchars := congrArg String.toList h
  rw [String.toList_append, String.toList_append] at hchars
  obtain ⟨hnumber, hrest⟩ := List.append_inj' hchars
    (by rw [String.length_toList, String.length_toList, hlength])
  constructor
  · exact zeroPadded_injective width (String.toList_injective hnumber)
  · exact String.toList_injective hrest

/-- So can a number behind a mark, where it fits. -/
theorem field_unique {mark : String} (hwidth : 0 < width) (hm : 0 ≤ m ∧ m < 10 ^ width)
    (hn : 0 ≤ n ∧ n < 10 ^ width)
    (h : mark ++ (zeroPadded width m ++ s) = mark ++ (zeroPadded width n ++ t)) :
    m = n ∧ s = t := by
  have hfield := (String.append_right_inj mark).mp h
  apply zeroPadded_append_unique _ hfield
  have hlength := congrArg String.length hfield
  rw [String.length_append, String.length_append, length_zeroPadded hwidth hm,
    length_zeroPadded hwidth hn] at hlength
  omega

variable {a b : Date} {hour minute second millis hour' minute' second' millis' : Int}

/-- No field but the year is wider than its place. -/
theorem fields_fit (a : Date) (hclock : IsClock hour minute second millis) :
    (0 ≤ a.month ∧ a.month < 10 ^ 2) ∧ (0 ≤ a.day ∧ a.day < 10 ^ 2) ∧
      (0 ≤ hour ∧ hour < 10 ^ 2) ∧ (0 ≤ minute ∧ minute < 10 ^ 2) ∧
      (0 ≤ second ∧ second < 10 ^ 2) ∧ 0 ≤ millis ∧ millis < 10 ^ 3 := by
  have hmonth := a.month_mem
  have hday := a.day_mem
  have hlong := monthLength_le a.year a.month
  have hhour := hclock.hour_mem
  have hminute := hclock.minute_mem
  have hsecond := hclock.second_mem
  have hmillis := hclock.millis_mem
  refine ⟨?_, ?_, ?_, ?_, ?_, ?_⟩
  all_goals
    constructor
    · omega
    · omega

/-- Behind the year there are 20 characters. -/
theorem length_iso8601 (hclock : IsClock hour minute second millis) :
    (iso8601 a.year a.month a.day hour minute second millis).length =
      (zeroPadded 4 a.year).length + 20 := by
  obtain ⟨hmonth, hday, hhour, hminute, hsecond, hmillis⟩ := fields_fit a hclock
  have hmarks : ∀ mark ∈ ["-", "T", ":", ".", "Z"], mark.length = 1 := by decide
  simp only [iso8601, String.length_append]
  rw [length_zeroPadded (by decide) hmonth, length_zeroPadded (by decide) hday,
    length_zeroPadded (by decide) hhour, length_zeroPadded (by decide) hminute,
    length_zeroPadded (by decide) hsecond, length_zeroPadded (by decide) hmillis,
    hmarks "-" (by simp), hmarks "T" (by simp), hmarks ":" (by simp), hmarks "." (by simp),
    hmarks "Z" (by simp)]

/-- The text says the date and the time of day. -/
theorem iso8601_unique (hclock : IsClock hour minute second millis)
    (hclock' : IsClock hour' minute' second' millis')
    (h : iso8601 a.year a.month a.day hour minute second millis =
      iso8601 b.year b.month b.day hour' minute' second' millis') :
    a = b ∧ hour = hour' ∧ minute = minute' ∧ second = second' ∧ millis = millis' := by
  obtain ⟨hmonth, hday, hhour, hminute, hsecond, hmillis⟩ := fields_fit a hclock
  obtain ⟨hmonth', hday', hhour', hminute', hsecond', hmillis'⟩ := fields_fit b hclock'
  -- The year may have any number of digits, so its end is found from the other end of the text.
  have hrest : ∀ {y z : Int} {s t : String}, (zeroPadded 4 y ++ s).length =
      (zeroPadded 4 y).length + 20 → (zeroPadded 4 z ++ t).length =
      (zeroPadded 4 z).length + 20 → s.length = t.length := by
    intro y z s t hs ht
    rw [String.length_append] at hs ht
    omega
  obtain ⟨hyears, h⟩ := zeroPadded_append_unique
    (hrest (length_iso8601 hclock) (length_iso8601 hclock')) h
  obtain ⟨hmonths, h⟩ := field_unique (by decide) hmonth hmonth' h
  obtain ⟨hdays, h⟩ := field_unique (by decide) hday hday' h
  obtain ⟨hhours, h⟩ := field_unique (by decide) hhour hhour' h
  obtain ⟨hminutes, h⟩ := field_unique (by decide) hminute hminute' h
  obtain ⟨hseconds, h⟩ := field_unique (by decide) hsecond hsecond' h
  obtain ⟨hmillis, -⟩ := field_unique (by decide) hmillis hmillis' h
  refine ⟨?_, hhours, hminutes, hseconds, hmillis⟩
  ext
  · exact hyears
  · exact hmonths
  · exact hdays

end Texts

/-- What a timestamp is formatted to. -/
theorem toIso8601_eq (timestamp : NovaTimestamp) :
    ∃ (date : Date) (hour minute second millis : Int), IsClock hour minute second millis ∧
      civilFromDays (timestamp.millis.toInt / msPerDay) = some (date.year, date.month, date.day) ∧
      date.dayNumber 1970 = timestamp.millis.toInt.fdiv 86400000 ∧
      date.dayNumber 1970 * 86400000 + hour * 3600000 + minute * 60000 + second * 1000 + millis =
        timestamp.millis.toInt ∧
      timestamp.toIso8601 =
        some (iso8601 date.year date.month date.day hour minute second millis) := by
  have hlow := timestamp.millis.le_toInt
  have hhigh := timestamp.millis.toInt_lt
  obtain ⟨date, hcivil, hnumber⟩ :=
    @civilFromDays_date (timestamp.millis.toInt / 86400000) (by omega)
  obtain ⟨rem, hrem⟩ : ∃ rem, rem = timestamp.millis.toInt % 86400000 := ⟨_, rfl⟩
  have htext : timestamp.toIso8601 = some (iso8601 date.year date.month date.day (rem / 3600000)
      (rem / 60000 % 60) (rem / 1000 % 60) (rem % 1000)) := by
    have hpos : 0 ≤ rem := by omega
    unfold NovaTimestamp.toIso8601
    rw [msPerDay]
    dsimp only
    rw [hcivil, ← hrem, msPerHour, msPerMinute, msPerSecond, Int.tdiv_eq_ediv_of_nonneg hpos,
      Int.tdiv_eq_ediv_of_nonneg hpos,
      Int.tdiv_eq_ediv_of_nonneg hpos, Int.tmod_eq_emod_of_nonneg hpos,
      Int.tmod_eq_emod_of_nonneg (by omega), Int.tmod_eq_emod_of_nonneg (by omega)]
    rfl
  refine ⟨date, _, _, _, _, ⟨?_, ?_, ?_, ?_⟩, hcivil, ?_, ?_, htext⟩
  · omega
  · omega
  · omega
  · omega
  · rw [hnumber, Int.fdiv_eq_ediv_of_nonneg _ (by decide)]
  · omega

example : NovaTimestamp.toIso8601 ⟨-1⟩ = some "1969-12-31T23:59:59.999Z" := by decide

example : NovaTimestamp.toIso8601 ⟨-62167219200001⟩ = some "-001-12-31T23:59:59.999Z" := by decide

/-- A timestamp is formatted without overflow to the one date that has its day number and to the
time that has passed on this day. So different timestamps are formatted differently. -/
theorem timestamps_format_the_instant :
    (∀ timestamp : NovaTimestamp, ∃ (date : Date) (hour minute second millis : Int),
      civilFromDays (timestamp.millis.toInt / msPerDay) =
        some (date.year, date.month, date.day) ∧
      date.dayNumber 1970 = timestamp.millis.toInt.fdiv 86400000 ∧
      (∀ other : Date, other.dayNumber 1970 = timestamp.millis.toInt.fdiv 86400000 →
        other = date) ∧
      (0 ≤ hour ∧ hour < 24) ∧ (0 ≤ minute ∧ minute < 60) ∧ (0 ≤ second ∧ second < 60) ∧
      (0 ≤ millis ∧ millis < 1000) ∧
      date.dayNumber 1970 * 86400000 + hour * 3600000 + minute * 60000 + second * 1000 + millis =
        timestamp.millis.toInt ∧
      timestamp.toIso8601 =
        some (iso8601 date.year date.month date.day hour minute second millis)) ∧
    Function.Injective NovaTimestamp.toIso8601 := by
  constructor
  · intro timestamp
    obtain ⟨date, hour, minute, second, millis, hclock, hcivil, hnumber, hsum, htext⟩ :=
      toIso8601_eq timestamp
    refine ⟨date, hour, minute, second, millis, hcivil, hnumber, ?_, hclock.hour_mem,
      hclock.minute_mem, hclock.second_mem, hclock.millis_mem, hsum, htext⟩
    intro other hother
    exact Date.dayNumber_injective 1970 (hother.trans hnumber.symm)
  · intro a b h
    obtain ⟨date, hour, minute, second, millis, hclock, _, _, hsum, htext⟩ := toIso8601_eq a
    obtain ⟨date', hour', minute', second', millis', hclock', _, _, hsum', htext'⟩ :=
      toIso8601_eq b
    rw [htext, htext', Option.some.injEq] at h
    obtain ⟨rfl, rfl, rfl, rfl, rfl⟩ := iso8601_unique hclock hclock' h
    have hmillis : a.millis = b.millis := Int64.toInt_inj.mp (hsum.symm.trans hsum')
    cases a
    cases b
    exact congrArg NovaTimestamp.mk hmillis

end NovaBase
