import Mathlib

/-!
The Gregorian calendar. A month is counted from January of year 0, and a day from the first of
January 1970.
-/

namespace Feldera.Sql.Calendar

def isLeap (year : ℤ) : Bool := year % 4 = 0 && (year % 100 ≠ 0 || year % 400 = 0)

def monthLength (month : ℤ) : ℤ :=
  if month % 12 = 1 then if isLeap (month / 12) then 29 else 28
  else if month % 12 = 3 ∨ month % 12 = 5 ∨ month % 12 = 8 ∨ month % 12 = 10 then 30
  else 31

/-- The day on which a month starts. Years that begin in March have their leap day at the end. -/
def monthStart (month : ℤ) : ℤ :=
  let year := (month - 2) / 12
  365 * year + year / 4 - year / 100 + year / 400 + (153 * ((month - 2) % 12) + 2) / 5 - 719468

/-- The month of a day, through the four hundred years, the century, the four years and the year
that it lies in. -/
def monthOf (day : ℤ) : ℤ :=
  let z := day + 719468
  let century := min (z % 146097 / 36524) 3
  let inCentury := z % 146097 - 36524 * century
  let year := min (inCentury % 1461 / 365) 3
  let inYear := inCentury % 1461 - 365 * year
  12 * (400 * (z / 146097) + 100 * century + 4 * (inCentury / 1461) + year) +
    (5 * inYear + 2) / 153 + 2

theorem monthStart_succ (month : ℤ) :
    monthStart (month + 1) = monthStart month + monthLength month := by
  have hcases : month % 12 = 0 ∨ month % 12 = 1 ∨ month % 12 = 2 ∨ month % 12 = 3 ∨
      month % 12 = 4 ∨ month % 12 = 5 ∨ month % 12 = 6 ∨ month % 12 = 7 ∨ month % 12 = 8 ∨
      month % 12 = 9 ∨ month % 12 = 10 ∨ month % 12 = 11 := by omega
  simp only [monthStart, monthLength, isLeap, Bool.and_eq_true, Bool.or_eq_true, decide_eq_true_eq]
  rcases hcases with h | h | h | h | h | h | h | h | h | h | h | h <;> split_ifs <;> omega

theorem le_monthLength (month : ℤ) : 28 ≤ monthLength month := by
  unfold monthLength
  split_ifs <;> decide

theorem monthStart_strictMono : StrictMono monthStart :=
  strictMono_int_of_lt_succ fun month => by
    have := le_monthLength month
    rw [monthStart_succ]
    omega

theorem monthStart_eq {e c q y m : ℤ} (hc : 0 ≤ c ∧ c ≤ 3) (hq : 0 ≤ q ∧ q ≤ 24)
    (hy : 0 ≤ y ∧ y ≤ 3) (hm : 0 ≤ m ∧ m ≤ 11) :
    monthStart (12 * (400 * e + 100 * c + 4 * q + y) + m + 2) =
      146097 * e + 36524 * c + 1461 * q + 365 * y + (153 * m + 2) / 5 - 719468 := by
  have hdiv : (12 * (400 * e + 100 * c + 4 * q + y) + m + 2 - 2) / 12 =
      400 * e + 100 * c + 4 * q + y := by omega
  have hmod : (12 * (400 * e + 100 * c + 4 * q + y) + m + 2 - 2) % 12 = m := by omega
  simp only [monthStart, hdiv, hmod]
  omega

theorem monthOf_spec (day : ℤ) : monthStart (monthOf day) ≤ day ∧
    day < monthStart (monthOf day) + monthLength (monthOf day) := by
  unfold monthOf
  extract_lets z century inCentury year inYear
  have hcentury : 0 ≤ century ∧ century ≤ 3 := by omega
  have hfour : 0 ≤ inCentury / 1461 ∧ inCentury / 1461 ≤ 24 := by omega
  have hyear : 0 ≤ year ∧ year ≤ 3 := by omega
  have hstart := monthStart_eq (e := z / 146097) hcentury hfour hyear
    (m := (5 * inYear + 2) / 153) (by omega)
  refine ⟨by omega, ?_⟩
  by_cases hmonth : (5 * inYear + 2) / 153 = 11
  · by_cases hlast : inYear = 365
    -- a year has a last day only if it ends in a leap day
    · rw [monthLength, if_pos (by omega), if_pos]
      · omega
      · simp only [isLeap, Bool.and_eq_true, Bool.or_eq_true, decide_eq_true_eq]
        omega
    · have := le_monthLength (12 * (400 * (z / 146097) + 100 * century +
        4 * (inCentury / 1461) + year) + (5 * inYear + 2) / 153 + 2)
      omega
  · have hnext := monthStart_eq (e := z / 146097) hcentury hfour hyear
      (m := (5 * inYear + 2) / 153 + 1) (by omega)
    rw [← add_assoc, add_right_comm _ 1, monthStart_succ] at hnext
    omega

structure NaiveDate where
  months : ℤ
  day : ℤ
  one_le : 1 ≤ day
  le_length : day ≤ monthLength months
  deriving DecidableEq

namespace NaiveDate

variable (d : NaiveDate)

def year : ℤ := d.months / 12

def month : ℤ := d.months % 12 + 1

def days : ℤ := monthStart d.months + d.day - 1

def ofDays (n : ℤ) : NaiveDate where
  months := monthOf n
  day := n - monthStart (monthOf n) + 1
  one_le := by
    have := monthOf_spec n
    omega
  le_length := by
    have := monthOf_spec n
    omega

theorem days_ofDays (n : ℤ) : (ofDays n).days = n := by
  dsimp only [days, ofDays]
  ring

/-- Moves by a number of months, to the last day of a month that is too short. -/
def addMonths (n : ℤ) : NaiveDate where
  months := d.months + n
  day := min d.day (monthLength (d.months + n))
  one_le := by
    have := d.one_le
    have := le_monthLength (d.months + n)
    omega
  le_length := min_le_right _ _

theorem days_lt_of_months_lt {a b : NaiveDate} (h : a.months < b.months) : a.days < b.days := by
  have := monthStart_strictMono.monotone (Int.add_one_le_of_lt h)
  have := monthStart_succ a.months
  have := a.le_length
  have := b.one_le
  unfold days
  omega

end NaiveDate

end Feldera.Sql.Calendar
