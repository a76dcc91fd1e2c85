import Feldera.Sql.Windows
import Feldera.Sql.Calendar

/-!
The difference of two dates or timestamps in months, and the addition of months that undoes it.
`none` stands for the panic on a time that the calendar library cannot represent.
-/

namespace Feldera.Sql

open Calendar

structure Date where
  days : ℤ
  deriving DecidableEq

structure LongInterval where
  months : ℤ
  deriving DecidableEq

structure DateTime where
  date : NaiveDate
  time : ℤ
  nonneg : 0 ≤ time
  lt_day : time < 86400000

/-- A date in the range of the library. -/
def checkedDate (d : NaiveDate) : Option NaiveDate :=
  if -262143 ≤ d.year ∧ d.year ≤ 262142 then some d else none

def timestampMillisOpt (milliseconds : ℤ) : Option DateTime :=
  (checkedDate (.ofDays (milliseconds / 86400000))).map fun date =>
    ⟨date, milliseconds % 86400000, by omega, by omega⟩

def timestampOpt (seconds : ℤ) : Option DateTime := timestampMillisOpt (seconds * 1000)

def DateTime.timestampMillis (t : DateTime) : ℤ := t.date.days * 86400000 + t.time

def Timestamp.toDateTime (t : Timestamp) : Option DateTime := timestampMillisOpt t.milliseconds

def Timestamp.fromNaiveDateTime (t : DateTime) : Timestamp := ⟨t.timestampMillis⟩

/-- The check of a timestamp that may be stored, for the years 1 to 9999. -/
def Timestamp.checkLegal (t : Timestamp) : Bool :=
  match t.toDateTime with
  | some date => 1 ≤ date.date.year && date.date.year ≤ 9999
  | none => false

namespace Date

def toTimestamp (d : Date) : Timestamp := ⟨d.days * 86400 * 1000⟩

def toDateTime (d : Date) : Option DateTime := timestampOpt (d.days * 86400)

def toDate (d : Date) : Option NaiveDate := checkedDate (.ofDays d.days)

def fromDate (d : NaiveDate) : Date := ⟨d.days⟩

end Date

def checkedAddMonths (d : NaiveDate) (n : ℕ) : Option NaiveDate := checkedDate (d.addMonths n)

def checkedSubMonths (d : NaiveDate) (n : ℕ) : Option NaiveDate := checkedDate (d.addMonths (-n))

def moveMonths (d : NaiveDate) (interval : LongInterval) : Option NaiveDate :=
  if interval.months < 0 then checkedSubMonths d (-interval.months).toNat
  else checkedAddMonths d interval.months.toNat

def plusTimestampLongIntervalTimestamp (left : Timestamp) (right : LongInterval) :
    Option Timestamp := do
  let dt ← left.toDateTime
  let date ← moveMonths dt.date right
  return .fromNaiveDateTime { dt with date }

def plusDateLongIntervalDate (left : Date) (right : LongInterval) : Option Date := do
  let date ← left.toDate
  let result ← moveMonths date right
  return .fromDate result

def minusTimestampTimestampLongInterval (left right : Timestamp) : Option LongInterval := do
  let swap := left.milliseconds < right.milliseconds
  let ldate ← (if swap then right else left).toDateTime
  let rdate ← (if swap then left else right).toDateTime
  let l := ldate.date
  let r := rdate.date
  let rm := if l.day < r.day ∨ l.day = r.day ∧ ldate.time < rdate.time then r.month + 1
    else r.month
  let months := (l.year - r.year) * 12 + l.month - rm
  return ⟨if swap then -months else months⟩

def minusDateDateLongInterval (left right : Date) : Option LongInterval := do
  let ld ← left.toDateTime
  let rd ← right.toDateTime
  let (beg, end_, neg) :=
    if rd.timestampMillis < ld.timestampMillis then (rd.date, ld.date, 1)
    else (ld.date, rd.date, -1)
  let adjust := end_.month < beg.month ∨ end_.month = beg.month ∧ end_.day < beg.day
  let years := if adjust then end_.year - beg.year - 1 else end_.year - beg.year
  let months := 12 * years +
    if adjust then 12 - (beg.month - end_.month) else end_.month - beg.month
  return ⟨(if end_.day < beg.day then months - 1 else months) * neg⟩

/-- The full months from `r` to `l`. -/
def DateTime.monthsSince (l r : DateTime) : ℤ :=
  l.date.months - r.date.months -
    if l.date.day < r.date.day ∨ l.date.day = r.date.day ∧ l.time < r.time then 1 else 0

def monthsBetween (l r : DateTime) : LongInterval :=
  ⟨if l.timestampMillis < r.timestampMillis then -r.monthsSince l else l.monthsSince r⟩

variable {l r dt : DateTime}

/-- Times are ordered by month, day and time of day. -/
theorem timestampMillis_lt_iff : l.timestampMillis < r.timestampMillis ↔
    l.date.months < r.date.months ∨ l.date.months = r.date.months ∧
      (l.date.day < r.date.day ∨ l.date.day = r.date.day ∧ l.time < r.time) := by
  have := l.nonneg
  have := l.lt_day
  have := r.nonneg
  have := r.lt_day
  unfold DateTime.timestampMillis
  obtain h | h | h := lt_trichotomy l.date.months r.date.months
  · have := NaiveDate.days_lt_of_months_lt h
    omega
  · unfold NaiveDate.days
    rw [h]
    omega
  · have := NaiveDate.days_lt_of_months_lt h
    omega

theorem months_eq (d : NaiveDate) : d.months = 12 * d.year + d.month - 1 := by
  unfold NaiveDate.year NaiveDate.month
  omega

theorem timestampMillisOpt_eq {ms : ℤ} (h : timestampMillisOpt ms = some dt) :
    dt.timestampMillis = ms ∧ dt.time = ms % 86400000 := by
  unfold timestampMillisOpt checkedDate at h
  split at h
  · cases h
    refine ⟨?_, rfl⟩
    rw [DateTime.timestampMillis, NaiveDate.days_ofDays]
    exact Int.ediv_mul_add_emod _ _
  · cases h

theorem minusTimestampTimestampLongInterval_eq (left right : Timestamp) :
    minusTimestampTimestampLongInterval left right = left.toDateTime.bind fun l =>
      right.toDateTime.map (monthsBetween l) := by
  unfold minusTimestampTimestampLongInterval
  by_cases hswap : left.milliseconds < right.milliseconds <;>
    cases hl : left.toDateTime <;> cases hr : right.toDateTime <;> simp [hswap, hl, hr]
  all_goals
    rename_i l r
    have := months_eq l.date
    have := months_eq r.date
    simp only [monthsBetween, DateTime.monthsSince, (timestampMillisOpt_eq hl).1,
      (timestampMillisOpt_eq hr).1, hswap, if_true, if_false, LongInterval.mk.injEq]
    split <;> omega

theorem minusDateDateLongInterval_eq (left right : Date) :
    minusDateDateLongInterval left right = left.toDateTime.bind fun l =>
      right.toDateTime.map (monthsBetween l) := by
  unfold minusDateDateLongInterval
  cases hl : left.toDateTime <;> cases hr : right.toDateTime <;> simp
  rename_i l r
  have := months_eq l.date
  have := months_eq r.date
  have hlt := (timestampMillisOpt_eq hl).2
  have hrt := (timestampMillisOpt_eq hr).2
  simp only [monthsBetween, DateTime.monthsSince, timestampMillis_lt_iff]
  split_ifs <;> grind

theorem monthsBetween_swap (l r : DateTime) :
    monthsBetween r l = ⟨-(monthsBetween l r).months⟩ := by
  simp only [monthsBetween, DateTime.monthsSince, timestampMillis_lt_iff, LongInterval.mk.injEq]
  split_ifs <;> omega

def DateTime.addMonths (t : DateTime) (n : ℤ) : DateTime :=
  { t with date := t.date.addMonths n }

theorem addMonths_lt_iff (hday : r.date.day ≤ 28) (n : ℤ) :
    l.timestampMillis < (r.addMonths n).timestampMillis ↔
      l.date.months < r.date.months + n ∨ l.date.months = r.date.months + n ∧
        (l.date.day < r.date.day ∨ l.date.day = r.date.day ∧ l.time < r.time) := by
  have hsame : (r.addMonths n).date.day = r.date.day :=
    min_eq_left (hday.trans (le_monthLength _))
  rw [timestampMillis_lt_iff, hsame]
  rfl

/-- The months since `r` are the greatest number that can be added to `r`. -/
theorem monthsSince_bounds (h : r.timestampMillis ≤ l.timestampMillis)
    (hday : r.date.day ≤ 28) : 0 ≤ l.monthsSince r ∧
      (r.addMonths (l.monthsSince r)).timestampMillis ≤ l.timestampMillis ∧
      l.timestampMillis < (r.addMonths (l.monthsSince r + 1)).timestampMillis := by
  rw [← not_lt, timestampMillis_lt_iff] at h
  simp only [← not_lt, addMonths_lt_iff hday]
  unfold DateTime.monthsSince
  split <;> omega

theorem moveMonths_eq (d : NaiveDate) (n : ℤ) :
    moveMonths d ⟨n⟩ = checkedDate (d.addMonths n) := by
  unfold moveMonths checkedSubMonths checkedAddMonths
  split
  · rw [Int.toNat_of_nonneg (by dsimp only at *; omega), neg_neg]
  · rw [Int.toNat_of_nonneg (by dsimp only at *; omega)]

theorem plusTimestampLongIntervalTimestamp_eq {t : Timestamp} (ht : t.toDateTime = some dt)
    {n : ℤ} (hmin : -262143 ≤ (dt.addMonths n).date.year)
    (hmax : (dt.addMonths n).date.year ≤ 262142) :
    (plusTimestampLongIntervalTimestamp t ⟨n⟩).map (·.milliseconds) =
      some (dt.addMonths n).timestampMillis := by
  have hmove : moveMonths dt.date ⟨n⟩ = some (dt.addMonths n).date :=
    (moveMonths_eq _ _).trans (if_pos ⟨hmin, hmax⟩)
  simp [plusTimestampLongIntervalTimestamp, ht, hmove]
  rfl

theorem Timestamp.exists_of_checkLegal {t : Timestamp} (h : t.checkLegal) :
    ∃ dt, t.toDateTime = some dt ∧ dt.timestampMillis = t.milliseconds ∧
      1 ≤ dt.date.year ∧ dt.date.year ≤ 9999 := by
  unfold checkLegal at h
  split at h
  · next dt ht => exact ⟨dt, ht, (timestampMillisOpt_eq ht).1, by simpa using h⟩
  · cases h

/-- The months are the greatest number that can be added without passing `left`. -/
def FullMonths (months : Option LongInterval) (plus : LongInterval → Option ℤ) (left : ℤ) : Prop :=
  ∃ m low high, months = some ⟨m⟩ ∧ plus ⟨m⟩ = some low ∧ plus ⟨m + 1⟩ = some high ∧
    low ≤ left ∧ left < high

theorem fullMonths_timestamp {left right : Timestamp} (hleft : left.checkLegal)
    (hright : right.checkLegal) (hle : right.milliseconds ≤ left.milliseconds)
    (hday : ∀ dt, right.toDateTime = some dt → dt.date.day ≤ 28) :
    FullMonths (minusTimestampTimestampLongInterval left right)
      (fun i => (plusTimestampLongIntervalTimestamp right i).map (·.milliseconds))
      left.milliseconds := by
  obtain ⟨l, hl, hlm, hly⟩ := left.exists_of_checkLegal hleft
  obtain ⟨r, hr, hrm, hry⟩ := right.exists_of_checkLegal hright
  rw [← hlm, ← hrm] at hle
  obtain ⟨hnonneg, hlow, hhigh⟩ := monthsSince_bounds hle (hday r hr)
  have hle' : l.monthsSince r ≤ l.date.months - r.date.months := by
    unfold DateTime.monthsSince
    split <;> omega
  have hyear (n : ℤ) : (r.addMonths n).date.year = (r.date.months + n) / 12 := rfl
  unfold NaiveDate.year at hly hry
  refine ⟨l.monthsSince r, _, _, ?_, plusTimestampLongIntervalTimestamp_eq hr ?_ ?_,
    plusTimestampLongIntervalTimestamp_eq hr ?_ ?_, hlow.trans_eq hlm, hlm ▸ hhigh⟩
  · rw [minusTimestampTimestampLongInterval_eq, hl, hr]
    exact congrArg (fun n => some (LongInterval.mk n)) (if_neg hle.not_gt)
  all_goals
    rw [hyear]
    omega

theorem toDateTime_toTimestamp (d : Date) : d.toTimestamp.toDateTime =
    d.toDate.map fun date => ⟨date, 0, le_rfl, by decide⟩ := by
  unfold Date.toTimestamp Date.toDate Timestamp.toDateTime timestampMillisOpt
  have hdiv : d.days * 86400 * 1000 / 86400000 = d.days := by omega
  have hmod : d.days * 86400 * 1000 % 86400000 = 0 := by omega
  simp only [hdiv, hmod]

/-- Adding months to a date adds them to its midnight. -/
theorem plusTimestampLongIntervalTimestamp_toTimestamp (d : Date) (i : LongInterval) :
    plusTimestampLongIntervalTimestamp d.toTimestamp i =
      (plusDateLongIntervalDate d i).map Date.toTimestamp := by
  unfold plusTimestampLongIntervalTimestamp plusDateLongIntervalDate
  rw [toDateTime_toTimestamp]
  cases d.toDate with
  | none => rfl
  | some date =>
    cases hmove : moveMonths date i with
    | none => simp [hmove]
    | some result =>
      simp [hmove, Timestamp.fromNaiveDateTime, DateTime.timestampMillis, Date.toTimestamp,
        Date.fromDate, mul_assoc]

end Feldera.Sql
