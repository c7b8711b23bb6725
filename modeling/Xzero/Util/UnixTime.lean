import Mathlib.Tactic.IntervalCases

/-!
# The instant of a date

The constructor of `UnixTime` that takes a `CivilTime` (`UnixTime.cc`), with `isLeapYear` and
`daysInMonth` (`ISO8601.cc`). Two loops add up the days of years and of months. **The result is the
number of microseconds since the epoch** (`unixTime_eq`) if it is not negative: the arithmetic is
modulo `2 ^ 64`, also where an offset is below zero.
-/

namespace Xzero.Util

open List

structure CivilTime where
  year : UInt16
  month : UInt8
  day : UInt8
  hour : UInt8
  minute : UInt8
  second : UInt8
  millisecond : UInt16
  offset : Int32

def isLeapYear (year : ℕ) : Bool :=
  (year % 4 = 0 && year % 100 ≠ 0) || year % 400 = 0

def daysInMonth (year month : ℕ) : ℕ :=
  if month = 2 then 28 + (isLeapYear year).toNat else 31 - (month - 1) % 7 % 2

namespace CivilTime

variable (civil : CivilTime)

/-- The days at the end of the two loops. -/
def days : ℤ :=
  let years := (range' 1970 (civil.year.toNat - 1970)).foldl
    (fun (days : ℤ) i ↦ days + (365 + (isLeapYear i).toNat)) (civil.day.toNat - 1)
  (range' 1 (civil.month.toNat - 1)).foldl
    (fun days i ↦ days + daysInMonth civil.year.toNat i) years

def unixTime : ℤ :=
  (civil.days * 86400000000 + civil.hour.toNat * 3600000000 + civil.minute.toNat * 60000000 +
    civil.second.toNat * 1000000 + civil.millisecond.toNat * 1000 +
    civil.offset.toInt * 1000000 * -1) % 2 ^ 64

/-- The days of the Gregorian calendar before a year, from the year 1 on. -/
def daysBeforeYear (year : ℤ) : ℤ :=
  (year - 1) * 365 + (year - 1) / 4 - (year - 1) / 100 + (year - 1) / 400

/-- The days of a year before a month. -/
def daysBeforeMonth (leap : Bool) (month : ℕ) : ℕ :=
  [0, 31, 59, 90, 120, 151, 181, 212, 243, 273, 304, 334].getD (month - 1) 0 +
    if 2 < month then leap.toNat else 0

def daysSinceEpoch : ℤ :=
  daysBeforeYear civil.year.toNat - daysBeforeYear 1970 +
    daysBeforeMonth (isLeapYear civil.year.toNat) civil.month.toNat + (civil.day.toNat - 1)

def microsSinceEpoch : ℤ :=
  (civil.daysSinceEpoch * 86400 + civil.hour.toNat * 3600 + civil.minute.toNat * 60 +
    civil.second.toNat - civil.offset.toInt) * 1000000 + civil.millisecond.toNat * 1000

theorem daysBeforeYear_succ (year : ℕ) :
    daysBeforeYear (year + 1) = daysBeforeYear year + (365 + (isLeapYear year).toNat) := by
  rw [daysBeforeYear, daysBeforeYear]
  rcases hleap : isLeapYear year
  · simp only [isLeapYear, ne_eq, Bool.or_eq_false_iff, Bool.and_eq_false_iff,
      decide_eq_false_iff_not, not_not] at hleap
    rw [Bool.toNat_false]
    omega
  · simp only [isLeapYear, Bool.or_eq_true, Bool.and_eq_true, decide_eq_true_eq] at hleap
    rw [Bool.toNat_true]
    omega

theorem foldl_years (k n : ℕ) (days : ℤ) :
    (range' k n).foldl (fun (days : ℤ) i ↦ days + (365 + (isLeapYear i).toNat)) days =
      days + (daysBeforeYear (k + n) - daysBeforeYear k) := by
  induction n generalizing k days with
  | zero => simp
  | succ n ih =>
    rw [range'_succ, foldl_cons, ih]
    push_cast
    rw [daysBeforeYear_succ, add_right_comm (k : ℤ), ← add_assoc (k : ℤ)]
    omega

theorem foldl_months {month : ℕ} (hpos : 1 ≤ month) (hle : month ≤ 12) (year : ℕ) (days : ℤ) :
    (range' 1 (month - 1)).foldl (fun (days : ℤ) i ↦ days + daysInMonth year i) days =
      days + daysBeforeMonth (isLeapYear year) month := by
  simp only [daysInMonth]
  generalize isLeapYear year = leap
  interval_cases month <;> simp [daysBeforeMonth, range'] <;> omega

theorem daysBeforeMonth_le (leap : Bool) {month : ℕ} (hle : month ≤ 12) :
    daysBeforeMonth leap month ≤ 335 := by
  interval_cases month <;> cases leap <;> decide

variable {civil}

/-- **A date from 1970 on is converted to its instant.** -/
theorem unixTime_eq (hyear : 1970 ≤ civil.year.toNat)
    (hmonth : 1 ≤ civil.month.toNat ∧ civil.month.toNat ≤ 12)
    (hinstant : 0 ≤ civil.microsSinceEpoch) : civil.unixTime = civil.microsSinceEpoch := by
  have hdays : civil.days = civil.daysSinceEpoch := by
    rw [days, foldl_months hmonth.1 hmonth.2, foldl_years, daysSinceEpoch, ← Nat.cast_add,
      Nat.add_sub_cancel' hyear, Nat.cast_ofNat]
    omega
  have hle : civil.daysSinceEpoch ≤ 65535 * 366 + 335 + 255 := by
    have hlt := civil.year.toNat_lt
    have hbefore := daysBeforeMonth_le (isLeapYear civil.year.toNat) hmonth.2
    have hday := civil.day.toNat_lt
    rw [daysSinceEpoch, daysBeforeYear, daysBeforeYear]
    omega
  have hlt : civil.microsSinceEpoch < 2 ^ 64 := by
    have hhour := civil.hour.toNat_lt
    have hminute := civil.minute.toNat_lt
    have hsecond := civil.second.toNat_lt
    have hmillisecond := civil.millisecond.toNat_lt
    have hoffset := civil.offset.le_toInt
    rw [microsSinceEpoch]
    omega
  rw [unixTime, hdays, ← Int.emod_eq_of_lt hinstant hlt, microsSinceEpoch]
  omega

/-- The last day of February of the year 2000, two hours east. -/
theorem unixTime_leapDay : unixTime ⟨2000, 2, 29, 1, 0, 0, 0, 7200⟩ = 951778800000000 :=
  unixTime_eq (by decide) (by decide) (by decide)

end CivilTime

end Xzero.Util
