import SqlSelect.Number.Numeral

/-
  Dates with a time of day, in the Gregorian calendar carried
  back before its start, where the year 0 is a leap year. The
  second 60 is a leap second, and any minute may have one.

  Key definitions include:
    * `Timestamp`
    * `Timestamp.IsLeapYear`
    * `Timestamp.daysInMonth`
    * `Timestamp.Exists`
    * `Timestamp.slashed`
    * `Timestamp.dashed`
-/

namespace SqlSelect

/- A day of the calendar and a time on it. -/
structure Timestamp where
  year : Int
  month : Nat
  day : Nat
  hour : Nat
  minute : Nat
  second : Nat
  nanosecond : Nat
  deriving DecidableEq

namespace Timestamp

------------------------------------------------------------
-- The Calendar
------------------------------------------------------------

/- The first year of the calendar. -/
def firstYear : Int :=
  -262143

/- The last year of the calendar. -/
def lastYear : Int :=
  262142

/- The year has a day more than most. -/
def IsLeapYear
    (year : Int) : Prop :=
  year % 4 = 0 ∧ (year % 100 ≠ 0 ∨ year % 400 = 0)

instance
    (year : Int) :
    Decidable (IsLeapYear year) := by
  unfold IsLeapYear
  infer_instance

/- Number of days of a month, and none for no month. -/
def daysInMonth
    (year : Int) : Nat → Nat
  | 1 => 31
  | 2 => if IsLeapYear year then 29 else 28
  | 3 => 31
  | 4 => 30
  | 5 => 31
  | 6 => 30
  | 7 => 31
  | 8 => 31
  | 9 => 30
  | 10 => 31
  | 11 => 30
  | 12 => 31
  | _ => 0

/- The day and the time exist. -/
def Exists
    (t : Timestamp) : Prop :=
  (firstYear ≤ t.year ∧ t.year ≤ lastYear) ∧
    (1 ≤ t.day ∧ t.day ≤ daysInMonth t.year t.month) ∧
    t.hour ≤ 23 ∧ t.minute ≤ 59 ∧ t.second ≤ 60 ∧
    t.nanosecond < 1000000000

instance
    (t : Timestamp) :
    Decidable t.Exists := by
  unfold Exists
  infer_instance

------------------------------------------------------------
-- Texts
------------------------------------------------------------

/-
  A year of four digits, or with a sign and at least four if
  it is before the year 0 or after the year 9999.
-/
def yearText
    (year : Int) : Text :=
  if 0 ≤ year ∧ year ≤ 9999 then paddedDigits 4 year.natAbs
  else (if year < 0 then '-' else '+') :: paddedDigits 4 year.natAbs

/- The day, with `separator` between its parts. -/
def dayText
    (separator : Char)
    (t : Timestamp) : Text :=
  yearText t.year ++ separator :: paddedDigits 2 t.month
    ++ separator :: paddedDigits 2 t.day

/- The time of day down to the second. -/
def timeText
    (t : Timestamp) : Text :=
  paddedDigits 2 t.hour ++ ':' :: paddedDigits 2 t.minute
    ++ ':' :: paddedDigits 2 t.second

/-
  Day and time with slashes in the day and three places of
  the second. Further places are dropped.
-/
def slashed
    (t : Timestamp) : Text :=
  dayText '/' t ++ ' ' :: timeText t
    ++ '.' :: paddedDigits 3 (t.nanosecond / 1000000)

/-
  The places of the second: none if they are zero, and
  otherwise the first three, six or nine if those behind them
  are zero.
-/
def fractionText
    (nanosecond : Nat) : Text :=
  if nanosecond = 0 then []
  else if nanosecond % 1000000 = 0 then
    '.' :: paddedDigits 3 (nanosecond / 1000000)
  else if nanosecond % 1000 = 0 then
    '.' :: paddedDigits 6 (nanosecond / 1000)
  else '.' :: paddedDigits 9 nanosecond

/- Day and time with dashes in the day and all places. -/
def dashed
    (t : Timestamp) : Text :=
  dayText '-' t ++ 'T' :: timeText t ++ fractionText t.nanosecond

end Timestamp

end SqlSelect
