import Lineage.Text.Join

/-
Points in time: a date of the Gregorian calendar, a time of day, and how far that
time is from universal time, if known.
-/

namespace Lineage

namespace Calendar

def isLeap (year : Nat) : Bool := year % 4 == 0 && (year % 100 != 0 || year % 400 == 0)

def monthLengths (year : Nat) : List Nat :=
  [31, if isLeap year then 29 else 28, 31, 30, 31, 30, 31, 31, 30, 31, 30, 31]

/-- The days before a year, counted from the first day of year 1. -/
def daysBefore (year : Nat) : Nat :=
  let y := year - 1
  y * 365 + y / 4 - y / 100 + y / 400

def yearLength (year : Nat) : Nat := if isLeap year then 366 else 365

/-- The weekday of the first day of a year, with Monday as 0. -/
def firstWeekday (year : Nat) : Nat := daysBefore year % 7

/-- The months and days of a year, by the lengths of the months from `month` on. -/
def monthAndDay (month day : Nat) : List Nat → Nat × Nat
  | [] => (month, day + 1)
  | length :: rest =>
    if day < length then (month, day + 1) else monthAndDay (month + 1) (day - length) rest

/-- A year has a week 53 if it begins on a Thursday, or on a Wednesday as a leap
year. -/
def hasWeek53 (year : Nat) : Bool :=
  firstWeekday year == 3 || (firstWeekday year == 2 && isLeap year)

/-- The date of a day, counted from the first day of a year; it may lie in the year
before or after. -/
def ofDayOfYear (year : Nat) (day : Int) : Nat × Nat × Nat :=
  let before := day < 0
  let after := (yearLength year : Int) ≤ day
  if before then
    let d := day + yearLength (year - 1)
    (year - 1, monthAndDay 1 d.toNat (monthLengths (year - 1)))
  else if after then
    let d := day - yearLength year
    (year + 1, monthAndDay 1 d.toNat (monthLengths (year + 1)))
  else (year, monthAndDay 1 day.toNat (monthLengths year))

/-- The date of a weekday of a week.  Week 1 is the one with the first Thursday. -/
def ofWeek? (year week weekday : Nat) : Option (Nat × Nat × Nat) :=
  if year < 1 ∨ week < 1 ∨ 53 < week ∨ weekday < 1 ∨ 7 < weekday then none
  else if week = 53 && !hasWeek53 year then none
  else
    let first : Int := firstWeekday year
    let monday := if 3 < first then 7 - first else -first
    some (ofDayOfYear year (monday + (week - 1) * 7 + (weekday - 1)))

end Calendar

structure Timestamp where
  year : Nat
  month : Nat
  day : Nat
  hour : Nat
  minute : Nat
  second : Nat
  microsecond : Nat
  /-- Microseconds ahead of universal time. -/
  offset : Option Int
  deriving DecidableEq

namespace Timestamp

/-- Whether all parts are in range. -/
def isValid (t : Timestamp) : Bool :=
  decide (1 ≤ t.year) && decide (t.year ≤ 9999) && decide (1 ≤ t.month) &&
    decide (1 ≤ t.day) &&
    ((Calendar.monthLengths t.year)[t.month - 1]?).any (fun length => decide (t.day ≤ length)) &&
    decide (t.hour < 24) && decide (t.minute < 60) && decide (t.second < 60) &&
    decide (t.microsecond < 1000000) &&
    t.offset.all fun o => decide (o.natAbs < 86400000000)

/-- A number with at least so many digits. -/
def padded (width n : Nat) : String :=
  let digits := toString n
  String.ofList (List.replicate (width - digits.length) '0') ++ digits

def fractionText (microsecond : Nat) : String :=
  if microsecond = 0 then "" else "." ++ padded 6 microsecond

/-- The offset: hours and minutes, seconds only where there are any. -/
def offsetText (offset : Int) : String :=
  let sign := if offset < 0 then "-" else "+"
  let micros := offset.natAbs % 1000000
  let seconds := offset.natAbs / 1000000
  let second := seconds % 60
  let tail :=
    if second = 0 && micros = 0 then "" else ":" ++ padded 2 second ++ fractionText micros
  sign ++ padded 2 (seconds / 3600) ++ ":" ++ padded 2 (seconds / 60 % 60) ++ tail

/-- The written form, such as `2024-02-29T23:59:59.000001+00:00`. -/
def text (t : Timestamp) : String :=
  padded 4 t.year ++ "-" ++ padded 2 t.month ++ "-" ++ padded 2 t.day ++ "T" ++
    padded 2 t.hour ++ ":" ++ padded 2 t.minute ++ ":" ++ padded 2 t.second ++
    fractionText t.microsecond ++
    match t.offset with
    | some o => offsetText o
    | none => ""

end Timestamp
end Lineage
