import Cql.Number.Integer

/-!
Days of the proleptic Gregorian calendar. A date is the number of its day, counted from 1970-01-01;
year, month and day of the month are computed from it. A year starts in March here, so that the leap
day is its last one, and 400 such years always have 146097 days.
-/

namespace Cql

namespace Date

/-- The day number of 1 January of the year -262143. -/
def firstDay : Int := -96465292

/-- The day number of 31 December of the year 262142. -/
def lastDay : Int := 95026236

def isLeapYear (year : Int) : Bool := year % 4 == 0 && (year % 100 != 0 || year % 400 == 0)

def daysInMonth (year : Int) (month : Nat) : Nat :=
  if month = 2 then if isLeapYear year then 29 else 28
  else if month = 4 || month = 6 || month = 9 || month = 11 then 30
  else 31

/-- Whether the calendar has this day. -/
def exists? (year : Int) (month day : Nat) : Bool :=
  1 ≤ month && month ≤ 12 && 1 ≤ day && day ≤ daysInMonth year month

/-- The day number of a day of the calendar. -/
def dayNumber (year : Int) (month day : Nat) : Int :=
  let y := if month ≤ 2 then year - 1 else year
  let yearOfEra := y % 400
  let monthOfYear : Int := (month + 9) % 12
  let dayOfYear := (153 * monthOfYear + 2) / 5 + day - 1
  let dayOfEra := yearOfEra * 365 + yearOfEra / 4 - yearOfEra / 100 + dayOfYear
  y / 400 * 146097 + dayOfEra - 719468

/-- Year, month and day of the month of a day number. -/
def calendarDay (number : Int) : Int × Nat × Nat :=
  let z := number + 719468
  let dayOfEra := z % 146097
  let yearOfEra := (dayOfEra - dayOfEra / 1460 + dayOfEra / 36524 - dayOfEra / 146096) / 365
  let dayOfYear := dayOfEra - (365 * yearOfEra + yearOfEra / 4 - yearOfEra / 100)
  let monthOfYear := (5 * dayOfYear + 2) / 153
  let day := dayOfYear - (153 * monthOfYear + 2) / 5 + 1
  let month := if monthOfYear < 10 then monthOfYear + 3 else monthOfYear - 9
  let year := yearOfEra + z / 146097 * 400
  (if month ≤ 2 then year + 1 else year, month.toNat, day.toNat)

end Date

/-- A day of the years from -262143 to 262142. -/
structure Date where
  day : Int
  firstDay_le : Date.firstDay ≤ day
  le_lastDay : day ≤ Date.lastDay
  deriving DecidableEq, Repr

namespace Date

def ofDay? (day : Int) : Option Date :=
  if h : firstDay ≤ day ∧ day ≤ lastDay then some ⟨day, h.1, h.2⟩ else none

def ofCalendar? (year : Int) (month day : Nat) : Option Date :=
  if exists? year month day then ofDay? (dayNumber year month day) else none

def calendar (d : Date) : Int × Nat × Nat := calendarDay d.day

/-- Four digits from 0 to 9999; before and after, a sign and at least four digits. -/
def printYear (year : Int) : Text :=
  let digits := Integer.padTo 4 (Integer.digits year.natAbs)
  if year < 0 then '-' :: digits else if year ≤ 9999 then digits else '+' :: digits

def twoDigits (n : Nat) : Text := Integer.padTo 2 (Integer.digits n)

def print (d : Date) : Text :=
  let (year, month, day) := d.calendar
  printYear year ++ '-' :: twoDigits month ++ '-' :: twoDigits day

/-- Reads exactly `count` digits. -/
def takeDigits (count : Nat) (t : Text) : Option (Nat × Text) :=
  let digits := t.take count
  if digits.length = count && digits.all Char.isDigit then
    some (Integer.ofDigits 0 digits, t.drop count)
  else none

/-- Skips one given character. -/
def skip (c : Char) : Text → Option Text
  | [] => none
  | d :: rest => if d = c then some rest else none

/-- A year of at least four digits with an optional sign, the month and the day, joined by hyphens. -/
def take (t : Text) : Option (Date × Text) := do
  let (negative, t) := Integer.splitSign t
  let (year, t) := Text.spanWhile Char.isDigit t
  if year.length < 4 then none
  else
    let year : Int := Integer.ofDigits 0 year
    let (month, t) ← takeDigits 2 (← skip '-' t)
    let (day, t) ← takeDigits 2 (← skip '-' t)
    let date ← ofCalendar? (if negative then -year else year) month day
    some (date, t)

end Date

end Cql
