import Cql.Time.Offset

/-!
Points on the time line of UTC to the nanosecond, and the literals of timestamps, dates and times.
-/

namespace Cql

/-- Seconds since 1970-01-01T00:00:00Z, which the nanoseconds are added to. A leap second is as in a
time of day. -/
@[ext]
structure Instant where
  second : Int
  nano : Nat
  first_le : Date.firstDay * 86400 ≤ second
  lt_end : second < (Date.lastDay + 1) * 86400
  nano_lt : nano < 2000000000
  deriving Repr

instance : DecidableEq Instant := fun _ _ => decidable_of_iff _ Instant.ext_iff.symm

namespace Instant

/-- The instant of a second and its nanoseconds. A leap second has to be the last of its minute. -/
def of? (second : Int) (nano : Nat) : Option Instant :=
  if h : (Date.firstDay * 86400 ≤ second ∧ second < (Date.lastDay + 1) * 86400) ∧
      nano < 2000000000 ∧ (nano < 1000000000 ∨ second % 60 = 59) then
    some ⟨second, nano, h.1.1, h.1.2, h.2.1⟩
  else none

def ofMillis? (millis : Int) : Option Instant :=
  of? (millis / 1000) (millis % 1000 * 1000000).toNat

/-- Milliseconds since the epoch, a broken one dropped. -/
def millis (i : Instant) : Int := i.second * 1000 + (i.nano / 1000000 : Nat)

/-- The instant at which clocks with the given offset show a date and a time of day. -/
def ofLocal? (date : Date) (time : TimeOfDay) (offset : Offset) : Option Instant :=
  let second := date.day * 86400 + time.second - offset.seconds
  if h : Date.firstDay * 86400 ≤ second ∧ second < (Date.lastDay + 1) * 86400 then
    some ⟨second, time.nano, h.1, h.2, time.nano_lt⟩
  else none

def date (i : Instant) : Date :=
  ⟨i.second / 86400, by have := i.first_le; omega, by have := i.lt_end; omega⟩

def secondOfDay (i : Instant) : Nat := (i.second % 86400).toNat

/-- A point and the digits of a fraction of a second without trailing zeros; nothing for zero. -/
def printFraction (nano : Nat) : Text :=
  if nano = 0 then []
  else
    let digits := Integer.padTo 9 (Integer.digits nano)
    '.' :: (digits.reverse.dropWhile (· == '0')).reverse

/-- Date and time of day at UTC. A leap second is written as the second behind it, which at the end of a
minute is the sixtieth. -/
def print (i : Instant) : Text :=
  let n := i.secondOfDay
  i.date.print ++ 'T' :: Date.twoDigits (n / 3600) ++ ':' :: Date.twoDigits (n / 60 % 60)
    ++ ':' :: Date.twoDigits (n % 60 + i.nano / 1000000000)
    ++ printFraction (i.nano % 1000000000) ++ ['Z']

/-- A date, the time of day behind a `T` or one space, and a zone behind any blanks; without a zone
the clock is that of UTC. -/
def read (t : Text) : Option Instant := do
  let (date, t) ← Date.take t
  let (time, t) ← match t with
    | 'T' :: t => TimeOfDay.take t
    | ' ' :: t => TimeOfDay.take t
    | t => some (.midnight, t)
  match Text.trimStart t with
  | [] => ofLocal? date time .utc
  | t =>
    match ← Offset.takeZone t with
    | (offset, []) => ofLocal? date time offset
    | _ => none

end Instant

end Cql
