import Cql.Time.Date

/-!
Times of day to the nanosecond. A leap second is a second with a thousand million nanoseconds or more.
Out of its parts one is only made at the end of a minute, but a time of day may have one anywhere.
-/

-- powers are those of the core library, whatever else is imported
attribute [local instance (high)] instPowNat

namespace Cql

structure TimeOfDay where
  second : Nat
  nano : Nat
  second_lt : second < 86400
  nano_lt : nano < 2000000000
  deriving DecidableEq, Repr

namespace TimeOfDay

/-- The time of day of a second and its nanoseconds. A leap second has to be the last of its minute. -/
def of? (second nano : Nat) : Option TimeOfDay :=
  if h : second < 86400 ∧ nano < 2000000000 ∧ (nano < 1000000000 ∨ second % 60 = 59) then
    some ⟨second, nano, h.1, h.2.1⟩
  else none

def midnight : TimeOfDay := ⟨0, 0, by decide, by decide⟩

/-- Nanoseconds since midnight; those of a leap second run on into the next second. -/
def nanos (t : TimeOfDay) : Nat := t.second * 1000000000 + t.nano

def ofClock? (hour minute second nano : Nat) : Option TimeOfDay :=
  if hour < 24 && minute < 60 && second < 60 then of? (hour * 3600 + minute * 60 + second) nano
  else none

/-- Seconds are left out when they and the fraction are zero; a fraction has three, six or nine
digits. -/
def print (t : TimeOfDay) : Text :=
  let minutes := Date.twoDigits (t.second / 3600) ++ ':' :: Date.twoDigits (t.second / 60 % 60)
  let second := t.second % 60
  let nano := t.nano % 1000000000
  if second = 0 && nano = 0 then minutes
  else
    let seconds := minutes ++ ':' :: Date.twoDigits second
    if nano = 0 then seconds
    else if nano % 1000000 = 0 then
      seconds ++ '.' :: Integer.padTo 3 (Integer.digits (nano / 1000000))
    else if nano % 1000 = 0 then seconds ++ '.' :: Integer.padTo 6 (Integer.digits (nano / 1000))
    else seconds ++ '.' :: Integer.padTo 9 (Integer.digits nano)

/-- One to nine digits as nanoseconds. -/
def takeFraction (t : Text) : Option (Nat × Text) :=
  let (digits, rest) := Text.spanWhile Char.isDigit t
  if digits.isEmpty || 9 < digits.length then none
  else some (Integer.ofDigits 0 digits * 10 ^ (9 - digits.length), rest)

/-- `HH:MM`, then `:SS`, then `.` and a fraction, the later parts being optional. -/
def take (t : Text) : Option (TimeOfDay × Text) := do
  let (hour, t) ← Date.takeDigits 2 t
  let (minute, t) ← Date.takeDigits 2 (← Date.skip ':' t)
  match t with
  | ':' :: t =>
    let (second, t) ← Date.takeDigits 2 t
    match t with
    | '.' :: t =>
      let (nano, t) ← takeFraction t
      let time ← ofClock? hour minute second nano
      some (time, t)
    | t =>
      let time ← ofClock? hour minute second 0
      some (time, t)
  | t =>
    let time ← ofClock? hour minute 0 0
    some (time, t)

end TimeOfDay

end Cql
