import Cql.Number.Word
import Cql.Time.Instant

/-!
Stored dates, timestamps and times against days of the calendar, instants and times of day. Stored
values reach further than the calendar, and a leap second can lie behind the last stored time.
-/

namespace Cql

/-- A value that does not fit. -/
inductive Overflow where
  | overflow
  deriving DecidableEq, Repr

def Overflow.message : Overflow → String
  | .overflow => "Value is too large to fit in the CQL type"

def orOverflow {α : Type} : Option α → Except Overflow α
  | some a => .ok a
  | none => .error .overflow

theorem orOverflow_ok_iff {α : Type} {o : Option α} {a : α} : orOverflow o = .ok a ↔ o = some a := by
  cases o <;> simp [orOverflow]

/-- The stored day of the epoch. -/
def storedEpoch : Int64 := 2147483648

/-- Days since the epoch of a stored date, none of which is too far from it for a word. -/
def daysSinceEpoch (stored : UInt32) : Int64 := Int64.ofNat stored.toNat - storedEpoch

/-- The stored date of a day. Its sum with the epoch is only looked at if it is a word at all. -/
def storedOfDays (build : Word.Build) (days : Int64) :
    Except Word.Breakdown (Except Overflow UInt32) := do
  let stored ← Word.add build days storedEpoch
  .ok (orOverflow (Word.narrow? stored))

/-- Every day of the calendar can be stored. -/
def Date.toStored (d : Date) : UInt32 := UInt32.ofNat (d.day + storedEpoch.toInt).toNat

def Date.ofStored (stored : UInt32) : Except Overflow Date :=
  orOverflow (Date.ofDay? (daysSinceEpoch stored).toInt)

def Instant.toStored (i : Instant) : Int64 := Int64.ofInt i.millis

def Instant.ofStored (stored : Int64) : Except Overflow Instant :=
  orOverflow (Instant.ofMillis? stored.toInt)

/-- The last nanosecond of a day. -/
def lastNano : Int := 86399999999999

def TimeOfDay.toStored (t : TimeOfDay) : Except Overflow Int64 :=
  if (t.nanos : Int) ≤ lastNano then .ok (Int64.ofInt t.nanos) else .error .overflow

/-- The nanoseconds of a second. -/
def nanosPerSecond : Int64 := 1000000000

/-- The seconds are looked at before the nanoseconds. -/
def TimeOfDay.ofStored (stored : Int64) : Except Overflow TimeOfDay := do
  let seconds ← orOverflow (Word.narrow? (stored / nanosPerSecond))
  let nanos ← orOverflow (Word.narrow? (stored % nanosPerSecond))
  orOverflow (TimeOfDay.of? seconds.toNat nanos.toNat)

end Cql
