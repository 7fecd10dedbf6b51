import Cql.Codec.Scalar

/-!
Codecs of dates, times and timestamps, each as the number that is stored and as the calendar's notion.
The literals of one type are read alike by all its codecs; what they stand for is told here once.
-/

-- powers are those of the core library, whatever else is imported
attribute [local instance (high)] instPowNat

namespace Cql.Codec

/-- A day count, or year, month and day, with or without quotes. -/
def storedDate? (literal : Text) : Option UInt32 :=
  let inner := Quoted.unquoteIfQuoted literal
  if Integer.isLiteral inner then (Integer.readUpTo (2 ^ (32 : Nat) - 1) inner).map UInt32.ofNat
  else
    match Date.take inner with
    | some (date, []) => some date.toStored
    | _ => none

/-- Times stay within a day. -/
def isWithinDay (nanos : Int) : Bool := 0 ≤ nanos && nanos ≤ lastNano

/-- Quoted nanoseconds since midnight, or hours and minutes. -/
def readTime (literal : Text) : Except Fault Int64 := do
  let inner := Text.trim (← unquoted (.native .time) literal)
  let invalid := Cause.unparsable literal .notTime
  if Integer.isLiteral inner then
    match Integer.readWithin (-2 ^ (63 : Nat)) (2 ^ (63 : Nat) - 1) inner with
    | none => fail (.native .time) invalid
    | some nanos =>
      if isWithinDay nanos then .ok (Int64.ofInt nanos) else fail (.native .time) .overflow
  else
    match TimeOfDay.take inner with
    | some (time, []) =>
      match time.toStored with
      | .ok nanos => .ok nanos
      | .error _ => fail (.native .time) .overflow
    | _ => fail (.native .time) invalid

/-- Milliseconds, or an instant in the notation of ISO 8601, with or without quotes. -/
def readTimestamp {α : Type} (ofMillis : Int → Option α) (ofInstant : Instant → α)
    (literal : Text) : Except Fault α :=
  let inner := Quoted.unquoteIfQuoted literal
  if Integer.isLiteral inner then
    orFail (.native .timestamp) .overflow
      ((Integer.readWithin (-2 ^ (63 : Nat)) (2 ^ (63 : Nat) - 1) inner).bind ofMillis)
  else
    orFail (.native .timestamp) (.unparsable literal .notTimestamp)
      ((Instant.read inner).map ofInstant)

/-- Timestamps as milliseconds, which are also how they are written. -/
def timestampMillis : Codec Int64 where
  type := .native .timestamp
  encode _ millis := .ok (BigEndian.ofInt 8 millis.toInt)
  decode _ bytes :=
    if bytes.isEmpty then .ok (some 0)
    else do
      let bytes ← fixedBytes (.native .timestamp) 8 bytes
      .ok (some (Int64.ofInt (BigEndian.toInt bytes)))
  print millis := .ok (Integer.print millis.toInt)
  read := readTimestamp (fun millis => some (Int64.ofInt millis)) Instant.toStored

/-- Timestamps as instants, to the millisecond when stored and in full when written. -/
def instant : Codec Instant where
  type := .native .timestamp
  encode _ i := .ok (BigEndian.ofInt 8 i.millis)
  decode _ bytes :=
    if bytes.isEmpty then .ok none
    else do
      let bytes ← fixedBytes (.native .timestamp) 8 bytes
      (orFail (.native .timestamp) .overflow (Instant.ofMillis? (BigEndian.toInt bytes))).map some
  print i := .ok (Quoted.quote i.print)
  read := readTimestamp Instant.ofMillis? id

/-- Dates as stored day counts. -/
def storedDate : Codec UInt32 where
  type := .native .date
  encode _ days := .ok (BigEndian.ofNat 4 days.toNat)
  decode _ bytes := do
    let bytes ← fixedBytes (.native .date) 4 bytes
    .ok (some (UInt32.ofNat (BigEndian.toNat bytes)))
  print days := .ok (Value.displayDate days)
  read literal :=
    orFail (.native .date) (.unparsable literal .notDateOrDays) (storedDate? literal)

/-- The day of the calendar that a stored date means. -/
def calendarDate (stored : UInt32) : Except Fault Date :=
  match Date.ofStored stored with
  | .ok date => .ok date
  | .error _ => fail (.native .date) .overflow

/-- Dates as days of the calendar. -/
def localDate : Codec Date where
  type := .native .date
  encode _ date := .ok (BigEndian.ofNat 4 date.toStored.toNat)
  decode _ bytes :=
    if bytes.isEmpty then .ok none
    else do
      let bytes ← fixedBytes (.native .date) 4 bytes
      (calendarDate (UInt32.ofNat (BigEndian.toNat bytes))).map some
  print date := .ok (Quoted.quote date.print)
  read literal := do
    let stored ← orFail (.native .date) (.unparsable literal .notDate) (storedDate? literal)
    calendarDate stored

/-- Times as stored nanoseconds. -/
def storedTime : Codec Int64 where
  type := .native .time
  encode _ nanos :=
    if isWithinDay nanos.toInt then .ok (BigEndian.ofInt 8 nanos.toInt)
    else fail (.native .time) .overflow
  decode _ bytes := do
    let bytes ← fixedBytes (.native .time) 8 bytes
    let nanos := BigEndian.toInt bytes
    if isWithinDay nanos then .ok (some (Int64.ofInt nanos)) else fail (.native .time) .overflow
  print nanos := .ok (Value.displayTime nanos)
  read := readTime

/-- The time of day that stored nanoseconds mean. -/
def timeOfDay (nanos : Int64) : Except Fault TimeOfDay :=
  match TimeOfDay.ofStored nanos with
  | .ok time => .ok time
  | .error _ => fail (.native .time) .overflow

/-- Times as times of day; a leap second at the end of the day cannot be stored. -/
def localTime : Codec TimeOfDay where
  type := .native .time
  encode _ time :=
    match time.toStored with
    | .ok nanos => .ok (BigEndian.ofInt 8 nanos.toInt)
    | .error _ => fail (.native .time) .overflow
  decode version bytes :=
    if bytes.isEmpty then .ok none
    else do
      match ← storedTime.decode version bytes with
      | none => .ok none
      | some nanos => (timeOfDay nanos).map some
  print time := .ok (Quoted.quote time.print)
  read literal := do
    let nanos ← readTime literal
    timeOfDay nanos

end Cql.Codec
