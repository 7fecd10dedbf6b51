import Cql.Time.TimeOfDay

/-!
Offsets from UTC and the names of zones that stand for an offset: `Z`, `UTC`, `GMT` and `UT`, the last
three optionally followed by an offset, or an offset alone.
-/

namespace Cql

/-- Seconds east of UTC, less than a day to either side. -/
structure Offset where
  seconds : Int
  lower : -86400 < seconds
  upper : seconds < 86400
  deriving DecidableEq, Repr

namespace Offset

def of? (seconds : Int) : Option Offset :=
  if h : -86400 < seconds ∧ seconds < 86400 then some ⟨seconds, h.1, h.2⟩ else none

def utc : Offset := ⟨0, by decide, by decide⟩

/-- `Z` at UTC; elsewhere the sign, hours and minutes, and the seconds unless they are zero. -/
def print (o : Offset) : Text :=
  if o.seconds = 0 then ['Z']
  else
    let n := o.seconds.natAbs
    let sign := if o.seconds < 0 then '-' else '+'
    let minutes := sign :: Date.twoDigits (n / 3600) ++ ':' :: Date.twoDigits (n / 60 % 60)
    if n % 60 = 0 then minutes else minutes ++ ':' :: Date.twoDigits (n % 60)

/-- Two digits if there are any, else zero. -/
def takeTwo (t : Text) : Nat × Text := (Date.takeDigits 2 t).getD (0, t)

/-- Minutes and seconds behind the hours: `:MM`, `:MM:SS`, `MM`, `MMSS` or nothing. -/
def takeMinutes (t : Text) : Option (Nat × Nat × Text) :=
  match t with
  | ':' :: t => do
    let (minutes, t) ← Date.takeDigits 2 t
    match t with
    | ':' :: t =>
      let (seconds, t) ← Date.takeDigits 2 t
      some (minutes, seconds, t)
    | t => some (minutes, 0, t)
  | t =>
    match Date.takeDigits 2 t with
    | none => some (0, 0, t)
    | some (minutes, t) =>
      let (seconds, t) := takeTwo t
      some (minutes, seconds, t)

/-- A sign, two digits of hours and what may follow them, up to `23:59:59`. -/
def take (t : Text) : Option (Offset × Text) :=
  match t with
  | [] => none
  | sign :: t =>
    if sign = '+' || sign = '-' then do
      let (hours, t) ← Date.takeDigits 2 t
      let (minutes, seconds, t) ← takeMinutes t
      if 23 < hours || 59 < minutes || 59 < seconds then none
      else
        let total : Int := (hours * 3600 + minutes * 60 + seconds : Nat)
        let offset ← of? (if sign = '-' then -total else total)
        some (offset, t)
    else none

/-- The rest of a text after a word it starts with. -/
def afterWord (word : String) (t : Text) : Option Text :=
  if word.toList.isPrefixOf t then some (t.drop word.toList.length) else none

/-- The names of UTC that may stand before an offset. -/
def utcNames : List String := ["UTC", "GMT", "UT"]

def takeZone (t : Text) : Option (Offset × Text) :=
  match t with
  | 'Z' :: t => some (utc, t)
  | t =>
    match utcNames.findSome? (afterWord · t) with
    | some [] => some (utc, [])
    | some t => take t
    | none => take t

/-- Reads a whole text, apart from blanks around it. -/
def readZone (t : Text) : Option Offset :=
  match takeZone (Text.trim t) with
  | some (offset, []) => some offset
  | _ => none

end Offset

end Cql
