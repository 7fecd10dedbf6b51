import Cql.Number.Floating
import Cql.Text.Identifier
import Cql.Text.Quoted
import Cql.Value
import Cql.Value.Temporal

/-!
Values as literals, by the value alone. Dates and timestamps beyond the calendar are written as their
stored numbers, absent components as `NULL`, and the empty value as a blob without bytes.
-/

namespace Cql.Value

def nullText : Text := ['N', 'U', 'L', 'L']

/-- A stored date in quotes, or its number. -/
def displayDate (stored : UInt32) : Text :=
  match Date.ofStored stored with
  | .ok day => Quoted.quote day.print
  | .error _ => Integer.digits stored.toNat

/-- A stored timestamp in quotes, or its milliseconds. -/
def displayTimestamp (millis : Int64) : Text :=
  match Instant.ofStored millis with
  | .ok instant => Quoted.quote instant.print
  | .error _ => Integer.print millis.toInt

/-- Hours, minutes, seconds and nine digits of a fraction, in quotes. The parts of a negative time are
negative each. -/
def displayTime (nanos : Int64) : Text :=
  let n := nanos.toInt
  Quoted.quote (Integer.printPadded 2 (n.tdiv 3600000000000)
    ++ ':' :: Integer.printPadded 2 ((n.tdiv 60000000000).tmod 60)
    ++ ':' :: Integer.printPadded 2 ((n.tdiv 1000000000).tmod 60)
    ++ '.' :: Integer.printPadded 9 (n.tmod 1000000000))

def displayBoolean (b : Bool) : Text := if b then "true".toList else "false".toList

mutual

def display : Value → Text
  | ascii s | text s => Quoted.quote s.toList
  | blob bytes => Hex.blob bytes
  | boolean b => displayBoolean b
  | tinyint i => Integer.print i.toInt
  | smallint i => Integer.print i.toInt
  | int i => Integer.print i.toInt
  | bigint i | counter i => Integer.print i.toInt
  | varint i => Integer.print i
  | decimal d => d.print
  | float bits => Floating.print .single bits.toNat
  | double bits => Floating.print .double bits.toNat
  | timestamp millis => displayTimestamp millis
  | date stored => displayDate stored
  | time nanos => displayTime nanos
  | inet address => '\x27' :: address.print ++ ['\x27']
  | uuid u | timeuuid u => u.print
  | empty => Hex.blob []
  | list items => '[' :: Text.join [','] (displayAll items) ++ [']']
  | set items => '\x7b' :: Text.join [','] (displayAll items) ++ ['\x7d']
  | map entries => '\x7b' :: Text.join [','] (displayEntries entries) ++ ['\x7d']
  | tuple items => '(' :: Text.join [','] (displayComponents items) ++ [')']
  | userDefined _ _ fields => '\x7b' :: Text.join [','] (displayFields fields) ++ ['\x7d']

def displayAll : List Value → List Text
  | [] => []
  | v :: vs => display v :: displayAll vs

def displayEntries : List (Value × Value) → List Text
  | [] => []
  | (k, v) :: rest => (display k ++ ':' :: display v) :: displayEntries rest

def displayComponents : List (Option Value) → List Text
  | [] => []
  | none :: rest => nullText :: displayComponents rest
  | some v :: rest => display v :: displayComponents rest

def displayFields : List (String × Option Value) → List Text
  | [] => []
  | (name, none) :: rest => (Identifier.display name ++ ':' :: nullText) :: displayFields rest
  | (name, some v) :: rest => (Identifier.display name ++ ':' :: display v) :: displayFields rest

end

end Cql.Value
