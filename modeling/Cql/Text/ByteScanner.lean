import Cql.Text.Cursor
import Cql.Text.Slice

/-!
Scanning by places in bytes. Where a value or a name ends is found in the bytes of the text, one by one,
and there the text is taken apart. That breaks down at a number of bytes that is no place.
-/

namespace Cql.ByteScanner

open Scanner (Cause Depth)

/-- Why a scan takes nothing. -/
inductive Halt where
  /-- The text does not go on as it has to; so many bytes of it are left. -/
  | fault (remaining : Nat) (cause : Cause)
  /-- A text was to be taken apart where it has no place. -/
  | misplaced
  deriving DecidableEq, Repr

/-- A failure in front of a text. -/
def fail {α : Type} (rest : Text) (cause : Cause) : Except Halt α :=
  .error (.fault (Text.byteSize rest) cause)

/-- The parts in front of a place and behind it. -/
def splitAt (place : Nat) (s : Text) : Except Halt (Text × Text) :=
  match Slice.splitAt? place s with
  | some parts => .ok parts
  | none => .error .misplaced

def accept (part s : Text) : Except Halt (Text × Text) :=
  if part.isPrefixOf s then splitAt (Text.byteSize part) s else fail s (.expected part)

def takeWhile (test : Text → Char → Bool) (s : Text) : Except Halt (Text × Text) :=
  splitAt (Slice.passed (fun passed c => if test passed c then some (c :: passed) else none) [] s) s

/-- The character that a byte stands for by itself. Bytes of longer characters stand for none in ASCII. -/
def lone (b : UInt8) : Char := Char.ofNat b.toNat

/-- The place behind a value, in bytes that start at a place. -/
def valueEnd? (place : Nat) (d : Depth) (inString : Bool) : Bytes → Option Nat
  | [] => if inString || !d.isNone then none else some place
  | b :: rest =>
    if inString then
      if b = 0x27 then
        match rest with
        | [] => if d.isNone then some (place + 1) else none
        | next :: rest =>
          if next = 0x27 then valueEnd? (place + 2) d true rest
          else if d.isNone then some (place + 1)
          else valueEnd? (place + 1) d false (next :: rest)
      else valueEnd? (place + 1) d true rest
    else if b = 0x27 then valueEnd? (place + 1) d true rest
    else
      match d.open? (lone b) with
      | some d => valueEnd? (place + 1) d false rest
      | none =>
        match d.closes? (lone b) with
        | some 0 => some place
        | some (_ + 1) =>
          if (d.close (lone b)).isNone then some (place + 1)
          else valueEnd? (place + 1) (d.close (lone b)) false rest
        | none =>
          if d.isNone && !Identifier.isNameChar (lone b) then some place
          else valueEnd? (place + 1) d false rest

def skipValue (s : Text) : Except Halt (Text × Text) :=
  match s with
  | [] => fail s .expectedValue
  | c :: _ =>
    if Text.isBlank c then fail s .expectedValue
    else
      match valueEnd? 0 .none false (Utf8.encode s) with
      | none => fail s .unterminatedValue
      | some 0 => fail s .expectedValue
      | some place => splitAt place s

def skipIdentifier (s : Text) : Except Halt (Text × Text) :=
  match s with
  | '"' :: inner =>
    match Slice.endingQuote? 0 (Utf8.encode inner) with
    | none => fail inner .unterminatedIdentifier
    -- the place counts from behind the first quote, and the last one is taken
    | some place => splitAt (place + 2) s
  | _ => do
    let (name, rest) ← takeWhile (fun _ => Identifier.isNameChar) s
    if name.isEmpty then fail s .expectedIdentifier else .ok (name, rest)

def take : Cursor.Move → Text → Except Halt (Text × Text)
  | .accept part, s => accept part s
  | .skipBlanks, s => takeWhile (fun _ => Text.isBlank) s
  | .takeWhile test, s => takeWhile test s
  | .skipValue, s => skipValue s
  | .skipIdentifier, s => skipIdentifier s

/-- What moves take one after the other, and what is left behind the last; no answer if one of them
breaks down. -/
def run : List Cursor.Move → Text → Option (List Text × Text)
  | [], s => some ([], s)
  | m :: moves, s =>
    match take m s with
    | .ok (part, rest) => (run moves rest).map fun (parts, last) => (part :: parts, last)
    | .error (.fault _ _) => run moves s
    | .error .misplaced => none

end Cql.ByteScanner
