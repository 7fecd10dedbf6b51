import Cql.Text.Basic

/-!
Integer literals. The plain grammar is an optional sign and decimal digits; the wide grammar, for
integers of any size, also allows underscores after the first digit.
-/

namespace Cql.Integer

def digitValue (c : Char) : Nat := c.toNat - 48

/-- The number the digits denote, with the digits `n` in front. -/
def ofDigits (n : Nat) (digits : Text) : Nat := digits.foldl (fun n c => 10 * n + digitValue c) n

/-- At least one digit and nothing else. -/
def readDigits (t : Text) : Option Nat :=
  if !t.isEmpty && t.all Char.isDigit then some (ofDigits 0 t) else none

/-- Splits off a sign; the answer tells whether it was a minus. -/
def splitSign : Text → Bool × Text
  | '-' :: rest => (true, rest)
  | '+' :: rest => (false, rest)
  | t => (false, t)

def read (t : Text) : Option Int :=
  let (negative, digits) := splitSign t
  (readDigits digits).map fun n => if negative then -(n : Int) else n

/-- An integer within bounds. -/
def readWithin (low high : Int) (t : Text) : Option Int :=
  (read t).filter fun i => low ≤ i && i ≤ high

/-- A number without a minus sign, up to a bound. -/
def readUpTo (high : Nat) (t : Text) : Option Nat :=
  let digits := match t with
    | '+' :: rest => rest
    | t => t
  (readDigits digits).filter fun n => n ≤ high

/-- Whether the text follows the plain grammar. -/
def isLiteral (t : Text) : Bool :=
  let (_, digits) := splitSign t
  !digits.isEmpty && digits.all Char.isDigit

/-- Digits with underscores between and after them, the first character being a digit. -/
def readSeparated (t : Text) : Option Nat :=
  match t with
  | [] => none
  | '_' :: _ => none
  | t =>
    if t.all fun c => c.isDigit || c == '_' then some (ofDigits 0 (t.filter Char.isDigit))
    else none

/-- The wide grammar. A minus may not be followed by a plus, nor a plus by another. -/
def readWide (t : Text) : Option Int :=
  match t with
  | '-' :: rest => (readSeparated rest).map fun n => -(n : Int)
  | '+' :: rest => (readSeparated rest).map fun n => (n : Int)
  | t => (readSeparated t).map fun n => (n : Int)

/-- The decimal digits of a number without leading zeros. -/
def digits (n : Nat) : Text := Nat.toDigits 10 n

def print (i : Int) : Text :=
  if i < 0 then '-' :: digits i.natAbs else digits i.natAbs

/-- Zeros in front up to a width. -/
def padTo (width : Nat) (t : Text) : Text := List.replicate (width - t.length) '0' ++ t

/-- At least `width` characters, the sign among them, filled up with zeros after the sign. -/
def printPadded (width : Nat) (i : Int) : Text :=
  if i < 0 then '-' :: padTo (width - 1) (digits i.natAbs) else padTo width (digits i.natAbs)

end Cql.Integer
