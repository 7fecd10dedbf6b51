import Cql.Number.Shortest
import Cql.Number.Positional
import Cql.Text.Hex

/-!
Documents as trees, and their compact text. Objects list their keys in increasing order, each once.
-/

namespace Cql.Json

inductive Document where
  | null
  | boolean (value : Bool)
  /-- From `-2 ^ 63` to `2 ^ 64 - 1`. -/
  | integer (value : Int)
  /-- The pattern of a finite binary number. -/
  | real (bits : UInt64)
  | string (text : String)
  | array (items : List Document)
  | object (fields : List (String × Document))
  deriving Repr, Inhabited

/-- Puts a field in its place, instead of one with the same key. -/
def insertField (key : String) (value : Document) :
    List (String × Document) → List (String × Document)
  | [] => [(key, value)]
  | (k, v) :: rest =>
    if key < k then (key, value) :: (k, v) :: rest
    else if key = k then (key, value) :: rest
    else (k, v) :: insertField key value rest

/-- Positional with at least one place after the point from `1e-5` to below `1e16`; beyond, one digit
before the point and an exponent with its sign. -/
def printReal (bits : Nat) : Text :=
  let magnitude := BinaryFormat.double.magnitude bits
  let text :=
    if magnitude = 0 then "0.0".toList
    else
      let (n, k) := Shortest.digits .even .double magnitude
      let digits := Integer.digits n
      let point := digits.length + k
      if 0 ≤ k ∧ point ≤ 16 then positional digits k ++ ['.', '0']
      else if -5 < point ∧ point ≤ 16 then positional digits k
      else
        let (text, exponent) := leadingDigit digits k
        text ++ 'e' :: signed exponent
  if BinaryFormat.double.isNegative bits then '-' :: text else text

/-- A character inside a string. Control characters without a letter of their own have a code point of
four digits. -/
def escapeChar (c : Char) : Text :=
  if c = '"' || c = '\\' then ['\\', c]
  else if c = '\x08' then ['\\', 'b']
  else if c = '\t' then ['\\', 't']
  else if c = '\n' then ['\\', 'n']
  else if c = '\x0c' then ['\\', 'f']
  else if c = '\r' then ['\\', 'r']
  else if c.toNat < 0x20 then ['\\', 'u'] ++ Integer.padTo 4 (Hex.ofNat c.toNat)
  else [c]

def printString (s : String) : Text := '"' :: s.toList.flatMap escapeChar ++ ['"']

mutual

def print : Document → Text
  | .null => "null".toList
  | .boolean b => if b then "true".toList else "false".toList
  | .integer i => Integer.print i
  | .real bits => printReal bits.toNat
  | .string s => printString s
  | .array items => '[' :: Text.join [','] (printAll items) ++ [']']
  | .object fields => '\x7b' :: Text.join [','] (printFields fields) ++ ['\x7d']

def printAll : List Document → List Text
  | [] => []
  | d :: ds => print d :: printAll ds

def printFields : List (String × Document) → List Text
  | [] => []
  | (key, value) :: rest => (printString key ++ ':' :: print value) :: printFields rest

end

end Cql.Json
