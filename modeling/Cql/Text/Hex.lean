import Cql.Text.Utf8

/-!
Bytes as hexadecimal digits, two for each byte, and the `0x` form of blob literals.
-/

namespace Cql.Hex

/-- The lower case digit of a number below 16. -/
def digit (n : Nat) : Char :=
  if n < 10 then Char.ofNat (48 + n) else Char.ofNat (87 + n)

def digitValue (c : Char) : Option Nat :=
  let n := c.toNat
  if 48 ≤ n ∧ n ≤ 57 then some (n - 48)
  else if 97 ≤ n ∧ n ≤ 102 then some (n - 87)
  else if 65 ≤ n ∧ n ≤ 70 then some (n - 55)
  else none

def encode (bytes : Bytes) : Text :=
  bytes.flatMap fun b => [digit (b.toNat / 16), digit (b.toNat % 16)]

/-- Refuses an odd number of digits and every character that is no digit. -/
def decode : Text → Option Bytes
  | [] => some []
  | [_] => none
  | h :: l :: rest => do
    let high ← digitValue h
    let low ← digitValue l
    let bytes ← decode rest
    some (UInt8.ofNat (16 * high + low) :: bytes)

/-- The digits of a number without leading zeros. -/
def ofNat (n : Nat) : Text := Nat.toDigits 16 n

/-- A blob literal is `0x` and the bytes in lower case digits. -/
def blob (bytes : Bytes) : Text := '0' :: 'x' :: encode bytes

/-- Digits and the `x` may be in either case. -/
def readBlob : Text → Option Bytes
  | '0' :: 'x' :: digits => decode digits
  | '0' :: 'X' :: digits => decode digits
  | _ => none

end Cql.Hex
