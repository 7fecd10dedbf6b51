import Cql.Number.Integer
import Cql.Text.Utf8

/-!
Numbers as bytes, the most significant one first, with negative numbers in two's complement.
-/

-- powers are those of the core library, whatever else is imported
attribute [local instance (high)] instPowNat

namespace Cql.BigEndian

/-- The last `width` digits of a number to the base 256. -/
def ofNat : Nat → Nat → Bytes
  | 0, _ => []
  | width + 1, n => ofNat width (n / 256) ++ [UInt8.ofNat (n % 256)]

def toNat (bytes : Bytes) : Nat := bytes.foldl (fun n b => n * 256 + b.toNat) 0

def ofInt (width : Nat) (i : Int) : Bytes := ofNat width (i % (256 ^ width : Nat)).toNat

/-- The first bit tells the sign; no bytes stand for zero. -/
def toInt (bytes : Bytes) : Int :=
  let n := toNat bytes
  if 2 * n < 256 ^ bytes.length then n else n - (256 ^ bytes.length : Nat)

/-- The least number of bytes, at least one, that leaves room for the sign. -/
def minimalWidth (i : Int) : Nat :=
  let m := if 0 ≤ i then i.toNat else i.natAbs - 1
  let bits := if m = 0 then 0 else m.log2 + 1
  bits / 8 + 1

/-- The shortest form of an integer of any size. -/
def ofIntMinimal (i : Int) : Bytes := ofInt (minimalWidth i) i

theorem length_ofNat (width n : Nat) : (ofNat width n).length = width := by
  induction width generalizing n with
  | zero => rfl
  | succ width ih => simp [ofNat, ih]

end Cql.BigEndian
