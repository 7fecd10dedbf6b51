import Cql.Number.Positional

/-!
Decimal numbers of any size and precision. The same number has many forms, and a form is never
changed into another: `1.50` keeps its trailing zero.
-/

-- powers are those of the core library, whatever else is imported
attribute [local instance (high)] instPowNat

namespace Cql

/-- The number `unscaled · 10 ^ -scale`. -/
structure Decimal where
  unscaled : Int
  scale : Int
  deriving DecidableEq, Repr

namespace Decimal

/-- Least and greatest scale of a literal. -/
def leastScale : Int := -2 ^ (63 : Nat)

def greatestScale : Int := 2 ^ (63 : Nat) - 1

/-- Digits with an optional point and an optional exponent; underscores may stand where they may in
wide integers. A point behind the last digit adds no place. -/
def read (t : Text) : Option Decimal := do
  let (base, rest) := Text.spanWhile (fun c => c != 'e' && c != 'E') t
  let exponent ← match rest with
    | [] => some 0
    | _ :: exponent => Integer.read exponent
  let (lead, point) := Text.spanWhile (· != '.') base
  let trail := point.drop 1
  let unscaled ← Integer.readWide (lead ++ trail)
  let scale := ((trail.filter (· != '_')).length : Int) - exponent
  if leastScale ≤ scale ∧ scale ≤ greatestScale then some ⟨unscaled, scale⟩ else none

/-- Zeros between the point and the first digit from which on an exponent is written. -/
def leadingZeroLimit : Nat := 5

/-- Zeros between the last digit and the point from which on an exponent is written. -/
def trailingZeroLimit : Int := 15

/-- Positional near the point; `1.5E-20` far behind it and `15e+20` far before it. Zero has no
places. -/
def print (d : Decimal) : Text :=
  let digits := Integer.digits d.unscaled.natAbs
  let magnitude :=
    if d.unscaled = 0 then ['0']
    else if (leadingZeroLimit : Int) < d.scale - digits.length then
      let (text, exponent) := leadingDigit digits (-d.scale)
      text ++ 'E' :: signed exponent
    else if trailingZeroLimit < -d.scale then digits ++ 'e' :: signed (-d.scale)
    else positional digits (-d.scale)
  if d.unscaled < 0 then '-' :: magnitude else magnitude

end Decimal

end Cql
