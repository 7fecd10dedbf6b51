import Cql.Number.Integer

/-!
Binary floating point numbers, kept as their bit patterns. A finite pattern stands for `m · 2 ^ q`; a
positive quotient is rounded to the nearest pattern, a tie going to the even one.
-/

-- powers are those of the core library, whatever else is imported
attribute [local instance (high)] instPowNat

namespace Cql

/-- Widths of the two fields below the sign. -/
structure BinaryFormat where
  fractionBits : Nat
  exponentBits : Nat
  deriving DecidableEq, Repr

namespace BinaryFormat

def single : BinaryFormat := ⟨23, 8⟩

def double : BinaryFormat := ⟨52, 11⟩

variable (f : BinaryFormat)

/-- The exponent of the least positive number, which is a power of two. -/
def leastExponent : Int := 2 - 2 ^ (f.exponentBits - 1) - f.fractionBits

/-- The pattern of positive infinity. -/
def infinity : Nat := (2 ^ f.exponentBits - 1) * 2 ^ f.fractionBits

/-- The pattern of the number that is not one, without a sign. -/
def nan : Nat := f.infinity + 2 ^ (f.fractionBits - 1)

def signBit : Nat := 2 ^ (f.fractionBits + f.exponentBits)

def isNegative (bits : Nat) : Bool := f.signBit ≤ bits

/-- The pattern without its sign. -/
def magnitude (bits : Nat) : Nat := bits % f.signBit

def isNaN (bits : Nat) : Bool := f.infinity < f.magnitude bits

def isInfinite (bits : Nat) : Bool := f.magnitude bits == f.infinity

/-- Adds a minus sign to a pattern without one. -/
def withSign (negative : Bool) (magnitude : Nat) : Nat :=
  if negative then f.signBit + magnitude else magnitude

/-- The number `m · 2 ^ q` of a finite magnitude. -/
def decompose (magnitude : Nat) : Nat × Int :=
  let exponent := magnitude / 2 ^ f.fractionBits
  let fraction := magnitude % 2 ^ f.fractionBits
  if exponent = 0 then (fraction, f.leastExponent)
  else (fraction + 2 ^ f.fractionBits, f.leastExponent + (exponent - 1 : Nat))

/-- The nearest natural number to a quotient, a tie going to the even one. -/
def roundQuotient (num den : Nat) : Nat :=
  let floor := num / den
  let rest := 2 * (num % den)
  if den < rest || (den == rest && floor % 2 == 1) then floor + 1 else floor

/-- The greatest `e` with `2 ^ e ≤ num / den`, both being positive. -/
def floorLog (num den : Nat) : Int :=
  let e : Int := num.log2 - den.log2
  let atLeast := if 0 ≤ e then den * 2 ^ e.toNat ≤ num else den ≤ num * 2 ^ (-e).toNat
  if atLeast then e else e - 1

/-- The magnitude nearest to a quotient; infinity from half a unit beyond the largest finite one on. -/
def ofQuotient (num den : Nat) : Nat :=
  if num = 0 then 0
  else
    let q := max (floorLog num den - f.fractionBits) f.leastExponent
    let m := if 0 ≤ q then roundQuotient num (den * 2 ^ q.toNat)
      else roundQuotient (num * 2 ^ (-q).toNat) den
    min ((q - f.leastExponent).toNat * 2 ^ f.fractionBits + m) f.infinity

/-- The magnitude nearest to `n · 10 ^ e`. Numbers that are out of reach of every pattern are told by
their order of magnitude alone, before a power of ten is taken. -/
def ofDecimal (n : Nat) (e : Int) : Nat :=
  let reach : Int := 2 ^ f.exponentBits + f.fractionBits
  if n = 0 then 0
  else if reach < e + (n.log2 / 4 : Nat) then f.infinity
  else if e + (n.log2 / 3 : Nat) + 1 < -reach then 0
  else if 0 ≤ e then f.ofQuotient (n * 10 ^ e.toNat) 1
  else f.ofQuotient n (10 ^ (-e).toNat)

/-- The magnitude nearest to a product of finite magnitudes. -/
def mul (a b : Nat) : Nat :=
  let (m, p) := f.decompose a
  let (n, q) := f.decompose b
  let e := p + q
  if 0 ≤ e then f.ofQuotient (m * n * 2 ^ e.toNat) 1 else f.ofQuotient (m * n) (2 ^ (-e).toNat)

/-- The magnitude nearest to a quotient of finite magnitudes, the second one not zero. -/
def div (a b : Nat) : Nat :=
  let (m, p) := f.decompose a
  let (n, q) := f.decompose b
  let e := p - q
  if 0 ≤ e then f.ofQuotient (m * 2 ^ e.toNat) n else f.ofQuotient m (n * 2 ^ (-e).toNat)

end BinaryFormat

end Cql
