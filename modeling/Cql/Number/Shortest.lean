import Cql.Number.Binary

/-!
The shortest decimal that reads back as a given binary number. Of the multiples of a power of ten only
the two around the number need a look: if any multiple lies among the reals that round to the number,
so does one of these two. The coarsest power with a hit wins, then the nearer neighbour; what happens
between two equally near ones is up to the format that is written.
-/

-- powers are those of the core library, whatever else is imported
attribute [local instance (high)] instPowNat

namespace Cql.Shortest

/-- Which neighbour an exact middle goes to. -/
inductive Tie where
  | up
  | even
  deriving DecidableEq, Repr

/-- The reals that round to a number: the number and both ends over a common denominator. -/
structure Interval where
  low : Nat
  value : Nat
  high : Nat
  den : Nat
  closed : Bool
  deriving Repr

/-- Half a unit to both sides; below a power of two the unit is half as large. The ends belong to the
interval when the significand is even. -/
def interval (f : BinaryFormat) (magnitude : Nat) : Interval :=
  let (m, q) := f.decompose magnitude
  let below := if m = 2 ^ f.fractionBits && f.leastExponent < q then 1 else 2
  let q := q - 2
  let scale := 2 ^ q.toNat
  ⟨(4 * m - below) * scale, 4 * m * scale, (4 * m + 2) * scale, 2 ^ (-q).toNat, m % 2 == 0⟩

def Interval.contains (i : Interval) (num den : Nat) : Bool :=
  let low := i.low * den
  let high := i.high * den
  let x := num * i.den
  if i.closed then low ≤ x && x ≤ high else low < x && x < high

/-- The multiple of `10 ^ k` that is written for the number, as its factor, if one lies in the
interval. -/
def atPower (tie : Tie) (i : Interval) (k : Int) : Option Nat :=
  let up := 10 ^ k.toNat
  let down := 10 ^ (-k).toNat
  let floor := i.value * down / (i.den * up)
  let rest := 2 * (i.value * down % (i.den * up))
  let hitsBelow := i.contains (floor * up) down
  let hitsAbove := i.contains ((floor + 1) * up) down
  let goesUp := i.den * up < rest ||
    (rest == i.den * up && (tie == .up || floor % 2 == 1))
  if hitsBelow && hitsAbove then some (if goesUp then floor + 1 else floor)
  else if hitsBelow then some floor
  else if hitsAbove then some (floor + 1)
  else none

/-- Tries ever finer powers of ten. -/
def search (tie : Tie) (i : Interval) : Nat → Int → Nat × Int
  | 0, k => (i.value / i.den, k)
  | steps + 1, k =>
    match atPower tie i k with
    | some n => (n, k)
    | none => search tie i steps (k - 1)

/-- An exponent of ten whose power is at least `2 ^ e`. -/
def powerAtLeast (e : Int) : Int :=
  if 0 ≤ e then e / 3 + 1 else -((-e) * 3 / 10)

/-- A factor and a power of ten for a positive finite magnitude. The search ends at a power that is not
above a quarter of the unit, where a multiple cannot be missed. -/
def digits (tie : Tie) (f : BinaryFormat) (magnitude : Nat) : Nat × Int :=
  let i := interval f magnitude
  let coarsest := powerAtLeast (BinaryFormat.floorLog i.high i.den + 1)
  let finest := -powerAtLeast (2 - (f.decompose magnitude).2)
  search tie i ((coarsest - finest).toNat + 1) coarsest

end Cql.Shortest
