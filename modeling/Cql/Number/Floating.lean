import Cql.Number.Positional
import Cql.Number.Shortest

/-!
Literals of binary floating point numbers: digits with an optional point and an optional exponent, or
one of the words `NaN`, `inf` and `Infinity`, after an optional sign.
-/

namespace Cql.Floating

/-- The significand and the exponent of digits with at most one point, at least one of them. -/
def readScientific (t : Text) : Option (Nat × Int) :=
  let (whole, rest) := Text.spanWhile Char.isDigit t
  let (fraction, rest) := match rest with
    | '.' :: rest => Text.spanWhile Char.isDigit rest
    | rest => ([], rest)
  if whole.isEmpty && fraction.isEmpty then none
  else
    let n := Integer.ofDigits (Integer.ofDigits 0 whole) fraction
    match rest with
    | [] => some (n, -(fraction.length : Int))
    | 'e' :: rest => (Integer.read rest).map fun e => (n, e - fraction.length)
    | 'E' :: rest => (Integer.read rest).map fun e => (n, e - fraction.length)
    | _ => none

/-- The pattern nearest to the written number; a minus before `NaN` is kept. -/
def read (f : BinaryFormat) (t : Text) : Option Nat :=
  let (negative, t) := Integer.splitSign t
  let magnitude :=
    if Text.sameWord t "nan".toList then some f.nan
    else if Text.sameWord t "inf".toList || Text.sameWord t "infinity".toList then some f.infinity
    else (readScientific t).map fun (n, e) => f.ofDecimal n e
  magnitude.map (f.withSign negative)

/-- The shortest digits that read back, never with an exponent. -/
def print (f : BinaryFormat) (bits : Nat) : Text :=
  if f.isNaN bits then "NaN".toList
  else
    let magnitude := f.magnitude bits
    let text :=
      if magnitude = f.infinity then "Infinity".toList
      else if magnitude = 0 then ['0']
      else
        let (n, k) := Shortest.digits .up f magnitude
        positional (Integer.digits n) k
    if f.isNegative bits then '-' :: text else text

end Cql.Floating
