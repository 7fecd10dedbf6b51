import Cql.Number.Integer

/-!
Decimal digits with a point among, before or behind them.
-/

namespace Cql

/-- The number `digits · 10 ^ k` without an exponent: zeros behind the digits, or a point that leaves
`-k` places after it. -/
def positional (digits : Text) (k : Int) : Text :=
  if 0 ≤ k then digits ++ List.replicate k.toNat '0'
  else
    let places := (-k).toNat
    if places < digits.length then
      digits.take (digits.length - places) ++ '.' :: digits.drop (digits.length - places)
    else '0' :: '.' :: List.replicate (places - digits.length) '0' ++ digits

/-- The number `digits · 10 ^ k` with one digit before the point, and its exponent. -/
def leadingDigit (digits : Text) (k : Int) : Text × Int :=
  match digits with
  | [] => ([], k)
  | [d] => ([d], k)
  | d :: rest => (d :: '.' :: rest, k + rest.length)

/-- An integer with its sign, also if it is a plus. -/
def signed (i : Int) : Text := if i < 0 then Integer.print i else '+' :: Integer.print i

end Cql
