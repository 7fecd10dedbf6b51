import Cql.Json.Document
import Cql.Json.Fault

/-!
Numbers of documents. Integers that fit in 64 bits stay integers. Of other numbers the leading digits
that fit in 64 bits are scaled by a power of ten, in binary arithmetic.
-/

-- powers are those of the core library, whatever else is imported
attribute [local instance (high)] instPowNat

namespace Cql.Json

/-- A flaw and the number of bytes that remained where it was noticed. -/
structure Stop where
  flaw : Flaw
  remaining : Nat
  deriving DecidableEq, Repr

/-- A flaw noticed before these bytes. -/
def stopAt {α : Type} (flaw : Flaw) (rest : Bytes) : Except Stop α := .error ⟨flaw, rest.length⟩

/-- A flaw noticed at the first of these bytes, which counts as read. -/
def stopOn {α : Type} (flaw : Flaw) (rest : Bytes) : Except Stop α :=
  .error ⟨flaw, rest.length - 1⟩

/-- A later part of the bytes. -/
abbrev After (bytes : Bytes) := { rest : Bytes // rest.length < bytes.length }

namespace Number

/-- The value of a digit. -/
def digit? (b : UInt8) : Option Nat := if 48 ≤ b ∧ b ≤ 57 then some (b.toNat - 48) else none

def startsWithDigit (bytes : Bytes) : Bool := bytes.head?.any fun b => (digit? b).isSome

/-- Adds digits to a number as long as it fits in 64 bits; the answer counts them. -/
def takeSignificand (n count : Nat) : Bytes → Nat × Nat × Bytes
  | [] => (n, count, [])
  | b :: rest =>
    match digit? b with
    | some d =>
      if 10 * n + d < 2 ^ (64 : Nat) then takeSignificand (10 * n + d) (count + 1) rest
      else (n, count, b :: rest)
    | none => (n, count, b :: rest)

/-- Skips digits and counts them. -/
def skipDigits (count : Nat) : Bytes → Nat × Bytes
  | [] => (count, [])
  | b :: rest => if (digit? b).isSome then skipDigits (count + 1) rest else (count, b :: rest)

/-- The greatest power of ten that a number is scaled by at once. -/
def powerLimit : Nat := 308

/-- Divides by `10 ^ e`, at most by the greatest power at once. -/
def divideBy (f : Nat) (e : Nat) : Nat :=
  let double := BinaryFormat.double
  if e ≤ powerLimit then double.div f (double.ofDecimal 1 e)
  else if f = 0 then f
  else divideBy (double.div f (double.ofDecimal 1 powerLimit)) (e - powerLimit)
termination_by e
decreasing_by simp only [powerLimit] at *; omega

/-- The magnitude of `n · 10 ^ e`, unless it is too large. -/
def scale? (n : Nat) (e : Int) : Option Nat :=
  let double := BinaryFormat.double
  let f := double.ofDecimal n 0
  if e < 0 then some (divideBy f e.natAbs)
  else if e ≤ powerLimit then
    let product := double.mul f (double.ofDecimal 1 e)
    if product = double.infinity then none else some product
  else if f = 0 then some f
  else none

def real (negative : Bool) (magnitude : Nat) : Document :=
  .real (UInt64.ofNat (BinaryFormat.double.withSign negative magnitude))

def scaled (negative : Bool) (n : Nat) (e : Int) (rest : Bytes) : Except Stop (Document × Bytes) :=
  match scale? n e with
  | some magnitude => .ok (real negative magnitude, rest)
  | none => stopAt .numberOutOfRange rest

/-- Bounds of the exponent as it is written and after the digits are counted in. -/
def exponentLimit : Nat := 2 ^ (31 : Nat) - 1

/-- The digits of an exponent behind `value`. Beyond the limit only the sign and zero matter. -/
def exponentDigits (negative : Bool) (n : Nat) (e : Int) (negativeExponent : Bool) (value : Nat) :
    Bytes → Except Stop (Document × Bytes)
  | [] => finish value []
  | b :: rest =>
    match digit? b with
    | none => finish value (b :: rest)
    | some d =>
      if exponentLimit < 10 * value + d then
        if n ≠ 0 && !negativeExponent then stopAt .numberOutOfRange rest
        else .ok (real negative 0, (skipDigits 0 rest).2)
      else exponentDigits negative n e negativeExponent (10 * value + d) rest
where
  finish (value : Nat) (rest : Bytes) : Except Stop (Document × Bytes) :=
    let total := if negativeExponent then e - value else e + value
    scaled negative n (max (-exponentLimit - 1) (min exponentLimit total)) rest

/-- The exponent behind its letter. -/
def exponent (negative : Bool) (n : Nat) (e : Int) (bytes : Bytes) :
    Except Stop (Document × Bytes) :=
  let (negativeExponent, bytes) := match bytes with
    | 43 :: rest => (false, rest)
    | 45 :: rest => (true, rest)
    | bytes => (false, bytes)
  match bytes with
  | [] => stopAt .endInValue []
  | b :: rest =>
    match digit? b with
    | none => stopAt .invalidNumber rest
    | some d => exponentDigits negative n e negativeExponent d rest

/-- What may follow the last digit before an exponent. -/
def afterDigits (negative : Bool) (n : Nat) (e : Int) (bytes : Bytes) :
    Except Stop (Document × Bytes) :=
  match bytes with
  | 101 :: rest => exponent negative n e rest
  | 69 :: rest => exponent negative n e rest
  | bytes => scaled negative n e bytes

/-- The places behind the point, of which there must be one. -/
def fraction (negative : Bool) (n : Nat) (e : Int) (bytes : Bytes) :
    Except Stop (Document × Bytes) :=
  let (n, count, rest) := takeSignificand n 0 bytes
  if startsWithDigit rest then afterDigits negative n (e - count) (skipDigits 0 rest).2
  else if count = 0 then
    if rest.isEmpty then stopOn .endInValue rest else stopOn .invalidNumber rest
  else afterDigits negative n (e - count) rest

/-- An integer, unless a point or an exponent follows it. Minus zero and integers below the least one
of 64 bits are not kept as integers. -/
def afterInteger (negative : Bool) (n : Nat) (bytes : Bytes) : Except Stop (Document × Bytes) :=
  match bytes with
  | 46 :: rest => fraction negative n 0 rest
  | 101 :: rest => exponent negative n 0 rest
  | 69 :: rest => exponent negative n 0 rest
  | bytes =>
    if !negative then .ok (.integer n, bytes)
    else if n = 0 || 2 ^ (63 : Nat) < n then .ok (real true (BinaryFormat.double.ofDecimal n 0), bytes)
    else .ok (.integer (-n), bytes)

/-- A number behind its sign. -/
def read (negative : Bool) (bytes : Bytes) : Except Stop (Document × Bytes) :=
  match bytes with
  | [] => stopAt .endInValue []
  | 48 :: rest =>
    if startsWithDigit rest then stopOn .invalidNumber rest else afterInteger negative 0 rest
  | b :: rest =>
    match digit? b with
    | none => stopAt .invalidNumber rest
    | some d =>
      let (n, _, rest) := takeSignificand d 0 rest
      if startsWithDigit rest then
        let (count, rest) := skipDigits 0 rest
        match rest with
        | 46 :: rest => fraction negative n count rest
        | rest => afterDigits negative n count rest
      else afterInteger negative n rest

end Number

end Cql.Json
