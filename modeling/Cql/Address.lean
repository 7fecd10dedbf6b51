import Cql.Number.Integer
import Cql.Text.Hex

/-!
Internet addresses of four or sixteen bytes. The short form is four decimal numbers; the long form is
eight hexadecimal groups, where one run of zero groups may be left out and the last two groups may be
written as a short address.
-/

namespace Cql

inductive Address where
  | v4 (bytes : Bytes) (length_bytes : bytes.length = 4)
  | v6 (bytes : Bytes) (length_bytes : bytes.length = 16)
  deriving DecidableEq, Repr

namespace Address

def ofBytes? (bytes : Bytes) : Option Address :=
  if h : bytes.length = 4 then some (.v4 bytes h)
  else if h : bytes.length = 16 then some (.v6 bytes h)
  else none

def bytes : Address → Bytes
  | .v4 bytes _ => bytes
  | .v6 bytes _ => bytes

/-- Pairs of bytes as numbers. -/
def groups : Bytes → List Nat
  | high :: low :: rest => (high.toNat * 256 + low.toNat) :: groups rest
  | _ => []

def ofGroups (groups : List Nat) : Bytes :=
  groups.flatMap fun g => [UInt8.ofNat (g / 256), UInt8.ofNat (g % 256)]

/-- Start and length of the first longest run of zeros; `start` and `length` describe the run that ends
before `index`. -/
def longestRun (best current : Nat × Nat) (index : Nat) : List Nat → Nat × Nat
  | [] => best
  | g :: rest =>
    if g = 0 then
      let current := if current.2 = 0 then (index, 1) else (current.1, current.2 + 1)
      longestRun (if best.2 < current.2 then current else best) current (index + 1) rest
    else longestRun best (0, 0) (index + 1) rest

def printShort (bytes : Bytes) : Text :=
  Text.join ['.'] (bytes.map fun b => Integer.digits b.toNat)

def printGroups (groups : List Nat) : Text := Text.join [':'] (groups.map Hex.ofNat)

/-- Two zero groups or more are left out, the first longest run of them. An address that stands for a
short one ends with it. -/
def printLong (bytes : Bytes) : Text :=
  let all := groups bytes
  if all.take 6 = [0, 0, 0, 0, 0, 0xFFFF] then "::ffff:".toList ++ printShort (bytes.drop 12)
  else
    let (start, length) := longestRun (0, 0) (0, 0) 0 all
    if 1 < length then
      printGroups (all.take start) ++ ':' :: ':' :: printGroups (all.drop (start + length))
    else printGroups all

def print : Address → Text
  | .v4 bytes _ => printShort bytes
  | .v6 bytes _ => printLong bytes

/-- A decimal number below 256 of one to three digits, without a zero in front. -/
def takeByte (t : Text) : Option (UInt8 × Text) :=
  let (digits, rest) := Text.spanWhile Char.isDigit t
  let n := Integer.ofDigits 0 digits
  if digits.isEmpty || 3 < digits.length || 255 < n then none
  else if 1 < digits.length && digits.head? == some '0' then none
  else some (UInt8.ofNat n, rest)

def skipDot : Text → Option Text
  | '.' :: rest => some rest
  | _ => none

/-- Four numbers with points between them. -/
def takeShort (t : Text) : Option (Bytes × Text) := do
  let (a, t) ← takeByte t
  let (b, t) ← takeByte (← skipDot t)
  let (c, t) ← takeByte (← skipDot t)
  let (d, t) ← takeByte (← skipDot t)
  some ([a, b, c, d], t)

/-- A hexadecimal number of one to four digits. -/
def takeGroup (t : Text) : Option (Nat × Text) :=
  let (digits, rest) := Text.spanWhile (fun c => (Hex.digitValue c).isSome) t
  if digits.isEmpty || 4 < digits.length then none
  else some (digits.foldl (fun n c => 16 * n + (Hex.digitValue c).getD 0) 0, rest)

/-- Skips the colon before every group but the first one. -/
def skipColon (first : Bool) (t : Text) : Option Text :=
  if first then some t
  else match t with
    | ':' :: rest => some rest
    | _ => none

/-- Reads at most `limit` groups. A short address fills two of them and ends the run; the answer tells
whether that happened. -/
def takeGroups (first : Bool) : Nat → Text → List Nat × Bool × Text
  | 0, t => ([], false, t)
  | limit + 1, t =>
    let short := if limit = 0 then none else (skipColon first t).bind takeShort
    match short with
    | some (bytes, rest) => (groups bytes, true, rest)
    | none =>
      match (skipColon first t).bind takeGroup with
      | none => ([], false, t)
      | some (g, rest) =>
        let (more, short, rest) := takeGroups false limit rest
        (g :: more, short, rest)

/-- The groups of a long address and what follows it. -/
def takeLong (t : Text) : Option (List Nat × Text) :=
  let (head, short, rest) := takeGroups true 8 t
  if head.length = 8 then some (head, rest)
  else if short then none
  else match rest with
    | ':' :: ':' :: rest =>
      let (tail, _, rest) := takeGroups true (7 - head.length) rest
      some (head ++ List.replicate (8 - head.length - tail.length) 0 ++ tail, rest)
    | _ => none

def read (t : Text) : Option Address :=
  match takeShort t with
  | some (bytes, rest) => if rest.isEmpty then ofBytes? bytes else none
  | none =>
    match takeLong t with
    | some (groups, []) => ofBytes? (ofGroups groups)
    | _ => none

end Address

end Cql
