import Cql.Text.Basic

/-!
UTF-8 in both directions. The decoder walks the bytes once; between two characters nothing is owed,
inside a character it knows how many continuation bytes are missing and which values the next one may
take, so that overlong forms, surrogates and code points above U+10FFFF never get through.
-/

namespace Cql

abbrev Bytes := List UInt8

namespace Utf8

def encodeChar (c : Char) : Bytes :=
  let n := c.toNat
  if n < 0x80 then [.ofNat n]
  else if n < 0x800 then [.ofNat (0xC0 + n / 64), .ofNat (0x80 + n % 64)]
  else if n < 0x10000 then
    [.ofNat (0xE0 + n / 4096), .ofNat (0x80 + n / 64 % 64), .ofNat (0x80 + n % 64)]
  else
    [.ofNat (0xF0 + n / 262144), .ofNat (0x80 + n / 4096 % 64), .ofNat (0x80 + n / 64 % 64),
     .ofNat (0x80 + n % 64)]

def encode (t : Text) : Bytes := t.flatMap encodeChar

/-- Where decoding stopped. `badLength` counts the bytes that cannot start a character together; it
is absent when the input ends inside a character. -/
structure Fault where
  validUpTo : Nat
  badLength : Option Nat
  deriving DecidableEq, Repr

def Fault.message (f : Fault) : String :=
  match f.badLength with
  | some n => s!"invalid utf-8 sequence of {n} bytes from index {f.validUpTo}"
  | none => s!"incomplete utf-8 byte sequence from index {f.validUpTo}"

/-- A character of which `owed` bytes are still to come, the next one between `low` and `high`.
`value` holds the bits read so far and `read` counts their bytes. -/
structure Pending where
  value : Nat
  owed : Nat
  low : Nat
  high : Nat
  read : Nat

/-- What a first byte of two or more announces. -/
def lead (b : Nat) : Option Pending :=
  if 0xC2 ≤ b ∧ b ≤ 0xDF then some ⟨b - 0xC0, 1, 0x80, 0xBF, 1⟩
  else if b = 0xE0 then some ⟨0, 2, 0xA0, 0xBF, 1⟩
  else if b = 0xED then some ⟨0xD, 2, 0x80, 0x9F, 1⟩
  else if 0xE1 ≤ b ∧ b ≤ 0xEF then some ⟨b - 0xE0, 2, 0x80, 0xBF, 1⟩
  else if b = 0xF0 then some ⟨0, 3, 0x90, 0xBF, 1⟩
  else if 0xF1 ≤ b ∧ b ≤ 0xF3 then some ⟨b - 0xF0, 3, 0x80, 0xBF, 1⟩
  else if b = 0xF4 then some ⟨4, 3, 0x80, 0x8F, 1⟩
  else none

/-- Decodes from byte `index` on. `done` holds the characters so far, the last one first. -/
def decodeFrom (done : Text) (pending : Option Pending) (index : Nat) : Bytes → Except Fault Text
  | [] =>
    match pending with
    | none => .ok done.reverse
    | some p => .error ⟨index - p.read, none⟩
  | b :: rest =>
    match pending with
    | none =>
      if b.toNat < 0x80 then decodeFrom (Char.ofNat b.toNat :: done) none (index + 1) rest
      else match lead b.toNat with
        | none => .error ⟨index, some 1⟩
        | some p => decodeFrom done (some p) (index + 1) rest
    | some p =>
      if p.low ≤ b.toNat ∧ b.toNat ≤ p.high then
        let value := p.value * 64 + (b.toNat - 0x80)
        if p.owed ≤ 1 then decodeFrom (Char.ofNat value :: done) none (index + 1) rest
        else decodeFrom done (some ⟨value, p.owed - 1, 0x80, 0xBF, p.read + 1⟩) (index + 1) rest
      else .error ⟨index - p.read, some p.read⟩

def decode (bytes : Bytes) : Except Fault Text := decodeFrom [] none 0 bytes

end Utf8

end Cql
