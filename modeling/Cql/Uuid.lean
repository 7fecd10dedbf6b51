import Cql.Text.Hex

/-!
Universally unique identifiers: sixteen bytes, written in groups of hexadecimal digits.
-/

namespace Cql

@[ext]
structure Uuid where
  bytes : Bytes
  length_bytes : bytes.length = 16
  deriving Repr

instance : DecidableEq Uuid := fun _ _ => decidable_of_iff _ Uuid.ext_iff.symm

namespace Uuid

def ofBytes? (bytes : Bytes) : Option Uuid :=
  if h : bytes.length = 16 then some ⟨bytes, h⟩ else none

/-- The first four bits of the seventh byte. -/
def version (u : Uuid) : Nat := (u.bytes.getD 6 0).toNat / 16

def print (u : Uuid) : Text :=
  let group (first count : Nat) := Hex.encode ((u.bytes.drop first).take count)
  Text.join ['-'] [group 0 4, group 4 2, group 6 2, group 8 2, group 10 6]

/-- Thirty-two digits. -/
def readSimple (t : Text) : Option Uuid := (Hex.decode t).bind ofBytes?

/-- Groups of 8, 4, 4, 4 and 12 digits with hyphens between them. -/
def readHyphenated (t : Text) : Option Uuid :=
  if t.length = 36 && [8, 13, 18, 23].all (fun i => t[i]? == some '-') then
    readSimple (t.take 8 ++ (t.drop 9).take 4 ++ (t.drop 14).take 4 ++ (t.drop 19).take 4
      ++ t.drop 24)
  else none

/-- Plain digits, groups, groups in braces, or groups behind `urn:uuid:`. -/
def read (t : Text) : Option Uuid :=
  if t.length = 32 then readSimple t
  else
    match t with
    | '\x7b' :: rest =>
      if rest.getLast? == some '\x7d' then readHyphenated rest.dropLast else none
    | t =>
      if "urn:uuid:".toList.isPrefixOf t then readHyphenated (t.drop 9) else readHyphenated t

end Uuid

end Cql
