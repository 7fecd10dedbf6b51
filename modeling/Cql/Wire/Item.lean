import Cql.Wire

/-!
What is written in one piece, and the fields by which a reader knows which piece comes next. An item
that does not fit into its field is not written at all.
-/

namespace Cql.Wire

/-- A value together with the field it is written to. -/
inductive Item where
  | int (value : Int32)
  | short (value : UInt16)
  | length (value : Nat)
  | bytes (value : Bytes)
  | optional (value : Option Bytes)
  | shortBytes (value : Bytes)
  | size (version : Version) (count : Nat)
  | element (version : Version) (value : Bytes)
  deriving DecidableEq, Repr

inductive Field where
  | int | short | length | bytes | optional | shortBytes
  | size (version : Version)
  | element (version : Version)
  deriving DecidableEq, Repr

/-- What a field is found to hold. -/
inductive Reading where
  | int (value : Int32)
  | short (value : UInt16)
  | length (value : Nat)
  | bytes (value : Option Bytes)
  deriving DecidableEq, Repr

/-- Takes a field from the left, and answers the rest as well. -/
def Field.read : Field → Bytes → Except Fault (Reading × Bytes)
  | int, b => (readInt b).map fun (i, rest) => (.int i, rest)
  | short, b => (readShort b).map fun (n, rest) => (.short n, rest)
  | length, b => (readIntLength b).map fun (n, rest) => (.length n, rest)
  | bytes, b => (readBytes b).map fun (value, rest) => (.bytes (some value), rest)
  | optional, b => (readOptional b).map fun (value, rest) => (.bytes value, rest)
  | shortBytes, b => (readShortBytes b).map fun (value, rest) => (.bytes (some value), rest)
  | size version, b => (readSize version b).map fun (n, rest) => (.length n, rest)
  | element version, b => (readElement version b).map fun (value, rest) => (.bytes value, rest)

namespace Item

def encode : Item → Except Fault Bytes
  | int value => .ok (writeInt value)
  | short value => .ok (writeShort value)
  | length value => writeIntLength value
  | bytes value => writeBytes value
  | optional value => writeOptional value
  | shortBytes value => writeShortBytes value
  | size version count => writeSize version count
  | element version value => writeElement version value

/-- The field that holds the item. -/
def field : Item → Field
  | int _ => .int
  | short _ => .short
  | length _ => .length
  | bytes _ => .bytes
  | optional _ => .optional
  | shortBytes _ => .shortBytes
  | size version _ => .size version
  | element version _ => .element version

/-- What that field is found to hold. -/
def reading : Item → Reading
  | int value => .int value
  | short value => .short value
  | length value => .length value
  | bytes value => .bytes (some value)
  | optional value => .bytes value
  | shortBytes value => .bytes (some value)
  | size _ count => .length count
  | element _ value => .bytes (some value)

end Item

/-- Adds an item to a buffer, which stays as it is if the item cannot be written. -/
def append (buffer : Bytes) (item : Item) : Bytes :=
  match item.encode with
  | .ok bytes => buffer ++ bytes
  | .error _ => buffer

end Cql.Wire
