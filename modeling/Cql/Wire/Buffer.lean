import Cql.Wire.Item

/-!
Writing into a buffer. What a writer has put there stays there if it fails later on, so that it must
know that a length fits before it puts anything. Items are written one behind the other; one that fails
does not keep the next one from being written.
-/

-- powers are those of the core library, whatever else is imported
attribute [local instance (high)] instPowNat

namespace Cql.Wire

/-- Work on a buffer, which may fail after it has changed the buffer. -/
abbrev Writer := ExceptT Fault (StateM Bytes) Unit

namespace Writer

/-- What comes of the work, and the buffer behind it. -/
def apply (w : Writer) (buffer : Bytes) : Except Fault Unit × Bytes := StateT.run (ExceptT.run w) buffer

def put (bytes : Bytes) : Writer := modify (· ++ bytes)

def int (i : Int32) : Writer := put (writeInt i)

def short (n : UInt16) : Writer := put (writeShort n)

def intLength (n : Nat) : Writer := if n < 2 ^ (31 : Nat) then int (Int32.ofNat n) else throw .tooLarge

def shortLength (n : Nat) : Writer := if n < 2 ^ (16 : Nat) then short (UInt16.ofNat n) else throw .tooLarge

def bytes (value : Bytes) : Writer := do
  intLength value.length
  put value

def optional : Option Bytes → Writer
  | some value => do
    intLength value.length
    put value
  | none => int (-1)

def shortBytes (value : Bytes) : Writer := do
  shortLength value.length
  put value

def size (version : Version) (count : Nat) : Writer :=
  if version.hasWideSizes then intLength count else shortLength count

def element (version : Version) (value : Bytes) : Writer :=
  if version.hasWideSizes then bytes value else shortBytes value

end Writer

def Item.write : Item → Writer
  | int value => .int value
  | short value => .short value
  | length value => .intLength value
  | bytes value => .bytes value
  | optional value => .optional value
  | shortBytes value => .shortBytes value
  | size version count => .size version count
  | element version value => .element version value

/-- Writes items one behind the other. Answers what has come of each of them, and the buffer behind
them. -/
def Item.writeAll : List Item → Bytes → List (Except Fault Unit) × Bytes
  | [], buffer => ([], buffer)
  | item :: items, buffer =>
    let (outcome, buffer) := item.write.apply buffer
    let (outcomes, buffer) := writeAll items buffer
    (outcome :: outcomes, buffer)

/-- Takes fields one behind the other from the left. -/
def Field.readAll : List Field → Bytes → Except Fault (List Reading × Bytes)
  | [], b => .ok ([], b)
  | field :: fields, b => do
    let (found, b) ← field.read b
    let (more, b) ← readAll fields b
    .ok (found :: more, b)

end Cql.Wire
