import Cql.Number.BigEndian

/-!
Bytes with their length in front. A reader takes what a value needs from the left and answers the
rest; a writer answers the bytes to append. Lengths are signed words of four bytes, and the first two
versions of the protocol count collections and their elements in two bytes.
-/

-- powers are those of the core library, whatever else is imported
attribute [local instance (high)] instPowNat

namespace Cql

inductive Version where
  | v1 | v2 | v3 | v4 | v5
  deriving DecidableEq, Repr

namespace Version

def all : List Version := [v1, v2, v3, v4, v5]

def number : Version → Nat
  | v1 => 1
  | v2 => 2
  | v3 => 3
  | v4 => 4
  | v5 => 5

def ofNumber? (n : Nat) : Option Version := all.find? (·.number == n)

/-- The version that is spoken unless another is asked for. -/
def standard : Version := v4

def display (v : Version) : String := "v" ++ toString v.number

/-- Whether sizes in collections take four bytes rather than two. -/
def hasWideSizes : Version → Bool
  | v1 | v2 => false
  | v3 | v4 | v5 => true

/-- What is said of a number that is no version. -/
def unsupportedMessage (n : Nat) : String := s!"Unsupported protocol version: {n}"

end Version

namespace Wire

inductive Fault where
  /-- The input ends inside a number. -/
  | endOfInput
  /-- A negative length where there must be a value. -/
  | negative
  /-- A size that its field cannot hold. -/
  | tooLarge
  | tooFewBytes (expected received : Nat)
  deriving DecidableEq, Repr

def Fault.message : Fault → String
  | .endOfInput => "failed to fill whole buffer"
  | .negative => "number too small to fit in target type"
  | .tooLarge => "number too large to fit in target type"
  | .tooFewBytes expected received =>
    s!"Too few bytes received: expected {expected}, received {received}"

/-- The first `count` bytes and the rest, if there are as many. -/
def split? (count : Nat) (bytes : Bytes) : Option (Bytes × Bytes) :=
  let first := bytes.take count
  if first.length < count then none else some (first, bytes.drop count)

def readInt (bytes : Bytes) : Except Fault (Int32 × Bytes) :=
  match split? 4 bytes with
  | none => .error .endOfInput
  | some (word, rest) => .ok (Int32.ofInt (BigEndian.toInt word), rest)

def readShort (bytes : Bytes) : Except Fault (UInt16 × Bytes) :=
  match split? 2 bytes with
  | none => .error .endOfInput
  | some (word, rest) => .ok (UInt16.ofNat (BigEndian.toNat word), rest)

def readIntLength (bytes : Bytes) : Except Fault (Nat × Bytes) := do
  let (length, rest) ← readInt bytes
  if length < 0 then .error .negative else .ok (length.toInt.toNat, rest)

def readRaw (count : Nat) (bytes : Bytes) : Except Fault (Bytes × Bytes) :=
  match split? count bytes with
  | none => .error (.tooFewBytes count bytes.length)
  | some parts => .ok parts

def readBytes (bytes : Bytes) : Except Fault (Bytes × Bytes) := do
  let (length, rest) ← readIntLength bytes
  readRaw length rest

/-- A negative length stands for an absent value. -/
def readOptional (bytes : Bytes) : Except Fault (Option Bytes × Bytes) := do
  let (length, rest) ← readInt bytes
  if length < 0 then .ok (none, rest)
  else
    let (value, rest) ← readRaw length.toInt.toNat rest
    .ok (some value, rest)

def readShortBytes (bytes : Bytes) : Except Fault (Bytes × Bytes) := do
  let (length, rest) ← readShort bytes
  readRaw length.toNat rest

/-- The number of entries of a collection. -/
def readSize (version : Version) (bytes : Bytes) : Except Fault (Nat × Bytes) :=
  if version.hasWideSizes then readIntLength bytes
  else do
    let (size, rest) ← readShort bytes
    .ok (size.toNat, rest)

/-- An element of a collection; with narrow sizes it cannot be absent. -/
def readElement (version : Version) (bytes : Bytes) : Except Fault (Option Bytes × Bytes) :=
  if version.hasWideSizes then readOptional bytes
  else do
    let (value, rest) ← readShortBytes bytes
    .ok (some value, rest)

def writeInt (i : Int32) : Bytes := BigEndian.ofInt 4 i.toInt

def writeShort (n : UInt16) : Bytes := BigEndian.ofNat 2 n.toNat

def writeIntLength (n : Nat) : Except Fault Bytes :=
  if n < 2 ^ (31 : Nat) then .ok (BigEndian.ofNat 4 n) else .error .tooLarge

def writeShortLength (n : Nat) : Except Fault Bytes :=
  if n < 2 ^ (16 : Nat) then .ok (BigEndian.ofNat 2 n) else .error .tooLarge

def writeBytes (value : Bytes) : Except Fault Bytes := do
  let length ← writeIntLength value.length
  .ok (length ++ value)

/-- An absent value is the length -1 alone. -/
def writeOptional : Option Bytes → Except Fault Bytes
  | some value => writeBytes value
  | none => .ok (writeInt (-1))

def writeShortBytes (value : Bytes) : Except Fault Bytes := do
  let length ← writeShortLength value.length
  .ok (length ++ value)

def writeSize (version : Version) (size : Nat) : Except Fault Bytes :=
  if version.hasWideSizes then writeIntLength size else writeShortLength size

def writeElement (version : Version) (value : Bytes) : Except Fault Bytes :=
  if version.hasWideSizes then writeBytes value else writeShortBytes value

end Wire

end Cql
