import Cql.Codec.Basic

/-!
Codecs of simple types other than dates and times. Numbers of a fixed width also read no bytes at all,
as zero.
-/

-- powers are those of the core library, whatever else is imported
attribute [local instance (high)] instPowNat

namespace Cql.Codec

variable {α : Type}

/-- Bytes of exactly one length. -/
def fixedBytes (type : ColumnType) (width : Nat) (bytes : Bytes) : Except Fault Bytes :=
  if bytes.length = width then .ok bytes else fail type (.byteLength width bytes.length)

/-- The text of a literal that must be quoted. -/
def unquoted (type : ColumnType) (literal : Text) : Except Fault Text :=
  orFail type (.missingQuotes literal) (Quoted.unquote literal)

/-- Numbers of a fixed width. -/
def number (type : NativeType) (kind : NumberKind) (width : Nat) (zero : α) (toBytes : α → Bytes)
    (ofBytes : Bytes → α) (print : α → Text) (read : Text → Option α) : Codec α where
  type := .native type
  encode _ a := .ok (toBytes a)
  decode _ bytes :=
    if bytes.isEmpty then .ok (some zero)
    else do
      let bytes ← fixedBytes (.native type) width bytes
      .ok (some (ofBytes bytes))
  print a := .ok (print a)
  read literal := orFail (.native type) (.unparsable literal (.notNumber kind)) (read literal)

def tinyint : Codec Int8 :=
  number .tinyint .int8 1 0 (fun i => BigEndian.ofInt 1 i.toInt)
    (fun bytes => Int8.ofInt (BigEndian.toInt bytes)) (fun i => Integer.print i.toInt)
    (fun t => (Integer.readWithin (-2 ^ (7 : Nat)) (2 ^ (7 : Nat) - 1) t).map Int8.ofInt)

def smallint : Codec Int16 :=
  number .smallint .int16 2 0 (fun i => BigEndian.ofInt 2 i.toInt)
    (fun bytes => Int16.ofInt (BigEndian.toInt bytes)) (fun i => Integer.print i.toInt)
    (fun t => (Integer.readWithin (-2 ^ (15 : Nat)) (2 ^ (15 : Nat) - 1) t).map Int16.ofInt)

def int : Codec Int32 :=
  number .int .int32 4 0 (fun i => BigEndian.ofInt 4 i.toInt)
    (fun bytes => Int32.ofInt (BigEndian.toInt bytes)) (fun i => Integer.print i.toInt)
    (fun t => (Integer.readWithin (-2 ^ (31 : Nat)) (2 ^ (31 : Nat) - 1) t).map Int32.ofInt)

/-- The codec of `bigint` and of `counter`. -/
def long (type : NativeType) : Codec Int64 :=
  number type .int64 8 0 (fun i => BigEndian.ofInt 8 i.toInt)
    (fun bytes => Int64.ofInt (BigEndian.toInt bytes)) (fun i => Integer.print i.toInt)
    (fun t => (Integer.readWithin (-2 ^ (63 : Nat)) (2 ^ (63 : Nat) - 1) t).map Int64.ofInt)

def bigint : Codec Int64 := long .bigint

def counter : Codec Int64 := long .counter

def float : Codec UInt32 :=
  number .float .float32 4 0 (fun bits => BigEndian.ofNat 4 bits.toNat)
    (fun bytes => UInt32.ofNat (BigEndian.toNat bytes))
    (fun bits => Floating.print .single bits.toNat)
    (fun t => (Floating.read .single t).map UInt32.ofNat)

def double : Codec UInt64 :=
  number .double .float64 8 0 (fun bits => BigEndian.ofNat 8 bits.toNat)
    (fun bytes => UInt64.ofNat (BigEndian.toNat bytes))
    (fun bits => Floating.print .double bits.toNat)
    (fun t => (Floating.read .double t).map UInt64.ofNat)

/-- Every byte but zero is read as true. -/
def boolean : Codec Bool where
  type := .native .boolean
  encode _ b := .ok [if b then 1 else 0]
  decode _ bytes :=
    if bytes.isEmpty then .ok (some false)
    else do
      let bytes ← fixedBytes (.native .boolean) 1 bytes
      .ok (some (bytes != [0]))
  print b := .ok (Value.displayBoolean b)
  read literal :=
    if Text.sameWord literal "true".toList then .ok true
    else if Text.sameWord literal "false".toList then .ok false
    else fail (.native .boolean) (.unparsable literal .notBoolean)

/-- Only ASCII characters in strings of the type `ascii`. -/
def checkAscii (type : NativeType) (t : Text) : Except Fault Text :=
  if type = .ascii && !Text.isAscii t then fail (.native type) .notAscii else .ok t

/-- UTF-8 strings of one of the types `text`, `varchar` and `ascii`; their literals are quoted. -/
def string (type : NativeType) : Codec String where
  type := .native type
  encode _ s := (checkAscii type s.toList).map Utf8.encode
  decode _ bytes :=
    match Utf8.decode bytes with
    | .error fault => fail (.native type) (.notUtf8 fault)
    | .ok t => (checkAscii type t).map fun t => some (String.ofList t)
  print s := .ok (Quoted.quote s.toList)
  read literal := do
    let t ← unquoted (.native type) literal
    let t ← checkAscii type t
    .ok (String.ofList t)

def blob : Codec Bytes where
  type := .native .blob
  encode _ bytes := .ok bytes
  decode _ bytes := .ok (some bytes)
  print bytes := .ok (Hex.blob bytes)
  read literal := orFail (.native .blob) (.unparsable literal .notBlob) (Hex.readBlob literal)

/-- Only identifiers of version 1 in the type `timeuuid`. -/
def checkVersion (type : NativeType) (u : Uuid) : Except Fault Uuid :=
  if type = .timeuuid && u.version != 1 then fail (.native type) (.incompatible .timeBasedUuid)
  else .ok u

/-- Identifiers of one of the types `uuid` and `timeuuid`. -/
def uuid (type : NativeType) : Codec Uuid where
  type := .native type
  encode _ u := (checkVersion type u).map (·.bytes)
  decode _ bytes :=
    if bytes.isEmpty then .ok none
    else
      match Uuid.ofBytes? bytes with
      | none => fail (.native type) (.byteLength 16 bytes.length)
      | some u => (checkVersion type u).map some
  print u := .ok u.print
  read literal := do
    let u ← orFail (.native type) (.unparsable literal .notUuid) (Uuid.read literal)
    checkVersion type u

/-- Literals of addresses are quoted; blanks inside the quotes are dropped. -/
def inet : Codec Address where
  type := .native .inet
  encode _ address := .ok address.bytes
  decode _ bytes :=
    if bytes.isEmpty then .ok none
    else
      match Address.ofBytes? bytes with
      | some address => .ok (some address)
      | none => fail (.native .inet) (.inetLength bytes.length)
  print address := .ok (Quoted.quote address.print)
  read literal := do
    let t ← unquoted (.native .inet) literal
    orFail (.native .inet) (.unparsable literal .notAddress) (Address.read (Text.trim t))

def varint : Codec Int where
  type := .native .varint
  encode _ i := .ok (BigEndian.ofIntMinimal i)
  decode _ bytes := .ok (some (BigEndian.toInt bytes))
  print i := .ok (Integer.print i)
  read literal :=
    orFail (.native .varint) (.unparsable literal .notVarint) (Integer.readWide literal)

/-- The scale in four bytes, then the unscaled integer. -/
def decimal : Codec Decimal where
  type := .native .decimal
  encode _ d :=
    if -2 ^ (31 : Nat) ≤ d.scale ∧ d.scale < 2 ^ (31 : Nat) then
      .ok (BigEndian.ofInt 4 d.scale ++ BigEndian.ofIntMinimal d.unscaled)
    else fail (.native .decimal) .overflow
  decode _ bytes :=
    if bytes.length < 4 then fail (.native .decimal) (.byteLength 4 bytes.length)
    else .ok (some ⟨BigEndian.toInt (bytes.drop 4), BigEndian.toInt (bytes.take 4)⟩)
  print d := .ok d.print
  read literal :=
    orFail (.native .decimal) (.unparsable literal .notDecimal) (Decimal.read literal)

end Cql.Codec
