import Cql.Codec.Collection
import Cql.Codec.Composite
import Cql.Codec.Temporal

/-!
The codec of a type, built from the codecs of the types inside it.
-/

namespace Cql.Codec

/-- Values of a simple type. Where no bytes are not a regular value they are read as the empty value,
whose literal is `0x`. -/
def scalar {α : Type} (type : NativeType) (codec : Codec α) (make : α → Value)
    (get? : Value → Option α) : Codec Value where
  type := .native type
  encode version value :=
    match value, get? value with
    | _, some a => codec.encode version a
    | .empty, none =>
      if type.supportsEmpty then .ok [] else .error ⟨.native type, .incompatible (.native type)⟩
    | _, none => .error ⟨.native type, .incompatible (.native type)⟩
  decode version bytes :=
    if bytes.isEmpty && type.supportsEmpty then .ok (some .empty)
    else (codec.decode version bytes).map fun a => some ((a.map make).getD .empty)
  print value :=
    match value, get? value with
    | _, some _ => .ok value.display
    | .empty, none =>
      if type.supportsEmpty then .ok value.display
      else .error ⟨.native type, .incompatible (.native type)⟩
    | _, none => .error ⟨.native type, .incompatible (.native type)⟩
  read literal :=
    if type.supportsEmpty && Text.sameWord literal ['0', 'x'] then .ok .empty
    else (codec.read literal).map make

/-- Strings of either kind are accepted by every string type. -/
def ofNative : NativeType → Codec Value
  | .ascii => scalar .ascii (string .ascii) .ascii Value.string?
  | .text => scalar .text (string .text) .text Value.string?
  | .varchar => scalar .varchar (string .varchar) .text Value.string?
  | .blob => scalar .blob blob .blob Value.asBlob?
  | .boolean => scalar .boolean boolean .boolean fun | .boolean b => some b | _ => none
  | .tinyint => scalar .tinyint tinyint .tinyint fun | .tinyint i => some i | _ => none
  | .smallint => scalar .smallint smallint .smallint fun | .smallint i => some i | _ => none
  | .int => scalar .int int .int Value.asInt?
  | .bigint => scalar .bigint bigint .bigint Value.asBigint?
  | .counter => scalar .counter counter .counter fun | .counter i => some i | _ => none
  | .float => scalar .float float .float fun | .float bits => some bits | _ => none
  | .double => scalar .double double .double fun | .double bits => some bits | _ => none
  | .decimal => scalar .decimal decimal .decimal fun | .decimal d => some d | _ => none
  | .varint => scalar .varint varint .varint fun | .varint i => some i | _ => none
  | .timestamp => scalar .timestamp timestampMillis .timestamp Value.asTimestamp?
  | .date => scalar .date storedDate .date Value.asDate?
  | .time => scalar .time storedTime .time Value.asTime?
  | .inet => scalar .inet inet .inet fun | .inet address => some address | _ => none
  | .uuid => scalar .uuid (uuid .uuid) .uuid fun | .uuid u => some u | _ => none
  | .timeuuid => scalar .timeuuid (uuid .timeuuid) .timeuuid fun | .timeuuid u => some u | _ => none

/-- Tuples of optional values. -/
def tupleValue (elements : List (Codec Value)) : Codec Value :=
  let inner := tuple elements
  { type := inner.type
    encode := fun version v =>
      match v.asTuple? with
      | some items => inner.encode version items
      | none => .error ⟨inner.type, .incompatible .tuple⟩
    decode := fun version bytes =>
      (inner.decode version bytes).map fun items => some (.tuple (items.getD (blanks elements)))
    print := fun v =>
      match v.asTuple? with
      | some items => inner.print items
      | none => .error ⟨inner.type, .incompatible .matching⟩
    read := fun literal => (inner.read literal).map .tuple }

/-- Values of a type of which only the name is known are bytes. -/
def rawBytes (type : ColumnType) : Codec Value where
  type := type
  encode _ value := orFail type (.incompatible .blob) value.asBlob?
  decode _ bytes := .ok (some (.blob bytes))
  print value := (orFail type (.incompatible .matching) value.asBlob?).map Hex.blob
  read literal := (blob.read literal).map .blob

end Cql.Codec

namespace Cql.UserType

/-- The first value a list of fields has under a name. -/
def fieldValue (fields : List (String × Option Value)) (name : String) : Option Value :=
  (fields.find? (·.1 == name)).bind (·.2)

def fieldNames (t : UserType) : List String := t.fields.map (·.1)

/-- The codec of the field of a name. -/
def fieldCodec? (t : UserType) (codecs : List (Codec Value)) (name : String) :
    Option (Codec Value) :=
  ((t.fieldNames.zip codecs).find? (·.1 == name)).map (·.2)

/-- Sets the value of the first field of a name. -/
def setField (name : String) (value : Option Value) :
    List (String × Option Value) → List (String × Option Value)
  | [] => []
  | (n, v) :: rest => if n == name then (n, value) :: rest else (n, v) :: setField name value rest

/-- Fields in the order of their declaration, each with its length in front. One that the value does
not list is written as an absent one. -/
def encodeFields (type : ColumnType) (version : Version) (fields : List (String × Option Value)) :
    List (String × Codec Value) → Except Fault Bytes
  | [] => .ok []
  | (name, codec) :: rest => do
    let bytes ← Component.frame type (← codec.serialize version (fieldValue fields name))
    let later ← encodeFields type version fields rest
    .ok (bytes ++ later)

/-- Fields that are missing at the end of the bytes are absent: the type gained them after the value was
written. -/
def decodeFields (type : ColumnType) (version : Version) :
    List (String × Codec Value) → Bytes → Except Fault (List (String × Option Value))
  | [], _ => .ok []
  | (name, codec) :: rest, bytes =>
    if bytes.isEmpty then do
      let fields ← decodeFields type version rest bytes
      .ok ((name, none) :: fields)
    else
      match Wire.readOptional bytes with
      | .error fault => .error ⟨type, .truncated fault⟩
      | .ok (field, later) => do
        let value ← codec.deserialize version field
        let fields ← decodeFields type version rest later
        .ok ((name, value) :: fields)

/-- A value travels as its fields in the order of their declaration, whatever order the value lists them
in. As a literal the fields stand in braces, each behind its name. -/
def codec (t : UserType) (frozen : Bool) (codecs : List (Codec Value)) : Codec Value :=
  let type := ColumnType.userDefined t frozen
  { type := type
    encode := fun version v =>
      match v with
      | .userDefined _ _ fields =>
        if fields.any fun (name, _) => !t.fieldNames.contains name then
          .error ⟨type, .incompatible .knownFields⟩
        else
          encodeFields type version fields (t.fieldNames.zip codecs)
      | _ => .error ⟨type, .incompatible .userDefined⟩
    decode := fun version bytes => do
      let fields ← decodeFields type version (t.fieldNames.zip codecs) bytes
      .ok (some (.userDefined t.keyspace t.name fields))
    print := fun v =>
      match v with
      | .userDefined _ _ fields => do
        let texts ← fields.mapM fun (name, value) => do
          match t.fieldCodec? codecs name with
          | none => .error ⟨type, .incompatible .knownFields⟩
          | some codec => do
            let text ← codec.format value
            .ok (Identifier.display name ++ ':' :: text)
        .ok ('\x7b' :: Text.join [','] texts ++ ['\x7d'])
      | _ => .error ⟨type, .incompatible .matching⟩
    read := fun literal => do
      let fields ← Entries.read type '\x7b' '\x7d' (fun text fields => do
        match h : Scanner.skipIdentifier text with
        | .error _ => .error ⟨type, .unparsable literal .invalidFieldName⟩
        | .ok (written, rest) =>
          have h := Scanner.skipIdentifier_length_lt h
          let name := Identifier.read written
          match t.fieldCodec? codecs name with
          | none => .error ⟨type, .unparsable literal .unknownField⟩
          | some codec => do
            let ⟨rest, h₁⟩ ← Entries.skipColon type literal .missingFieldColon rest
            let (value, ⟨rest, h₂⟩) ← Entries.skipValue type literal .invalidField rest
            let value ← codec.parse value
            .ok (setField name value fields, ⟨rest, Text.length_third h h₁ h₂⟩)) literal
        (t.fieldNames.map fun name => (name, none))
      .ok (.userDefined t.keyspace t.name fields) }

end Cql.UserType

namespace Cql

mutual

/-- Every type has a codec. -/
def ColumnType.codec : ColumnType → Codec Value
  | .native t => .ofNative t
  | .list element frozen => .list element.codec frozen
  | .set element frozen => .set element.codec frozen
  | .map key value frozen => .map key.codec value.codec frozen
  | .tuple elements => .tupleValue (ColumnType.codecs elements)
  | .userDefined definition frozen => definition.codec frozen definition.fieldCodecs
  | .custom name => .rawBytes (.custom name)
  | .empty => .rawBytes .empty

def ColumnType.codecs : List ColumnType → List (Codec Value)
  | [] => []
  | t :: ts => t.codec :: ColumnType.codecs ts

def UserType.fieldCodecs : UserType → List (Codec Value)
  | ⟨_, _, fields⟩ => UserType.codecsOf fields

def UserType.codecsOf : List (String × ColumnType) → List (Codec Value)
  | [] => []
  | (_, t) :: rest => t.codec :: UserType.codecsOf rest

end

mutual

/-- The codec of a type is bound to that type. -/
theorem ColumnType.type_codec : (t : ColumnType) → t.codec.type = t
  | .native t => by cases t <;> rfl
  | .list element _ => by
    simp [ColumnType.codec, Codec.list, Codec.items, ColumnType.type_codec element]
  | .set element _ => by
    simp [ColumnType.codec, Codec.set, Codec.items, ColumnType.type_codec element]
  | .map key value _ => by
    simp [ColumnType.codec, Codec.map, ColumnType.type_codec key, ColumnType.type_codec value]
  | .tuple elements => by
    simp [ColumnType.codec, Codec.tupleValue, Codec.tuple, Composite.codec,
      ColumnType.types_codecs elements]
  | .userDefined .. => by simp [ColumnType.codec, UserType.codec]
  | .custom _ => rfl
  | .empty => rfl

theorem ColumnType.types_codecs :
    (ts : List ColumnType) → (ColumnType.codecs ts).map (·.type) = ts
  | [] => rfl
  | t :: ts => by
    simp [ColumnType.codecs, ColumnType.type_codec t, ColumnType.types_codecs ts]

end

/-- The codec of a tuple type, with components as optional values. -/
def Codec.ofTuple? (type : ColumnType) : Except Fault (Codec (List (Option Value))) :=
  match type with
  | .tuple elements => .ok (.tuple (ColumnType.codecs elements))
  | _ => .error ⟨type, .unsupported .tuple⟩

end Cql
