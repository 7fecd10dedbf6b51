import Cql.Codec.Basic
import Cql.Text.Scanner

/-!
Lists, sets and maps. On the wire the number of entries comes first, then every element with its length
in front, a map alternating keys and values; there is no absent element, and no byte may be left over.
As literals the entries stand in brackets.
-/

namespace Cql

/-- A later part of a text. -/
abbrev Text.After (t : Text) := { rest : Text // rest.length < t.length }

/-- What comes after three parts of a text is a later part of it. -/
theorem Text.length_third {t first second third : Text} (h : first.length < t.length)
    (h₁ : second.length < first.length) (h₂ : third.length < second.length) :
    third.length < t.length := by
  omega

namespace Entries

variable {σ : Type}

/-- Only blanks may follow the closing bracket. -/
def finish (type : ColumnType) (literal rest : Text) (state : σ) : Except Fault σ :=
  if (Scanner.skipBlanks rest).isEmpty then .ok state
  else .error ⟨type, .unparsable literal .afterClosing⟩

/-- Reads entries from where one must stand, with commas between them, up to the closing bracket. -/
def readFrom (type : ColumnType) (literal : Text) (close : Char)
    (entry : (t : Text) → σ → Except Fault (σ × Text.After t)) (t : Text) (state : σ) :
    Except Fault σ :=
  match entry t state with
  | .error fault => .error fault
  | .ok (state, ⟨rest, _⟩) =>
    match h : Scanner.skipBlanks rest with
    | [] => .error ⟨type, .unparsable literal .missingClosing⟩
    | c :: next =>
      have : (Scanner.skipBlanks next).length < t.length := by
        have h₁ := Text.length_trimStart_le next
        have h₂ := Text.length_trimStart_le rest
        have h₃ := congrArg List.length h
        simp only [Scanner.skipBlanks, List.length_cons] at *
        omega
      if c = close then finish type literal next state
      else if c = ',' then readFrom type literal close entry (Scanner.skipBlanks next) state
      else .error ⟨type, .unparsable literal .notSeparated⟩
termination_by t.length

def read (type : ColumnType) (opening close : Char)
    (entry : (t : Text) → σ → Except Fault (σ × Text.After t)) (literal : Text) (state : σ) :
    Except Fault σ :=
  match Scanner.skipBlanks literal with
  | [] => .error ⟨type, .unparsable literal .missingOpening⟩
  | c :: rest =>
    if c = opening then
      match Scanner.skipBlanks rest with
      | [] => readFrom type literal close entry [] state
      | c :: next =>
        if c = close then finish type literal next state
        else readFrom type literal close entry (c :: next) state
    else .error ⟨type, .unparsable literal .missingOpening⟩

/-- Skips a value where one must stand. -/
def skipValue (type : ColumnType) (literal : Text) (reason : Reason) (t : Text) :
    Except Fault (Text × Text.After t) :=
  match h : Scanner.skipValue t with
  | .ok (value, rest) => .ok (value, ⟨rest, Scanner.skipValue_length_lt h⟩)
  | .error _ => .error ⟨type, .unparsable literal reason⟩

/-- Skips a colon and the blanks around it. -/
def skipColon (type : ColumnType) (literal : Text) (reason : Reason) (t : Text) :
    Except Fault (Text.After t) :=
  match h : Scanner.skipBlanks t with
  | ':' :: rest =>
    .ok ⟨Scanner.skipBlanks rest, by
      have h₁ := Text.length_trimStart_le rest
      have h₂ := Text.length_trimStart_le t
      have h₃ := congrArg List.length h
      simp only [Scanner.skipBlanks, List.length_cons] at *
      omega⟩
  | _ => .error ⟨type, .unparsable literal reason⟩

end Entries

namespace Collection

/-- An element with its length in front. -/
def frame (type : ColumnType) (version : Version) (element : Bytes) : Except Fault Bytes :=
  match Wire.writeElement version element with
  | .ok bytes => .ok bytes
  | .error _ => .error ⟨type, .tooBig element.length⟩

/-- The number of entries, then their elements, each with its own codec. -/
def encode (type : ColumnType) (version : Version) (count : Nat)
    (elements : List (Codec Value × Value)) : Except Fault Bytes :=
  match Wire.writeSize version count with
  | .error _ => .error ⟨type, .tooBig count⟩
  | .ok size => do
    let parts ← elements.mapM fun (codec, value) => do
      frame type version (← codec.encode version value)
    .ok (size ++ parts.flatten)

/-- Splits off a number of elements; `done` holds those before them, the last one first. -/
def takeElements (type : ColumnType) (version : Version) (done : List Bytes) :
    Nat → Bytes → Except Fault (List Bytes × Bytes)
  | 0, bytes => .ok (done.reverse, bytes)
  | count + 1, bytes =>
    match Wire.readElement version bytes with
    | .error fault => .error ⟨type, .truncated fault⟩
    | .ok (none, _) => .error ⟨type, .incompatible .presentElement⟩
    | .ok (some element, rest) => takeElements type version (element :: done) count rest

/-- The elements of a collection with `perEntry` of them in each entry. No bytes at all are an empty
collection. -/
def split (type : ColumnType) (version : Version) (perEntry : Nat) (bytes : Bytes) :
    Except Fault (List Bytes) :=
  if bytes.isEmpty then .ok []
  else
    match Wire.readSize version bytes with
    | .error fault => .error ⟨type, .truncated fault⟩
    | .ok (count, rest) => do
      let (elements, rest) ← takeElements type version [] (count * perEntry) rest
      if rest.isEmpty then .ok elements else .error ⟨type, .trailingBytes rest.length⟩

/-- An element that is absent by itself is present and empty in a collection. -/
def decodeElement (codec : Codec Value) (version : Version) (bytes : Bytes) : Except Fault Value :=
  (codec.decode version bytes).map fun v => v.getD .empty

def pairs : List Bytes → List (Bytes × Bytes)
  | k :: v :: rest => (k, v) :: pairs rest
  | _ => []

/-- The value of an element's literal, which may not be `NULL`. -/
def parseElement (codec : Codec Value) (literal : Text) : Except Fault Value := do
  match ← codec.parse literal with
  | some value => .ok value
  | none => .error ⟨codec.type, .unparsable literal .nullElement⟩

/-- Reads the literal of a list or a set. -/
def readItems (type : ColumnType) (element : Codec Value) (opening close : Char) (literal : Text) :
    Except Fault (List Value) := do
  let items ← Entries.read type opening close (fun t items => do
    let (item, rest) ← Entries.skipValue type literal .invalidElement t
    let value ← parseElement element item
    .ok (value :: items, rest)) literal []
  .ok items.reverse

def printItems (element : Codec Value) (opening close : Char) (items : List Value) :
    Except Fault Text := do
  let texts ← items.mapM element.print
  .ok (opening :: Text.join [','] texts ++ [close])

end Collection

namespace Codec

/-- The codec of a list or a set, the values of which are `make items`. -/
def items (type : ColumnType) (shape : Shape) (make : List Value → Value)
    (items? : Value → Option (List Value)) (opening close : Char) (element : Codec Value) :
    Codec Value where
  type := type
  encode version value :=
    match items? value with
    | some items =>
      Collection.encode type version items.length (items.map fun item => (element, item))
    | none => .error ⟨type, .incompatible shape⟩
  decode version bytes := do
    let elements ← Collection.split type version 1 bytes
    let items ← elements.mapM (Collection.decodeElement element version)
    .ok (some (make items))
  print value :=
    match items? value with
    | some items => Collection.printItems element opening close items
    | none => .error ⟨type, .incompatible .matching⟩
  read literal := (Collection.readItems type element opening close literal).map make

def list (element : Codec Value) (frozen : Bool) : Codec Value :=
  items (.list element.type frozen) .list .list Value.asList? '[' ']' element

def set (element : Codec Value) (frozen : Bool) : Codec Value :=
  items (.set element.type frozen) .set .set Value.asSet? '\x7b' '\x7d' element

def map (key value : Codec Value) (frozen : Bool) : Codec Value :=
  let type := ColumnType.map key.type value.type frozen
  { type := type
    encode := fun version v =>
      match v.asMap? with
      | some entries =>
        Collection.encode type version entries.length
          (entries.flatMap fun (k, v) => [(key, k), (value, v)])
      | none => .error ⟨type, .incompatible .map⟩
    decode := fun version bytes => do
      let elements ← Collection.split type version 2 bytes
      let entries ← (Collection.pairs elements).mapM fun (k, v) => do
        let k ← Collection.decodeElement key version k
        let v ← Collection.decodeElement value version v
        .ok (k, v)
      .ok (some (.map entries))
    print := fun v =>
      match v.asMap? with
      | some entries => do
        let texts ← entries.mapM fun (k, v) => do
          let k ← key.print k
          let v ← value.print v
          .ok (k ++ ':' :: v)
        .ok ('\x7b' :: Text.join [','] texts ++ ['\x7d'])
      | none => .error ⟨type, .incompatible .matching⟩
    read := fun literal => do
      let entries ← Entries.read type '\x7b' '\x7d' (fun t entries => do
        let (k, ⟨rest, h⟩) ← Entries.skipValue type literal .invalidKey t
        let ⟨rest, h₁⟩ ← Entries.skipColon type literal .missingKeyColon rest
        let (v, ⟨rest, h₂⟩) ← Entries.skipValue type literal .invalidEntry rest
        let k ← Collection.parseElement key k
        let v ← Collection.parseElement value v
        .ok ((k, v) :: entries, ⟨rest, Text.length_third h h₁ h₂⟩)) literal []
      .ok (.map entries.reverse) }

end Codec

end Cql
