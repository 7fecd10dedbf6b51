import Cql.Codec.Basic
import Cql.Text.Scanner

/-!
Values made of components in a fixed order. On the wire the components stand one after the other,
each with its length in front and an absent one as the length -1; reading stops at the end of the
bytes and leaves the later components absent. As a literal they stand in parentheses.
-/

namespace Cql

/-- How one component of a value is written, read and put back into the value. -/
structure Component (σ : Type) where
  type : ColumnType
  serialize : Version → σ → Except Fault (Option Bytes)
  deserialize : Version → Option Bytes → σ → Except Fault σ
  format : σ → Except Fault Text
  parse : Text → σ → Except Fault σ

namespace Component

variable {σ α : Type}

/-- A component with a codec of its own. -/
def of (codec : Codec α) (get : σ → Option α) (put : Option α → σ → σ) : Component σ where
  type := codec.type
  serialize version value := codec.serialize version (get value)
  deserialize version bytes value := (codec.deserialize version bytes).map fun a => put a value
  format value := codec.format (get value)
  parse t value := (codec.parse t).map fun a => put a value

/-- A component with its length in front. -/
def frame (type : ColumnType) (component : Option Bytes) : Except Fault Bytes :=
  match Wire.writeOptional component with
  | .ok bytes => .ok bytes
  | .error _ => .error ⟨type, .tooBig ((component.map List.length).getD 0)⟩

def encodeAll (type : ColumnType) (version : Version) (value : σ) :
    List (Component σ) → Except Fault Bytes
  | [] => .ok []
  | c :: cs => do
    let bytes ← frame type (← c.serialize version value)
    let rest ← encodeAll type version value cs
    .ok (bytes ++ rest)

/-- Bytes behind the last component are ignored. -/
def decodeAll (type : ColumnType) (version : Version) :
    List (Component σ) → Bytes → σ → Except Fault σ
  | [], _, value => .ok value
  | c :: cs, bytes, value =>
    if bytes.isEmpty then .ok value
    else
      match Wire.readOptional bytes with
      | .error fault => .error ⟨type, .truncated fault⟩
      | .ok (component, rest) => do
        let value ← c.deserialize version component value
        decodeAll type version cs rest value

def printAll (components : List (Component σ)) (value : σ) : Except Fault Text := do
  let texts ← components.mapM fun c => c.format value
  .ok ('(' :: Text.join [','] texts ++ [')'])

/-- Only blanks may follow the parenthesis. -/
def finish (type : ColumnType) (literal rest : Text) (value : σ) : Except Fault σ :=
  if (Scanner.skipBlanks rest).isEmpty then .ok value
  else .error ⟨type, .unparsable literal .afterParenthesis⟩

/-- Reads components from where one must stand. -/
def readFrom (type : ColumnType) (literal : Text) :
    List (Component σ) → Text → σ → Except Fault σ
  | [], _, _ => .error ⟨type, .unparsable literal .tooManyComponents⟩
  | c :: cs, t, value =>
    match Scanner.skipValue t with
    | .error _ => .error ⟨type, .unparsable literal .invalidComponent⟩
    | .ok (component, rest) => do
      let value ← c.parse component value
      match Scanner.skipBlanks rest with
      | [] => .error ⟨type, .unparsable literal .openParenthesis⟩
      | ')' :: rest => finish type literal rest value
      | ',' :: rest => readFrom type literal cs (Scanner.skipBlanks rest) value
      | _ => .error ⟨type, .unparsable literal .componentsNotSeparated⟩

/-- Components that are not written stay as they are in `blank`. -/
def readAll (type : ColumnType) (components : List (Component σ)) (blank : σ) (literal : Text) :
    Except Fault σ :=
  match Scanner.skipBlanks literal with
  | '(' :: rest =>
    match Scanner.skipBlanks rest with
    | ')' :: rest => finish type literal rest blank
    | rest => readFrom type literal components rest blank
  | _ => .error ⟨type, .unparsable literal .missingParenthesis⟩

end Component

/-- A tuple type with one component for each of its elements. `blank` has all components absent, and
`count?` tells how many a value has, where the values know. -/
structure Composite (σ : Type) where
  type : ColumnType
  components : List (Component σ)
  blank : σ
  count? : σ → Option Nat

namespace Composite

variable {σ : Type}

/-- The components must be those of a tuple type, in order. -/
def of? (type : ColumnType) (components : List (Component σ)) (blank : σ)
    (count? : σ → Option Nat) : Except Fault (Composite σ) :=
  match type with
  | .tuple elements =>
    if elements.length ≠ components.length then
      .error ⟨type, .arity elements.length components.length⟩
    else if elements ≠ components.map (·.type) then
      .error ⟨type, .incompatible .matchingElements⟩
    else .ok ⟨type, components, blank, count?⟩
  | _ => .error ⟨type, .unsupported .composite⟩

def arity (c : Composite σ) : Nat := c.components.length

/-- Refuses values with more components than the type has. -/
def codec (c : Composite σ) : Codec σ where
  type := c.type
  encode version value :=
    match (c.count? value).filter (c.arity < ·) with
    | some got => .error ⟨c.type, .arity c.arity got⟩
    | none => Component.encodeAll c.type version value c.components
  decode version bytes :=
    (Component.decodeAll c.type version c.components bytes c.blank).map some
  print value := Component.printAll c.components value
  read literal := Component.readAll c.type c.components c.blank literal

end Composite

/-- The places of a list of optional values, each with its codec. -/
def slots {α : Type} (codecs : List (Codec α)) : List (Component (List (Option α))) :=
  codecs.zipIdx.map fun (codec, i) =>
    .of codec (fun items => items[i]?.join) (fun a items => items.set i a)

/-- As many absent values as there are codecs. -/
def blanks {α : Type} (codecs : List (Codec α)) : List (Option α) := codecs.map fun _ => none

namespace Codec

/-- The codec of a tuple type from those of its elements. -/
def tuple {α : Type} (elements : List (Codec α)) : Codec (List (Option α)) :=
  Composite.codec
    ⟨.tuple (elements.map (·.type)), slots elements, blanks elements, fun items => some items.length⟩

end Codec

end Cql
