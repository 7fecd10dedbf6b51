import Cql.Codec.Scalar
import Cql.Json.Reader

/-!
Documents kept as text in a string column or as bytes in a blob column. How a document is read and
written is up to its format.
-/

namespace Cql

structure DocumentFormat (α : Type) where
  read : Bytes → Except Json.Fault α
  write : α → Except Json.Fault Text

/-- Trees in the JSON notation. -/
def DocumentFormat.json : DocumentFormat Json.Document where
  read := Json.read
  write document := .ok (Json.print document)

namespace Codec

variable {α : Type}

/-- The text of a document; in a column of the type `ascii` only ASCII characters. -/
def documentText (format : DocumentFormat α) (type : NativeType) (a : α) : Except Fault Text :=
  match format.write a with
  | .error fault => fail (.native type) (.document fault)
  | .ok t => checkAscii type t

def readDocument (format : DocumentFormat α) (type : NativeType) (bytes : Bytes) :
    Except Fault α :=
  match format.read bytes with
  | .error fault => fail (.native type) (.document fault)
  | .ok a => .ok a

/-- No bytes at all are an absent document. -/
def documentOf (format : DocumentFormat α) (type : NativeType) : Codec α where
  type := .native type
  encode _ a := (documentText format type a).map Utf8.encode
  decode _ bytes :=
    if bytes.isEmpty then .ok none else (readDocument format type bytes).map some
  print a :=
    (documentText format type a).map fun t =>
      if type = .blob then Hex.blob (Utf8.encode t) else Quoted.quote t
  read literal := do
    let bytes ←
      if type = .blob then blob.read literal
      else (unquoted (.native type) literal).map Utf8.encode
    readDocument format type bytes

/-- Only strings and blobs hold documents. -/
def document? (format : DocumentFormat α) (type : ColumnType) : Except Fault (Codec α) :=
  match type with
  | .native .text => .ok (documentOf format .text)
  | .native .varchar => .ok (documentOf format .varchar)
  | .native .ascii => .ok (documentOf format .ascii)
  | .native .blob => .ok (documentOf format .blob)
  | _ => .error ⟨type, .unsupported .document⟩

end Codec

end Cql
