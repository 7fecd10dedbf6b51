import Cql.Fault
import Cql.Text.Quoted
import Cql.Value.Display

/-!
A codec takes present values of one type to bytes and literals and back. What holds for every codec
is added here: an absent value is no bytes at all and the literal `NULL`, never an empty value.
-/

namespace Cql

structure Codec (α : Type) where
  type : ColumnType
  encode : Version → α → Except Fault Bytes
  /-- Bytes may also stand for an absent value, if they are empty. -/
  decode : Version → Bytes → Except Fault (Option α)
  /-- The literal of a present value. -/
  print : α → Except Fault Text
  /-- Reads a literal that is not `NULL`, without blanks around it. -/
  read : Text → Except Fault α

namespace Codec

variable {α : Type} (codec : Codec α)

def serialize (version : Version) : Option α → Except Fault (Option Bytes)
  | none => .ok none
  | some a => (codec.encode version a).map some

def deserialize (version : Version) : Option Bytes → Except Fault (Option α)
  | none => .ok none
  | some bytes => codec.decode version bytes

def format : Option α → Except Fault Text
  | none => .ok Value.nullText
  | some a => codec.print a

def parse (t : Text) : Except Fault (Option α) :=
  let literal := Text.trim t
  if Quoted.isNull literal then .ok none else (codec.read literal).map some

/-- A failure of a codec for a type. -/
def fail (type : ColumnType) (cause : Cause) : Except Fault α := .error ⟨type, cause⟩

/-- The answer that is there, or else a failure. -/
def orFail (type : ColumnType) (cause : Cause) : Option α → Except Fault α
  | some a => .ok a
  | none => .error ⟨type, cause⟩

end Codec

end Cql
