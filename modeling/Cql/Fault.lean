import Cql.Json.Fault
import Cql.Type.Basic
import Cql.Wire

/-!
Why a value could not be handled under its type. Each cause is a value of its own, and all wording is
in one place.
-/

namespace Cql

/-- The numbers that have a literal of a fixed width. -/
inductive NumberKind where
  | int8 | int16 | int32 | int64 | float32 | float64
  deriving DecidableEq, Repr

def NumberKind.name : NumberKind → String
  | int8 => "i8"
  | int16 => "i16"
  | int32 => "i32"
  | int64 => "i64"
  | float32 => "f32"
  | float64 => "f64"

/-- How a literal departs from the grammar of its type. -/
inductive Reason where
  | notNumber (kind : NumberKind)
  | notBoolean | notBlob | notUuid | notAddress | notDecimal | notVarint
  | notTimestamp | notDate | notDateOrDays | notTime | notZone
  | missingTimestamp | nullElement
  | missingOpening | missingClosing | afterClosing | notSeparated
  | invalidElement | invalidKey | missingKeyColon | invalidEntry
  | invalidFieldName | unknownField | missingFieldColon | invalidField
  | missingParenthesis | openParenthesis | afterParenthesis | componentsNotSeparated
  | tooManyComponents | invalidComponent
  deriving DecidableEq, Repr

def Reason.message : Reason → String
  | notNumber kind => "not a valid " ++ kind.name ++ " literal"
  | notBoolean => "expected true or false"
  | notBlob => "not a hexadecimal blob"
  | notUuid => "not a valid uuid"
  | notAddress => "not a valid IP address"
  | notDecimal => "not a valid decimal"
  | notVarint => "not a valid varint"
  | notTimestamp => "expected milliseconds or an ISO-8601 timestamp"
  | notDate => "expected YYYY-MM-DD"
  | notDateOrDays => "expected YYYY-MM-DD or a day count"
  | notTime => "expected nanoseconds of the day or HH:MM:SS"
  | notZone => "expected Z, UTC, a numeric offset or a region"
  | missingTimestamp => "missing timestamp component"
  | nullElement => "collection elements cannot be null"
  | missingOpening => "missing opening bracket"
  | missingClosing => "missing closing bracket"
  | afterClosing => "unexpected characters after the closing bracket"
  | notSeparated => "expecting ',' or a closing bracket"
  | invalidElement => "invalid collection element"
  | invalidKey => "invalid map key"
  | missingKeyColon => "expecting ':' after a map key"
  | invalidEntry => "invalid map value"
  | invalidFieldName => "invalid field name"
  | unknownField => "unknown field name"
  | missingFieldColon => "expecting ':' after a field name"
  | invalidField => "invalid field value"
  | missingParenthesis => "expecting '('"
  | openParenthesis => "missing closing ')'"
  | afterParenthesis => "unexpected characters after ')'"
  | componentsNotSeparated => "expecting ',' or ')'"
  | tooManyComponents => "too many components"
  | invalidComponent => "invalid CQL value"

/-- What was expected where a value of another shape was found. -/
inductive Shape where
  | native (type : NativeType)
  | list | set | map | tuple | userDefined | blob | matching
  | knownFields | presentElement | timeBasedUuid | matchingElements | textMap
  deriving DecidableEq, Repr

def Shape.name : Shape → String
  | native t => t.name
  | list => "list"
  | set => "set"
  | map => "map"
  | tuple => "tuple"
  | userDefined => "user defined type"
  | blob => "blob"
  | matching => "a value matching the type"
  | knownFields => "fields of the user defined type"
  | presentElement => "non-null collection element"
  | timeBasedUuid => "version 1 uuid"
  | matchingElements => "element codecs matching the tuple components"
  | textMap => "map<text, text>"

/-- The codecs that only some types have. -/
inductive CodecKind where
  | composite | tuple | zonedTimestamp | document
  deriving DecidableEq, Repr

def CodecKind.name : CodecKind → String
  | composite => "CompositeCodec"
  | tuple => "TupleCodec"
  | zonedTimestamp => "ZonedTimestampCodec"
  | document => "JsonCodec"

inductive Cause where
  | unparsable (literal : Text) (reason : Reason)
  | missingQuotes (literal : Text)
  | byteLength (expected got : Nat)
  | inetLength (got : Nat)
  /-- The bytes do not hold what their own lengths announce. -/
  | truncated (fault : Wire.Fault)
  | trailingBytes (remaining : Nat)
  | notAscii
  | notUtf8 (fault : Utf8.Fault)
  | overflow
  /-- More than the length in front of the value can tell. -/
  | tooBig (size : Nat)
  | incompatible (expected : Shape)
  | unsupported (codec : CodecKind)
  | arity (expected got : Nat)
  | document (fault : Json.Fault)
  deriving DecidableEq, Repr

def Cause.message : Cause → String
  | unparsable literal reason =>
    "cannot parse \"" ++ String.ofList literal ++ "\": " ++ reason.message
  | missingQuotes literal => "\"" ++ String.ofList literal ++ "\" must be enclosed by single quotes"
  | byteLength expected got => s!"the CQL type requires {expected} bytes, but got {got}"
  | inetLength got =>
    s!"the length of read value in bytes ({got}) is not suitable for IP address; expected 4 or 16"
  | truncated fault => "malformed payload: " ++ fault.message
  | trailingBytes remaining => s!"{remaining} unexpected bytes after the value"
  | notAscii => "expected a valid ASCII string"
  | notUtf8 fault => fault.message
  | overflow => "value is out of representable range"
  | tooBig size => s!"value of {size} bytes does not fit in its length prefix"
  | incompatible expected => "expected a value of kind " ++ expected.name
  | unsupported codec => codec.name ++ " cannot handle this type"
  | arity expected got => s!"expected {expected} components, but got {got}"
  | document fault => "document codec failed: " ++ fault.message

structure Fault where
  type : ColumnType
  cause : Cause
  deriving DecidableEq, Repr

def Fault.message (f : Fault) : String :=
  "Failed to handle a value of CQL type " ++ String.ofList f.type.display ++ ": " ++ f.cause.message

end Cql
