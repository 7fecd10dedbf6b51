/-!
What can be wrong with a document, and where it was noticed.
-/

namespace Cql.Json

inductive Flaw where
  | endInList | endInObject | endInString | endInValue
  | expectedColon | expectedListEnd | expectedObjectEnd | expectedWord | expectedValue
  | invalidEscape | invalidNumber | numberOutOfRange | invalidCodePoint | controlCharacter
  | keyNotString | loneSurrogate | missingSurrogate | trailingComma | trailingCharacters | tooDeep
  deriving DecidableEq, Repr

def Flaw.message : Flaw → String
  | .endInList => "EOF while parsing a list"
  | .endInObject => "EOF while parsing an object"
  | .endInString => "EOF while parsing a string"
  | .endInValue => "EOF while parsing a value"
  | .expectedColon => "expected " ++ String.ofList ['\x60', ':', '\x60']
  | .expectedListEnd =>
    "expected " ++ String.ofList ['\x60', ',', '\x60', ' ', 'o', 'r', ' ', '\x60', ']', '\x60']
  | .expectedObjectEnd =>
    "expected " ++ String.ofList ['\x60', ',', '\x60', ' ', 'o', 'r', ' ', '\x60', '\x7d', '\x60']
  | .expectedWord => "expected ident"
  | .expectedValue => "expected value"
  | .invalidEscape => "invalid escape"
  | .invalidNumber => "invalid number"
  | .numberOutOfRange => "number out of range"
  | .invalidCodePoint => "invalid unicode code point"
  | .controlCharacter => "control character (\\u0000-\\u001F) found while parsing a string"
  | .keyNotString => "key must be a string"
  | .loneSurrogate => "lone leading surrogate in hex escape"
  | .missingSurrogate => "unexpected end of hex escape"
  | .trailingComma => "trailing comma"
  | .trailingCharacters => "trailing characters"
  | .tooDeep => "recursion limit exceeded"

/-- Lines count from one; the column is the number of bytes before the place on its line. -/
structure Fault where
  flaw : Flaw
  line : Nat
  column : Nat
  deriving DecidableEq, Repr

def Fault.message (f : Fault) : String :=
  s!"{f.flaw.message} at line {f.line} column {f.column}"

end Cql.Json
