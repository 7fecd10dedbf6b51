import Cql.Text.Escaped
import Cql.Type.Keyword

/-!
How a text can fail to be the name of a type, and how that is told.
-/

namespace Cql.TypeName

/-- What must stand where another character was found. -/
inductive Expectation where
  | opening | endOfType
  deriving DecidableEq, Repr

def Expectation.name : Expectation → String
  | .opening => "'<'"
  | .endOfType => "end of type"

/-- How a text departs from the grammar of types. -/
inductive Flaw where
  | parameterCount (keyword : TypeKeyword) (expected got : Nat)
  | unexpected (found : Char) (expected : Expectation)
  | endOfInput
  /-- Brackets of a parameter that are never closed. -/
  | openBrackets
  | missingName
  | tooDeep (limit : Nat)
  deriving DecidableEq, Repr

/-- A flaw of a text and its place, counted in characters from one. -/
structure Fault where
  input : Text
  position : Nat
  flaw : Flaw
  deriving DecidableEq, Repr

def Fault.message (f : Fault) : String :=
  "Type " ++ Escaped.text f.input ++ ": " ++
    match f.flaw with
    | .parameterCount keyword expected got =>
      s!"{keyword.name} expects {expected} parameter(s), got {got} (at char {f.position})"
    | .unexpected found expected =>
      "unexpected character " ++ Escaped.char found
        ++ s!" at char {f.position}, expected {expected.name}"
    | .endOfInput => s!"unexpected end of input at char {f.position}"
    | .openBrackets => s!"non closed angle brackets starting at char {f.position}"
    | .missingName => s!"missing type name at char {f.position}"
    | .tooDeep limit => s!"nesting deeper than {limit} levels at char {f.position}"

end Cql.TypeName
