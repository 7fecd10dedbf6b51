import Cql.Text.Hex
import Cql.Text.Printable

/-!
Text as error messages show it: between quotes, with a backslash before what would end the quotes and
a code point in braces for every character that cannot be shown.
-/

namespace Cql.Escaped

/-- One character between quotes of the kind `mark`. -/
def escapeChar (mark : Char) (c : Char) : Text :=
  if c = '\x00' then ['\\', '0']
  else if c = '\t' then ['\\', 't']
  else if c = '\r' then ['\\', 'r']
  else if c = '\n' then ['\\', 'n']
  else if c = mark || c = '\\' then ['\\', c]
  else if Text.isPrintable c then [c]
  else ['\\', 'u', '\x7b'] ++ Hex.ofNat c.toNat ++ ['\x7d']

/-- A text between double quotes. -/
def text (t : Text) : String := String.ofList ('"' :: t.flatMap (escapeChar '"') ++ ['"'])

/-- A character between single quotes. -/
def char (c : Char) : String := String.ofList ('\x27' :: escapeChar '\x27' c ++ ['\x27'])

end Cql.Escaped
