import Cql.Text.Basic

/-!
String literals: single quotes around the characters, a quote inside written twice.
-/

namespace Cql.Quoted

def double (t : Text) : Text :=
  t.flatMap fun c => if c = '\x27' then [c, c] else [c]

/-- The string literal of a text. -/
def quote (t : Text) : Text := '\x27' :: double t ++ ['\x27']

/-- Reads each pair of quotes as one, from left to right; a quote that stands alone stays. -/
def undouble : Text → Text
  | [] => []
  | '\x27' :: '\x27' :: rest => '\x27' :: undouble rest
  | c :: rest => c :: undouble rest

/-- At least two characters, the first and the last of which are quotes. -/
def isQuoted (t : Text) : Bool :=
  2 ≤ t.length && t.head? == some '\x27' && t.getLast? == some '\x27'

def unquote (t : Text) : Option Text :=
  if isQuoted t then some (undouble (t.drop 1).dropLast) else none

/-- Drops the quotes if there are any. -/
def unquoteIfQuoted (t : Text) : Text := (unquote t).getD t

/-- The empty text and the word `NULL` stand for an absent value. -/
def isNull (t : Text) : Bool := t.isEmpty || Text.sameWord t ['N', 'U', 'L', 'L']

end Cql.Quoted
