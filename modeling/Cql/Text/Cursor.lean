import Cql.Text.Scanner

/-!
A place in a text, moved forward step by step. What a step takes stands directly behind the place; a
step that fails leaves the place where it is.
-/

namespace Cql

/-- The characters up to the first one that fails a test, and the rest. The test may go by the characters
it has let pass, the last one first. -/
def Text.spanFrom (test : Text → Char → Bool) (passed : Text) : Text → Text × Text
  | [] => ([], [])
  | c :: t =>
    if test passed c then
      let (front, rest) := spanFrom test (c :: passed) t
      (c :: front, rest)
    else ([], c :: t)

/-- A text, and the end of it that is still to be read. -/
structure Cursor where
  whole : Text
  rest : Text
  deriving DecidableEq, Repr

namespace Cursor

inductive Move where
  | accept (part : Text)
  | skipBlanks
  | takeWhile (test : Text → Char → Bool)
  | skipValue
  | skipIdentifier

/-- What a move takes from the front of a text, and what it leaves. -/
def Move.take : Move → Text → Except Scanner.Fault (Text × Text)
  | accept part, t => (Scanner.accept part t).map fun rest => (part, rest)
  | skipBlanks, t => .ok (t.takeWhile Text.isBlank, Scanner.skipBlanks t)
  | takeWhile test, t => .ok (Text.spanFrom test [] t)
  | skipValue, t => Scanner.skipValue t
  | skipIdentifier, t => Scanner.skipIdentifier t

/-- The beginning of a text. -/
def start (t : Text) : Cursor := ⟨t, t⟩

variable (c : Cursor)

def move (m : Move) : Cursor :=
  match m.take c.rest with
  | .ok (_, rest) => { c with rest := rest }
  | .error _ => c

def run (moves : List Move) : Cursor := moves.foldl move c

/-- The text in front of the place. -/
def consumed : Text := Scanner.consumed c.whole c.rest

/-- The place, counted in characters from one. -/
def position : Option Nat := Scanner.position c.whole c.rest

/-- Where a failed move noticed its fault. -/
def faultPosition (f : Scanner.Fault) : Option Nat := Scanner.position c.whole f.remaining

end Cursor

end Cql
