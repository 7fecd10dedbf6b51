import Cql.Text.Scanner
import Cql.Text.Utf8

/-!
Texts in bytes. A place in a text is the number of bytes in front of it. Not every number is a place: a
text cannot be taken apart inside a character, or behind its end.
-/

namespace Cql.Slice

/-- The parts in front of a place and behind it. -/
def splitAt? : Nat → Text → Option (Text × Text)
  | 0, t => some ([], t)
  | _ + 1, [] => none
  | n + 1, c :: t =>
    if n + 1 < c.utf8Size then none
    else (splitAt? (n + 1 - c.utf8Size) t).map fun (front, back) => (c :: front, back)

/-- The place in front of the first character that a test refuses. The test may go by what it has passed
so far. -/
def passed {σ : Type} (test : σ → Char → Option σ) (state : σ) : Text → Nat
  | [] => 0
  | c :: t =>
    match test state c with
    | some state => c.utf8Size + passed test state t
    | none => 0

/-- The characters up to the first one that fails the test, and the rest. -/
def span? (test : Char → Bool) (t : Text) : Option (Text × Text) :=
  splitAt? (passed (fun () c => if test c then some () else none) () t) t

def trimStart? (t : Text) : Option Text := (span? Text.isBlank t).map (·.2)

/-- What was read between a state and a later one. -/
def consumed? (start rest : Text) : Option Text :=
  (splitAt? (Text.byteSize start - Text.byteSize rest) start).map (·.1)

/-- The place of the double quote that ends a quoted name, in bytes that start at a place. -/
def endingQuote? (place : Nat) : Bytes → Option Nat
  | [] => none
  | b :: rest =>
    if b = 0x22 then
      match rest with
      | [] => some place
      | next :: rest => if next = 0x22 then endingQuote? (place + 2) rest else some place
    else endingQuote? (place + 1) rest

end Cql.Slice
