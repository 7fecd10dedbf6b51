/-!
Text as a list of characters, with the two notions every reader of literals shares: which characters
are blank, and when two words are the same up to the case of ASCII letters.
-/

namespace Cql

/-- Literals, identifiers and type names are read and written character by character. -/
abbrev Text := List Char

namespace Text

/-- Code points of the `White_Space` property, as closed ranges in increasing order. -/
def blankRanges : List (Nat × Nat) :=
  [(0x09, 0x0D), (0x20, 0x20), (0x85, 0x85), (0xA0, 0xA0), (0x1680, 0x1680), (0x2000, 0x200A),
   (0x2028, 0x2029), (0x202F, 0x202F), (0x205F, 0x205F), (0x3000, 0x3000)]

/-- A character of the `White_Space` property. -/
def isBlank (c : Char) : Bool :=
  blankRanges.any fun (first, last) => first ≤ c.toNat && c.toNat ≤ last

def trimStart (t : Text) : Text := t.dropWhile isBlank

def trimEnd (t : Text) : Text := (t.reverse.dropWhile isBlank).reverse

/-- Drops the blanks at both ends. -/
def trim (t : Text) : Text := trimEnd (trimStart t)

/-- The characters up to the first one that fails the test, and the rest. -/
def spanWhile (p : Char → Bool) (t : Text) : Text × Text := (t.takeWhile p, t.dropWhile p)

/-- ASCII letters in lower case, every other character unchanged. -/
def lower (t : Text) : Text := t.map Char.toLower

/-- Equality up to the case of ASCII letters. -/
def sameWord (s t : Text) : Bool := lower s == lower t

/-- Number of bytes of the text in UTF-8. -/
def byteSize (t : Text) : Nat := t.foldl (fun n c => n + c.utf8Size) 0

def isAscii (t : Text) : Bool := t.all fun c => c.toNat < 128

/-- Joins the parts with a separator between neighbours. -/
def join (separator : Text) : List Text → Text
  | [] => []
  | [t] => t
  | t :: ts => t ++ separator ++ join separator ts

theorem trimStart_trimStart (t : Text) : trimStart (trimStart t) = trimStart t := by
  unfold trimStart
  induction t with
  | nil => rfl
  | cons c t ih =>
    cases h : isBlank c with
    | true => simpa [h] using ih
    | false => simp [h]

theorem length_trimStart_le (t : Text) : (trimStart t).length ≤ t.length := by
  rw [trimStart]
  exact (List.dropWhile_suffix isBlank).length_le

end Text

end Cql
