import Cql.Text.Escaped
import Cql.Text.Identifier

/-!
Scanning from the left. A scanner takes the text that is still to be read and answers what remains
after it, which is always an end of what it was given; a failed scanner answers where it stood.
-/

namespace Cql.Scanner

inductive Cause where
  | expected (part : Text)
  | expectedValue
  | unterminatedValue
  | expectedIdentifier
  | unterminatedIdentifier
  deriving DecidableEq, Repr

def Cause.message : Cause → String
  | .expected part => "expected " ++ Escaped.text part
  | .expectedValue => "expected a CQL value"
  | .unterminatedValue => "unterminated CQL value"
  | .expectedIdentifier => "expected an identifier"
  | .unterminatedIdentifier => "unterminated quoted identifier"

/-- A failure, with the text that remained where it happened. -/
structure Fault where
  remaining : Text
  cause : Cause
  deriving DecidableEq, Repr

/-- Skips a fixed part. -/
def accept (part : Text) (s : Text) : Except Fault Text :=
  if part.isPrefixOf s then .ok (s.drop part.length) else .error ⟨s, .expected part⟩

def skipBlanks (s : Text) : Text := Text.trimStart s

/-- What was read between a state and a later one. -/
def consumed (start rest : Text) : Text := start.take (start.length - rest.length)

/-- Brackets of each kind that are open. -/
structure Depth where
  curly : Nat
  square : Nat
  round : Nat
  deriving DecidableEq, Repr

namespace Depth

def none : Depth := ⟨0, 0, 0⟩

def isNone (d : Depth) : Bool := d.curly == 0 && d.square == 0 && d.round == 0

/-- The depth after an opening bracket; other characters open nothing. -/
def open? (d : Depth) (c : Char) : Option Depth :=
  if c = '\x7b' then some { d with curly := d.curly + 1 }
  else if c = '[' then some { d with square := d.square + 1 }
  else if c = '(' then some { d with round := d.round + 1 }
  else Option.none

/-- Number of open brackets that the character closes one of; other characters close nothing. -/
def closes? (d : Depth) (c : Char) : Option Nat :=
  if c = '\x7d' then some d.curly
  else if c = ']' then some d.square
  else if c = ')' then some d.round
  else Option.none

def close (d : Depth) (c : Char) : Depth :=
  if c = '\x7d' then { d with curly := d.curly - 1 }
  else if c = ']' then { d with square := d.square - 1 }
  else { d with round := d.round - 1 }

end Depth

/-- The text after a value. Inside a string only its end counts, and a doubled quote does not end it;
outside, a value ends with the string or the bracket that leaves nothing open, before a closing
bracket that nothing opened, and before the first other character that cannot be part of a name or a
number while nothing is open. -/
def afterValue (d : Depth) (inString : Bool) : Text → Option Text
  | [] => if inString || !d.isNone then none else some []
  | c :: rest =>
    if inString then
      if c = '\x27' then
        match rest with
        | [] => if d.isNone then some [] else none
        | next :: rest =>
          if next = '\x27' then afterValue d true rest
          else if d.isNone then some (next :: rest)
          else afterValue d false (next :: rest)
      else afterValue d true rest
    else if c = '\x27' then afterValue d true rest
    else
      match d.open? c with
      | some d => afterValue d false rest
      | none =>
        match d.closes? c with
        | some 0 => some (c :: rest)
        | some (_ + 1) => if (d.close c).isNone then some rest else afterValue (d.close c) false rest
        | none =>
          if d.isNone && !Identifier.isNameChar c then some (c :: rest) else afterValue d false rest

theorem length_afterValue_le {d : Depth} {inString : Bool} {s rest : Text}
    (h : afterValue d inString s = some rest) : rest.length ≤ s.length := by
  fun_induction afterValue d inString s <;> grind

/-- Skips a string, a bracketed literal or a run of name characters, and answers it with the rest. -/
def skipValue (s : Text) : Except Fault (Text × Text) :=
  match s with
  | [] => .error ⟨s, .expectedValue⟩
  | c :: _ =>
    if Text.isBlank c then .error ⟨s, .expectedValue⟩
    else
      match afterValue .none false s with
      | none => .error ⟨s, .unterminatedValue⟩
      | some rest =>
        if rest.length = s.length then .error ⟨s, .expectedValue⟩ else .ok (consumed s rest, rest)

theorem skipValue_length_lt {s value rest : Text} (h : skipValue s = .ok (value, rest)) :
    rest.length < s.length := by
  unfold skipValue at h
  split at h
  · simp at h
  · split at h
    · simp at h
    · split at h
      · simp at h
      · rename_i hv
        split at h
        · simp at h
        · simp only [Except.ok.injEq, Prod.mk.injEq] at h
          obtain ⟨_, rfl⟩ := h
          have := length_afterValue_le hv
          omega

/-- The text after the double quote that ends a quoted name. -/
def afterQuotedName : Text → Option Text
  | [] => none
  | '"' :: '"' :: rest => afterQuotedName rest
  | '"' :: rest => some rest
  | _ :: rest => afterQuotedName rest

/-- Skips a name, bare or between double quotes, and answers it as written with the rest. -/
def skipIdentifier (s : Text) : Except Fault (Text × Text) :=
  match s with
  | '"' :: inner =>
    match afterQuotedName inner with
    | some rest => .ok (consumed s rest, rest)
    | none => .error ⟨inner, .unterminatedIdentifier⟩
  | _ =>
    let (name, rest) := Text.spanWhile Identifier.isNameChar s
    if name.isEmpty then .error ⟨s, .expectedIdentifier⟩ else .ok (name, rest)

theorem length_afterQuotedName_lt {s rest : Text} (h : afterQuotedName s = some rest) :
    rest.length < s.length := by
  fun_induction afterQuotedName s <;> grind

theorem skipIdentifier_length_lt {s name rest : Text} (h : skipIdentifier s = .ok (name, rest)) :
    rest.length < s.length := by
  unfold skipIdentifier at h
  split at h
  · split at h
    · rename_i hq
      simp only [Except.ok.injEq, Prod.mk.injEq] at h
      obtain ⟨_, rfl⟩ := h
      have := length_afterQuotedName_lt hq
      simp only [List.length_cons]
      omega
    · simp at h
  · have hs := congrArg List.length
      (List.takeWhile_append_dropWhile (p := Identifier.isNameChar) (l := s))
    rw [List.length_append] at hs
    cases hname : s.takeWhile Identifier.isNameChar with
    | nil => simp [Text.spanWhile, hname] at h
    | cons c cs =>
      simp only [Text.spanWhile, hname, List.isEmpty_cons, Bool.false_eq_true, ↓reduceIte,
        Except.ok.injEq, Prod.mk.injEq] at h
      obtain ⟨_, rfl⟩ := h
      rw [hname, List.length_cons] at hs
      omega

/-- The position of the place from which `bytes` bytes of the text remain, counted in characters from
one; absent where no character starts there. -/
def positionOf (text : Text) (bytes : Nat) : Option Nat :=
  let size := Text.byteSize text
  if size < bytes then none
  else
    let rec go (position skip : Nat) : Text → Option Nat
      | [] => if skip = 0 then some position else none
      | c :: rest =>
        if skip = 0 then some position
        else if skip < c.utf8Size then none
        else go (position + 1) (skip - c.utf8Size) rest
    go 1 (size - bytes) text

/-- The position at which a given rest of the text starts. -/
def position (text rest : Text) : Option Nat := positionOf text (Text.byteSize rest)

end Cql.Scanner
