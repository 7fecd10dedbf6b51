import Cql.Text.Slice
import Cql.Type.Pass

/-!
A pass over the bytes of an input. A fragment knows how many bytes of the input stand before it, and
where a rest of it starts follows from how many bytes are left; only a position that is told is counted
in characters. Texts are taken apart at places in bytes, so that there is more that could go wrong than
the text itself.
-/

namespace Cql

/-- A part of the input, and how many bytes of the input stand before it. -/
structure ByteFragment where
  text : Text
  offset : Nat
  deriving DecidableEq, Repr

/-- The place behind the fragment. -/
def ByteFragment.endOffset (f : ByteFragment) : Nat := f.offset + Text.byteSize f.text

structure BytePass extends TypePass where
  input : Text

namespace BytePass

/-- How work on bytes breaks down. -/
inductive Breakdown where
  /-- A text was to be taken apart where it has no place. -/
  | misplaced
  /-- A count was to fall below zero. -/
  | underflow
  /-- A round of a loop took nothing, and would be repeated for ever. -/
  | endless
  deriving DecidableEq, Repr

/-- Why a pass does not come to its end. -/
inductive Halt where
  | stop (stop : TypeName.Stop)
  | broken (breakdown : Breakdown)
  deriving DecidableEq, Repr

open Cql.TypeName (Head Flaw)

variable {α : Type}

/-- A part of a text that is taken out between places. -/
def taken : Option α → Except Halt α
  | some a => .ok a
  | none => .error (.broken .misplaced)

/-- The place in the input where a rest of a fragment starts. -/
def offsetOf (f : ByteFragment) (rest : Text) : Except Halt Nat :=
  if Text.byteSize rest ≤ f.endOffset then .ok (f.endOffset - Text.byteSize rest)
  else .error (.broken .underflow)

/-- The part between two rests of a fragment. -/
def between (f : ByteFragment) (start rest : Text) : Except Halt ByteFragment := do
  let text ← taken (Slice.consumed? start rest)
  let offset ← offsetOf f start
  .ok ⟨text, offset⟩

/-- Passes blanks and one comma, which may have been passed before. -/
def separates (comma : Bool) (c : Char) : Option Bool :=
  if c = ',' ∧ comma = false then some true
  else if Text.isBlank c then some comma
  else none

/-- Skips blanks with at most one comma among them. -/
def skipSeparator (t : Text) : Except Halt Text := do
  let (_, rest) ← taken (Slice.splitAt? (Slice.passed separates false t) t)
  .ok rest

/-- The place behind the bracket that closes the first one. The text starts at a place, where `depth`
brackets are open. -/
def closingBracket (place depth : Nat) : Text → Except Halt (Option Nat)
  | [] => .ok none
  | c :: rest =>
    if c = '<' then closingBracket (place + c.utf8Size) (depth + 1) rest
    else if c = '>' then
      match depth with
      | 0 => .error (.broken .underflow)
      | depth + 1 =>
        if depth = 0 then .ok (some (place + 1)) else closingBracket (place + c.utf8Size) depth rest
    else closingBracket (place + c.utf8Size) depth rest

variable (p : BytePass)

/-- The position of a place of the input, counted in characters from one. -/
def positionAt (offset : Nat) : Nat :=
  match Slice.splitAt? offset p.input with
  | some (before, _) => before.length + 1
  | none => offset + 1

/-- Stops at a flaw where a rest of a fragment starts. -/
def flawAt (f : ByteFragment) (rest : Text) (flaw : Flaw) : Except Halt α := do
  let offset ← offsetOf f rest
  .error (.stop ⟨p.positionAt offset, flaw⟩)

/-- Stops at a flaw behind a fragment. -/
def flawBehind (f : ByteFragment) (flaw : Flaw) : Except Halt α :=
  .error (.stop ⟨p.positionAt f.endOffset, flaw⟩)

/-! ## Parameters -/

/-- Reads the name at the start of `t`, a rest of the fragment. -/
def readHead (f : ByteFragment) (t : Text) : Except Halt (Head × Text) :=
  match t with
  | '"' :: inner =>
    match Slice.endingQuote? 0 (Utf8.encode inner) with
    | none => p.flawBehind f .endOfInput
    | some place => do
      let (written, rest) ← taken (Slice.splitAt? (place + 2) t)
      let (front, _) ← taken (Slice.splitAt? (Text.byteSize written - 1) written)
      let (_, doubled) ← taken (Slice.splitAt? 1 front)
      let name := Identifier.undouble doubled
      if name.isEmpty then p.flawAt f t .missingName else .ok (.quoted name, rest)
  | _ => do
    let (name, rest) ← taken (Slice.span? Identifier.isNameChar t)
    if name.isEmpty then p.flawAt f t .missingName else .ok (.bare name, rest)

/-- Skips the name of a parameter. A name that is missing is told of when the parameter is read. -/
def skipHead (f : ByteFragment) (t : Text) : Except Halt Text :=
  match p.readHead f t with
  | .ok (_, rest) => .ok rest
  | .error (.stop stop) => if stop.flaw = .missingName then .ok t else .error (.stop stop)
  | .error halt => .error halt

/-- Skips the arguments of a parameter, brackets and all, if it has any. -/
def skipArguments (f : ByteFragment) (t : Text) : Except Halt Text := do
  let t ← taken (Slice.trimStart? t)
  match t with
  | [] => .ok []
  | c :: _ =>
    if c = '<' then
      match ← closingBracket 0 0 t with
      | some place => do
        let (_, rest) ← taken (Slice.splitAt? place t)
        .ok rest
      | none => p.flawAt f t .openBrackets
    else if c = '>' ∨ c = ',' then .ok t
    else p.flawAt f t (.unexpected c .opening)

/-- Cuts out parameters up to the closing bracket, and answers the text behind it. -/
def parametersFrom (f : ByteFragment) (t : Text) : Except Halt (List ByteFragment × Text) := do
  match ← skipSeparator t with
  | [] => p.flawBehind f .endOfInput
  | c :: next =>
    if c = '>' then .ok ([], next)
    else
      let after ← p.skipHead f (c :: next)
      let rest ← p.skipArguments f after
      let parameter ← between f (c :: next) rest
      if rest.length < t.length then
        let (parameters, behind) ← parametersFrom f rest
        .ok (parameter :: parameters, behind)
      else .error (.broken .endless)
termination_by t.length

/-- The parameters of a type whose name ends before `t`, and the text behind them. -/
def parameters (f : ByteFragment) (t : Text) : Except Halt (List ByteFragment × Text) := do
  match ← skipSeparator t with
  | [] => .ok ([], [])
  | c :: rest =>
    if c = '<' then p.parametersFrom f rest else p.flawAt f (c :: rest) (.unexpected c .opening)

/-- The parameter of a type that takes one. The name of the type starts at `start` and ends before
`t`. -/
def oneParameter (f : ByteFragment) (keyword : TypeKeyword) (start t : Text) :
    Except Halt (ByteFragment × Text) := do
  match ← p.parameters f t with
  | ([q], rest) => .ok (q, rest)
  | (qs, _) => p.flawAt f start (.parameterCount keyword 1 qs.length)

/-- The parameters of a type that takes two. -/
def twoParameters (f : ByteFragment) (keyword : TypeKeyword) (start t : Text) :
    Except Halt (ByteFragment × ByteFragment × Text) := do
  match ← p.parameters f t with
  | ([q, r], rest) => .ok (q, r, rest)
  | (qs, _) => p.flawAt f start (.parameterCount keyword 2 qs.length)

/-! ## Types -/

/-- Work of a pass over bytes. -/
abbrev Work (α : Type) := StateT (List String) (Except Halt) α

/-- Work that has nothing to do with bytes. -/
def ofPass (work : TypePass.Work α) : Work α := fun noted => (work.run noted).mapError .stop

/-- The type of a keyword and the parameters behind it, and the text behind those. -/
def keyword (parameter : ByteFragment → Bool → Work ColumnType) (f : ByteFragment)
    (keyword : TypeKeyword) (start t : Text) (frozen : Bool) : Work (ColumnType × Text) :=
  match keyword with
  | .native type => return (.native type, t)
  | .empty => return (.empty, t)
  | .list => do
    let (element, t) ← p.oneParameter f .list start t
    return (.list (← parameter element false) frozen, t)
  | .set => do
    let (element, t) ← p.oneParameter f .set start t
    return (.set (← parameter element false) frozen, t)
  | .map => do
    let (key, value, t) ← p.twoParameters f .map start t
    let key ← parameter key false
    let value ← parameter value false
    return (.map key value frozen, t)
  | .frozen => do
    let (inner, t) ← p.oneParameter f .frozen start t
    return (← parameter inner true, t)
  | .tuple => do
    let (elements, t) ← p.parameters f t
    let elements ← elements.mapM fun element => parameter element false
    return (p.scope.makeTuple elements, t)

/-- The type that starts with a word, and the text behind it. -/
def head (parameter : ByteFragment → Bool → Work ColumnType) (f : ByteFragment) (start : Text)
    (frozen : Bool) : Head → Text → Work (ColumnType × Text)
  | .quoted name, t => do return (← ofPass (p.userType (String.ofList name) frozen), t)
  | .bare name, t =>
    match TypeKeyword.ofName? name with
    | some k => p.keyword parameter f k start t frozen
    | none => do return (← ofPass (p.userType (String.ofList name) frozen), t)

/-- The type of a whole fragment; `parameter` takes the parameters inside it. -/
def whole (parameter : ByteFragment → Bool → Work ColumnType) (f : ByteFragment) (frozen : Bool) :
    Work ColumnType := do
  let start ← taken (Slice.trimStart? f.text)
  let (word, t) ← p.readHead f start
  let (type, t) ← p.head parameter f start frozen word t
  match ← taken (Slice.trimStart? t) with
  | [] => return type
  | c :: rest => p.flawAt f (c :: rest) (.unexpected c .endOfType)

/-- The type of a fragment in which parameters may be nested `levels` deep. -/
def level : Nat → ByteFragment → Bool → Work ColumnType
  | 0 => p.whole fun parameter _ =>
    throw (.stop ⟨p.positionAt parameter.offset, .tooDeep p.limit⟩)
  | levels + 1 => p.whole (level levels)

/-- The answer for the whole input, unless the work breaks down. -/
def run (frozen : Bool) : Except Breakdown (Except TypeName.Fault ResolvedType) :=
  match (p.level p.limit ⟨p.input, 0⟩ frozen).run [] with
  | .ok (type, missing) => .ok (.ok ⟨type, missing⟩)
  | .error (.stop stop) => .ok (.error ⟨p.input, stop.position, stop.flaw⟩)
  | .error (.broken breakdown) => .error breakdown

end BytePass

/-- The type that a text names in a keyspace. -/
def BytePass.parse (limit : Nat) (scope : TypeScope) (keyspace : String) (frozen : Bool)
    (input : Text) : Except Breakdown (Except TypeName.Fault ResolvedType) :=
  BytePass.run { TypePass.resolving limit scope keyspace with input } frozen

end Cql
