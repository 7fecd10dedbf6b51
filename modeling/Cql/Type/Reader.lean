import Cql.Type.Fragment
import Cql.Type.Name

/-!
Reading names of types. The parameters of a type are first cut out as they stand, and each is then read
for itself, one level deeper. Blanks around names, brackets and commas do not matter.
-/

namespace Cql.TypeName

/-- The parameter of a type that takes one. The name of the type starts at `start` and ends before
`t`. -/
def oneParameter (f : Fragment) (keyword : TypeKeyword) (start t : Text) :
    Except Stop (Fragment × Text) := do
  match ← parameters f t with
  | ([p], rest) => .ok (p, rest)
  | (ps, _) => .error ⟨f.position start, .parameterCount keyword 1 ps.length⟩

/-- The parameters of a type that takes two. -/
def twoParameters (f : Fragment) (keyword : TypeKeyword) (start t : Text) :
    Except Stop (Fragment × Fragment × Text) := do
  match ← parameters f t with
  | ([p, q], rest) => .ok (p, q, rest)
  | (ps, _) => .error ⟨f.position start, .parameterCount keyword 2 ps.length⟩

/-- What a keyword makes of the parameters behind it, and the text behind those. -/
def readKeyword (parameter : Fragment → Except Stop TypeName) (f : Fragment)
    (keyword : TypeKeyword) (start t : Text) : Except Stop (TypeName × Text) :=
  match keyword with
  | .native type => .ok (.native type, t)
  | .empty => .ok (.empty, t)
  | .list => do
    let (element, t) ← oneParameter f .list start t
    .ok (.list (← parameter element), t)
  | .set => do
    let (element, t) ← oneParameter f .set start t
    .ok (.set (← parameter element), t)
  | .map => do
    let (key, value, t) ← twoParameters f .map start t
    let key ← parameter key
    let value ← parameter value
    .ok (.map key value, t)
  | .frozen => do
    let (inner, t) ← oneParameter f .frozen start t
    .ok (.frozen (← parameter inner), t)
  | .tuple => do
    let (elements, t) ← parameters f t
    .ok (.tuple (← elements.mapM parameter), t)

/-- Reads a whole fragment; `parameter` reads the parameters inside it. -/
def readWith (parameter : Fragment → Except Stop TypeName) (f : Fragment) :
    Except Stop TypeName := do
  let start := Text.trimStart f.text
  let (head, t) ← readHead f start
  let (type, t) ← match head with
    | .quoted name => .ok (.user (String.ofList name), t)
    | .bare name => match TypeKeyword.ofName? name with
      | some keyword => readKeyword parameter f keyword start t
      | none => .ok (.user (String.ofList name), t)
  match Text.trimStart t with
  | [] => .ok type
  | c :: rest => .error ⟨f.position (c :: rest), .unexpected c .endOfType⟩

/-- Reads a fragment in which parameters may be nested `levels` deep; `limit` is how deep they may be
nested in the whole input. -/
def readLevel (limit : Nat) : Nat → Fragment → Except Stop TypeName
  | 0 => readWith fun p => .error ⟨p.offset + 1, .tooDeep limit⟩
  | levels + 1 => readWith (readLevel limit levels)

/-- How deep parameters may be nested where nothing else is said. -/
def standardLimit : Nat := 64

/-- Reads the name of a type in which parameters are nested at most `limit` deep. -/
def read (limit : Nat) (input : Text) : Except Fault TypeName :=
  match readLevel limit limit ⟨input, 0⟩ with
  | .ok type => .ok type
  | .error stop => .error ⟨input, stop.position, stop.flaw⟩

end Cql.TypeName
