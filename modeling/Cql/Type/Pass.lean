import Cql.Type.Reader

/-!
Reading the name of a type and resolving it in one pass: a user type is looked up where its name is
met, and names that are not found are noted down. A pass that only collects names looks nothing up and
notes down all of them.
-/

namespace Cql

structure TypePass where
  scope : TypeScope
  keyspace : String
  /-- Whether names are looked up at all. -/
  resolves : Bool
  /-- How deep parameters may be nested in the input. -/
  limit : Nat

namespace TypePass

/-- Work of a pass, which may stop at a flaw and notes down names as long as it goes on. -/
abbrev Work (α : Type) := StateT (List String) (Except TypeName.Stop) α

def resolving (limit : Nat) (scope : TypeScope) (keyspace : String) : TypePass :=
  ⟨scope, keyspace, true, limit⟩

def collecting (limit : Nat) : TypePass := ⟨.none, "", false, limit⟩

/-- A placeholder for a name, which is noted down. -/
def placeholder (name : String) : Work ColumnType := do
  modify (· ++ [name])
  return .custom name

variable (p : TypePass)

def userType (name : String) (frozen : Bool) : Work ColumnType :=
  if p.resolves then
    match p.scope.userType? p.keyspace name with
    | some definition => return .userDefined definition frozen
    | none => placeholder name
  else placeholder name

/-- The type of a keyword and the parameters behind it, and the text behind those. -/
def keyword (parameter : Fragment → Bool → Work ColumnType) (f : Fragment) (keyword : TypeKeyword)
    (start t : Text) (frozen : Bool) : Work (ColumnType × Text) :=
  match keyword with
  | .native type => return (.native type, t)
  | .empty => return (.empty, t)
  | .list => do
    let (element, t) ← TypeName.oneParameter f .list start t
    return (.list (← parameter element false) frozen, t)
  | .set => do
    let (element, t) ← TypeName.oneParameter f .set start t
    return (.set (← parameter element false) frozen, t)
  | .map => do
    let (key, value, t) ← TypeName.twoParameters f .map start t
    let key ← parameter key false
    let value ← parameter value false
    return (.map key value frozen, t)
  | .frozen => do
    let (inner, t) ← TypeName.oneParameter f .frozen start t
    return (← parameter inner true, t)
  | .tuple => do
    let (elements, t) ← TypeName.parameters f t
    let elements ← elements.mapM fun element => parameter element false
    return (p.scope.makeTuple elements, t)

/-- The type that starts with a word, and the text behind it. -/
def head (parameter : Fragment → Bool → Work ColumnType) (f : Fragment) (start : Text)
    (frozen : Bool) : TypeName.Head → Text → Work (ColumnType × Text)
  | .quoted name, t => do return (← p.userType (String.ofList name) frozen, t)
  | .bare name, t =>
    match TypeKeyword.ofName? name with
    | some k => p.keyword parameter f k start t frozen
    | none => do return (← p.userType (String.ofList name) frozen, t)

/-- The type of a whole fragment; `parameter` takes the parameters inside it. -/
def whole (parameter : Fragment → Bool → Work ColumnType) (f : Fragment) (frozen : Bool) :
    Work ColumnType := do
  let start := Text.trimStart f.text
  let (word, t) ← TypeName.readHead f start
  let (type, t) ← p.head parameter f start frozen word t
  match Text.trimStart t with
  | [] => return type
  | c :: rest => throw ⟨f.position (c :: rest), .unexpected c .endOfType⟩

/-- The type of a fragment in which parameters may be nested `levels` deep. -/
def level : Nat → Fragment → Bool → Work ColumnType
  | 0 => p.whole fun parameter _ => throw ⟨parameter.offset + 1, .tooDeep p.limit⟩
  | levels + 1 => p.whole (level levels)

def run (frozen : Bool) (input : Text) : Except TypeName.Fault ResolvedType :=
  match (p.level p.limit ⟨input, 0⟩ frozen).run [] with
  | .ok (type, missing) => .ok ⟨type, missing⟩
  | .error stop => .error ⟨input, stop.position, stop.flaw⟩

end TypePass

/-- The type that a text names in a keyspace; user types that are not known become placeholders. -/
def TypePass.parse (limit : Nat) (scope : TypeScope) (keyspace : String) (frozen : Bool)
    (input : Text) : Except TypeName.Fault ResolvedType :=
  (resolving limit scope keyspace).run frozen input

/-- The user types that a text mentions, in the order of their appearance. -/
def TypePass.collect (limit : Nat) (input : Text) : Except TypeName.Fault (List String) :=
  ((collecting limit).run false input).map (·.missing)

end Cql
