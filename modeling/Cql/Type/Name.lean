import Cql.Type.Keyword

/-!
Names of types as they are written, before anything is known about the user defined types they
mention. Resolving a name gives a type for every name: user types that nobody knows become
placeholders, and are told of.
-/

namespace Cql

inductive TypeName where
  | native (type : NativeType)
  | empty
  | list (element : TypeName)
  | set (element : TypeName)
  | map (key value : TypeName)
  | frozen (inner : TypeName)
  | tuple (elements : List TypeName)
  | user (name : String)
  deriving Repr, Inhabited

/-- What names of types are resolved against: the user types of each keyspace, and how tuples are
put together. -/
structure TypeScope where
  userType? : (keyspace name : String) → Option UserType
  makeTuple : List ColumnType → ColumnType

namespace TypeScope

/-- The scope without user types. -/
def none : TypeScope := ⟨fun _ _ => .none, .tuple⟩

/-- The scope without user types that puts tuples together in reverse. -/
def reversing : TypeScope := ⟨fun _ _ => .none, fun elements => .tuple elements.reverse⟩

/-- The scope of some user types, of which the first with a keyspace and a name counts. -/
def ofUserTypes (types : List UserType) : TypeScope :=
  ⟨fun keyspace name => types.find? fun t => t.keyspace == keyspace && t.name == name, .tuple⟩

end TypeScope

/-- A type, and the user types that were not found, in the order of their appearance. -/
structure ResolvedType where
  type : ColumnType
  missing : List String
  deriving DecidableEq, Repr

def ResolvedType.isComplete (t : ResolvedType) : Bool := t.missing.isEmpty

namespace TypeName

mutual

/-- The user types that a name mentions, in the order of their appearance. -/
def references : TypeName → List String
  | native _ => []
  | empty => []
  | list element => references element
  | set element => references element
  | map key value => references key ++ references value
  | frozen inner => references inner
  | tuple elements => referencesOfAll elements
  | user name => [name]

def referencesOfAll : List TypeName → List String
  | [] => []
  | t :: ts => references t ++ referencesOfAll ts

end

mutual

/-- The type that a name has in a keyspace. `frozen` freezes the collection or user type it reaches
first. -/
def resolve (scope : TypeScope) (keyspace : String) (frozen : Bool) : TypeName → ResolvedType
  | native t => ⟨.native t, []⟩
  | empty => ⟨.empty, []⟩
  | list element =>
    let element := resolve scope keyspace false element
    ⟨.list element.type frozen, element.missing⟩
  | set element =>
    let element := resolve scope keyspace false element
    ⟨.set element.type frozen, element.missing⟩
  | map key value =>
    let key := resolve scope keyspace false key
    let value := resolve scope keyspace false value
    ⟨.map key.type value.type frozen, key.missing ++ value.missing⟩
  | .frozen inner => resolve scope keyspace true inner
  | tuple elements =>
    let (types, missing) := resolveAll scope keyspace elements
    ⟨scope.makeTuple types, missing⟩
  | user name =>
    match scope.userType? keyspace name with
    | some definition => ⟨.userDefined definition frozen, []⟩
    | none => ⟨.custom name, [name]⟩

def resolveAll (scope : TypeScope) (keyspace : String) :
    List TypeName → List ColumnType × List String
  | [] => ([], [])
  | t :: ts =>
    let first := resolve scope keyspace false t
    let (types, missing) := resolveAll scope keyspace ts
    (first.type :: types, first.missing ++ missing)

end

end TypeName

end Cql
