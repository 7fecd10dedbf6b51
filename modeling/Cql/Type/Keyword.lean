import Cql.Type.Basic

/-!
The words with a fixed meaning in names of types.
-/

namespace Cql

inductive TypeKeyword where
  | native (type : NativeType)
  | list | set | map | frozen | tuple
  /-- The word for the legacy type without values. -/
  | empty
  deriving DecidableEq, Repr

namespace TypeKeyword

def name : TypeKeyword → String
  | native t => t.name
  | list => "list"
  | set => "set"
  | map => "map"
  | frozen => "frozen"
  | tuple => "tuple"
  | empty => emptyTypeName

/-- The words that are no simple types. -/
def structural : List TypeKeyword := [list, set, map, frozen, tuple, empty]

/-- Keywords are read in any case. -/
def ofName? (name : Text) : Option TypeKeyword :=
  match NativeType.ofName? name with
  | some t => some (native t)
  | none => structural.find? fun k => Text.sameWord k.name.toList name

end TypeKeyword

end Cql
