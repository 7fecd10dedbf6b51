import Cql.Schema.Column

/-!
User types as they are stored: the names of the fields, and their types as texts.
-/

namespace Cql

structure TypeRow where
  name : String
  fieldNames : List String
  fieldTypes : List Text
  deriving DecidableEq, Repr

/-- A user type whose field types are read but not resolved. -/
structure TypeDraft where
  name : String
  fields : List (String × TypeName)

/-- Reads the field types of a row. A limit on the nesting of parameters goes for each of them. -/
def TypeRow.draft (limit : Nat) (row : TypeRow) : Except SchemaFault TypeDraft :=
  if row.fieldNames.length ≠ row.fieldTypes.length then
    .error (.fieldCount row.name row.fieldNames.length row.fieldTypes.length)
  else do
    let types ← row.fieldTypes.mapM fun t => (TypeName.read limit t).mapError .type
    .ok ⟨row.name, row.fieldNames.zip types⟩

namespace TypeDraft

/-- The user types that the fields mention, in the order of their appearance. -/
def references (d : TypeDraft) : List String := d.fields.flatMap fun (_, type) => type.references

/-- The definition in a keyspace. -/
def define (d : TypeDraft) (scope : TypeScope) (keyspace : String) : UserType :=
  ⟨keyspace, d.name, d.fields.map fun (name, type) => (name, (type.resolve scope keyspace false).type)⟩

end TypeDraft

end Cql
