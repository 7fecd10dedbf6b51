import Cql.Schema.Builder
import Cql.Type.Pass

/-!
Adding user types to a builder in place. The rows are read twice: once for the names that they mention,
by which they are sorted, and then once more, one after the other, each with what the builder holds by
then. A row that fails the second time would leave the definitions of those before it behind.
-/

namespace Cql

/-- A draft that says no more than which names are mentioned. -/
def TypeDraft.mentioning (name : String) (names : List String) : TypeDraft :=
  ⟨name, names.map fun mentioned => (mentioned, .user mentioned)⟩

/-- What a row is sorted by. -/
def TypeRow.outline (limit : Nat) (row : TypeRow) : Except SchemaFault TypeDraft :=
  if row.fieldNames.length ≠ row.fieldTypes.length then
    .error (.fieldCount row.name row.fieldNames.length row.fieldTypes.length)
  else do
    let mentioned ← row.fieldTypes.mapM fun t => (TypePass.collect limit t).mapError .type
    .ok (.mentioning row.name mentioned.flatten)

/-- The fields of a row, each with its type as far as the scope knows it. -/
def TypeRow.fields (limit : Nat) (scope : TypeScope) (keyspace : String) (row : TypeRow) :
    Except SchemaFault (List (String × ColumnType)) :=
  (row.fieldNames.zip row.fieldTypes).mapM fun (name, t) => do
    let resolved ← (TypePass.parse limit scope keyspace false t).mapError .type
    .ok (name, resolved.type)

namespace Builder

/-- Work on a builder, which stays as it is by then where the work fails. -/
abbrev Work (α : Type) := ExceptT SchemaFault (StateM Builder) α

namespace Work

variable {α : Type}

def of (x : Except SchemaFault α) : Work α := ExceptT.mk (pure x)

/-- What the work answers, and the builder afterwards. -/
def on (work : Work α) (b : Builder) : Except SchemaFault α × Builder := (ExceptT.run work).run b

end Work

/-- Reads the fields of a row with what the builder holds, and puts in the definition. -/
def insertRow (fallback : Option Scope) (row : TypeRow) : Work Unit := do
  let b ← get
  let fields ← Work.of (row.fields b.limit (b.scope fallback).toTypeScope b.keyspace.name)
  let type : UserType := ⟨b.keyspace.name, row.name, fields⟩
  set { b with keyspace := { b.keyspace with types := b.keyspace.types.insert row.name type } }

def insertRows (fallback : Option Scope) : List TypeRow → Work Unit
  | [] => pure ()
  | row :: rows => do
    insertRow fallback row
    insertRows fallback rows

def lastRow? (rows : List TypeRow) (name : String) : Option TypeRow :=
  rows.reverse.find? (·.name == name)

/-- Adds user types one after the other. `arrange` is the order in which they are handed to the
sorting. -/
def addTypesInPlace (arrange : List TypeDraft → List TypeDraft) (fallback : Option Scope)
    (rows : List TypeRow) : Work Unit := do
  let b ← get
  let outlines ← Work.of (rows.mapM (TypeRow.outline b.limit))
  let sorted ← Work.of (DependencyOrder.order (arrange (DependencyOrder.latest outlines)))
  insertRows fallback (sorted.filterMap fun d => lastRow? rows d.name)

end Builder

end Cql
