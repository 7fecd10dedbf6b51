import Cql.Schema.Column
import Cql.Schema.Options
import Cql.Uuid

/-!
Tables, put together from a row and the rows of their columns.
-/

namespace Cql

/-- A table as it is stored. -/
structure TableRow where
  keyspace : String
  name : String
  id : Option Uuid
  options : List (String × String)
  deriving DecidableEq, Repr

structure Table where
  keyspace : String
  name : String
  id : Option Uuid
  columns : Columns
  /-- Absent if one of them could not be read. -/
  options : Option TableOptions
  deriving DecidableEq, Repr

/-- Types are those of the keyspace that the row names. -/
def Table.ofRow (limit : Nat) (scope : TypeScope) (row : TableRow) (columns : List ColumnRow) :
    Except SchemaFault Table := do
  let columns ← Columns.ofRows limit scope row.keyspace columns
  .ok ⟨row.keyspace, row.name, row.id, columns, (TableOptions.read row.options).toOption⟩

/-- What names are resolved against where tables are looked up as well. -/
structure Scope extends TypeScope where
  table? : (keyspace name : String) → Option Table

namespace Scope

/-- A scope without tables. -/
def ofTypes (types : TypeScope) : Scope := ⟨types, fun _ _ => none⟩

end Scope

end Cql
