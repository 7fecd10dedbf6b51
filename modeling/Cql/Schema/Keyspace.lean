import Cql.Schema.View

/-!
Keyspaces: user types, tables and views by name.
-/

namespace Cql

structure Keyspace where
  name : String
  types : Dictionary UserType
  tables : Dictionary Table
  views : Dictionary View
  deriving DecidableEq

namespace Keyspace

def empty (name : String) : Keyspace := ⟨name, .empty, .empty, .empty⟩

/-- The columns of the table of a name, or else of the view of that name. -/
def columns? (k : Keyspace) (name : String) : Option Columns :=
  ((k.tables.get? name).map (·.columns)).or ((k.views.get? name).map (·.columns))

/-- The views that are made from a table, by name. -/
def viewsOf (k : Keyspace) (table : String) : List View := k.views.values.filter (·.base == table)

end Keyspace

end Cql
