import Cql.Fault
import Cql.Type.Fault

/-!
Why descriptions of keyspaces, tables and views could not be put together from their rows.
-/

namespace Cql

inductive SchemaFault where
  /-- A text that is not the name of a type. -/
  | type (fault : TypeName.Fault)
  /-- A column of the partition key does not have the position of its place. -/
  | incompletePartitionKey (position : Nat)
  | incompleteClusteringKey (position : Nat)
  /-- User types that contain one another. -/
  | circularTypes
  | fieldCount (type : String) (names types : Nat)
  | unknownKind (column kind : String)
  deriving DecidableEq, Repr

def SchemaFault.message : SchemaFault → String
  | type fault => fault.message
  | incompletePartitionKey position =>
    s!"Partition key column with position {position} is missing from metadata"
  | incompleteClusteringKey position =>
    s!"Clustering key column with position {position} is missing from metadata"
  | circularTypes => "Detected circular dependency between user defined types"
  | fieldCount name names types =>
    s!"User defined type {name} has {names} field names but {types} field types"
  | unknownKind column kind =>
    "Unknown column kind " ++ Escaped.text kind.toList ++ " of column " ++ column

/-- An option of a table whose literal could not be read. -/
structure OptionFault where
  option : String
  fault : Fault
  deriving DecidableEq, Repr

def OptionFault.message (f : OptionFault) : String :=
  "Invalid value of table option " ++ f.option ++ ": " ++ f.fault.message

end Cql
