import Cql.Schema.Fault
import Cql.Type.Reader

/-!
Columns of tables and views, and the order in which they stand: the columns of the partition key by
position, those of the clustering key by position, and the others by name.
-/

-- powers are those of the core library, whatever else is imported
attribute [local instance (high)] instPowNat

namespace Cql

/-- The part a column has in its table. -/
inductive ColumnKind where
  | regular | static | clustering | partitionKey
  deriving DecidableEq, Repr

namespace ColumnKind

def all : List ColumnKind := [regular, static, clustering, partitionKey]

def name : ColumnKind → String
  | regular => "regular"
  | static => "static"
  | clustering => "clustering"
  | partitionKey => "partition_key"

def ofName? (name : String) : Option ColumnKind := all.find? (·.name == name)

end ColumnKind

/-- The order of the rows in a partition with respect to a column. -/
inductive ClusteringOrder where
  | ascending | descending
  deriving DecidableEq, Repr

namespace ClusteringOrder

/-- Whatever is not `desc`, in any case, is ascending. -/
def read (t : Text) : ClusteringOrder :=
  if Text.sameWord t "desc".toList then descending else ascending

def keyword : ClusteringOrder → String
  | ascending => "ASC"
  | descending => "DESC"

end ClusteringOrder

/-- A column as it is stored, its type not yet read. Columns outside of the keys have no meaningful
position. -/
structure ColumnRow where
  name : String
  kind : ColumnKind
  position : Int
  type : Text
  order : ClusteringOrder
  deriving DecidableEq, Repr

/-- Kinds are written in lower case. -/
def ColumnRow.of? (name kind : String) (position : Int) (type order : Text) :
    Except SchemaFault ColumnRow :=
  match ColumnKind.ofName? kind with
  | some kind => .ok ⟨name, kind, position, type, ClusteringOrder.read order⟩
  | none => .error (.unknownKind name kind)

/-- A column with its type. Only clustering columns have an order. -/
structure Column where
  name : String
  type : ColumnType
  kind : ColumnKind
  order : Option ClusteringOrder
  deriving DecidableEq, Repr

/-- Reads a type of a keyspace; user types that are not known become placeholders. -/
def ColumnType.read (limit : Nat) (scope : TypeScope) (keyspace : String) (t : Text) :
    Except SchemaFault ColumnType :=
  match TypeName.read limit t with
  | .ok name => .ok (name.resolve scope keyspace false).type
  | .error fault => .error (.type fault)

/-- The column of a row, with its position. -/
def Column.ofRow (limit : Nat) (scope : TypeScope) (keyspace : String) (row : ColumnRow) :
    Except SchemaFault (Int × Column) := do
  let type ← ColumnType.read limit scope keyspace row.type
  .ok (row.position, ⟨row.name, type, row.kind, if row.kind = .clustering then some row.order else none⟩)

/-- The columns of a table or view. -/
structure Columns where
  partitionKey : List Column
  clusteringKey : List Column
  others : List Column
  deriving DecidableEq, Repr

namespace Columns

/-- All columns, in the order in which a query for all of them answers them. -/
def all (c : Columns) : List Column := c.partitionKey ++ c.clusteringKey ++ c.others

/-- The first column of a name. -/
def get? (c : Columns) (name : String) : Option Column := c.all.find? (·.name == name)

/-- Positions are numbers of 32 bits. -/
def greatestPosition : Nat := 2 ^ (31 : Nat) - 1

/-- The columns, if their positions are those from `next` on, one after the other; otherwise the first
of these that the column in its place does not have. -/
def consecutive (next : Nat) : List (Int × Column) → Except Nat (List Column)
  | [] => .ok []
  | (position, column) :: rest =>
    if position = next then (consecutive (next + 1) rest).map (column :: ·)
    else .error (min next greatestPosition)

/-- The columns of one kind by position. -/
def byPosition (kind : ColumnKind) (columns : List (Int × Column)) : List (Int × Column) :=
  (columns.filter (·.2.kind == kind)).mergeSort fun a b => a.1 ≤ b.1

/-- The key of the columns of one kind. -/
def key (kind : ColumnKind) (columns : List (Int × Column)) : Except Nat (List Column) :=
  consecutive 0 (byPosition kind columns)

/-- The columns outside of the keys. Those of the type without values are left out. -/
def outside (columns : List Column) : List Column :=
  columns.filter fun c => (c.kind == .regular || c.kind == .static) && !c.type.isEmptyType

/-- Puts columns in the order of their names, those of one name as they stand. -/
def byName (columns : List Column) : List Column := columns.mergeSort fun a b => a.name ≤ b.name

/-- Puts the columns of some rows in order; `sort` goes by the names of those outside of the keys. -/
def ofRowsBy (sort : List Column → List Column) (limit : Nat) (scope : TypeScope) (keyspace : String)
    (rows : List ColumnRow) : Except SchemaFault Columns := do
  let columns ← rows.mapM (Column.ofRow limit scope keyspace)
  let partitionKey ← (key .partitionKey columns).mapError .incompletePartitionKey
  let clusteringKey ← (key .clustering columns).mapError .incompleteClusteringKey
  .ok ⟨partitionKey, clusteringKey, sort (outside (columns.map (·.2)))⟩

/-- Puts the columns of some rows in order. -/
def ofRows (limit : Nat) (scope : TypeScope) (keyspace : String) (rows : List ColumnRow) :
    Except SchemaFault Columns :=
  ofRowsBy byName limit scope keyspace rows

end Columns

end Cql
