import Cql.Schema.Table

/-!
Materialized views, and the statements that create them.
-/

namespace Cql

/-- A view as it is stored. -/
structure ViewRow where
  keyspace : String
  name : String
  /-- The table of the same keyspace that the view is made from. -/
  base : String
  id : Option Uuid
  /-- Whether the view has all columns of its base table. -/
  includesAll : Bool
  condition : Option String
  options : List (String × String)
  deriving DecidableEq, Repr

structure View where
  keyspace : String
  name : String
  base : String
  id : Option Uuid
  includesAll : Bool
  condition : Option String
  columns : Columns
  /-- Absent if one of them could not be read. -/
  options : Option TableOptions
  deriving DecidableEq, Repr

namespace View

/-- Nothing, if the base table is not known. -/
def ofRow (limit : Nat) (scope : Scope) (row : ViewRow) (columns : List ColumnRow) :
    Except SchemaFault (Option View) :=
  match scope.table? row.keyspace row.base with
  | none => .ok none
  | some _ => do
    let columns ← Columns.ofRows limit scope.toTypeScope row.keyspace columns
    .ok (some ⟨row.keyspace, row.name, row.base, row.id, row.includesAll, row.condition, columns,
      (TableOptions.read row.options).toOption⟩)

/-- Blanks between the clauses of a statement, and before the items of a clause. -/
structure Layout where
  clause : Text
  indent : Text

namespace Layout

def oneLine : Layout := ⟨[' '], []⟩

/-- Every clause and every column on a line of its own. -/
def lines : Layout := ⟨['\n'], [' ', ' ', ' ', ' ']⟩

end Layout

def displayNames (names : List String) : List Text := names.map Identifier.display

/-- What a statement tells of a view. The columns of its keys are told by their names. -/
structure Definition where
  keyspace : String
  name : String
  base : String
  includesAll : Bool
  condition : Option String
  partitionKey : List String
  clusteringKey : List String
  columns : List Column
  options : Option TableOptions
  deriving DecidableEq, Repr

namespace Definition

/-- The columns that the view selects. -/
def selection (v : Definition) (layout : Layout) : Text :=
  if v.includesAll then [' ', '*']
  else
    layout.clause ++ layout.indent
      ++ Text.join (',' :: layout.clause ++ layout.indent) (displayNames (v.columns.map (·.name)))

/-- An empty condition is none. -/
def whereClause (v : Definition) (layout : Layout) : Text :=
  match v.condition with
  | none => []
  | some condition =>
    if condition.isEmpty then [] else layout.clause ++ "WHERE ".toList ++ condition.toList

/-- A partition key of one column stands for itself, any other in parentheses. -/
def partition (v : Definition) : Text :=
  match displayNames v.partitionKey with
  | [name] => name
  | names => '(' :: Text.join [',', ' '] names ++ [')']

def primaryKey (v : Definition) : Text :=
  '(' :: Text.join [',', ' '] (v.partition :: displayNames v.clusteringKey) ++ [')']

/-- The order of the first column of a name, which is ascending if it has none. -/
def orderOf (v : Definition) (name : String) : ClusteringOrder :=
  ((v.columns.find? (·.name == name)).bind (·.order)).getD .ascending

/-- The columns of the clustering key, each with its order. -/
def orders (v : Definition) : List (String × ClusteringOrder) :=
  v.clusteringKey.map fun name => (name, v.orderOf name)

def displayOrder : String × ClusteringOrder → Text
  | (name, order) => Identifier.display name ++ ' ' :: order.keyword.toList

/-- The order of the clustering columns, if there are any, and the options. -/
def properties (v : Definition) : List Text :=
  let order :=
    if v.orders.isEmpty then []
    else ["CLUSTERING ORDER BY (".toList ++ Text.join [',', ' '] (v.orders.map displayOrder) ++ [')']]
  let options := match v.options with
    | none => []
    | some o => o.literals.entries.map fun (name, literal) =>
      name.toList ++ " = ".toList ++ literal.toList
  order ++ options

/-- The statement that creates the view. -/
def statement (v : Definition) (layout : Layout) : Text :=
  let qualified (name : String) : Text :=
    Identifier.display v.keyspace ++ '.' :: Identifier.display name
  let properties := v.properties
  "CREATE MATERIALIZED VIEW ".toList ++ qualified v.name ++ " AS".toList
    ++ layout.clause ++ "SELECT".toList ++ v.selection layout
    ++ layout.clause ++ "FROM ".toList ++ qualified v.base
    ++ v.whereClause layout
    ++ layout.clause ++ "PRIMARY KEY ".toList ++ v.primaryKey
    ++ (if properties.isEmpty then []
        else
          layout.clause ++ "WITH ".toList
            ++ Text.join (layout.clause ++ layout.indent ++ "AND ".toList) properties)
    ++ [';']

end Definition

def definition (v : View) : Definition :=
  ⟨v.keyspace, v.name, v.base, v.includesAll, v.condition, v.columns.partitionKey.map (·.name),
    v.columns.clusteringKey.map (·.name), v.columns.all, v.options⟩

/-- The statement that creates the view. -/
def statement (v : View) (layout : Layout) : Text := v.definition.statement layout

end View

end Cql
