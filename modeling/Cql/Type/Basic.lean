import Cql.Type.Native
import Cql.Text.Identifier

/-!
Types of columns. A user defined type carries its whole definition, so that equal types have equal
fields all the way down.
-/

namespace Cql

mutual

inductive ColumnType where
  | native (type : NativeType)
  | list (element : ColumnType) (frozen : Bool)
  | set (element : ColumnType) (frozen : Bool)
  | map (key value : ColumnType) (frozen : Bool)
  /-- Tuples are always frozen. -/
  | tuple (elements : List ColumnType)
  | userDefined (definition : UserType) (frozen : Bool)
  /-- A type of which only the name is known. -/
  | custom (name : String)
  /-- The legacy type without values. Unlike `custom` it is never a placeholder. -/
  | empty

/-- A user defined type of a keyspace, with its fields in the order of their declaration. -/
structure UserType where
  keyspace : String
  name : String
  fields : List (String × ColumnType)

end

deriving instance Repr for ColumnType, UserType
deriving instance Inhabited for ColumnType

namespace ColumnType

/-- The keyword of a collection. -/
def keyword? : ColumnType → Option String
  | list .. => some "list"
  | set .. => some "set"
  | map .. => some "map"
  | _ => none

/-- Whether freezing means anything for the type. -/
def supportsFreezing : ColumnType → Bool
  | list .. | set .. | map .. | tuple _ | userDefined .. => true
  | _ => false

/-- Whether values of the type are stored as one unit. -/
def isFrozen : ColumnType → Bool
  | list _ frozen | set _ frozen | map _ _ frozen | userDefined _ frozen => frozen
  | tuple _ => true
  | _ => false

/-- Freezes the outermost type; types that cannot be frozen stay as they are. -/
def frozen : ColumnType → ColumnType
  | list element _ => list element true
  | set element _ => set element true
  | map key value _ => map key value true
  | userDefined definition _ => userDefined definition true
  | t => t

def isEmptyType : ColumnType → Bool
  | empty => true
  | _ => false

def asNative? : ColumnType → Option NativeType
  | native t => some t
  | _ => none

end ColumnType

/-- The name of the type without values. -/
def emptyTypeName : String := "empty"

/-- The name of a user defined type, with its keyspace in front. -/
def UserType.display (t : UserType) : Text :=
  Identifier.display t.keyspace ++ '.' :: Identifier.display t.name

namespace ColumnType

/-- The text between `frozen<` and `>` if the type is frozen. -/
def wrap (frozen : Bool) (t : Text) : Text :=
  if frozen then "frozen<".toList ++ t ++ ['>'] else t

mutual

/-- The type as it is written. -/
def display : ColumnType → Text
  | native t => t.name.toList
  | list element frozen => wrap frozen ("list<".toList ++ display element ++ ['>'])
  | set element frozen => wrap frozen ("set<".toList ++ display element ++ ['>'])
  | map key value frozen =>
    wrap frozen ("map<".toList ++ display key ++ [',', ' '] ++ display value ++ ['>'])
  | tuple elements => "tuple<".toList ++ Text.join [',', ' '] (displayAll elements) ++ ['>']
  | userDefined definition frozen => wrap frozen definition.display
  | custom name => '\x27' :: name.toList ++ ['\x27']
  | empty => '\x27' :: emptyTypeName.toList ++ ['\x27']

def displayAll : List ColumnType → List Text
  | [] => []
  | t :: ts => display t :: displayAll ts

end

end ColumnType

mutual

/-- Whether two types are the same, fields of user defined types included. -/
def ColumnType.same : ColumnType → ColumnType → Bool
  | .native s, .native t => s == t
  | .list s f, .list t g => ColumnType.same s t && f == g
  | .set s f, .set t g => ColumnType.same s t && f == g
  | .map k v f, .map l w g => ColumnType.same k l && ColumnType.same v w && f == g
  | .tuple s, .tuple t => ColumnType.sameAll s t
  | .userDefined s f, .userDefined t g => UserType.same s t && f == g
  | .custom s, .custom t => s == t
  | .empty, .empty => true
  | _, _ => false

def ColumnType.sameAll : List ColumnType → List ColumnType → Bool
  | [], [] => true
  | s :: ss, t :: ts => ColumnType.same s t && ColumnType.sameAll ss ts
  | _, _ => false

def UserType.same : UserType → UserType → Bool
  | ⟨keyspace, name, fields⟩, ⟨keyspace', name', fields'⟩ =>
    keyspace == keyspace' && name == name' && UserType.sameFields fields fields'

def UserType.sameFields : List (String × ColumnType) → List (String × ColumnType) → Bool
  | [], [] => true
  | (n, s) :: ss, (m, t) :: ts => n == m && ColumnType.same s t && UserType.sameFields ss ts
  | _, _ => false

end

mutual

theorem ColumnType.same_iff : (s t : ColumnType) → (s.same t = true ↔ s = t)
  | .native s, t => by cases t <;> simp [ColumnType.same]
  | .list s f, t => by
    cases t with
    | list t g => simp [ColumnType.same, ColumnType.same_iff s t]
    | _ => simp [ColumnType.same]
  | .set s f, t => by
    cases t with
    | set t g => simp [ColumnType.same, ColumnType.same_iff s t]
    | _ => simp [ColumnType.same]
  | .map k v f, t => by
    cases t with
    | map l w g => simp [ColumnType.same, ColumnType.same_iff k l, ColumnType.same_iff v w, and_assoc]
    | _ => simp [ColumnType.same]
  | .tuple s, t => by
    cases t with
    | tuple t => simp [ColumnType.same, ColumnType.sameAll_iff s t]
    | _ => simp [ColumnType.same]
  | .userDefined s f, t => by
    cases t with
    | userDefined t g => simp [ColumnType.same, UserType.same_iff s t]
    | _ => simp [ColumnType.same]
  | .custom s, t => by cases t <;> simp [ColumnType.same]
  | .empty, t => by cases t <;> simp [ColumnType.same]

theorem ColumnType.sameAll_iff :
    (s t : List ColumnType) → (ColumnType.sameAll s t = true ↔ s = t)
  | [], [] => by simp [ColumnType.sameAll]
  | [], _ :: _ => by simp [ColumnType.sameAll]
  | _ :: _, [] => by simp [ColumnType.sameAll]
  | s :: ss, t :: ts => by
    simp [ColumnType.sameAll, ColumnType.same_iff s t, ColumnType.sameAll_iff ss ts]

theorem UserType.same_iff : (s t : UserType) → (s.same t = true ↔ s = t)
  | ⟨k, n, fs⟩, ⟨k', n', gs⟩ => by
    simp [UserType.same, UserType.sameFields_iff fs gs, and_assoc]

theorem UserType.sameFields_iff :
    (s t : List (String × ColumnType)) → (UserType.sameFields s t = true ↔ s = t)
  | [], [] => by simp [UserType.sameFields]
  | [], _ :: _ => by simp [UserType.sameFields]
  | _ :: _, [] => by simp [UserType.sameFields]
  | (n, s) :: ss, (m, t) :: ts => by
    simp [UserType.sameFields, ColumnType.same_iff s t, UserType.sameFields_iff ss ts]

end

instance : DecidableEq ColumnType := fun s t => decidable_of_iff _ (ColumnType.same_iff s t)

instance : DecidableEq UserType := fun s t => decidable_of_iff _ (UserType.same_iff s t)

end Cql
