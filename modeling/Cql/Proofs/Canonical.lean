import Cql.Codec.OfType
import Cql.Proofs.Sequences
import Cql.Proofs.TypeParts

/-!
The value that is read back after a value was stored in a column: strings of the kind of the column,
tuples with all their components, and user defined values with the fields of their definition.
-/

namespace Cql

/-- The kind of string that belongs to the column; everything else stays as it is. -/
def NativeType.canonical : NativeType → Value → Value
  | ascii, .text s => .ascii s
  | text, .ascii s => .text s
  | varchar, .ascii s => .text s
  | _, v => v

theorem NativeType.canonical_empty (type : NativeType) : type.canonical .empty = .empty := by
  cases type <;> rfl

mutual

/-- What a value becomes in a column of the type, at every depth. -/
def ColumnType.canonical : ColumnType → Value → Value
  | .native t, v => t.canonical v
  | .list element _, .list items => .list (items.map element.canonical)
  | .set element _, .set items => .set (items.map element.canonical)
  | .map key value _, .map entries =>
    .map (entries.map fun (k, v) => (key.canonical k, value.canonical v))
  | .tuple elements, .tuple items => .tuple (ColumnType.canonicalItems elements items)
  | .userDefined definition _, .userDefined _ _ fields =>
    .userDefined definition.keyspace definition.name (definition.canonicalFields fields)
  | _, v => v

/-- One component for each element of the tuple type, absent where the value has none. -/
def ColumnType.canonicalItems : List ColumnType → List (Option Value) → List (Option Value)
  | [], _ => []
  | t :: ts, items => items.head?.join.map t.canonical :: ColumnType.canonicalItems ts items.tail

/-- One entry for each field of the definition, with the first value that is listed under its name. -/
def UserType.canonicalFields :
    UserType → List (String × Option Value) → List (String × Option Value)
  | ⟨_, _, declared⟩, fields => UserType.canonicalFieldsOf declared fields

def UserType.canonicalFieldsOf :
    List (String × ColumnType) → List (String × Option Value) → List (String × Option Value)
  | [], _ => []
  | (name, t) :: rest, fields =>
    (name, (UserType.fieldValue fields name).map t.canonical)
      :: UserType.canonicalFieldsOf rest fields

end

theorem ColumnType.codecs_eq (ts : List ColumnType) :
    ColumnType.codecs ts = ts.map ColumnType.codec := by
  induction ts with
  | nil => rfl
  | cons t ts ih => rw [ColumnType.codecs, ih, List.map_cons]

theorem UserType.codecsOf_eq (fields : List (String × ColumnType)) :
    UserType.codecsOf fields = ColumnType.codecs (fields.map (·.2)) := by
  induction fields with
  | nil => rfl
  | cons f fields ih => rw [UserType.codecsOf, ih, List.map_cons, ColumnType.codecs]

theorem UserType.fieldCodecs_eq (t : UserType) :
    t.fieldCodecs = ColumnType.codecs (t.fields.map (·.2)) := by
  obtain ⟨keyspace, name, declared⟩ := t
  exact UserType.codecsOf_eq declared

/-- A user defined value is the tuple of its fields, each with its name. -/
theorem UserType.zip_canonicalItems (fields : List (String × Option Value)) (t : UserType) :
    t.fieldNames.zip (ColumnType.canonicalItems (t.fields.map (·.2))
      (t.fieldNames.map (UserType.fieldValue fields))) = t.canonicalFields fields := by
  obtain ⟨keyspace, name, declared⟩ := t
  simp only [UserType.fieldNames, UserType.canonicalFields]
  induction declared with
  | nil => rfl
  | cons f declared ih =>
    simp only [List.map_cons, ColumnType.canonicalItems, List.head?_cons, Option.join_some,
      List.tail_cons, List.zip_cons_cons, UserType.canonicalFieldsOf, ih]

namespace UserType

theorem canonicalFields_eq (t : UserType) (fields : List (String × Option Value)) :
    t.canonicalFields fields =
      t.fields.map fun f => (f.1, (fieldValue fields f.1).map f.2.canonical) := by
  obtain ⟨keyspace, name, declared⟩ := t
  show canonicalFieldsOf declared fields = _
  induction declared with
  | nil => rfl
  | cons f declared ih => rw [canonicalFieldsOf, ih, List.map_cons]

theorem fieldValue_of_mem {fields : List (String × Option Value)} (hnodup : (fields.map (·.1)).Nodup)
    {name : String} {o : Option Value} (h : (name, o) ∈ fields) : fieldValue fields name = o := by
  rw [fieldValue, find?_of_nodup hnodup h]
  rfl

/-- Values that are listed under different names are found again. -/
theorem fieldValues_zip {names : List String} (hnodup : names.Nodup) {items : List (Option Value)}
    (hlength : items.length = names.length) :
    names.map (fieldValue (names.zip items)) = items := by
  have hnames : ((names.zip items).map (·.1)).Nodup := by
    rwa [List.map_fst_zip (Nat.le_of_eq hlength.symm)]
  refine List.ext_getElem (by rw [List.length_map, hlength]) fun i hi hitems => ?_
  have hname : i < names.length := hlength ▸ hitems
  have hmem : (names[i], items[i]) ∈ names.zip items := by
    rw [← List.getElem_zip]
    exact List.getElem_mem (by rw [List.length_zip]; omega)
  rw [List.getElem_map, fieldValue_of_mem hnames hmem]

end UserType

end Cql
