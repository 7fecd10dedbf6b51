import Cql.Proofs.Canonical

/-!
The parts of a value, by themselves and in the places of a type. A user defined value may list a field more
than once; read from the end, its fields have the values that are listed last.
-/

namespace Cql

/-! ## Parts -/

/-- What a value is made of, itself included. -/
inductive Value.Part (part : Value) : Value → Prop where
  | whole : Part part part
  | item {items : List Value} {v : Value} : v ∈ items → Part part v → Part part (.list items)
  | member {items : List Value} {v : Value} : v ∈ items → Part part v → Part part (.set items)
  | key {entries : List (Value × Value)} {k v : Value} :
    (k, v) ∈ entries → Part part k → Part part (.map entries)
  | value {entries : List (Value × Value)} {k v : Value} :
    (k, v) ∈ entries → Part part v → Part part (.map entries)
  | component {items : List (Option Value)} {v : Value} :
    some v ∈ items → Part part v → Part part (.tuple items)
  | field {keyspace name field : String} {fields : List (String × Option Value)} {v : Value} :
    (field, some v) ∈ fields → Part part v → Part part (.userDefined keyspace name fields)

theorem Value.Part.trans {u v w : Value} (huv : Part u v) (hvw : Part v w) : Part u w := by
  induction hvw with
  | whole => exact huv
  | item hmem _ ih => exact .item hmem ih
  | member hmem _ ih => exact .member hmem ih
  | key hmem _ ih => exact .key hmem ih
  | value hmem _ ih => exact .value hmem ih
  | component hmem _ ih => exact .component hmem ih
  | field hmem _ ih => exact .field hmem ih

/-- No user defined value lists a field twice, at any depth. -/
def Value.ListsFieldsOnce (v : Value) : Prop :=
  ∀ keyspace name fields, Part (.userDefined keyspace name fields) v → (fields.map (·.1)).Nodup

/-- No user defined value lists different values of one field, at any depth. -/
def Value.Consistent (v : Value) : Prop :=
  ∀ keyspace name fields, Part (.userDefined keyspace name fields) v →
    ∀ field a b, (field, a) ∈ fields → (field, b) ∈ fields → a = b

theorem Value.Consistent.part {part v : Value} (h : v.Consistent) (hpart : Part part v) :
    part.Consistent :=
  fun keyspace name fields hinner => h keyspace name fields (hinner.trans hpart)

theorem Value.ListsFieldsOnce.consistent {v : Value} (h : v.ListsFieldsOnce) : v.Consistent := by
  intro keyspace name fields hpart field a b ha hb
  have hsame := List.inj_on_of_nodup_map (h keyspace name fields hpart) ha hb rfl
  cases hsame
  rfl

namespace UserType

/-- The type that is declared first under a name. -/
def typeOf? (t : UserType) (name : String) : Option ColumnType :=
  (t.fields.find? (·.1 == name)).map (·.2)

variable {t : UserType} {name : String} {type : ColumnType}

theorem mem_of_typeOf? (h : t.typeOf? name = some type) : (name, type) ∈ t.fields := by
  obtain ⟨f, hfind, rfl⟩ := Option.map_eq_some_iff.1 h
  have hname := List.find?_some hfind
  rw [beq_iff_eq] at hname
  rw [← hname]
  exact List.mem_of_find?_eq_some hfind

theorem typeOf?_of_mem (hnodup : t.fieldNames.Nodup) (h : (name, type) ∈ t.fields) :
    t.typeOf? name = some type := by
  rw [typeOf?, find?_of_nodup hnodup h]
  rfl

end UserType

/-- A part of a value and the type in whose place it stands, the whole included. A field has the type that
is declared first under its name. -/
inductive ColumnType.Placed (type : ColumnType) (part : Value) : ColumnType → Value → Prop where
  | whole : Placed type part type part
  | item {element : ColumnType} {frozen : Bool} {items : List Value} {v : Value} :
    v ∈ items → Placed type part element v → Placed type part (.list element frozen) (.list items)
  | member {element : ColumnType} {frozen : Bool} {items : List Value} {v : Value} :
    v ∈ items → Placed type part element v → Placed type part (.set element frozen) (.set items)
  | key {key value : ColumnType} {frozen : Bool} {entries : List (Value × Value)} {k v : Value} :
    (k, v) ∈ entries → Placed type part key k →
      Placed type part (.map key value frozen) (.map entries)
  | value {key value : ColumnType} {frozen : Bool} {entries : List (Value × Value)} {k v : Value} :
    (k, v) ∈ entries → Placed type part value v →
      Placed type part (.map key value frozen) (.map entries)
  | component {elements : List ColumnType} {items : List (Option Value)} {i : Nat}
    {element : ColumnType} {v : Value} :
    elements[i]? = some element → items[i]? = some (some v) → Placed type part element v →
      Placed type part (.tuple elements) (.tuple items)
  | field {definition : UserType} {frozen : Bool} {keyspace name field : String}
    {fields : List (String × Option Value)} {declared : ColumnType} {v : Value} :
    definition.typeOf? field = some declared → (field, some v) ∈ fields → Placed type part declared v →
      Placed type part (.userDefined definition frozen) (.userDefined keyspace name fields)

theorem ColumnType.Placed.trans {s t type : ColumnType} {u v w : Value} (huv : Placed s u t v)
    (hvw : Placed t v type w) : Placed s u type w := by
  induction hvw with
  | whole => exact huv
  | item hmem _ ih => exact .item hmem ih
  | member hmem _ ih => exact .member hmem ih
  | key hmem _ ih => exact .key hmem ih
  | value hmem _ ih => exact .value hmem ih
  | component htype hitem _ ih => exact .component htype hitem ih
  | field htype hmem _ ih => exact .field htype hmem ih

/-- Every part of a value can be stored in its place, also what is listed of a field more than once. -/
def ColumnType.StoresParts (version : Version) (t : ColumnType) (v : Value) : Prop :=
  ∀ type part, Placed type part t v → ∃ payload, type.codec.encode version part = .ok payload

theorem ColumnType.StoresParts.part {version : Version} {type t : ColumnType} {part v : Value}
    (h : t.StoresParts version v) (hplaced : Placed type part t v) : type.StoresParts version part :=
  fun s u hinner => h s u (hinner.trans hplaced)

/-! ## Fields from the last to the first -/

namespace Value

mutual

/-- The same value with the fields of user defined values listed from the last to the first. -/
def lastFirst : Value → Value
  | list items => list (lastFirstAll items)
  | set items => set (lastFirstAll items)
  | map entries => map (lastFirstEntries entries)
  | tuple items => tuple (lastFirstComponents items)
  | userDefined keyspace name fields => userDefined keyspace name (lastFirstFields fields).reverse
  | v => v

def lastFirstAll : List Value → List Value
  | [] => []
  | v :: vs => lastFirst v :: lastFirstAll vs

def lastFirstEntries : List (Value × Value) → List (Value × Value)
  | [] => []
  | (k, v) :: rest => (lastFirst k, lastFirst v) :: lastFirstEntries rest

def lastFirstComponents : List (Option Value) → List (Option Value)
  | [] => []
  | none :: rest => none :: lastFirstComponents rest
  | some v :: rest => some (lastFirst v) :: lastFirstComponents rest

def lastFirstFields : List (String × Option Value) → List (String × Option Value)
  | [] => []
  | (name, none) :: rest => (name, none) :: lastFirstFields rest
  | (name, some v) :: rest => (name, some (lastFirst v)) :: lastFirstFields rest

end

theorem lastFirstAll_eq (items : List Value) : lastFirstAll items = items.map lastFirst := by
  induction items with
  | nil => simp [lastFirstAll]
  | cons v items ih => simp [lastFirstAll, ih]

theorem lastFirst_list (items : List Value) : (list items).lastFirst = list (items.map lastFirst) := by
  rw [lastFirst, lastFirstAll_eq]

theorem lastFirst_set (items : List Value) : (set items).lastFirst = set (items.map lastFirst) := by
  rw [lastFirst, lastFirstAll_eq]

theorem lastFirst_map (entries : List (Value × Value)) :
    (map entries).lastFirst = map (entries.map fun e => (e.1.lastFirst, e.2.lastFirst)) := by
  rw [lastFirst]
  congr
  induction entries with
  | nil => simp [lastFirstEntries]
  | cons e entries ih => simp [lastFirstEntries, ih]

theorem lastFirst_tuple (items : List (Option Value)) :
    (tuple items).lastFirst = tuple (items.map (Option.map lastFirst)) := by
  rw [lastFirst]
  congr
  induction items with
  | nil => simp [lastFirstComponents]
  | cons item items ih => cases item <;> simp [lastFirstComponents, ih]

theorem lastFirst_userDefined (keyspace name : String) (fields : List (String × Option Value)) :
    (userDefined keyspace name fields).lastFirst = userDefined keyspace name
      (fields.map fun f => (f.1, f.2.map lastFirst)).reverse := by
  have hfields : lastFirstFields fields = fields.map fun f => (f.1, f.2.map lastFirst) := by
    induction fields with
    | nil => simp [lastFirstFields]
    | cons f fields ih =>
      obtain ⟨field, item⟩ := f
      cases item <;> simp [lastFirstFields, ih]
  rw [lastFirst, hfields]

end Value

namespace UserType

variable {fields : List (String × Option Value)} {name : String}

theorem fieldValue_map (f : Value → Value) (fields : List (String × Option Value)) (name : String) :
    fieldValue (fields.map fun g => (g.1, g.2.map f)) name = (fieldValue fields name).map f := by
  induction fields with
  | nil => rfl
  | cons g fields ih =>
    by_cases hname : g.1 = name
    · simp [fieldValue, hname]
    · simpa [fieldValue, hname] using ih

theorem mem_of_fieldValue {v : Value} (h : fieldValue fields name = some v) :
    (name, some v) ∈ fields := by
  obtain ⟨f, hfind, hvalue⟩ := Option.bind_eq_some_iff.1 h
  have hname := List.find?_some hfind
  have hmem := List.mem_of_find?_eq_some hfind
  rw [beq_iff_eq] at hname
  rwa [← hname, ← hvalue]

theorem fieldValue_eq_none (h : ∀ o, (name, o) ∉ fields) : fieldValue fields name = none := by
  have hfind : fields.find? (·.1 == name) = none := by
    rw [List.find?_eq_none]
    rintro ⟨field, o⟩ hmem hname
    rw [beq_iff_eq] at hname
    exact h o (hname ▸ hmem)
  rw [fieldValue, hfind]
  rfl

theorem fieldValue_of_consistent (h : ∀ a b, (name, a) ∈ fields → (name, b) ∈ fields → a = b)
    {o : Option Value} (hmem : (name, o) ∈ fields) : fieldValue fields name = o := by
  have hsome : (fields.find? (·.1 == name)).isSome = true :=
    List.find?_isSome.2 ⟨(name, o), hmem, beq_self_eq_true name⟩
  obtain ⟨f, hfind⟩ := Option.isSome_iff_exists.1 hsome
  have hname := List.find?_some hfind
  rw [beq_iff_eq] at hname
  rw [fieldValue, hfind]
  exact h f.2 o (hname ▸ List.mem_of_find?_eq_some hfind) hmem

/-- Where a field has one value only, the first that is listed and the last are the same. -/
theorem fieldValue_reverse (h : ∀ a b, (name, a) ∈ fields → (name, b) ∈ fields → a = b) :
    fieldValue fields.reverse name = fieldValue fields name := by
  by_cases hlisted : ∃ o, (name, o) ∈ fields
  · obtain ⟨o, hmem⟩ := hlisted
    rw [fieldValue_of_consistent h hmem]
    refine fieldValue_of_consistent (fun a b ha hb => ?_) (List.mem_reverse.2 hmem)
    exact h a b (List.mem_reverse.1 ha) (List.mem_reverse.1 hb)
  · have hnone : ∀ o, (name, o) ∉ fields := fun o hmem => hlisted ⟨o, hmem⟩
    rw [fieldValue_eq_none hnone, fieldValue_eq_none fun o hmem => hnone o (List.mem_reverse.1 hmem)]

end UserType

end Cql
