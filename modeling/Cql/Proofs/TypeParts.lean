import Cql.Type.Name

/-!
The types inside a type, and the induction over them.
-/

namespace Cql

/-- A statement about every type, from statements about the types inside it. -/
@[elab_as_elim, induction_eliminator]
theorem ColumnType.induction {motive : ColumnType → Prop}
    (native : ∀ type, motive (.native type))
    (list : ∀ element frozen, motive element → motive (.list element frozen))
    (set : ∀ element frozen, motive element → motive (.set element frozen))
    (map : ∀ key value frozen, motive key → motive value → motive (.map key value frozen))
    (tuple : ∀ elements, (∀ t ∈ elements, motive t) → motive (.tuple elements))
    (userDefined : ∀ definition frozen, (∀ f ∈ definition.fields, motive f.2) →
      motive (.userDefined definition frozen))
    (custom : ∀ name, motive (.custom name)) (empty : motive .empty) (t : ColumnType) : motive t :=
  @ColumnType.rec motive (fun definition => ∀ f ∈ definition.fields, motive f.2)
    (fun ts => ∀ t ∈ ts, motive t) (fun fields => ∀ f ∈ fields, motive f.2) (fun f => motive f.2)
    native list set map tuple userDefined custom empty
    (fun _ _ _ h => h)
    (fun _ h => absurd h List.not_mem_nil) (fun _ _ h hs => List.forall_mem_cons.2 ⟨h, hs⟩)
    (fun _ h => absurd h List.not_mem_nil) (fun _ _ h hs => List.forall_mem_cons.2 ⟨h, hs⟩)
    (fun _ _ h => h) t

/-- What a type is made of, the types of fields included where the definition is one to look into. -/
inductive ColumnType.Part (into : UserType → Prop) (part : ColumnType) : ColumnType → Prop where
  | whole : Part into part part
  | list {element : ColumnType} {frozen : Bool} :
    Part into part element → Part into part (.list element frozen)
  | set {element : ColumnType} {frozen : Bool} :
    Part into part element → Part into part (.set element frozen)
  | key {key value : ColumnType} {frozen : Bool} :
    Part into part key → Part into part (.map key value frozen)
  | value {key value : ColumnType} {frozen : Bool} :
    Part into part value → Part into part (.map key value frozen)
  | element {elements : List ColumnType} {element : ColumnType} :
    element ∈ elements → Part into part element → Part into part (.tuple elements)
  | field {definition : UserType} {frozen : Bool} {name : String} {type : ColumnType} :
    into definition → (name, type) ∈ definition.fields → Part into part type →
      Part into part (.userDefined definition frozen)

theorem ColumnType.Part.trans {into : UserType → Prop} {s t u : ColumnType} (hst : Part into s t)
    (htu : Part into t u) : Part into s u := by
  induction htu with
  | whole => exact hst
  | list _ ih => exact .list ih
  | set _ ih => exact .set ih
  | key _ ih => exact .key ih
  | value _ ih => exact .value ih
  | element hmem _ ih => exact .element hmem ih
  | field hinto hmem _ ih => exact .field hinto hmem ih

/-- The types directly inside a type. Those of fields belong to a definition and are not among them. -/
def ColumnType.inner : ColumnType → List ColumnType
  | .list element _ | .set element _ => [element]
  | .map key value _ => [key, value]
  | .tuple elements => elements
  | .native _ | .userDefined .. | .custom _ | .empty => []

/-- A way of putting types together to one that has no others directly inside. -/
def ColumnType.Enclosing (makeTuple : List ColumnType → ColumnType) : Prop :=
  ∀ elements, (makeTuple elements).inner ⊆ elements

/-- A way of putting tuples together that brings no types of its own. -/
def ColumnType.Arranging (makeTuple : List ColumnType → ColumnType) : Prop :=
  ∀ elements, ∃ arranged, arranged ⊆ elements ∧ makeTuple elements = .tuple arranged

theorem ColumnType.Arranging.standard : Arranging .tuple :=
  fun elements => ⟨elements, List.Subset.refl elements, rfl⟩

theorem ColumnType.Arranging.reversing : Arranging TypeScope.reversing.makeTuple :=
  fun elements => ⟨elements.reverse, fun _ h => List.mem_reverse.1 h, rfl⟩

theorem ColumnType.Arranging.enclosing {makeTuple : List ColumnType → ColumnType}
    (h : Arranging makeTuple) : Enclosing makeTuple := fun elements => by
  obtain ⟨arranged, hsubset, heq⟩ := h elements
  rw [heq]
  exact hsubset

/-! ## Definitions inside a type -/

namespace ColumnType

/-- Every definition inside the type, at any depth, has a property. -/
def Defines (P : UserType → Prop) (t : ColumnType) : Prop :=
  ∀ definition frozen, Part (fun _ => True) (.userDefined definition frozen) t → P definition

variable {P : UserType → Prop}

theorem Defines.part {t part : ColumnType} (h : t.Defines P) (hpart : Part (fun _ => True) part t) :
    part.Defines P :=
  fun definition frozen hinner => h definition frozen (hinner.trans hpart)

theorem defines_native (type : NativeType) : (native type).Defines P := by
  rintro _ _ ⟨⟩

theorem defines_custom (name : String) : (custom name).Defines P := by
  rintro _ _ ⟨⟩

theorem defines_empty : empty.Defines P := by
  rintro _ _ ⟨⟩

theorem defines_list {element : ColumnType} {frozen : Bool} :
    (list element frozen).Defines P ↔ element.Defines P := by
  refine ⟨fun h => h.part (.list .whole), fun h d f hpart => ?_⟩
  cases hpart with
  | list hpart => exact h d f hpart

theorem defines_set {element : ColumnType} {frozen : Bool} :
    (set element frozen).Defines P ↔ element.Defines P := by
  refine ⟨fun h => h.part (.set .whole), fun h d f hpart => ?_⟩
  cases hpart with
  | set hpart => exact h d f hpart

theorem defines_map {key value : ColumnType} {frozen : Bool} :
    (map key value frozen).Defines P ↔ key.Defines P ∧ value.Defines P := by
  refine ⟨fun h => ⟨h.part (.key .whole), h.part (.value .whole)⟩, fun h d f hpart => ?_⟩
  cases hpart with
  | key hpart => exact h.1 d f hpart
  | value hpart => exact h.2 d f hpart

theorem defines_tuple {elements : List ColumnType} :
    (tuple elements).Defines P ↔ ∀ element ∈ elements, element.Defines P := by
  refine ⟨fun h element helement => h.part (.element helement .whole), fun h d f hpart => ?_⟩
  cases hpart with
  | element helement hpart => exact h _ helement d f hpart

theorem defines_userDefined {definition : UserType} {frozen : Bool} :
    (userDefined definition frozen).Defines P ↔
      P definition ∧ ∀ field ∈ definition.fields, field.2.Defines P := by
  refine ⟨fun h => ⟨h definition frozen .whole,
    fun field hfield => h.part (.field trivial hfield .whole)⟩, fun h d f hpart => ?_⟩
  cases hpart with
  | whole => exact h.1
  | field _ hfield hpart => exact h.2 _ hfield d f hpart

end ColumnType

end Cql
