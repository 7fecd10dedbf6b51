import Cql.Type.Reader

/-!
What a type expression denotes, told apart into the type and the names that nobody knows, and how deep
its parameters are nested.
-/

namespace Cql.TypeName

/-- A statement about every type expression, from statements about its parameters. -/
@[elab_as_elim, induction_eliminator]
theorem induction {motive : TypeName → Prop} (native : ∀ type, motive (.native type))
    (empty : motive .empty) (list : ∀ element, motive element → motive (.list element))
    (set : ∀ element, motive element → motive (.set element))
    (map : ∀ key value, motive key → motive value → motive (.map key value))
    (frozen : ∀ inner, motive inner → motive (.frozen inner))
    (tuple : ∀ elements, (∀ e ∈ elements, motive e) → motive (.tuple elements))
    (user : ∀ name, motive (.user name)) (e : TypeName) : motive e :=
  @TypeName.rec motive (fun elements => ∀ e ∈ elements, motive e)
    native empty list set map frozen tuple user
    (fun _ h => absurd h List.not_mem_nil) (fun _ _ h hs => List.forall_mem_cons.2 ⟨h, hs⟩) e

mutual

/-- How many levels of parameters a type expression has. -/
def depth : TypeName → Nat
  | native _ | empty | user _ => 0
  | list element | set element => depth element + 1
  | map key value => max (depth key) (depth value) + 1
  | frozen inner => depth inner + 1
  | tuple elements => depthOfAll elements

/-- One level more than the deepest parameter; none without parameters. -/
def depthOfAll : List TypeName → Nat
  | [] => 0
  | e :: es => max (depth e + 1) (depthOfAll es)

end

section Meaning

-- the user types that are known
variable (known : String → Option UserType)

mutual

/-- The type that an expression denotes. A frozen wrapper freezes the collection or user type that it
reaches through other wrappers, and means nothing elsewhere. -/
def meaning (frozen : Bool) : TypeName → ColumnType
  | native type => .native type
  | empty => .empty
  | list element => .list (meaning false element) frozen
  | set element => .set (meaning false element) frozen
  | map key value => .map (meaning false key) (meaning false value) frozen
  | .frozen inner => meaning true inner
  | tuple elements => .tuple (meanings elements)
  | user name =>
    match known name with
    | some definition => .userDefined definition frozen
    | none => .custom name

def meanings : List TypeName → List ColumnType
  | [] => []
  | e :: es => meaning false e :: meanings es

end

/-- The user types of the expression that are not known, in the order of their appearance. -/
def unknown (e : TypeName) : List String := e.references.filter fun name => (known name).isNone

end Meaning

/-! ## Resolving -/

theorem referencesOfAll_eq (elements : List TypeName) :
    referencesOfAll elements = elements.flatMap references := by
  induction elements with
  | nil => rfl
  | cons e es ih => rw [referencesOfAll, ih, List.flatMap_cons]

theorem resolveAll_eq (scope : TypeScope) (keyspace : String) (elements : List TypeName) :
    resolveAll scope keyspace elements =
      (elements.map fun e => (e.resolve scope keyspace false).type,
        elements.flatMap fun e => (e.resolve scope keyspace false).missing) := by
  induction elements with
  | nil => rfl
  | cons e es ih => rw [resolveAll, ih, List.map_cons, List.flatMap_cons]

/-- Resolving looks up the user types that are mentioned, and no others. -/
theorem resolve_congr {scope other : TypeScope} {keyspace : String} {e : TypeName}
    (htuple : scope.makeTuple = other.makeTuple)
    (h : ∀ name ∈ e.references, scope.userType? keyspace name = other.userType? keyspace name)
    (frozen : Bool) : e.resolve scope keyspace frozen = e.resolve other keyspace frozen := by
  induction e generalizing frozen with
  | native type => rfl
  | empty => rfl
  | list element ih => rw [resolve, ih h, resolve]
  | set element ih => rw [resolve, ih h, resolve]
  | map key value ihk ihv =>
    obtain ⟨hk, hv⟩ := List.forall_mem_append.1 h
    rw [resolve, ihk hk, ihv hv, resolve]
  | frozen inner ih => rw [resolve, ih h, resolve]
  | tuple elements ih =>
    rw [references, referencesOfAll_eq] at h
    have he : ∀ e ∈ elements, e.resolve scope keyspace false = e.resolve other keyspace false :=
      fun e he => ih e he (fun name hname => h name (List.mem_flatMap.2 ⟨e, he, hname⟩)) false
    have htypes := List.map_congr_left fun e h => congrArg ResolvedType.type (he e h)
    have hmissing := List.map_congr_left fun e h => congrArg ResolvedType.missing (he e h)
    rw [resolve, resolve, resolveAll_eq, resolveAll_eq, htypes, List.flatMap_def, hmissing, htuple,
      ← List.flatMap_def]
  | user name => rw [resolve, h name List.mem_cons_self, resolve]

section Resolve

variable (scope : TypeScope) (keyspace : String)

/-- What is missing are the names that are not known, however tuples are put together. -/
theorem missing_resolve (e : TypeName) (frozen : Bool) :
    (e.resolve scope keyspace frozen).missing = e.unknown (scope.userType? keyspace) := by
  induction e generalizing frozen with
  | native type => rfl
  | empty => rfl
  | list element ih => exact ih false
  | set element ih => exact ih false
  | map key value ihk ihv =>
    rw [resolve, unknown, references, List.filter_append]
    dsimp only
    rw [ihk, ihv, unknown, unknown]
  | frozen inner ih => exact ih true
  | tuple elements ih =>
    rw [resolve, resolveAll_eq, unknown, references, referencesOfAll_eq, List.filter_flatMap]
    rw [List.flatMap_def, List.flatMap_def, List.map_congr_left fun e he => ih e he false]
    rfl
  | user name =>
    rw [resolve, unknown, references]
    cases h : scope.userType? keyspace name with
    | some definition => simp [h]
    | none => simp [h]

variable {scope}

theorem meanings_eq (known : String → Option UserType) (elements : List TypeName) :
    meanings known elements = elements.map (meaning known false) := by
  induction elements with
  | nil => rfl
  | cons e es ih => rw [meanings, ih, List.map_cons]

theorem type_resolve (hstandard : scope.makeTuple = .tuple) (e : TypeName) (frozen : Bool) :
    (e.resolve scope keyspace frozen).type = e.meaning (scope.userType? keyspace) frozen := by
  induction e generalizing frozen with
  | native type => rfl
  | empty => rfl
  | list element ih => rw [resolve, meaning, ih]
  | set element ih => rw [resolve, meaning, ih]
  | map key value ihk ihv => rw [resolve, meaning, ihk, ihv]
  | frozen inner ih => exact ih true
  | tuple elements ih =>
    rw [resolve, resolveAll_eq, meaning, meanings_eq, hstandard]
    exact congrArg ColumnType.tuple (List.map_congr_left fun e he => ih e he false)
  | user name =>
    rw [resolve, meaning]
    cases scope.userType? keyspace name <;> rfl

/-- Resolving answers the denoted type and the unknown names. -/
theorem resolve_eq (hstandard : scope.makeTuple = .tuple) (e : TypeName) (frozen : Bool) :
    e.resolve scope keyspace frozen =
      ⟨e.meaning (scope.userType? keyspace) frozen, e.unknown (scope.userType? keyspace)⟩ := by
  rw [← type_resolve keyspace hstandard, ← missing_resolve]

end Resolve

end Cql.TypeName
