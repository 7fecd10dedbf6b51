import Cql.Proofs.CatalogSteps
import Cql.Proofs.TypeBatch

/-!
Definitions of user types and where they come from. Whatever answers to look-ups gives definitions under
their own names, with nothing inside them that belongs to another keyspace; what is read, defined and stored
with such answers is again of that kind.
-/

namespace Cql

/-! ## Types of one keyspace -/

/-- The definitions inside a type, at any depth, belong to a keyspace. -/
def ColumnType.Within (keyspace : String) (t : ColumnType) : Prop :=
  ∀ definition frozen, ColumnType.Part (fun _ => True) (.userDefined definition frozen) t →
    definition.keyspace = keyspace

/-- The definition has a keyspace and a name, and those inside its fields belong to that keyspace. -/
structure UserType.Named (keyspace name : String) (t : UserType) : Prop where
  keyspace_eq : t.keyspace = keyspace
  name_eq : t.name = name
  fields : ∀ f ∈ t.fields, f.2.Within keyspace

/-- The types of columns have definitions of one keyspace only. -/
def Columns.Within (keyspace : String) (columns : Columns) : Prop :=
  ∀ c ∈ columns.all, c.type.Within keyspace

namespace ColumnType

variable {keyspace : String}

theorem Within.native (type : NativeType) : (ColumnType.native type).Within keyspace :=
  defines_native type

theorem Within.empty : ColumnType.empty.Within keyspace := defines_empty

theorem Within.custom (name : String) : (ColumnType.custom name).Within keyspace := defines_custom name

theorem Within.list {element : ColumnType} (h : element.Within keyspace) (frozen : Bool) :
    (ColumnType.list element frozen).Within keyspace := defines_list.2 h

theorem Within.set {element : ColumnType} (h : element.Within keyspace) (frozen : Bool) :
    (ColumnType.set element frozen).Within keyspace := defines_set.2 h

theorem Within.map {key value : ColumnType} (hkey : key.Within keyspace) (hvalue : value.Within keyspace)
    (frozen : Bool) : (ColumnType.map key value frozen).Within keyspace := defines_map.2 ⟨hkey, hvalue⟩

theorem Within.tuple {elements : List ColumnType} (h : ∀ t ∈ elements, t.Within keyspace) :
    (ColumnType.tuple elements).Within keyspace := defines_tuple.2 h

theorem Within.userDefined {definition : UserType} (hkeyspace : definition.keyspace = keyspace)
    (hfields : ∀ f ∈ definition.fields, f.2.Within keyspace) (frozen : Bool) :
    (ColumnType.userDefined definition frozen).Within keyspace :=
  defines_userDefined.2 ⟨hkeyspace, hfields⟩

end ColumnType

/-! ## Look-ups that can be trusted -/

/-- Definitions are answered under their own names, and tuples bring in none of other keyspaces. -/
structure TypeScope.Sound (scope : TypeScope) : Prop where
  named : ∀ keyspace name definition, scope.userType? keyspace name = some definition →
    definition.Named keyspace name
  tuple : ∀ keyspace elements, (∀ t ∈ elements, ColumnType.Within keyspace t) →
    (scope.makeTuple elements).Within keyspace

theorem TypeScope.none_sound : TypeScope.none.Sound := ⟨nofun, fun _ _ => .tuple⟩

theorem TypeScope.reversing_sound : TypeScope.reversing.Sound :=
  ⟨nofun, fun _ _ h => .tuple fun t ht => h t (List.mem_reverse.1 ht)⟩

variable {scope : TypeScope} {keyspace : String}

/-- What a name means in a keyspace is a type of that keyspace. -/
theorem TypeName.resolve_within (hscope : scope.Sound) (e : TypeName) (frozen : Bool) :
    (e.resolve scope keyspace frozen).type.Within keyspace := by
  induction e generalizing frozen with
  | native type => exact .native type
  | empty => exact .empty
  | list element ih => exact (ih false).list frozen
  | set element ih => exact (ih false).set frozen
  | map key value ihk ihv => exact (ihk false).map (ihv false) frozen
  | frozen inner ih => exact ih true
  | tuple elements ih =>
    rw [resolve, resolveAll_eq]
    refine hscope.tuple keyspace _ fun t ht => ?_
    obtain ⟨e, he, rfl⟩ := List.mem_map.1 ht
    exact ih e he false
  | user name =>
    rw [resolve]
    cases hname : scope.userType? keyspace name with
    | some definition =>
      have hnamed := hscope.named keyspace name definition hname
      exact .userDefined hnamed.keyspace_eq hnamed.fields frozen
    | none => exact .custom name

theorem TypeDraft.define_named (hscope : scope.Sound) (d : TypeDraft) :
    (d.define scope keyspace).Named keyspace d.name := by
  refine ⟨rfl, rfl, fun f hf => ?_⟩
  obtain ⟨⟨name, e⟩, -, rfl⟩ := List.mem_map.1 hf
  exact e.resolve_within hscope false

/-! ## Columns, tables and views -/

theorem ColumnType.read_within (hscope : scope.Sound) {limit : Nat} {t : Text} {type : ColumnType}
    (h : ColumnType.read limit scope keyspace t = .ok type) : type.Within keyspace := by
  rw [ColumnType.read] at h
  split at h
  · next e he =>
    cases h
    exact e.resolve_within hscope false
  · cases h

theorem Column.ofRow_within (hscope : scope.Sound) {limit : Nat} {row : ColumnRow} {c : Int × Column}
    (h : Column.ofRow limit scope keyspace row = .ok c) : c.2.type.Within keyspace := by
  obtain ⟨type, htype, heq⟩ := bind_ok_iff.1 h
  cases heq
  exact ColumnType.read_within hscope htype

namespace Columns

/-- The columns of a key are some of those that are given. -/
theorem consecutive_subset {columns : List (Int × Column)} {next : Nat} {key : List Column}
    (h : consecutive next columns = .ok key) : key ⊆ columns.map (·.2) := by
  induction columns generalizing next key with
  | nil =>
    cases h
    exact List.Subset.refl _
  | cons c columns ih =>
    obtain ⟨position, column⟩ := c
    rw [consecutive] at h
    split at h
    · obtain ⟨rest, hrest, rfl⟩ := map_ok_iff.1 h
      exact List.cons_subset_cons _ (ih hrest)
    · cases h

theorem key_subset {kind : ColumnKind} {columns : List (Int × Column)} {out : List Column}
    (h : key kind columns = .ok out) : out ⊆ columns.map (·.2) := by
  intro c hc
  obtain ⟨p, hp, rfl⟩ := List.mem_map.1 (consecutive_subset h hc)
  have hmem := List.mem_mergeSort.1 hp
  exact List.mem_map.2 ⟨p, List.mem_of_mem_filter hmem, rfl⟩

theorem outside_subset (columns : List Column) : outside columns ⊆ columns := by
  intro c hc
  exact List.mem_of_mem_filter hc

theorem ofRows_within (hscope : scope.Sound) {limit : Nat} {rows : List ColumnRow} {out : Columns}
    (h : ofRows limit scope keyspace rows = .ok out) : out.Within keyspace := by
  obtain ⟨columns, hcolumns, h⟩ := bind_ok_iff.1 h
  obtain ⟨partition, hpartition, h⟩ := bind_ok_iff.1 h
  obtain ⟨clustering, hclustering, heq⟩ := bind_ok_iff.1 h
  cases heq
  have hcolumn : ∀ c ∈ columns.map (·.2), c.type.Within keyspace := by
    intro c hc
    obtain ⟨p, hp, rfl⟩ := List.mem_map.1 hc
    obtain ⟨row, hrow⟩ := exists_of_forall₂ (mapM_ok_iff_forall₂.1 hcolumns).flip p hp
    exact Column.ofRow_within hscope hrow
  intro c hc
  rw [all, List.mem_append, List.mem_append] at hc
  rcases hc with (hc | hc) | hc
  · exact hcolumn c (key_subset (mapError_ok_iff.1 hpartition) hc)
  · exact hcolumn c (key_subset (mapError_ok_iff.1 hclustering) hc)
  · exact hcolumn c (outside_subset _ (List.mem_mergeSort.1 hc))

end Columns

theorem Table.ofRow_within (hscope : scope.Sound) {limit : Nat} {row : TableRow}
    {columns : List ColumnRow} {t : Table} (h : Table.ofRow limit scope row columns = .ok t) :
    t.columns.Within t.keyspace := by
  obtain ⟨out, hout, heq⟩ := bind_ok_iff.1 h
  cases heq
  exact Columns.ofRows_within hscope hout

theorem View.ofRow_within {scope : Scope} (hscope : scope.toTypeScope.Sound) {limit : Nat} {row : ViewRow}
    {columns : List ColumnRow} {v : View} (h : View.ofRow limit scope row columns = .ok (some v)) :
    v.columns.Within v.keyspace := by
  rw [View.ofRow] at h
  split at h
  · cases h
  · obtain ⟨out, hout, heq⟩ := bind_ok_iff.1 h
    cases heq
    exact Columns.ofRows_within hscope hout

/-! ## Keyspaces -/

/-- The types of a keyspace stand under their own names, and the columns of each table and view have
definitions of its own keyspace only. -/
structure Keyspace.Sound (k : Keyspace) : Prop where
  types : ∀ name definition, k.types.get? name = some definition → definition.Named k.name name
  tables : ∀ name table, k.tables.get? name = some table → table.columns.Within table.keyspace
  views : ∀ name view, k.views.get? name = some view → view.columns.Within view.keyspace

theorem Keyspace.empty_sound (name : String) : (Keyspace.empty name).Sound :=
  ⟨fun _ _ h => (nomatch h), fun _ _ h => (nomatch h), fun _ _ h => (nomatch h)⟩

namespace Builder

variable {b b' : Builder} {fallback : Option Scope}

/-- What a builder looks up in itself and in a fallback can be trusted if both can. -/
theorem scope_sound (hb : b.keyspace.Sound) (hfallback : ∀ f ∈ fallback, f.toTypeScope.Sound) :
    (b.scope fallback).toTypeScope.Sound := by
  refine ⟨fun keyspace name definition h => ?_, ?_⟩
  · rcases Option.or_eq_some_iff.1 h with hown | ⟨-, hother⟩
    · split at hown
      · next heq =>
        rw [heq]
        exact hb.types name definition hown
      · cases hown
    · obtain ⟨f, hf, hfound⟩ := Option.bind_eq_some_iff.1 hother
      exact (hfallback f hf).named keyspace name definition hfound
  · cases fallback with
    | none => exact fun _ _ => .tuple
    | some f => exact (hfallback f rfl).tuple

theorem define_sound (hb : b.keyspace.Sound) (hfallback : ∀ f ∈ fallback, f.toTypeScope.Sound)
    (d : TypeDraft) : (define fallback b d).keyspace.Sound := by
  refine ⟨fun name definition h => ?_, hb.tables, hb.views⟩
  rw [get?_define] at h
  split at h
  · next heq =>
    cases h
    cases heq
    exact d.define_named (scope_sound hb hfallback)
  · exact hb.types name definition h

theorem addTypes_sound (hb : b.keyspace.Sound) (hfallback : ∀ f ∈ fallback, f.toTypeScope.Sound)
    {rows : List TypeRow} (h : b.addTypes fallback rows = .ok b') : b'.keyspace.Sound := by
  obtain ⟨-, sorted, -, -, rfl⟩ := addTypes_ok_iff.1 h
  clear h
  induction sorted generalizing b with
  | nil => exact hb
  | cons d rest ih => exact ih (define_sound hb hfallback d)

theorem addTable_sound (hb : b.keyspace.Sound) (hfallback : ∀ f ∈ fallback, f.toTypeScope.Sound)
    {row : TableRow} {columns : List ColumnRow} (h : b.addTable fallback row columns = .ok b') :
    b'.keyspace.Sound := by
  obtain ⟨table, htable, heq⟩ := bind_ok_iff.1 h
  cases heq
  refine ⟨hb.types, fun name other hother => ?_, hb.views⟩
  dsimp only at hother
  rw [Dictionary.get?_insert] at hother
  split at hother
  · cases hother
    exact Table.ofRow_within (scope_sound hb hfallback) htable
  · exact hb.tables name other hother

theorem addView_sound (hb : b.keyspace.Sound) (hfallback : ∀ f ∈ fallback, f.toTypeScope.Sound)
    {row : ViewRow} {columns : List ColumnRow} {known : Bool}
    (h : b.addView fallback row columns = .ok (known, b')) : b'.keyspace.Sound := by
  obtain ⟨view, hview, heq⟩ := bind_ok_iff.1 h
  cases view with
  | none =>
    cases heq
    exact hb
  | some view =>
    cases heq
    refine ⟨hb.types, hb.tables, fun name other hother => ?_⟩
    dsimp only at hother
    rw [Dictionary.get?_insert] at hother
    split at hother
    · cases hother
      exact View.ofRow_within (scope_sound hb hfallback) hview
    · exact hb.views name other hother

end Builder

/-! ## Registries -/

/-- Keyspaces stand under their own names. -/
def Registry.Sound (r : Registry) : Prop :=
  ∀ name k, r.keyspace? name = some k → k.name = name ∧ k.Sound

namespace Registry

theorem empty_sound : Registry.empty.Sound := nofun

theorem replace_sound {r : Registry} (hr : r.Sound) {k : Keyspace} (hk : k.Sound) :
    (r.replace k).Sound := by
  intro name other h
  rcases replace_cases h with ⟨heq, rfl⟩ | h
  · exact ⟨heq, hk⟩
  · exact hr name other h

theorem remove_sound {r : Registry} (hr : r.Sound) (keyspace : String) : (r.remove keyspace).Sound :=
  fun name k h => hr name k (remove_subset h)

theorem scope_sound {r : Registry} (hr : r.Sound) : r.scope.toTypeScope.Sound := by
  refine ⟨fun keyspace name definition h => ?_, fun _ _ => .tuple⟩
  obtain ⟨k, hk, htype⟩ := Option.bind_eq_some_iff.1 h
  obtain ⟨rfl, hsound⟩ := hr keyspace k hk
  exact hsound.types name definition htype

end Registry

end Cql
