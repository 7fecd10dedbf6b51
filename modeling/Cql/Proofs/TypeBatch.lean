import Cql.Schema.Builder
import Cql.Proofs.DependencyOrder
import Cql.Proofs.Dictionary
import Cql.Proofs.Sequences
import Cql.Proofs.TypeMeaning
import Cql.Proofs.TypeParts

/-!
What a keyspace holds after user types were added to it. The types are defined one after the other, each
with what is known by then, and yet each stands there as if it had been defined at the end: by the
order in which they are defined, whatever a type refers to does not change any more.
-/

namespace Cql

/-! ## Rows and drafts -/

/-- A definition depends on what its references mean, and on nothing else. -/
theorem TypeDraft.define_congr {d : TypeDraft} {scope other : TypeScope} {keyspace : String}
    (htuple : scope.makeTuple = other.makeTuple)
    (h : ∀ name ∈ d.references, scope.userType? keyspace name = other.userType? keyspace name) :
    d.define scope keyspace = d.define other keyspace := by
  rw [define, define]
  congr 1
  refine List.map_congr_left fun (name, type) hfield => ?_
  have htype : type.resolve scope keyspace false = type.resolve other keyspace false :=
    TypeName.resolve_congr htuple
      (fun n hn => h n (List.mem_flatMap.2 ⟨(name, type), hfield, hn⟩)) false
  exact congrArg (fun r => (name, ResolvedType.type r)) htype

/-- What a row says, if it can be read. -/
theorem TypeRow.draft_ok_iff {limit : Nat} {row : TypeRow} {d : TypeDraft} :
    row.draft limit = .ok d ↔ row.fieldNames.length = row.fieldTypes.length ∧
      ∃ types, List.Forall₂ (fun t type => TypeName.read limit t = .ok type) row.fieldTypes types ∧
        d = ⟨row.name, row.fieldNames.zip types⟩ := by
  have hread : ∀ t type, (TypeName.read limit t).mapError SchemaFault.type = .ok type ↔
      TypeName.read limit t = .ok type := fun _ _ => mapError_ok_iff
  rw [draft]
  split
  · next hlength => simp [hlength]
  · next hlength =>
    simp only [bind_ok_iff, mapM_ok_iff_forall₂, hread, Except.ok.injEq]
    exact ⟨fun ⟨types, htypes, hd⟩ => ⟨not_not.1 hlength, types, htypes, hd.symm⟩,
      fun ⟨_, types, htypes, hd⟩ => ⟨types, htypes, hd.symm⟩⟩

theorem TypeRow.draft_name {limit : Nat} {row : TypeRow} {d : TypeDraft}
    (h : row.draft limit = .ok d) : d.name = row.name := by
  obtain ⟨-, types, -, rfl⟩ := draft_ok_iff.1 h
  rfl

/-- The types of the fields, read for themselves, are those of the definition. -/
theorem TypeRow.define_draft {limit : Nat} {row : TypeRow} {d : TypeDraft}
    (h : row.draft limit = .ok d) (scope : TypeScope) (keyspace : String) :
    ∃ types, row.fieldTypes.mapM (ColumnType.read limit scope keyspace) = .ok types ∧
      row.fieldNames.length = types.length ∧
      d.define scope keyspace = ⟨keyspace, row.name, row.fieldNames.zip types⟩ := by
  obtain ⟨hlength, names, hnames, rfl⟩ := draft_ok_iff.1 h
  refine ⟨names.map fun type => (type.resolve scope keyspace false).type, ?_, ?_, ?_⟩
  · rw [mapM_ok_iff_forall₂, List.forall₂_map_right_iff]
    refine hnames.imp fun t type hread => ?_
    rw [ColumnType.read, hread]
  · rw [hlength, hnames.length_eq, List.length_map]
  · rw [TypeDraft.define, List.zip_map_right]
    rfl

/-! ## Parts of types -/

/-- The types that texts of a scope have. -/
def TypeScope.Has (scope : TypeScope) (keyspace : String) (type : ColumnType) : Prop :=
  ∃ (e : TypeName) (frozen : Bool), (e.resolve scope keyspace frozen).type = type

namespace TypeScope

variable {scope : TypeScope} {keyspace : String}

/-- The direct parts are such types. A definition is one that was looked up, and a placeholder stands
for a name that was not found. -/
def HasParts (scope : TypeScope) (keyspace : String) : ColumnType → Prop
  | .native _ | .empty => True
  | .list element _ | .set element _ => scope.Has keyspace element
  | .map key value _ => scope.Has keyspace key ∧ scope.Has keyspace value
  | .tuple elements => ∀ element ∈ elements, scope.Has keyspace element
  | .userDefined definition _ => ∃ name, scope.userType? keyspace name = some definition
  | .custom name => scope.userType? keyspace name = Option.none

theorem Has.parts {type : ColumnType} (htuple : ColumnType.Arranging scope.makeTuple)
    (h : scope.Has keyspace type) : scope.HasParts keyspace type := by
  obtain ⟨e, frozen, rfl⟩ := h
  induction e generalizing frozen with
  | native type => trivial
  | empty => trivial
  | list element _ => exact ⟨element, false, rfl⟩
  | set element _ => exact ⟨element, false, rfl⟩
  | map key value _ _ => exact ⟨⟨key, false, rfl⟩, ⟨value, false, rfl⟩⟩
  | frozen inner ih => exact ih true
  | tuple elements _ =>
    obtain ⟨arranged, hsubset, harranged⟩ :=
      htuple (elements.map fun e => (e.resolve scope keyspace false).type)
    rw [TypeName.resolve, TypeName.resolveAll_eq]
    show scope.HasParts keyspace (scope.makeTuple _)
    rw [harranged]
    intro element helement
    obtain ⟨e, -, rfl⟩ := List.mem_map.1 (hsubset helement)
    exact ⟨e, false, rfl⟩
  | user name =>
    rw [TypeName.resolve]
    cases hname : scope.userType? keyspace name with
    | some definition => exact ⟨name, hname⟩
    | none => exact hname

/-- So are all their parts, as long as the definitions that are looked into are made of such types. -/
theorem Has.part {into : UserType → Prop} {part type : ColumnType}
    (htuple : ColumnType.Arranging scope.makeTuple)
    (hinto : ∀ definition, into definition →
      (∃ name, scope.userType? keyspace name = some definition) →
      ∀ field ∈ definition.fields, scope.Has keyspace field.2)
    (hpart : ColumnType.Part into part type) (h : scope.Has keyspace type) :
    scope.Has keyspace part := by
  induction hpart with
  | whole => exact h
  | list _ ih => exact ih (h.parts htuple)
  | set _ ih => exact ih (h.parts htuple)
  | key _ ih => exact ih (h.parts htuple).1
  | value _ ih => exact ih (h.parts htuple).2
  | element hmem _ ih => exact ih (h.parts htuple _ hmem)
  | field hdefinition hmem _ ih => exact ih (hinto _ hdefinition (h.parts htuple) _ hmem)

end TypeScope

namespace Builder

open DependencyOrder

variable (fallback : Option Scope)

/-! ## Defining types one after the other -/

theorem get?_define (b : Builder) (d : TypeDraft) (name : String) :
    (define fallback b d).keyspace.types.get? name =
      if d.name = name then some (d.define (b.scope fallback).toTypeScope b.keyspace.name)
      else b.keyspace.types.get? name :=
  Dictionary.get?_insert _ _ _ _

/-- Nothing but the user types changes. -/
theorem foldl_define_eq (drafts : List TypeDraft) (b : Builder) :
    drafts.foldl (define fallback) b = { b with keyspace := { b.keyspace with
      types := (drafts.foldl (define fallback) b).keyspace.types } } := by
  induction drafts generalizing b with
  | nil => rfl
  | cons d rest ih =>
    rw [List.foldl_cons, ih]
    rfl

theorem name_foldl_define (drafts : List TypeDraft) (b : Builder) :
    (drafts.foldl (define fallback) b).keyspace.name = b.keyspace.name := by
  rw [foldl_define_eq]

theorem get?_foldl_define (drafts : List TypeDraft) (b : Builder) {name : String}
    (h : name ∉ drafts.map (·.name)) :
    (drafts.foldl (define fallback) b).keyspace.types.get? name = b.keyspace.types.get? name := by
  induction drafts generalizing b with
  | nil => rfl
  | cons d rest ih =>
    obtain ⟨hd, hrest⟩ := not_or.1 (mt List.mem_cons.2 h)
    rw [List.foldl_cons, ih _ hrest, get?_define, if_neg fun heq => hd heq.symm]

/-- Builders of one keyspace that hold the same type of a name answer the same to it. -/
theorem userType?_congr {b c : Builder} {name : String}
    (hname : b.keyspace.name = c.keyspace.name)
    (h : b.keyspace.types.get? name = c.keyspace.types.get? name) (keyspace : String) :
    b.userType? fallback keyspace name = c.userType? fallback keyspace name := by
  simp only [userType?, hname, h]

/-- The types that were defined are those that would be defined now. -/
theorem get?_foldl_define_self {drafts : List TypeDraft} (horder : InOrder drafts)
    (hnames : (drafts.map (·.name)).Nodup) (b : Builder) :
    ∀ d ∈ drafts, (drafts.foldl (define fallback) b).keyspace.types.get? d.name =
      some (d.define ((drafts.foldl (define fallback) b).scope fallback).toTypeScope
        b.keyspace.name) := by
  induction drafts generalizing b with
  | nil => exact fun d hd => absurd hd List.not_mem_nil
  | cons first rest ih =>
    obtain ⟨hfirst, hrest⟩ := horder
    obtain ⟨hname, hnames⟩ := List.nodup_cons.1 hnames
    refine List.forall_mem_cons.2 ⟨?_, fun d hd => ih hrest hnames (define fallback b first) d hd⟩
    rw [List.foldl_cons, get?_foldl_define fallback rest _ hname, get?_define, if_pos rfl]
    -- what the first type refers to is not among the types that are defined here
    refine congrArg some (TypeDraft.define_congr rfl fun name hname => ?_)
    refine userType?_congr fallback (name_foldl_define fallback (first :: rest) b).symm ?_ _
    refine (get?_foldl_define fallback (first :: rest) b fun hmem => ?_).symm
    obtain ⟨e, he, rfl⟩ := List.mem_map.1 hmem
    exact hfirst e he hname

/-- Two orders of the same types make the same of a keyspace. -/
theorem foldl_define_perm {drafts others : List TypeDraft} (horder : InOrder drafts)
    (hothers : InOrder others) (hperm : drafts.Perm others)
    (hnames : (drafts.map (·.name)).Nodup) (b : Builder) :
    drafts.foldl (define fallback) b = others.foldl (define fallback) b := by
  have hothernames := (hperm.map (·.name)).nodup_iff.1 hnames
  have hkeyspace := (name_foldl_define fallback drafts b).trans
    (name_foldl_define fallback others b).symm
  have hout : ∀ name ∉ drafts.map (·.name),
      (drafts.foldl (define fallback) b).keyspace.types.get? name =
        (others.foldl (define fallback) b).keyspace.types.get? name := by
    intro name hname
    rw [get?_foldl_define fallback drafts b hname,
      get?_foldl_define fallback others b (mt (hperm.map (·.name)).mem_iff.2 hname)]
  have hin : ∀ d ∈ drafts, (drafts.foldl (define fallback) b).keyspace.types.get? d.name =
      (others.foldl (define fallback) b).keyspace.types.get? d.name := by
    refine horder.of_references fun d hd hrefs => ?_
    rw [get?_foldl_define_self fallback horder hnames b d hd,
      get?_foldl_define_self fallback hothers hothernames b d (hperm.mem_iff.1 hd)]
    refine congrArg some (TypeDraft.define_congr rfl fun name hname => ?_)
    refine userType?_congr fallback hkeyspace ?_ _
    by_cases hmem : name ∈ drafts.map (·.name)
    · obtain ⟨e, he, rfl⟩ := List.mem_map.1 hmem
      exact hrefs e he hname
    · exact hout name hmem
  have htypes : (drafts.foldl (define fallback) b).keyspace.types =
      (others.foldl (define fallback) b).keyspace.types := by
    refine Dictionary.ext_get? fun name => ?_
    by_cases hmem : name ∈ drafts.map (·.name)
    · obtain ⟨d, hd, rfl⟩ := List.mem_map.1 hmem
      exact hin d hd
    · exact hout name hmem
  rw [foldl_define_eq fallback drafts, foldl_define_eq fallback others, htypes]

/-! ## Adding types -/

/-- The builder holds the type of a row, with the fields read as the builder is now. -/
def Holds (b : Builder) (row : TypeRow) : Prop :=
  ∃ types, row.fieldTypes.mapM
      (ColumnType.read b.limit (b.scope fallback).toTypeScope b.keyspace.name) = .ok types ∧
    row.fieldNames.length = types.length ∧
    b.keyspace.types.get? row.name =
      some ⟨b.keyspace.name, row.name, row.fieldNames.zip types⟩

variable {fallback} {b b' : Builder} {rows : List TypeRow}

theorem addTypes_ok_iff : b.addTypes fallback rows = .ok b' ↔
    ∃ drafts sorted, List.Forall₂ (fun row d => TypeRow.draft b.limit row = .ok d) rows drafts ∧
      order (latest drafts) = .ok sorted ∧ sorted.foldl (define fallback) b = b' := by
  simp only [addTypes, bind_ok_iff, mapM_ok_iff_forall₂, Except.ok.injEq]
  exact ⟨fun ⟨drafts, hdrafts, sorted, h⟩ => ⟨drafts, sorted, hdrafts, h⟩,
    fun ⟨drafts, sorted, hdrafts, h⟩ => ⟨drafts, hdrafts, sorted, h⟩⟩

/-- Drafts have the names of their rows. -/
theorem names_drafts {limit : Nat} {drafts : List TypeDraft}
    (h : List.Forall₂ (fun row d => TypeRow.draft limit row = .ok d) rows drafts) :
    drafts.map (·.name) = rows.map (·.name) := by
  induction h with
  | nil => rfl
  | cons hd _ ih => rw [List.map_cons, List.map_cons, ih, TypeRow.draft_name hd]

/-- The last row of a name gives the type that counts. -/
theorem exists_latest {limit : Nat} {drafts : List TypeDraft} {before after : List TypeRow}
    {row : TypeRow} (hlast : row.name ∉ after.map (·.name))
    (h : List.Forall₂ (fun row d => TypeRow.draft limit row = .ok d)
      (before ++ row :: after) drafts) :
    ∃ d ∈ latest drafts, row.draft limit = .ok d := by
  induction before generalizing drafts with
  | nil =>
    obtain ⟨d, rest, hd, hrest, rfl⟩ := List.forall₂_cons_left_iff.1 h
    refine ⟨d, mem_latest_self ?_, hd⟩
    rwa [names_drafts hrest, TypeRow.draft_name hd]
  | cons r before ih =>
    obtain ⟨e, rest, -, hrest, rfl⟩ := List.forall₂_cons_left_iff.1 h
    obtain ⟨d, hmem, hd⟩ := ih hrest
    exact ⟨d, mem_latest_cons hmem, hd⟩

/-- Whatever order of the types is taken, the outcome is the same. -/
theorem foldl_order (b : Builder) (fallback : Option Scope) {drafts sorted others : List TypeDraft}
    (hsorted : order (latest drafts) = .ok sorted) (hperm : others.Perm (latest drafts)) :
    ∃ out, order others = .ok out ∧
      out.foldl (define fallback) b = sorted.foldl (define fallback) b := by
  have hnames := latest_names_nodup drafts
  have hothers := (hperm.map (·.name)).nodup_iff.2 hnames
  obtain ⟨hsortedPerm, hinOrder⟩ := order_ok hnames hsorted
  obtain ⟨out, hout⟩ := exists_order hothers (hsortedPerm.trans hperm.symm) hinOrder
  obtain ⟨houtPerm, houtOrder⟩ := order_ok hothers hout
  refine ⟨out, hout, foldl_define_perm fallback houtOrder hinOrder ?_ ?_ b⟩
  · exact houtPerm.trans (hperm.trans hsortedPerm.symm)
  · exact (houtPerm.map (·.name)).nodup_iff.2 hothers

/-- The types that were added are those that would be defined now. -/
theorem addTypes_get? {drafts : List TypeDraft}
    (hdrafts : List.Forall₂ (fun row d => TypeRow.draft b.limit row = .ok d) rows drafts)
    (h : b.addTypes fallback rows = .ok b') {d : TypeDraft} (hd : d ∈ latest drafts) :
    b'.keyspace.types.get? d.name =
      some (d.define (b'.scope fallback).toTypeScope b.keyspace.name) := by
  obtain ⟨others, sorted, hothers, hsorted, rfl⟩ := addTypes_ok_iff.1 h
  have hsame : others = drafts :=
    Except.ok.inj ((mapM_ok_iff_forall₂.2 hothers).symm.trans (mapM_ok_iff_forall₂.2 hdrafts))
  subst hsame
  have hnames := latest_names_nodup others
  obtain ⟨hperm, horder⟩ := order_ok hnames hsorted
  exact get?_foldl_define_self fallback horder ((hperm.map (·.name)).nodup_iff.2 hnames) b d
    (hperm.mem_iff.2 hd)

theorem addTypes_eq (h : b.addTypes fallback rows = .ok b') :
    b' = { b with keyspace := { b.keyspace with types := b'.keyspace.types } } := by
  obtain ⟨drafts, sorted, -, -, rfl⟩ := addTypes_ok_iff.1 h
  exact foldl_define_eq fallback sorted b

theorem addTypes_holds (h : b.addTypes fallback rows = .ok b') {before after : List TypeRow}
    {row : TypeRow} (hrows : rows = before ++ row :: after)
    (hlast : row.name ∉ after.map (·.name)) : b'.Holds fallback row := by
  obtain ⟨drafts, -, hdrafts, -⟩ := addTypes_ok_iff.1 h
  obtain ⟨d, hmem, hd⟩ := exists_latest hlast (hrows ▸ hdrafts)
  have hget := addTypes_get? hdrafts h hmem
  obtain ⟨types, htypes, hlength, hdefine⟩ :=
    TypeRow.define_draft hd (b'.scope fallback).toTypeScope b.keyspace.name
  have heq := addTypes_eq h
  have hlimit : b'.limit = b.limit := by rw [heq]
  have hkeyspace : b'.keyspace.name = b.keyspace.name := by rw [heq]
  refine ⟨types, ?_, hlength, ?_⟩
  · rw [hlimit, hkeyspace]
    exact htypes
  · rw [hkeyspace, ← TypeRow.draft_name hd, hget, hdefine, TypeRow.draft_name hd]

/-- Other types stay as they are. -/
theorem addTypes_other (h : b.addTypes fallback rows = .ok b') {name : String}
    (hname : name ∉ rows.map (·.name)) :
    b'.keyspace.types.get? name = b.keyspace.types.get? name := by
  obtain ⟨drafts, sorted, hdrafts, hsorted, rfl⟩ := addTypes_ok_iff.1 h
  obtain ⟨hperm, -⟩ := order_ok (latest_names_nodup drafts) hsorted
  refine get?_foldl_define fallback sorted b fun hmem => hname ?_
  rw [← names_drafts hdrafts]
  exact mem_names_latest.1 ((hperm.map (·.name)).mem_iff.1 hmem)

/-- Rows of different names may come in any order. -/
theorem addTypes_perm (h : b.addTypes fallback rows = .ok b') {others : List TypeRow}
    (hperm : others.Perm rows) (hnames : (rows.map (·.name)).Nodup) :
    b.addTypes fallback others = .ok b' := by
  obtain ⟨drafts, sorted, hdrafts, hsorted, rfl⟩ := addTypes_ok_iff.1 h
  obtain ⟨otherDrafts, hothers, hdraftsPerm⟩ := List.perm_comp_forall₂ hperm hdrafts
  have hotherNames : (otherDrafts.map (·.name)).Nodup :=
    names_drafts hothers ▸ (hperm.map (·.name)).nodup_iff.2 hnames
  have hlatest : (latest otherDrafts).Perm (latest drafts) := by
    rw [latest_eq_self hotherNames, latest_eq_self (names_drafts hdrafts ▸ hnames)]
    exact hdraftsPerm
  obtain ⟨out, hout, heq⟩ := foldl_order b fallback hsorted hlatest
  exact addTypes_ok_iff.2 ⟨otherDrafts, out, hothers, hout, heq⟩

theorem userType?_of_get? {name : String} {definition : UserType}
    (h : b.keyspace.types.get? name = some definition) :
    b.userType? fallback b.keyspace.name name = some definition := by
  rw [userType?, if_pos rfl, h]
  rfl

/-- Each name of the rows has a type afterwards, with fields that are read then. -/
theorem exists_added (h : b.addTypes fallback rows = .ok b') {name : String}
    (hname : name ∈ rows.map (·.name)) :
    ∃ d : TypeDraft, d.name = name ∧ b'.keyspace.types.get? name =
      some (d.define (b'.scope fallback).toTypeScope b.keyspace.name) := by
  obtain ⟨drafts, -, hdrafts, -⟩ := addTypes_ok_iff.1 h
  rw [← names_drafts hdrafts, ← mem_names_latest] at hname
  obtain ⟨d, hd, rfl⟩ := List.mem_map.1 hname
  exact ⟨d, rfl, addTypes_get? hdrafts h hd⟩

/-- A definition of a name of the rows that is found afterwards, under whatever name, is the one that
was added. -/
theorem addTypes_found (h : b.addTypes fallback rows = .ok b')
    (hnamed : ∀ name definition,
      b.userType? fallback b.keyspace.name name = some definition → definition.name = name)
    {definition : UserType} (hmem : definition.name ∈ rows.map (·.name)) {name : String}
    (hfound : b'.userType? fallback b.keyspace.name name = some definition) :
    b'.keyspace.types.get? definition.name = some definition := by
  have hkeyspace : b'.keyspace.name = b.keyspace.name := by rw [addTypes_eq h]
  by_cases hname : name ∈ rows.map (·.name)
  · obtain ⟨d, rfl, hget⟩ := exists_added h hname
    rw [← hkeyspace, userType?_of_get? hget] at hfound
    cases hfound
    exact hget
  · rw [userType?_congr fallback hkeyspace (addTypes_other h hname)] at hfound
    exact absurd (hnamed name definition hfound ▸ hmem) hname

/-- The types in a type that was added are those of texts, if definitions of names of the rows are the
only ones that are looked into. -/
theorem addTypes_has (h : b.addTypes fallback rows = .ok b')
    (htuple : ColumnType.Arranging (makeTuple fallback))
    (hnamed : ∀ name definition,
      b.userType? fallback b.keyspace.name name = some definition → definition.name = name)
    {definition : UserType} {frozen : Bool} {part : ColumnType}
    (hget : b'.keyspace.types.get? definition.name = some definition)
    (hpart : ColumnType.Part (fun d => d.name ∈ rows.map (·.name)) part
      (.userDefined definition frozen)) :
    (b'.scope fallback).Has b.keyspace.name part := by
  have hkeyspace : b'.keyspace.name = b.keyspace.name := by rw [addTypes_eq h]
  have hlookup : (b'.scope fallback).userType? b.keyspace.name definition.name = some definition :=
    hkeyspace ▸ userType?_of_get? hget
  refine TypeScope.Has.part htuple ?_ hpart ⟨.user definition.name, frozen, ?_⟩
  · rintro outer houter ⟨name, hfound⟩ field hfield
    obtain ⟨d, -, hdefined⟩ := exists_added h houter
    rw [addTypes_found h hnamed houter hfound] at hdefined
    cases hdefined
    obtain ⟨⟨n, e⟩, -, rfl⟩ := List.mem_map.1 hfield
    exact ⟨e, false, rfl⟩
  · rw [TypeName.resolve, hlookup]

/-- Inside a type that was added there are no earlier definitions of types that were added, and no
placeholders for them, except inside definitions of other types. -/
theorem addTypes_parts (h : b.addTypes fallback rows = .ok b')
    (htuple : ColumnType.Arranging (makeTuple fallback))
    (hnamed : ∀ name definition,
      b.userType? fallback b.keyspace.name name = some definition → definition.name = name)
    {definition : UserType} {frozen : Bool} {part : ColumnType}
    (hget : b'.keyspace.types.get? definition.name = some definition)
    (hpart : ColumnType.Part (fun d => d.name ∈ rows.map (·.name)) part
      (.userDefined definition frozen)) :
    (∀ inner fr, part = .userDefined inner fr → inner.name ∈ rows.map (·.name) →
      b'.keyspace.types.get? inner.name = some inner) ∧
    ∀ name, part = .custom name → name ∉ rows.map (·.name) := by
  have hparts := (addTypes_has h htuple hnamed hget hpart).parts htuple
  constructor
  · rintro inner fr rfl hinner
    obtain ⟨name, hfound⟩ := hparts
    exact addTypes_found h hnamed hinner hfound
  · rintro name rfl hmem
    obtain ⟨d, -, hdefined⟩ := exists_added h hmem
    have hkeyspace : b'.keyspace.name = b.keyspace.name := by rw [addTypes_eq h]
    have hfound := @userType?_of_get? fallback _ _ _ hdefined
    rw [hkeyspace] at hfound
    exact Option.some_ne_none _ (hfound.symm.trans hparts)

/-- Adding types makes the fixed point of their rows. Each name has the type of its last row, with
fields read as the builder is after all rows; other entries stay. Neither the order of the rows nor
the one in which the types are sorted matters. In the types that were added, every definition of one of
them is the one that the builder has, except inside definitions from elsewhere. -/
theorem addTypes_fixedPoint (h : b.addTypes fallback rows = .ok b') :
    (∀ before row after, rows = before ++ row :: after → row.name ∉ after.map (·.name) →
      b'.Holds fallback row) ∧
    (∀ name ∉ rows.map (·.name),
      b'.keyspace.types.get? name = b.keyspace.types.get? name) ∧
    b' = { b with keyspace := { b.keyspace with types := b'.keyspace.types } } ∧
    (∀ others, others.Perm rows → (rows.map (·.name)).Nodup →
      b.addTypes fallback others = .ok b') ∧
    (∀ drafts, rows.mapM (TypeRow.draft b.limit) = .ok drafts →
      ∀ others, others.Perm (latest drafts) →
        ∃ sorted, order others = .ok sorted ∧ sorted.foldl (define fallback) b = b') ∧
    (ColumnType.Arranging (makeTuple fallback) →
      (∀ name definition,
        b.userType? fallback b.keyspace.name name = some definition → definition.name = name) →
      ∀ definition frozen part, b'.keyspace.types.get? definition.name = some definition →
        ColumnType.Part (fun d => d.name ∈ rows.map (·.name)) part
          (.userDefined definition frozen) →
        (∀ inner fr, part = .userDefined inner fr → inner.name ∈ rows.map (·.name) →
          b'.keyspace.types.get? inner.name = some inner) ∧
        ∀ name, part = .custom name → name ∉ rows.map (·.name)) := by
  refine ⟨fun _ _ _ hrows hlast => addTypes_holds h hrows hlast, fun _ hname => addTypes_other h hname,
    addTypes_eq h, fun _ hperm hnames => addTypes_perm h hperm hnames, ?_,
    fun htuple hnamed _ _ _ hget hpart => addTypes_parts h htuple hnamed hget hpart⟩
  intro drafts hdrafts others hperm
  obtain ⟨read, sorted, hread, hsorted, rfl⟩ := addTypes_ok_iff.1 h
  have hsame : read = drafts := Except.ok.inj ((mapM_ok_iff_forall₂.2 hread).symm.trans hdrafts)
  subst hsame
  exact foldl_order b fallback hsorted hperm

/-- A row may come before the one that it refers to. -/
theorem addTypes_fixedPoint_reversed : ∃ b',
    (start "ks" 64).addTypes none
      [⟨"b", ["y"], ["list<a>".toList]⟩, ⟨"a", ["x"], ["int".toList]⟩] = .ok b' ∧
    b'.Holds none ⟨"b", ["y"], ["list<a>".toList]⟩ ∧
    b'.keyspace.types.get? "b" = some ⟨"ks", "b",
      [("y", .list (.userDefined ⟨"ks", "a", [("x", .native .int)]⟩ false) false)]⟩ := by
  have h : (start "ks" 64).addTypes none
      [⟨"b", ["y"], ["list<a>".toList]⟩, ⟨"a", ["x"], ["int".toList]⟩] =
    .ok ⟨⟨"ks", ⟨[("a", ⟨"ks", "a", [("x", .native .int)]⟩), ("b", ⟨"ks", "b",
      [("y", .list (.userDefined ⟨"ks", "a", [("x", .native .int)]⟩ false) false)]⟩)],
      by decide⟩, .empty, .empty⟩, 64⟩ := by
    with_unfolding_all rfl
  exact ⟨_, h, (addTypes_fixedPoint h).1 [] _ _ rfl (by decide), rfl⟩

section Outside

private def before : UserType := ⟨"ks", "a", [("x", .native .int)]⟩

private def outside : UserType := ⟨"ks", "b", [("y", .userDefined before false)]⟩

private def after : UserType := ⟨"ks", "a", [("x", .native .text)]⟩

private def added : UserType := ⟨"ks", "c", [("z", .userDefined outside false)]⟩

/-- A type that was there before keeps the definitions it was made of, and brings them into the types
that are added, although one of them is replaced. -/
theorem addTypes_keeps_outside : ¬ ∀ (earlier rows : List TypeRow) (b b' : Builder),
    (start "ks" 64).addTypes none earlier = .ok b → b.addTypes none rows = .ok b' →
    ∀ definition inner, definition.name ∈ rows.map (·.name) →
      b'.keyspace.types.get? definition.name = some definition →
      ColumnType.Part (fun _ => True) (.userDefined inner false) (.userDefined definition false) →
      inner.name ∈ rows.map (·.name) → b'.keyspace.types.get? inner.name = some inner := by
  intro h
  have hbefore : (start "ks" 64).addTypes none
      [⟨"a", ["x"], ["int".toList]⟩, ⟨"b", ["y"], ["a".toList]⟩] =
      .ok ⟨⟨"ks", ⟨[("a", before), ("b", outside)], by decide⟩, .empty, .empty⟩, 64⟩ := by
    with_unfolding_all rfl
  have hafter : addTypes ⟨⟨"ks", ⟨[("a", before), ("b", outside)], by decide⟩, .empty, .empty⟩, 64⟩
      none [⟨"a", ["x"], ["text".toList]⟩, ⟨"c", ["z"], ["b".toList]⟩] =
      .ok ⟨⟨"ks", ⟨[("a", after), ("b", outside), ("c", added)], by decide⟩, .empty, .empty⟩,
        64⟩ := by
    with_unfolding_all rfl
  have hpart : ColumnType.Part (fun _ => True) (.userDefined before false)
      (.userDefined added false) :=
    .field trivial List.mem_cons_self (.field trivial List.mem_cons_self .whole)
  have hget := h _ _ _ _ hbefore hafter added before (by decide) rfl hpart (by decide)
  have hsame : after = before := Option.some.inj hget
  exact absurd hsame (by decide +kernel)

end Outside

end Builder

end Cql
