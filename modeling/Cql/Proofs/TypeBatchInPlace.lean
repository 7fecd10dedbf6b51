import Cql.Schema.InPlace
import Cql.Proofs.TypeBatch
import Cql.Proofs.TypeReferences

/-!
Adding user types in place is all or nothing, although the definitions are put in one by one. Whether a
text can be read does not depend on what is known, so that no row fails the second time it is read, and
the outcome is the one of reading all rows at once.
-/

namespace Cql

/-! ## Reading rows twice -/

/-- The draft of a row, less its fields. -/
def TypeDraft.outlined (d : TypeDraft) : TypeDraft := .mentioning d.name d.references

theorem TypeDraft.references_mentioning (name : String) (names : List String) :
    (mentioning name names).references = names := by
  simp [mentioning, references, List.flatMap_map, TypeName.references]

@[simp] theorem TypeDraft.references_outlined (d : TypeDraft) :
    d.outlined.references = d.references := references_mentioning _ _

@[simp] theorem TypeDraft.name_outlined (d : TypeDraft) : d.outlined.name = d.name := rfl

theorem TypeDraft.references_zip (name : String) {names : List String} {types : List TypeName}
    (hlength : names.length = types.length) :
    references ⟨name, names.zip types⟩ = types.flatMap TypeName.references := by
  induction types generalizing names with
  | nil => simp [references]
  | cons type types ih =>
    cases names with
    | nil => cases hlength
    | cons n names =>
      have hrest := ih (Nat.succ.inj hlength)
      rw [references] at hrest ⊢
      rw [List.zip_cons_cons, List.flatMap_cons, hrest, List.flatMap_cons]

/-- Collecting the names of a row fails as reading it does, and collects the references of its draft. -/
theorem TypeRow.outline_eq (limit : Nat) (row : TypeRow) :
    row.outline limit = (row.draft limit).map TypeDraft.outlined := by
  rw [outline, draft]
  split
  · rfl
  · next hlength =>
    have hcollect : (row.fieldTypes.mapM fun t => (TypePass.collect limit t).mapError SchemaFault.type) =
        (row.fieldTypes.mapM fun t => (TypeName.read limit t).mapError SchemaFault.type).map
          (List.map TypeName.references) := by
      rw [← mapM_map]
      congr 1
      funext t
      rw [TypePass.collect_eq]
      cases TypeName.read limit t <;> rfl
    rw [hcollect]
    cases hread : row.fieldTypes.mapM fun t => (TypeName.read limit t).mapError SchemaFault.type with
    | error fault => rfl
    | ok types =>
      have htypes : row.fieldNames.length = types.length :=
        (not_not.1 hlength).trans (mapM_ok_iff_forall₂.1 hread).length_eq
      have hreferences := TypeDraft.references_zip row.name htypes
      simp [TypeDraft.outlined, hreferences, List.flatMap_def]

theorem TypeRow.fields_eq (limit : Nat) (scope : TypeScope) (keyspace : String) {row : TypeRow}
    (hlength : row.fieldNames.length = row.fieldTypes.length) :
    row.fields limit scope keyspace =
      (row.fieldTypes.mapM (ColumnType.read limit scope keyspace)).map row.fieldNames.zip := by
  rw [fields, ← mapM_zip hlength]
  congr 1
  funext ⟨name, t⟩
  dsimp only
  rw [TypePass.parse_eq, ColumnType.read]
  cases TypeName.read limit t <;> rfl

/-- A row that could be read is read again, whatever is known by then. -/
theorem TypeRow.fields_define {limit : Nat} {row : TypeRow} {d : TypeDraft}
    (h : row.draft limit = .ok d) (scope : TypeScope) (keyspace : String) :
    row.fields limit scope keyspace = .ok (d.define scope keyspace).fields := by
  obtain ⟨types, htypes, -, hdefine⟩ := define_draft h scope keyspace
  rw [fields_eq limit scope keyspace (draft_ok_iff.1 h).1, htypes, hdefine]
  rfl

namespace Builder

open DependencyOrder

/-! ## Work on a builder -/

namespace Work

variable {α β : Type}

@[simp] theorem on_pure (a : α) (b : Builder) : (pure a : Work α).on b = (.ok a, b) := rfl

@[simp] theorem on_get (b : Builder) : (get : Work Builder).on b = (.ok b, b) := rfl

@[simp] theorem on_set (b c : Builder) : (set c : Work Unit).on b = (.ok (), c) := rfl

@[simp] theorem on_of (x : Except SchemaFault α) (b : Builder) : (of x).on b = (x, b) := rfl

theorem on_bind (work : Work α) (next : α → Work β) (b : Builder) :
    (work >>= next).on b =
      match work.on b with
      | (.ok a, c) => (next a).on c
      | (.error fault, c) => (.error fault, c) := by
  show (ExceptT.run (work >>= next)).run b = _
  rw [ExceptT.run_bind, StateT.run_bind, on]
  generalize (ExceptT.run work).run b = out
  obtain ⟨answer, c⟩ := out
  cases answer <;> rfl

end Work

variable (fallback : Option Scope) {b : Builder}

/-! ## Putting in definitions -/

/-- A row that could be read is put in as it was read. -/
theorem insertRow_on {row : TypeRow} {d : TypeDraft} (h : row.draft b.limit = .ok d) :
    (insertRow fallback row).on b = (.ok (), define fallback b d) := by
  rw [insertRow, Work.on_bind, Work.on_get]
  dsimp only
  rw [Work.on_bind, Work.on_of, TypeRow.fields_define h]
  dsimp only
  rw [Work.on_set, define, ← TypeRow.draft_name h]
  rfl

/-- So are all of them, one after the other. -/
theorem insertRows_on {rows : List TypeRow} {drafts : List TypeDraft}
    (h : List.Forall₂ (fun row d => TypeRow.draft b.limit row = .ok d) rows drafts) :
    (insertRows fallback rows).on b = (.ok (), drafts.foldl (define fallback) b) := by
  generalize hlimit : b.limit = limit at h
  induction h generalizing b with
  | nil => rfl
  | cons hrow _ ih =>
    subst hlimit
    rw [insertRows, Work.on_bind, insertRow_on fallback hrow]
    exact ih rfl

/-! ## Rows and their drafts by name -/

theorem lastRow?_cons (row : TypeRow) (rows : List TypeRow) (name : String) :
    lastRow? (row :: rows) name =
      (lastRow? rows name).or (if row.name = name then some row else none) := by
  rw [lastRow?, List.reverse_cons, List.find?_append, lastRow?]
  by_cases h : row.name = name <;> simp [h]

theorem lastRow?_mem {rows : List TypeRow} {row : TypeRow} {name : String}
    (h : lastRow? rows name = some row) : row ∈ rows :=
  List.mem_reverse.1 (List.mem_of_find?_eq_some h)

/-- The drafts that count are those of the last rows of their names. -/
theorem lastRow?_latest {limit : Nat} {rows : List TypeRow} {drafts : List TypeDraft}
    (h : List.Forall₂ (fun row d => TypeRow.draft limit row = .ok d) rows drafts) :
    ∀ d ∈ latest drafts, ∃ row, lastRow? rows d.name = some row ∧ row.draft limit = .ok d := by
  induction h with
  | nil => exact fun d hd => absurd hd List.not_mem_nil
  | @cons row e rows drafts hrow hrows ih =>
    -- the last row of a name stays the last one behind another row
    have hlater : ∀ d ∈ latest drafts,
        ∃ r, lastRow? (row :: rows) d.name = some r ∧ r.draft limit = .ok d := by
      intro d hd
      obtain ⟨r, hlast, hr⟩ := ih d hd
      exact ⟨r, by rw [lastRow?_cons, hlast, Option.some_or], hr⟩
    intro d hd
    rw [latest] at hd
    split at hd
    · exact hlater d hd
    · next hnone =>
      rcases List.mem_cons.1 hd with rfl | hd
      · refine ⟨row, ?_, hrow⟩
        have hfree : lastRow? rows d.name = none := by
          rw [lastRow?, List.find?_eq_none]
          intro r hr heq
          refine hnone ?_
          have hname : d.name ∈ drafts.map (·.name) := by
            rw [names_drafts hrows]
            exact List.mem_map.2 ⟨r, List.mem_reverse.1 hr, by simpa using heq⟩
          obtain ⟨e, he, hname⟩ := List.mem_map.1 hname
          exact List.any_eq_true.2 ⟨e, he, by simpa using hname⟩
        rw [lastRow?_cons, hfree, Option.none_or, if_pos (TypeRow.draft_name hrow).symm]
      · exact hlater d hd

theorem latest_outlined (drafts : List TypeDraft) :
    latest (drafts.map TypeDraft.outlined) = (latest drafts).map TypeDraft.outlined := by
  induction drafts with
  | nil => rfl
  | cons d rest ih =>
    have hlater : (rest.map TypeDraft.outlined).any (·.name == d.outlined.name) =
        rest.any (·.name == d.name) := by
      rw [List.any_map]
      rfl
    rw [List.map_cons, latest, hlater, ih, latest]
    split <;> rfl

theorem inOrder_outlined {drafts : List TypeDraft} :
    InOrder (drafts.map TypeDraft.outlined) ↔ InOrder drafts := by
  induction drafts with
  | nil => rfl
  | cons d rest ih =>
    rw [List.map_cons, InOrder, InOrder, ih, ← List.map_cons, List.forall_mem_map]
    simp

/-- The rows that are put in are those of the drafts, in the same order. -/
theorem rows_outlined {limit : Nat} {rows : List TypeRow} {drafts : List TypeDraft}
    (h : ∀ d ∈ drafts, ∃ row, lastRow? rows d.name = some row ∧ row.draft limit = .ok d) :
    List.Forall₂ (fun row d => TypeRow.draft limit row = .ok d)
      ((drafts.map TypeDraft.outlined).filterMap fun d => lastRow? rows d.name) drafts := by
  induction drafts with
  | nil => exact .nil
  | cons d rest ih =>
    obtain ⟨⟨row, hlast, hrow⟩, hrest⟩ := List.forall_mem_cons.1 h
    have hfirst : lastRow? rows d.outlined.name = some row := hlast
    rw [List.map_cons, List.filterMap_cons, hfirst]
    exact .cons hrow (ih hrest)

theorem exists_map_of_perm {drafts outlines : List TypeDraft}
    (h : outlines.Perm (drafts.map TypeDraft.outlined)) :
    ∃ others : List TypeDraft, outlines = others.map TypeDraft.outlined ∧ others.Perm drafts := by
  have hmap : List.Forall₂ (fun o d => o = TypeDraft.outlined d) (drafts.map TypeDraft.outlined)
      drafts := List.forall₂_map_left_iff.2 (List.forall₂_same.2 fun _ _ => rfl)
  obtain ⟨others, hothers, hperm⟩ := List.perm_comp_forall₂ h hmap
  refine ⟨others, ?_, hperm⟩
  rw [← List.forall₂_eq_eq_eq, List.forall₂_map_right_iff]
  exact hothers

/-! ## All or nothing -/

theorem mapM_outline (limit : Nat) (rows : List TypeRow) :
    rows.mapM (TypeRow.outline limit) =
      (rows.mapM (TypeRow.draft limit)).map (List.map TypeDraft.outlined) := by
  rw [← mapM_map]
  congr 1
  funext row
  exact TypeRow.outline_eq limit row

/-- Nothing happens to the builder before the rows are sorted. -/
theorem addTypesInPlace_on (arrange : List TypeDraft → List TypeDraft) (rows : List TypeRow)
    (b : Builder) :
    (addTypesInPlace arrange fallback rows).on b =
      match rows.mapM (TypeRow.outline b.limit) with
      | .error fault => (.error fault, b)
      | .ok outlines =>
        match order (arrange (latest outlines)) with
        | .error fault => (.error fault, b)
        | .ok sorted =>
          (insertRows fallback (sorted.filterMap fun d => lastRow? rows d.name)).on b := by
  rw [addTypesInPlace, Work.on_bind, Work.on_get]
  dsimp only
  rw [Work.on_bind, Work.on_of]
  cases rows.mapM (TypeRow.outline b.limit) with
  | error fault => rfl
  | ok outlines =>
    dsimp only
    rw [Work.on_bind, Work.on_of]
    cases order (arrange (latest outlines)) <;> rfl

/-- Rows that could be read before are put in without fail, whichever they are, in any order and
whatever the builder holds. -/
theorem insertRows_ok {limit : Nat} {rows chosen : List TypeRow} {outlines : List TypeDraft}
    (houtlines : rows.mapM (TypeRow.outline limit) = .ok outlines) (hchosen : chosen ⊆ rows)
    {c : Builder} (hlimit : c.limit = limit) :
    ∃ after, (insertRows fallback chosen).on c = (.ok (), after) := by
  rw [mapM_outline] at houtlines
  obtain ⟨drafts, hdrafts, -⟩ := map_ok_iff.1 houtlines
  have hread := exists_of_forall₂ (mapM_ok_iff_forall₂.1 hdrafts)
  subst hlimit
  obtain ⟨chosenDrafts, hchosenDrafts⟩ := exists_forall₂ fun row hrow => hread row (hchosen hrow)
  exact ⟨_, insertRows_on fallback hchosenDrafts⟩

/-- By the names they mention types are sorted as by their fields, or in another order that is as good. -/
theorem order_outlined {drafts outlines : List TypeDraft} (hnames : (drafts.map (·.name)).Nodup)
    (h : outlines.Perm (drafts.map TypeDraft.outlined)) :
    (order outlines = .error .circularTypes ∧ order drafts = .error .circularTypes) ∨
      ∃ taken sorted, order outlines = .ok (taken.map TypeDraft.outlined) ∧
        order drafts = .ok sorted ∧ taken.Perm drafts ∧ sorted.Perm drafts ∧
        InOrder taken ∧ InOrder sorted := by
  obtain ⟨others, rfl, hothers⟩ := exists_map_of_perm h
  have hotherNames : ((others.map TypeDraft.outlined).map (·.name)).Nodup := by
    rw [List.map_map]
    exact (hothers.map (·.name)).nodup_iff.2 hnames
  cases hout : order (others.map TypeDraft.outlined) with
  | ok out =>
    obtain ⟨houtPerm, houtOrder⟩ := order_ok hotherNames hout
    obtain ⟨taken, rfl, htaken⟩ := exists_map_of_perm houtPerm
    have htakenOrder := inOrder_outlined.1 houtOrder
    obtain ⟨sorted, hsorted⟩ := exists_order hnames (htaken.trans hothers) htakenOrder
    obtain ⟨hsortedPerm, hsortedOrder⟩ := order_ok hnames hsorted
    exact .inr ⟨taken, sorted, rfl, hsorted, htaken.trans hothers, hsortedPerm, htakenOrder,
      hsortedOrder⟩
  | error fault =>
    refine .inl ⟨by rw [order_error hout], ?_⟩
    cases hsorted : order drafts with
    | error other => rw [order_error hsorted]
    | ok sorted =>
      obtain ⟨hsortedPerm, hsortedOrder⟩ := order_ok hnames hsorted
      obtain ⟨out, hcontra⟩ := exists_order hotherNames
        ((hsortedPerm.trans hothers.symm).map _) (inOrder_outlined.2 hsortedOrder)
      rw [hout] at hcontra
      cases hcontra

/-- The outcome is that of reading all rows first and defining all types then. -/
theorem addTypesInPlace_eq {arrange : List TypeDraft → List TypeDraft}
    (harrange : ∀ drafts, (arrange drafts).Perm drafts) (rows : List TypeRow) (b : Builder) :
    (addTypesInPlace arrange fallback rows).on b =
      match b.addTypes fallback rows with
      | .ok after => (.ok (), after)
      | .error fault => (.error fault, b) := by
  rw [addTypesInPlace_on, mapM_outline, addTypes]
  cases hdrafts : rows.mapM (TypeRow.draft b.limit) with
  | error fault => rfl
  | ok drafts =>
    have hnames := latest_names_nodup drafts
    have hrows := lastRow?_latest (mapM_ok_iff_forall₂.1 hdrafts)
    dsimp only [map_ok, ok_bind]
    rw [latest_outlined]
    rcases order_outlined hnames (harrange _) with
      ⟨hout, hsorted⟩ | ⟨taken, sorted, hout, hsorted, htaken, hperm, htakenOrder, hsortedOrder⟩
    · rw [hout, hsorted]
      rfl
    · have hsame := foldl_define_perm fallback htakenOrder hsortedOrder (htaken.trans hperm.symm)
        ((htaken.map (·.name)).nodup_iff.2 hnames) b
      have htakenRows := rows_outlined fun d hd => hrows d (htaken.mem_iff.1 hd)
      rw [hout, hsorted]
      dsimp only [ok_bind]
      rw [insertRows_on fallback htakenRows, hsame]

theorem lastRows_subset (rows : List TypeRow) (drafts : List TypeDraft) :
    (drafts.filterMap fun d => lastRow? rows d.name) ⊆ rows := by
  intro row hrow
  obtain ⟨d, -, hlast⟩ := List.mem_filterMap.1 hrow
  exact lastRow?_mem hlast

theorem addTypesInPlace_cases (arrange : List TypeDraft → List TypeDraft) (rows : List TypeRow)
    (b : Builder) :
    (∃ fault, (addTypesInPlace arrange fallback rows).on b = (.error fault, b)) ∨
      ∃ after, (addTypesInPlace arrange fallback rows).on b = (.ok (), after) := by
  rw [addTypesInPlace_on]
  cases houtlines : rows.mapM (TypeRow.outline b.limit) with
  | error fault => exact .inl ⟨fault, rfl⟩
  | ok outlines =>
    dsimp only
    cases order (arrange (latest outlines)) with
    | error fault => exact .inl ⟨fault, rfl⟩
    | ok sorted => exact .inr (insertRows_ok fallback houtlines (lastRows_subset rows sorted) rfl)

/-- A call that fails leaves the builder as it was, in whatever order the types are handed to the
sorting. Rows that were read before they were sorted do not fail when they are put in, whichever of them
come first and whatever the builder holds by then, so that with the sorting the whole call succeeds. -/
theorem addTypesInPlace_allOrNothing (arrange : List TypeDraft → List TypeDraft)
    (fallback : Option Scope) (rows : List TypeRow) (b : Builder) :
    (∀ fault after, (addTypesInPlace arrange fallback rows).on b = (.error fault, after) → after = b) ∧
    (∀ outlines, rows.mapM (TypeRow.outline b.limit) = .ok outlines →
      (∀ chosen ⊆ rows, ∀ c : Builder, c.limit = b.limit →
        ∃ after, (insertRows fallback chosen).on c = (.ok (), after)) ∧
      ∀ sorted, order (arrange (latest outlines)) = .ok sorted →
        ∃ after, (addTypesInPlace arrange fallback rows).on b = (.ok (), after)) ∧
    ((∀ drafts, (arrange drafts).Perm drafts) →
      (addTypesInPlace arrange fallback rows).on b =
        match b.addTypes fallback rows with
        | .ok after => (.ok (), after)
        | .error fault => (.error fault, b)) := by
  refine ⟨?_, fun outlines houtlines => ⟨?_, fun sorted hsorted => ?_⟩, fun harrange =>
    addTypesInPlace_eq fallback harrange rows b⟩
  · intro fault after h
    rcases addTypesInPlace_cases fallback arrange rows b with ⟨_, hfails⟩ | ⟨_, hends⟩
    · exact (Prod.mk.inj (h.symm.trans hfails)).2
    · cases (Prod.mk.inj (h.symm.trans hends)).1
  · intro chosen hchosen c hlimit
    exact insertRows_ok fallback houtlines hchosen hlimit
  · rw [addTypesInPlace_on, houtlines]
    dsimp only
    rw [hsorted]
    exact insertRows_ok fallback houtlines (lastRows_subset rows sorted) rfl

/-- Types that contain one another are refused, and a type that was added before is still there. -/
theorem addTypesInPlace_allOrNothing_circular : ∃ b,
    (addTypesInPlace id none [⟨"c", ["z"], ["int".toList]⟩]).on (start "ks" 64) = (.ok (), b) ∧
    (addTypesInPlace List.reverse none
      [⟨"a", ["x"], ["b".toList]⟩, ⟨"b", ["y"], ["a".toList]⟩]).on b = (.error .circularTypes, b) := by
  have hbefore : (addTypesInPlace id none [⟨"c", ["z"], ["int".toList]⟩]).on (start "ks" 64) =
      (.ok (), ⟨⟨"ks", ⟨[("c", ⟨"ks", "c", [("z", .native .int)]⟩)], by decide⟩, .empty, .empty⟩, 64⟩) := by
    with_unfolding_all rfl
  refine ⟨_, hbefore, ?_⟩
  have hcircular : ((addTypesInPlace List.reverse none
      [⟨"a", ["x"], ["b".toList]⟩, ⟨"b", ["y"], ["a".toList]⟩]).on
      ⟨⟨"ks", ⟨[("c", ⟨"ks", "c", [("z", .native .int)]⟩)], by decide⟩, .empty, .empty⟩, 64⟩).1 =
      .error .circularTypes := by
    decide +kernel
  have hsame := (addTypesInPlace_allOrNothing List.reverse none
      [⟨"a", ["x"], ["b".toList]⟩, ⟨"b", ["y"], ["a".toList]⟩]
      ⟨⟨"ks", ⟨[("c", ⟨"ks", "c", [("z", .native .int)]⟩)], by decide⟩, .empty, .empty⟩, 64⟩).1
    .circularTypes _ (Prod.ext hcircular rfl)
  exact Prod.ext hcircular hsame

end Builder

end Cql
