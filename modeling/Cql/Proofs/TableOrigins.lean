import Cql.Proofs.CatalogHistory

/-!
Tables and where they come from. A table stands under its own name, and in the keyspace of the builder that
it was added to. The row that it is made from may name another keyspace, and that is the one the table
then names.
-/

namespace Cql

/-- Tables are answered under their own names. -/
def Scope.Exact (scope : Scope) : Prop :=
  ∀ keyspace name t, scope.table? keyspace name = some t → t.keyspace = keyspace ∧ t.name = name

theorem Scope.ofTypes_exact (types : TypeScope) : (Scope.ofTypes types).Exact := by
  intro keyspace name t h
  rw [Scope.ofTypes] at h
  cases h

theorem Table.ofRow_names {limit : Nat} {scope : TypeScope} {row : TableRow} {columns : List ColumnRow}
    {t : Table} (h : ofRow limit scope row columns = .ok t) :
    t.keyspace = row.keyspace ∧ t.name = row.name := by
  obtain ⟨out, -, heq⟩ := bind_ok_iff.1 h
  cases heq
  exact ⟨rfl, rfl⟩

namespace Builder

variable {b b' : Builder} {fallback : Option Scope}

/-- A builder answers a table of its own, or one of the fallback. -/
theorem table?_cases {keyspace name : String} {t : Table} (h : b.table? fallback keyspace name = some t) :
    (b.keyspace.name = keyspace ∧ b.keyspace.tables.get? name = some t) ∨
      ∃ f, fallback = some f ∧ f.table? keyspace name = some t := by
  rcases Option.or_eq_some_iff.1 h with hown | ⟨-, hother⟩
  · split at hown
    · next heq => exact .inl ⟨heq.symm, hown⟩
    · cases hown
  · exact .inr (Option.bind_eq_some_iff.1 hother)

theorem addTypes_keeps {rows : List TypeRow} (h : b.addTypes fallback rows = .ok b') :
    b'.keyspace.name = b.keyspace.name ∧ b'.keyspace.tables = b.keyspace.tables ∧
      b'.keyspace.views = b.keyspace.views := by
  obtain ⟨-, sorted, -, -, rfl⟩ := addTypes_ok_iff.1 h
  rw [foldl_define_eq]
  exact ⟨rfl, rfl, rfl⟩

/-- Of its tables a builder changes the one that it adds, and nothing else. -/
theorem addTable_ok_iff {row : TableRow} {columns : List ColumnRow} :
    b.addTable fallback row columns = .ok b' ↔
      ∃ t, Table.ofRow b.limit (b.scope fallback).toTypeScope row columns = .ok t ∧
        b' = { b with keyspace := { b.keyspace with tables := b.keyspace.tables.insert row.name t } } := by
  unfold addTable
  rw [bind_ok_iff]
  constructor
  · rintro ⟨t, ht, heq⟩
    rw [(Table.ofRow_names ht).2] at heq
    exact ⟨t, ht, (Except.ok.inj heq).symm⟩
  · rintro ⟨t, ht, rfl⟩
    refine ⟨t, ht, ?_⟩
    rw [(Table.ofRow_names ht).2]

/-- A view is added if the base table is found; otherwise nothing changes. -/
theorem addView_cases {row : ViewRow} {columns : List ColumnRow} {known : Bool}
    (h : b.addView fallback row columns = .ok (known, b')) :
    (known = false ∧ b' = b) ∨
      ∃ t v, known = true ∧ b.table? fallback row.keyspace row.base = some t ∧ v.base = row.base ∧
        b' = { b with keyspace := { b.keyspace with views := b.keyspace.views.insert row.name v } } := by
  obtain ⟨view, hview, h⟩ := bind_ok_iff.1 h
  rw [View.ofRow] at hview
  split at hview
  · cases hview
    cases h
    exact .inl ⟨rfl, rfl⟩
  · next t ht =>
    obtain ⟨columns, -, heq⟩ := bind_ok_iff.1 hview
    cases heq
    cases h
    exact .inr ⟨t, _, rfl, ht, rfl, rfl⟩

end Builder

namespace Catalog

/-- A step that puts the table of a row into a builder of a keyspace. -/
inductive AddsTable (keyspace : String) (row : TableRow) (t : Table) (c : Catalog) : Step → Prop where
  | intro {place : Nat} {columns : List ColumnRow} {b : Builder} {source : Source}
    (hb : c.builder? place = some (b, source)) (hname : b.keyspace.name = keyspace)
    (h : Table.ofRow b.limit (b.scope (c.scope? source)).toTypeScope row columns = .ok t) :
    AddsTable keyspace row t c (.addTable place row columns)

/-- The table has the name, and the keyspace unless it was added there from a row of another one. -/
structure Named (steps : List Step) (keyspace name : String) (t : Table) : Prop where
  name_eq : t.name = name
  keyspace_eq : t.keyspace = keyspace ∨
    ∃ row, row.keyspace ≠ keyspace ∧ row.keyspace = t.keyspace ∧ row.name = name ∧
      Took (AddsTable keyspace row t) steps

/-- Other resolvers answer tables under their own names; there is nothing to ask of other steps. -/
def Step.Exact : Step → Prop
  | .change _ resolver => resolver.Exact
  | _ => True

/-! ## Steps -/

variable {c : Catalog} {step : Step} {steps : List Step}

theorem Work.name_eq {b b' : Builder} {source : Source} (h : c.Work step b source b') :
    b'.keyspace.name = b.keyspace.name := by
  cases h with
  | types _ h => exact (Builder.addTypes_keeps h).1
  | table _ h =>
    obtain ⟨t, -, rfl⟩ := Builder.addTable_ok_iff.1 h
    rfl
  | view _ h =>
    rcases Builder.addView_cases h with ⟨-, rfl⟩ | ⟨t, v, -, -, -, rfl⟩
    · rfl
    · rfl

theorem Named.more {keyspace name : String} {t : Table} (h : Named steps keyspace name t) (step : Step) :
    Named (steps ++ [step]) keyspace name t := by
  refine ⟨h.name_eq, h.keyspace_eq.imp_right ?_⟩
  rintro ⟨row, hne, heq, hname, htook⟩
  exact ⟨row, hne, heq, hname, htook.more step⟩

/-- A table that is put into a builder has its name there, and the keyspace that the row names. -/
theorem AddsTable.named {keyspace : String} {row : TableRow} {t : Table}
    (h : AddsTable keyspace row t (empty.run steps) step) :
    Named (steps ++ [step]) keyspace row.name t := by
  have htook : Took (AddsTable keyspace row t) (steps ++ [step]) := .last h
  obtain ⟨-, -, h⟩ := h
  obtain ⟨hkeyspace, hname⟩ := Table.ofRow_names h
  refine ⟨hname, ?_⟩
  by_cases heq : row.keyspace = keyspace
  · exact .inl (hkeyspace.trans heq)
  · exact .inr ⟨row, heq, hkeyspace.symm, rfl, htook⟩

theorem step_exact (hc : ∀ index, (c.elsewhere index).Exact) (hstep : step.Exact) (index : Nat) :
    ((c.step step).1.elsewhere index).Exact := by
  have hchange := step_change c step
  generalize (c.step step).1 = d at hchange
  cases hchange with
  | resolver => exact put_all (P := Scope.Exact) hstep hc index
  | _ => exact hc index

/-! ## Runs -/

theorem run_exact (hc : ∀ index, (c.elsewhere index).Exact) (hsteps : ∀ step ∈ steps, step.Exact)
    (index : Nat) : ((c.run steps).elsewhere index).Exact := by
  induction steps generalizing c with
  | nil => exact hc index
  | cons step steps ih =>
    obtain ⟨hstep, hsteps⟩ := List.forall_mem_cons.1 hsteps
    exact ih (step_exact hc hstep) hsteps

theorem known_tables {k : Keyspace} (h : (empty.run steps).Knows k) :
    ∀ name t, k.tables.get? name = some t → Named steps k.name name t := by
  refine known_induction (P := fun steps k => ∀ name t, k.tables.get? name = some t →
    Named steps k.name name t) ?empty ?more ?work h
  case empty => exact fun _ _ _ _ h => nomatch h
  case more => exact fun steps step k hk name t h => (hk name t h).more step
  case work =>
    intro steps step b source b' hwork hb name t h
    rw [hwork.name_eq]
    cases hwork with
    | types _ hadd =>
      rw [(Builder.addTypes_keeps hadd).2.1] at h
      exact (hb name t h).more _
    | table hbuilder hadd =>
      obtain ⟨added, hadded, rfl⟩ := Builder.addTable_ok_iff.1 hadd
      dsimp only at h
      rw [Dictionary.get?_insert] at h
      split at h
      · next heq =>
        cases h
        cases heq
        exact AddsTable.named (.intro hbuilder rfl hadded)
      · exact (hb name t h).more _
    | view _ hadd =>
      rcases Builder.addView_cases hadd with ⟨-, rfl⟩ | ⟨base, v, -, -, -, rfl⟩
      · exact (hb name t h).more _
      · exact (hb name t h).more _

theorem registry_table {index : Nat} {keyspace name : String} {t : Table}
    (h : ((empty.run steps).registry index).table? keyspace name = some t) :
    Named steps keyspace name t := by
  obtain ⟨k, hk, htable⟩ := Option.bind_eq_some_iff.1 h
  cases run_named steps index keyspace k hk
  exact known_tables (.registered hk) name t htable

/-- Whatever builders look things up in answers tables as they do themselves. -/
theorem source_table (hsteps : ∀ step ∈ steps, step.Exact) {source : Source}
    (hsource : ∀ k, source.Contains k → (empty.run steps).Knows k) {f : Scope}
    (hf : (empty.run steps).scope? source = some f) {keyspace name : String} {t : Table}
    (h : f.table? keyspace name = some t) : Named steps keyspace name t := by
  induction source generalizing f with
  | nowhere => cases hf
  | registry index =>
    cases hf
    exact registry_table h
  | builder b source ih =>
    cases hf
    rcases Builder.table?_cases h with ⟨rfl, htable⟩ | ⟨below, hbelow, htable⟩
    · exact known_tables (hsource _ (.own rfl)) name t htable
    · exact ih (fun k hk => hsource k (.beneath hk)) hbelow htable
  | elsewhere index =>
    cases hf
    obtain ⟨hkeyspace, hname⟩ := run_exact (fun _ => Scope.ofTypes_exact .none) hsteps index keyspace name t h
    exact ⟨hname, .inl hkeyspace⟩

/-- A table that was added is answered under the name of its row in the keyspace that is being built. -/
theorem added_table_found {place : Nat} {row : TableRow} {columns : List ColumnRow} {b : Builder}
    {source : Source} (hb : c.builder? place = some (b, source))
    (h : (c.step (.addTable place row columns)).2 = .done) :
    ∃ t b', Table.ofRow b.limit (b.scope (c.scope? source)).toTypeScope row columns = .ok t ∧
      (c.step (.addTable place row columns)).1.builder? place = some (b', source) ∧
      ∀ fallback, b'.table? fallback b.keyspace.name row.name = some t := by
  simp only [Catalog.step, building, hb] at h ⊢
  cases hadd : b.addTable (c.scope? source) row columns with
  | error fault =>
    rw [hadd] at h
    cases h
  | ok b' =>
    obtain ⟨t, ht, rfl⟩ := Builder.addTable_ok_iff.1 hadd
    refine ⟨t, _, ht, if_pos rfl, fun fallback => ?_⟩
    simp only [Builder.table?, Dictionary.get?_insert, if_true, Option.some_or]

/-- After any steps, a table that a builder or a registry answers has the name it was asked for, and the
keyspace as well, unless it was added to a builder of that keyspace from a row that names another one.
Right after it is added, the builder answers it under the name of its row in the keyspace that is being
built, which is the keyspace of the row if the row names it. -/
theorem tables_under_own_names (hsteps : ∀ step ∈ steps, step.Exact) :
    (∀ place b source keyspace name t, (empty.run steps).builder? place = some (b, source) →
      b.table? ((empty.run steps).scope? source) keyspace name = some t → Named steps keyspace name t) ∧
    (∀ index keyspace name t, ((empty.run steps).registry index).table? keyspace name = some t →
      Named steps keyspace name t) ∧
    ∀ place b source row columns, (empty.run steps).builder? place = some (b, source) →
      ((empty.run steps).step (.addTable place row columns)).2 = .done →
      ∃ t b', Table.ofRow b.limit (b.scope ((empty.run steps).scope? source)).toTypeScope row columns =
          .ok t ∧
        ((empty.run steps).step (.addTable place row columns)).1.builder? place = some (b', source) ∧
        (∀ fallback, b'.table? fallback b.keyspace.name row.name = some t) ∧
        t.keyspace = row.keyspace ∧ t.name = row.name := by
  refine ⟨?_, fun _ _ _ _ h => registry_table h, ?_⟩
  · intro place b source keyspace name t hb h
    rcases Builder.table?_cases h with ⟨rfl, htable⟩ | ⟨f, hf, htable⟩
    · exact known_tables (.building hb (.inl rfl)) name t htable
    · exact source_table hsteps (fun k hk => .building hb (.inr hk)) hf htable
  · intro place b source row columns hb h
    obtain ⟨t, b', ht, hb', hfound⟩ := added_table_found hb h
    exact ⟨t, b', ht, hb', hfound, Table.ofRow_names ht⟩

/-- Two tables of one keyspace, the second from a row that names another one. It is answered all the same,
and names that other keyspace. -/
theorem tables_under_own_names_foreign : ∃ steps c b source own foreign,
    steps = [.start 0 "ks" 64 .nowhere,
      .addTable 0 ⟨"ks", "a", none, []⟩ [⟨"id", .partitionKey, 0, "int".toList, .ascending⟩],
      .addTable 0 ⟨"other", "b", none, []⟩ [⟨"id", .partitionKey, 0, "int".toList, .ascending⟩],
      .finish 0, .replace 0 0, .start 1 "more" 64 (.registry 0)] ∧
    c = empty.run steps ∧ c.builder? 1 = some (b, source) ∧
    b.table? (c.scope? source) "ks" "a" = some own ∧ Named steps "ks" "a" own ∧ own.keyspace = "ks" ∧
    (c.registry 0).table? "ks" "b" = some foreign ∧ Named steps "ks" "b" foreign ∧
    foreign.keyspace = "other" ∧
    ∃ t b', (c.step (.addTable 1 ⟨"more", "c", none, []⟩
        [⟨"id", .partitionKey, 0, "int".toList, .ascending⟩])).1.builder? 1 = some (b', source) ∧
      b'.table? none b.keyspace.name "c" = some t ∧ t.keyspace = "more" ∧ t.name = "c" := by
  generalize hsteps : [_, _, _, _, _, _] = steps
  have hexact : ∀ step ∈ steps, step.Exact := by
    subst hsteps
    simp [Step.Exact]
  generalize hrun : empty.run steps = c
  have hown : ((c.builder? 1).bind fun p => (p.1.table? (c.scope? p.2) "ks" "a").map (·.keyspace)) =
      some "ks" := by
    subst hrun hsteps
    decide +kernel
  have hforeign : ((c.registry 0).table? "ks" "b").map (·.keyspace) = some "other" := by
    subst hrun hsteps
    decide +kernel
  have hdone : (c.step (.addTable 1 ⟨"more", "c", none, []⟩
      [⟨"id", .partitionKey, 0, "int".toList, .ascending⟩])).2 = .done := by
    subst hrun hsteps
    with_unfolding_all rfl
  obtain ⟨⟨b, source⟩, hb, hown⟩ := Option.bind_eq_some_iff.1 hown
  obtain ⟨own, hown, hownKeyspace⟩ := Option.map_eq_some_iff.1 hown
  obtain ⟨foreign, hforeign, hforeignKeyspace⟩ := Option.map_eq_some_iff.1 hforeign
  subst hrun
  obtain ⟨t, b', -, hb', hfound, hkeyspace, hname⟩ :=
    (tables_under_own_names hexact).2.2 1 b source _ _ hb hdone
  exact ⟨steps, _, b, source, own, foreign, rfl, rfl, hb, hown,
    (tables_under_own_names hexact).1 1 b source "ks" "a" own hb hown, hownKeyspace, hforeign,
    (tables_under_own_names hexact).2.1 0 "ks" "b" foreign hforeign, hforeignKeyspace,
    t, b', hb', hfound none, hkeyspace, hname⟩

/-- The names of a table need not be those that it is looked up under: a table from a row that names
another keyspace is not answered under that keyspace, but under the one that is being built. -/
theorem tables_under_other_keyspace : ¬ ∀ steps place row columns b source,
    ((empty.run steps).step (.addTable place row columns)).2 = .done →
    (empty.run (steps ++ [.addTable place row columns])).builder? place = some (b, source) →
    (∃ t, b.table? ((empty.run (steps ++ [.addTable place row columns])).scope? source)
      row.keyspace row.name = some t) ∧
    ∀ keyspace name t, b.table? ((empty.run (steps ++ [.addTable place row columns])).scope? source)
      keyspace name = some t → t.keyspace = keyspace := by
  intro h
  generalize hrow : TableRow.mk "other" "t" none [] = row
  generalize hcolumns : [ColumnRow.mk "id" .partitionKey 0 "int".toList .ascending] = columns
  have hdone : ((empty.run [.start 0 "ks" 64 .nowhere]).step (.addTable 0 row columns)).2 = .done := by
    subst hrow hcolumns
    with_unfolding_all rfl
  generalize hrun : empty.run ([.start 0 "ks" 64 .nowhere] ++ [.addTable 0 row columns]) = c
  have hmissing : ((c.builder? 0).map fun p => p.1.table? (c.scope? p.2) row.keyspace row.name) =
      some none := by
    subst hrun hrow hcolumns
    decide +kernel
  obtain ⟨⟨b, source⟩, hb, hnone⟩ := Option.map_eq_some_iff.1 hmissing
  subst hrun
  obtain ⟨⟨t, ht⟩, -⟩ := h _ 0 row columns b source hdone hb
  rw [hnone] at ht
  cases ht

end Catalog

end Cql
