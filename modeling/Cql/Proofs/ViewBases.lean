import Cql.Proofs.TableOrigins

/-!
Views and their base tables. A view is added only if its base table is found, but it may be found in what
the builder falls back on. The keyspace that is put into a registry then has the view, and the base table
only if the builder has it as well.
-/

namespace Cql.Catalog

/-- A step that adds a view to a builder of a keyspace which does not have the base table itself, but finds
it in its fallback. -/
inductive BorrowsBase (keyspace name base : String) (c : Catalog) : Step → Prop where
  | intro {place : Nat} {row : ViewRow} {columns : List ColumnRow} {b : Builder} {source : Source} {f : Scope}
    {t : Table} (hb : c.builder? place = some (b, source)) (hkeyspace : b.keyspace.name = keyspace)
    (hname : row.name = name) (hbase : row.base = base)
    (hown : b.keyspace.tables.get? base = none) (hf : c.scope? source = some f)
    (hfound : f.table? row.keyspace base = some t) :
    BorrowsBase keyspace name base c (.addView place row columns)

/-- Builders are started without a fallback; there is nothing to ask of other steps. -/
def Step.Alone : Step → Prop
  | .start _ _ _ origin => origin = .nowhere
  | _ => True

variable {c : Catalog} {step : Step} {steps : List Step}

/-- The base table of a view that is added is one of the builder, or it is borrowed. -/
theorem BorrowsBase.or_own {place : Nat} {row : ViewRow} {columns : List ColumnRow} {b : Builder}
    {source : Source} {t : Table} (hb : c.builder? place = some (b, source))
    (h : b.table? (c.scope? source) row.keyspace row.base = some t) :
    (b.keyspace.tables.get? row.base).isSome ∨
      BorrowsBase b.keyspace.name row.name row.base c (.addView place row columns) := by
  cases hown : b.keyspace.tables.get? row.base with
  | some own => exact .inl rfl
  | none =>
    right
    rcases Builder.table?_cases h with ⟨-, htable⟩ | ⟨f, hf, hfound⟩
    · rw [hown] at htable
      cases htable
    · exact .intro hb rfl rfl rfl hown hf hfound

/-- Tables are replaced, but not taken away. -/
theorem insert_isSome {tables : Dictionary Table} {name base : String} {t : Table}
    (h : (tables.get? base).isSome) : ((tables.insert name t).get? base).isSome := by
  rw [Dictionary.get?_insert]
  split
  · rfl
  · exact h

theorem step_alone (hc : ∀ place b source, c.builder? place = some (b, source) → source = .nowhere)
    (hstep : step.Alone) :
    ∀ place b source, (c.step step).1.builder? place = some (b, source) → source = .nowhere := by
  let P : Option (Builder × Source) → Prop := fun entry => ∀ b source, entry = some (b, source) →
    source = .nowhere
  have hchange := step_change c step
  generalize (c.step step).1 = d at hchange
  cases hchange with
  | start hsource =>
    refine put_all (P := P) ?_ hc
    rintro b source ⟨⟩
    cases hstep
    cases hsource
    rfl
  | work hb _ =>
    refine put_all (P := P) ?_ hc
    rintro b' source ⟨⟩
    exact hc _ _ _ hb
  | finish _ => exact put_all (P := P) nofun hc
  | _ => exact hc

theorem run_alone (hc : ∀ place b source, c.builder? place = some (b, source) → source = .nowhere)
    (hsteps : ∀ step ∈ steps, step.Alone) :
    ∀ place b source, (c.run steps).builder? place = some (b, source) → source = .nowhere := by
  induction steps generalizing c with
  | nil => exact hc
  | cons step steps ih =>
    obtain ⟨hstep, hsteps⟩ := List.forall_mem_cons.1 hsteps
    exact ih (step_alone hc hstep) hsteps

/-- Without fallbacks there is nothing to borrow from. -/
theorem not_took_borrowsBase {keyspace name base : String} (hsteps : ∀ step ∈ steps, step.Alone) :
    ¬ Took (BorrowsBase keyspace name base) steps := by
  rintro ⟨earlier, step, later, rfl, h⟩
  obtain ⟨hb, -, -, -, -, hf, -⟩ := h
  have halone := run_alone (c := empty) nofun fun step h => hsteps step (List.mem_append_left _ h)
  rw [halone _ _ _ hb] at hf
  cases hf

theorem known_views {k : Keyspace} (h : (empty.run steps).Knows k) :
    ∀ name v, k.views.get? name = some v →
      (k.tables.get? v.base).isSome ∨ Took (BorrowsBase k.name name v.base) steps := by
  refine known_induction (P := fun steps k => ∀ name v, k.views.get? name = some v →
    (k.tables.get? v.base).isSome ∨ Took (BorrowsBase k.name name v.base) steps) ?empty ?more ?work h
  case empty => exact fun _ _ _ _ h => nomatch h
  case more => exact fun steps step k hk name v h => (hk name v h).imp_right (·.more step)
  case work =>
    intro steps step b source b' hwork hb name v h
    -- what was there keeps its base table, or is as borrowed as before
    have hkept : ∀ k : Keyspace, k.name = b.keyspace.name →
        (∀ base, (b.keyspace.tables.get? base).isSome → (k.tables.get? base).isSome) →
        b.keyspace.views.get? name = some v →
        (k.tables.get? v.base).isSome ∨ Took (BorrowsBase k.name name v.base) (steps ++ [step]) := by
      intro k hname htables h
      rw [hname]
      exact (hb name v h).imp (htables v.base) (·.more step)
    cases hwork with
    | types _ hadd =>
      obtain ⟨hname, htables, hviews⟩ := Builder.addTypes_keeps hadd
      rw [hviews] at h
      exact hkept _ hname (fun base hbase => by rwa [htables]) h
    | table _ hadd =>
      obtain ⟨t, -, rfl⟩ := Builder.addTable_ok_iff.1 hadd
      exact hkept _ rfl (fun base => insert_isSome) h
    | view hbuilder hadd =>
      rcases Builder.addView_cases hadd with ⟨-, rfl⟩ | ⟨t, added, -, hfound, hbase, rfl⟩
      · exact hkept _ rfl (fun _ => id) h
      · dsimp only at h
        rw [Dictionary.get?_insert] at h
        split at h
        · next heq =>
          cases h
          rw [hbase, ← heq]
          exact (BorrowsBase.or_own hbuilder hfound).imp_right .last
        · exact hkept _ rfl (fun _ => id) h

end Cql.Catalog
