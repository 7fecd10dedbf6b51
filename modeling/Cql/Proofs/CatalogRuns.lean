import Cql.Schema.Session
import Cql.Proofs.TypeOrigins

/-!
What holds of a catalog after any steps. Each step keeps what can be trusted trustworthy, whatever the
builders look things up in, and so does every run.
-/

namespace Cql

/-- The builders that things are looked up in can be trusted. -/
def Source.Sound : Source → Prop
  | .nowhere | .registry _ | .elsewhere _ => True
  | .builder b source => b.keyspace.Sound ∧ source.Sound

namespace Catalog

/-- Everything that answers look-ups, and all that is being built, finished or kept, can be trusted. -/
structure Sound (c : Catalog) : Prop where
  registry : ∀ index, (c.registry index).Sound
  builder : ∀ place b source, c.builder? place = some (b, source) → b.keyspace.Sound ∧ source.Sound
  finished : ∀ k ∈ c.finished, k.Sound
  elsewhere : ∀ index, (c.elsewhere index).toTypeScope.Sound

/-- Other resolvers answer as builders and registries do; there is nothing to ask of other steps. -/
def Step.Trusted : Step → Prop
  | .change _ resolver => resolver.toTypeScope.Sound
  | _ => True

/-- A keyspace that is being built, finished, or in a registry. -/
inductive Holds (c : Catalog) : Keyspace → Prop where
  | building {place : Nat} {b : Builder} {source : Source} (h : c.builder? place = some (b, source)) :
    Holds c b.keyspace
  | finished {k : Keyspace} (h : k ∈ c.finished) : Holds c k
  | registered {index : Nat} {name : String} {k : Keyspace}
    (h : (c.registry index).keyspace? name = some k) : Holds c k

/-! ## Steps -/

variable {c : Catalog}

theorem empty_sound : empty.Sound :=
  ⟨fun _ => Registry.empty_sound, nofun, nofun, fun _ => TypeScope.none_sound⟩

theorem scope_sound (hc : c.Sound) {source : Source} (hsource : source.Sound) :
    ∀ f ∈ c.scope? source, f.toTypeScope.Sound := by
  induction source with
  | nowhere => exact nofun
  | registry index =>
    rintro _ ⟨⟩
    exact Registry.scope_sound (hc.registry index)
  | builder b source ih =>
    rintro _ ⟨⟩
    exact Builder.scope_sound hsource.1 (ih hsource.2)
  | elsewhere index =>
    rintro _ ⟨⟩
    exact hc.elsewhere index

theorem source_sound (hc : c.Sound) {origin : Origin} {source : Source} (h : c.source? origin = some source) :
    source.Sound := by
  cases origin with
  | nowhere =>
    cases h
    trivial
  | registry index =>
    cases h
    trivial
  | builder place =>
    obtain ⟨⟨b, below⟩, hb, rfl⟩ := Option.map_eq_some_iff.1 h
    exact hc.builder place b below hb
  | elsewhere index =>
    cases h
    trivial

/-- Another builder in one place. -/
theorem put_builder (hc : c.Sound) (place : Nat) (entry : Option (Builder × Source))
    (hentry : ∀ b source, entry = some (b, source) → b.keyspace.Sound ∧ source.Sound) :
    Sound { c with builder? := put place entry c.builder? } := by
  refine ⟨hc.registry, fun i => ?_, hc.finished, hc.elsewhere⟩
  exact put_all (P := fun e : Option (Builder × Source) =>
    ∀ b source, e = some (b, source) → b.keyspace.Sound ∧ source.Sound) hentry hc.builder i

theorem put_registry (hc : c.Sound) (index : Nat) {r : Registry} (hr : r.Sound) :
    Sound { c with registry := put index r c.registry } :=
  ⟨put_all hr hc.registry, hc.builder, hc.finished, hc.elsewhere⟩

theorem Work.sound (hc : c.Sound) {step : Step} {b b' : Builder} {source : Source}
    (h : c.Work step b source b') (hb : b.keyspace.Sound) (hsource : source.Sound) : b'.keyspace.Sound := by
  have hfallback := scope_sound hc hsource
  cases h with
  | types _ h => exact Builder.addTypes_sound hb hfallback h
  | table _ h => exact Builder.addTable_sound hb hfallback h
  | view _ h => exact Builder.addView_sound hb hfallback h

theorem step_sound (hc : c.Sound) {step : Step} (htrusted : step.Trusted) : (c.step step).1.Sound := by
  have hchange := step_change c step
  generalize (c.step step).1 = d at hchange
  cases hchange with
  | idle => exact hc
  | start h =>
    refine put_builder hc _ _ fun b below heq => ?_
    cases heq
    exact ⟨Keyspace.empty_sound _, source_sound hc h⟩
  | work hb hwork =>
    obtain ⟨hsound, hsource⟩ := hc.builder _ _ _ hb
    refine put_builder hc _ _ fun b below heq => ?_
    cases heq
    exact ⟨hwork.sound hc hsound hsource, hsource⟩
  | @finish place b source hb =>
    have hrest := put_builder hc place none nofun
    exact ⟨hrest.registry, hrest.builder,
      List.forall_mem_cons.2 ⟨(hc.builder _ _ _ hb).1, hc.finished⟩, hrest.elsewhere⟩
  | replace hk =>
    exact put_registry hc _ (Registry.replace_sound (hc.registry _) (hc.finished _ hk))
  | remove => exact put_registry hc _ (Registry.remove_sound (hc.registry _) _)
  | resolver =>
    refine ⟨hc.registry, hc.builder, hc.finished, fun i => ?_⟩
    exact put_all (P := fun other : Scope => other.toTypeScope.Sound) htrusted hc.elsewhere i

theorem run_sound (hc : c.Sound) {steps : List Step} (hsteps : ∀ step ∈ steps, step.Trusted) :
    (c.run steps).Sound := by
  induction steps generalizing c with
  | nil => exact hc
  | cons step steps ih =>
    obtain ⟨hstep, hsteps⟩ := List.forall_mem_cons.1 hsteps
    exact ih (step_sound hc hstep) hsteps

theorem Holds.sound {k : Keyspace} (hc : c.Sound) (h : c.Holds k) : k.Sound := by
  cases h with
  | building h => exact (hc.builder _ _ _ h).1
  | finished h => exact hc.finished k h
  | registered h => exact (hc.registry _ _ _ h).2

/-- After any steps, builders and registries answer definitions under their own names only, and nothing
inside the definitions belongs to another keyspace. Nor does anything inside the columns of tables and
views: it belongs to the keyspace that the table or view names, which need not be the one it stands in. -/
theorem types_under_own_names {steps : List Step} (hsteps : ∀ step ∈ steps, step.Trusted) :
    (∀ place b source keyspace name t, (empty.run steps).builder? place = some (b, source) →
      b.userType? ((empty.run steps).scope? source) keyspace name = some t → t.Named keyspace name) ∧
    (∀ index keyspace name t, ((empty.run steps).registry index).userType? keyspace name = some t →
      t.Named keyspace name) ∧
    ∀ k, (empty.run steps).Holds k →
      (∀ name table, k.tables.get? name = some table → table.columns.Within table.keyspace) ∧
      ∀ name view, k.views.get? name = some view → view.columns.Within view.keyspace := by
  have hsound := run_sound empty_sound hsteps
  refine ⟨?_, ?_, fun k hk => ⟨(hk.sound hsound).tables, (hk.sound hsound).views⟩⟩
  · intro place b source keyspace name t hb ht
    obtain ⟨hkeyspace, hsource⟩ := hsound.builder place b source hb
    exact (Builder.scope_sound hkeyspace (scope_sound hsound hsource)).named keyspace name t ht
  · intro index keyspace name t ht
    exact (Registry.scope_sound (hsound.registry index)).named keyspace name t ht

/-- A builder asks another one, which asks a registry, and so answers a type that was built on yet
another resolver. A table of the second builder that names the first keyspace has a column of that type,
although the keyspace it stands in has a type of the same name. -/
theorem types_under_own_names_stacked : ∃ c b source k table, c = empty.run
      [.change 0 (.ofTypes .reversing), .start 0 "ks" 64 (.elsewhere 0),
        .addTypes 0 [⟨"b", ["x"], ["list<frozen<a>>".toList]⟩, ⟨"a", ["y"], ["int".toList]⟩],
        .finish 0, .replace 0 0, .start 1 "other" 64 (.registry 0),
        .addTypes 1 [⟨"b", ["x"], ["int".toList]⟩],
        .addTable 1 ⟨"ks", "t", none, []⟩ [⟨"id", .partitionKey, 0, "frozen<b>".toList, .ascending⟩],
        .start 2 "last" 64 (.builder 1)] ∧
    c.builder? 2 = some (b, source) ∧ c.Holds k ∧ k.tables.get? "t" = some table ∧
    ∃ t, t = ⟨"ks", "b", [("x", .list (.userDefined ⟨"ks", "a", [("y", .native .int)]⟩ true) false)]⟩ ∧
      b.userType? (c.scope? source) "ks" "b" = some t ∧ t.Named "ks" "b" ∧
      table.columns.all.map (·.type) = [.userDefined t true] ∧ table.columns.Within table.keyspace := by
  generalize hrun : empty.run _ = c
  generalize htype : UserType.mk "ks" "b" _ = t
  have hlookup : ((c.builder? 2).bind fun p => p.1.userType? (c.scope? p.2) "ks" "b") = some t := by
    rw [← hrun, ← htype]
    decide +kernel
  have hstored : ((c.builder? 1).bind fun p => (p.1.keyspace.tables.get? "t").map
      fun table => table.columns.all.map (·.type)) = some [.userDefined t true] := by
    rw [← hrun, ← htype]
    decide +kernel
  obtain ⟨⟨b, source⟩, hb, ht⟩ := Option.bind_eq_some_iff.1 hlookup
  obtain ⟨⟨below, source'⟩, hbelow, hstored⟩ := Option.bind_eq_some_iff.1 hstored
  obtain ⟨table, htable, hcolumns⟩ := Option.map_eq_some_iff.1 hstored
  subst hrun
  refine ⟨_, b, source, below.keyspace, table, rfl, hb, .building hbelow, htable, t, rfl, ht,
    (types_under_own_names ?trusted).1 2 b source "ks" "b" t hb ht, hcolumns,
    ((types_under_own_names ?trusted).2.2 _ (.building hbelow)).1 "t" table htable⟩
  simp [Step.Trusted, Scope.ofTypes, TypeScope.reversing_sound]

end Catalog

end Cql
