import Cql.Proofs.CatalogRuns
import Mathlib.Data.List.Induction

/-!
Where the keyspaces of a catalog come from. Each of them started empty and is what the work of builders
made of it, so a property of keyspaces that this work keeps holds of all of them after any steps. The
property may speak of the steps that were taken so far.
-/

namespace Cql

/-- A keyspace of one of the builders that things are looked up in. -/
inductive Source.Contains (k : Keyspace) : Source → Prop where
  | own {b : Builder} {source : Source} (h : b.keyspace = k) : Contains k (.builder b source)
  | beneath {b : Builder} {source : Source} (h : Contains k source) : Contains k (.builder b source)

/-- Keyspaces stand under their own names. -/
def Registry.Named (r : Registry) : Prop := ∀ name k, r.keyspace? name = some k → k.name = name

namespace Registry

theorem empty_named : Registry.empty.Named := nofun

theorem replace_named {r : Registry} (hr : r.Named) (k : Keyspace) : (r.replace k).Named := by
  intro name other h
  rcases replace_cases h with ⟨heq, rfl⟩ | h
  · exact heq
  · exact hr name other h

theorem remove_named {r : Registry} (hr : r.Named) (keyspace : String) : (r.remove keyspace).Named :=
  fun name k h => hr name k (remove_subset h)

end Registry

namespace Catalog

/-- A keyspace that is being built, finished or in a registry, or that a builder looks things up in. -/
inductive Knows (c : Catalog) (k : Keyspace) : Prop where
  | building {place : Nat} {b : Builder} {source : Source} (hb : c.builder? place = some (b, source))
    (h : b.keyspace = k ∨ source.Contains k) : Knows c k
  | finished (h : k ∈ c.finished) : Knows c k
  | registered {index : Nat} {name : String} (h : (c.registry index).keyspace? name = some k) : Knows c k

/-- Some step of a run was of a kind, in the catalog as it was then. -/
def Took (event : Catalog → Step → Prop) (steps : List Step) : Prop :=
  ∃ earlier step later, steps = earlier ++ step :: later ∧ event (empty.run earlier) step

/-! ## Steps -/

variable {c : Catalog} {step : Step} {steps : List Step} {k : Keyspace}

theorem Work.known {b b' : Builder} {source : Source} (h : c.Work step b source b') :
    c.Knows b.keyspace := by
  cases h with
  | types hb _ => exact .building hb (.inl rfl)
  | table hb _ => exact .building hb (.inl rfl)
  | view hb _ => exact .building hb (.inl rfl)

theorem source?_contains {origin : Origin} {source : Source} (hsource : c.source? origin = some source)
    (h : source.Contains k) : c.Knows k := by
  cases origin with
  | nowhere =>
    cases hsource
    cases h
  | registry index =>
    cases hsource
    cases h
  | builder place =>
    obtain ⟨⟨b, below⟩, hb, rfl⟩ := Option.map_eq_some_iff.1 hsource
    cases h with
    | own h => exact .building hb (.inl h)
    | beneath h => exact .building hb (.inr h)
  | elsewhere index =>
    cases hsource
    cases h

/-- Another builder in one place is all that there is to know more. -/
theorem Knows.of_put {place : Nat} {entry : Option (Builder × Source)}
    (h : Knows { c with builder? := put place entry c.builder? } k) :
    c.Knows k ∨ ∃ b source, entry = some (b, source) ∧ (b.keyspace = k ∨ source.Contains k) := by
  cases h with
  | @building i b source hb h =>
    dsimp only at hb
    unfold put at hb
    split at hb
    · exact .inr ⟨b, source, hb, h⟩
    · exact .inl (.building hb h)
  | finished h => exact .inl (.finished h)
  | registered h => exact .inl (.registered h)

/-- Another registry brings no keyspaces along but those that it holds. -/
theorem Knows.of_put_registry {index : Nat} {r : Registry}
    (hr : ∀ name k, r.keyspace? name = some k → c.Knows k)
    (h : Knows { c with registry := put index r c.registry } k) : c.Knows k := by
  cases h with
  | building hb h => exact .building hb h
  | finished h => exact .finished h
  | @registered i name h =>
    exact put_all (P := fun other : Registry => ∀ name k, other.keyspace? name = some k → c.Knows k)
      hr (fun _ _ _ h => .registered h) i name k h

/-- A keyspace that is finished stood in its builder. -/
theorem Knows.of_finish {place : Nat} {b : Builder} {source : Source}
    (hb : c.builder? place = some (b, source))
    (h : Knows { c with builder? := put place none c.builder?, finished := b.keyspace :: c.finished } k) :
    c.Knows k := by
  cases h with
  | @building i b' source' hb' h =>
    dsimp only at hb'
    unfold put at hb'
    split at hb'
    · cases hb'
    · exact .building hb' h
  | finished h =>
    rcases List.mem_cons.1 h with rfl | h
    · exact .building hb (.inl rfl)
    · exact .finished h
  | registered h => exact .registered h

/-- A keyspace that is known after a step was known before, or it is empty, or the step made it from one
that was known before. -/
theorem Knows.of_step (h : (c.step step).1.Knows k) :
    c.Knows k ∨ (∃ name, k = .empty name) ∨
      ∃ b source b', c.Work step b source b' ∧ b'.keyspace = k := by
  have hchange := step_change c step
  generalize (c.step step).1 = d at h hchange
  cases hchange with
  | idle => exact .inl h
  | start hsource =>
    rcases h.of_put with h | ⟨b, source, heq, h⟩
    · exact .inl h
    · cases heq
      rcases h with rfl | h
      · exact .inr (.inl ⟨_, rfl⟩)
      · exact .inl (source?_contains hsource h)
  | work hb hwork =>
    rcases h.of_put with h | ⟨b, source, heq, h⟩
    · exact .inl h
    · cases heq
      rcases h with rfl | h
      · exact .inr (.inr ⟨_, _, _, hwork, rfl⟩)
      · exact .inl (.building hb (.inr h))
  | finish hb => exact .inl (h.of_finish hb)
  | replace hk =>
    refine .inl (h.of_put_registry fun name other hother => ?_)
    rcases Registry.replace_cases hother with ⟨-, rfl⟩ | hother
    · exact .finished hk
    · exact .registered hother
  | remove =>
    refine .inl (h.of_put_registry fun name other hother => ?_)
    exact .registered (Registry.remove_subset hother)
  | resolver =>
    cases h with
    | building hb h => exact .inl (.building hb h)
    | finished h => exact .inl (.finished h)
    | registered h => exact .inl (.registered h)

theorem step_named (hc : ∀ index, (c.registry index).Named) (step : Step) (index : Nat) :
    ((c.step step).1.registry index).Named := by
  have hchange := step_change c step
  generalize (c.step step).1 = d at hchange
  cases hchange with
  | replace => exact put_all (Registry.replace_named (hc _) _) hc index
  | remove => exact put_all (Registry.remove_named (hc _) _) hc index
  | _ => exact hc index

/-! ## Runs -/

theorem run_concat (c : Catalog) (steps : List Step) (step : Step) :
    c.run (steps ++ [step]) = ((c.run steps).step step).1 := by
  rw [run, run, List.foldl_append]
  rfl

theorem Took.more {event : Catalog → Step → Prop} (h : Took event steps) (step : Step) :
    Took event (steps ++ [step]) := by
  obtain ⟨earlier, taken, later, rfl, h⟩ := h
  exact ⟨earlier, taken, later ++ [step], by simp, h⟩

theorem Took.last {event : Catalog → Step → Prop} (h : event (empty.run steps) step) :
    Took event (steps ++ [step]) :=
  ⟨steps, step, [], rfl, h⟩

theorem run_named (steps : List Step) (index : Nat) : ((empty.run steps).registry index).Named := by
  induction steps using List.reverseRecOn generalizing index with
  | nil => exact Registry.empty_named
  | append_singleton steps step ih =>
    rw [run_concat]
    exact step_named ih step index

/-- A property that empty keyspaces have, that more steps do not take away and that the work of a step
keeps, is one of all keyspaces. -/
theorem known_induction {P : List Step → Keyspace → Prop} (hempty : ∀ steps name, P steps (.empty name))
    (hmore : ∀ steps step k, P steps k → P (steps ++ [step]) k)
    (hwork : ∀ steps step b source b', (empty.run steps).Work step b source b' → P steps b.keyspace →
      P (steps ++ [step]) b'.keyspace)
    (h : (empty.run steps).Knows k) : P steps k := by
  induction steps using List.reverseRecOn generalizing k with
  | nil =>
    cases h with
    | building hb _ => cases hb
    | finished h => cases h
    | registered h => cases h
  | append_singleton steps step ih =>
    rw [run_concat] at h
    rcases h.of_step with h | ⟨name, rfl⟩ | ⟨b, source, b', hstep, rfl⟩
    · exact hmore steps step k (ih h)
    · exact hempty _ name
    · exact hwork steps step b source b' hstep (ih hstep.known)

end Catalog

end Cql
