import Cql.Schema.Catalog
import Cql.Proofs.Sequences

/-!
What a step can do to a catalog: nothing at all, if it fails, and otherwise one thing, which is told here
for every kind of step.
-/

namespace Cql

/-! ## Registries -/

namespace Registry

variable {r : Registry} {k other : Keyspace} {name keyspace : String}

theorem replace_cases (h : (r.replace k).keyspace? name = some other) :
    (k.name = name ∧ other = k) ∨ r.keyspace? name = some other := by
  rw [keyspace?, replace, Dictionary.get?_insert] at h
  split at h
  · next heq => exact .inl ⟨heq, (Option.some.inj h).symm⟩
  · exact .inr h

theorem remove_subset (h : (r.remove keyspace).keyspace? name = some k) : r.keyspace? name = some k := by
  rw [keyspace?, remove, Dictionary.get?_erase] at h
  split at h
  · cases h
  · exact h

end Registry

/-! ## Steps -/

namespace Catalog

/-- What a step makes of the builder that it goes on with, and where that builder looks things up. -/
inductive Work (c : Catalog) : Step → Builder → Source → Builder → Prop where
  | types {place : Nat} {rows : List TypeRow} {b b' : Builder} {source : Source}
    (hb : c.builder? place = some (b, source)) (h : b.addTypes (c.scope? source) rows = .ok b') :
    Work c (.addTypes place rows) b source b'
  | table {place : Nat} {row : TableRow} {columns : List ColumnRow} {b b' : Builder} {source : Source}
    (hb : c.builder? place = some (b, source))
    (h : b.addTable (c.scope? source) row columns = .ok b') :
    Work c (.addTable place row columns) b source b'
  | view {place : Nat} {row : ViewRow} {columns : List ColumnRow} {known : Bool} {b b' : Builder}
    {source : Source} (hb : c.builder? place = some (b, source))
    (h : b.addView (c.scope? source) row columns = .ok (known, b')) :
    Work c (.addView place row columns) b source b'

/-- Everything that a step can do to a catalog. -/
inductive Change (c : Catalog) : Step → Catalog → Prop where
  | idle {step : Step} : Change c step c
  | start {place : Nat} {keyspace : String} {limit : Nat} {origin : Origin} {source : Source}
    (h : c.source? origin = some source) :
    Change c (.start place keyspace limit origin)
      { c with builder? := put place (some (.start keyspace limit, source)) c.builder? }
  | work {step : Step} {place : Nat} {b b' : Builder} {source : Source}
    (hb : c.builder? place = some (b, source)) (h : c.Work step b source b') :
    Change c step { c with builder? := put place (some (b', source)) c.builder? }
  | finish {place : Nat} {b : Builder} {source : Source} (hb : c.builder? place = some (b, source)) :
    Change c (.finish place)
      { c with builder? := put place none c.builder?, finished := b.keyspace :: c.finished }
  | replace {index finished : Nat} {k : Keyspace} (h : k ∈ c.finished) :
    Change c (.replace index finished)
      { c with registry := put index ((c.registry index).replace k) c.registry }
  | remove {index : Nat} {keyspace : String} :
    Change c (.remove index keyspace)
      { c with registry := put index ((c.registry index).remove keyspace) c.registry }
  | resolver {index : Nat} {resolver : Scope} :
    Change c (.change index resolver) { c with elsewhere := put index resolver c.elsewhere }

variable {c : Catalog} {step : Step}

theorem building_change (place : Nat)
    {work : Builder → Option Scope → Except SchemaFault (Answer × Builder)}
    (hwork : ∀ b source answer b', c.builder? place = some (b, source) →
      work b (c.scope? source) = .ok (answer, b') → c.Work step b source b') :
    c.Change step (c.building place work).1 := by
  unfold building
  split
  · exact .idle
  · next b source hb =>
    split
    · exact .idle
    · next answer b' h => exact .work hb (hwork b source answer b' hb h)

theorem step_change (c : Catalog) (step : Step) : c.Change step (c.step step).1 := by
  cases step with
  | start place keyspace limit origin =>
    rw [Catalog.step]
    split
    · exact .idle
    · next source h => exact .start h
  | addTypes place rows =>
    apply building_change place
    intro b source answer b' hb h
    obtain ⟨added, hadded, heq⟩ := map_ok_iff.1 h
    cases heq
    exact .types hb hadded
  | addTable place row columns =>
    apply building_change place
    intro b source answer b' hb h
    obtain ⟨added, hadded, heq⟩ := map_ok_iff.1 h
    cases heq
    exact .table hb hadded
  | addView place row columns =>
    apply building_change place
    intro b source answer b' hb h
    obtain ⟨⟨known, added⟩, hadded, heq⟩ := map_ok_iff.1 h
    cases heq
    exact .view hb hadded
  | finish place =>
    rw [Catalog.step]
    split
    · exact .idle
    · next b source hb => exact .finish hb
  | replace index finished =>
    rw [Catalog.step]
    split
    · exact .idle
    · next k hk => exact .replace (List.mem_of_getElem? hk)
  | remove index keyspace => exact .remove
  | change index resolver => exact .resolver

/-! ## Families -/

theorem put_all {α : Type} {P : α → Prop} {family : Nat → α} {place : Nat} {a : α} (ha : P a)
    (hfamily : ∀ i, P (family i)) (i : Nat) : P (put place a family i) := by
  rw [put]
  split
  · exact ha
  · exact hfamily i

end Catalog

end Cql
