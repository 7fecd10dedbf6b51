import Cql.Schema.Builder
import Cql.Schema.Registry

/-!
Keyspaces that are being built, those that are finished, and the registries that they are put into. What a
builder does not know it looks up in a registry as it is at the time, in another builder, which does not
change any more, or elsewhere. A step that fails changes nothing.
-/

namespace Cql

/-- Where a builder looks up what it does not know. -/
inductive Source where
  | nowhere
  | registry (index : Nat)
  | builder (b : Builder) (source : Source)
  | elsewhere (index : Nat)

structure Catalog where
  registry : Nat → Registry
  /-- The builder in a place, if there is one, and where it looks things up. -/
  builder? : Nat → Option (Builder × Source)
  /-- The keyspaces that were finished, the last one first. -/
  finished : List Keyspace
  /-- Other resolvers, which may change at any time. -/
  elsewhere : Nat → Scope

namespace Catalog

/-- How a builder that is started names what it looks things up in. -/
inductive Origin where
  | nowhere
  | registry (index : Nat)
  /-- The builder in a place, as it is now. -/
  | builder (place : Nat)
  | elsewhere (index : Nat)
  deriving DecidableEq, Repr

inductive Step where
  | start (place : Nat) (keyspace : String) (limit : Nat) (origin : Origin)
  | addTypes (place : Nat) (rows : List TypeRow)
  | addTable (place : Nat) (row : TableRow) (columns : List ColumnRow)
  | addView (place : Nat) (row : ViewRow) (columns : List ColumnRow)
  | finish (place : Nat)
  /-- Puts a finished keyspace into a registry. -/
  | replace (index : Nat) (finished : Nat)
  | remove (index : Nat) (keyspace : String)
  /-- Another resolver has new answers. -/
  | change (index : Nat) (resolver : Scope)

inductive Answer where
  | done
  /-- Whether a view could be added. -/
  | added (known : Bool)
  | failed (fault : SchemaFault)
  | finished (keyspace : Keyspace)
  /-- The keyspace of the same name that was in the registry before. -/
  | replaced (previous : Option Keyspace)
  | removed (previous : Option Keyspace)
  /-- There is no such builder or keyspace. -/
  | idle

def empty : Catalog := ⟨fun _ => .empty, fun _ => none, [], fun _ => .ofTypes .none⟩

/-- What is looked up in a source now. -/
def scope? (c : Catalog) : Source → Option Scope
  | .nowhere => none
  | .registry index => some (c.registry index).scope
  | .builder b source => some (b.scope (c.scope? source))
  | .elsewhere index => some (c.elsewhere index)

def source? (c : Catalog) : Origin → Option Source
  | .nowhere => some .nowhere
  | .registry index => some (.registry index)
  | .builder place => (c.builder? place).map fun (b, source) => .builder b source
  | .elsewhere index => some (.elsewhere index)

/-- A family with another member in one place. -/
def put {α : Type} (place : Nat) (a : α) (family : Nat → α) : Nat → α :=
  fun i => if i = place then a else family i

/-- Goes on with a builder and what it looks things up in. -/
def building (c : Catalog) (place : Nat)
    (work : Builder → Option Scope → Except SchemaFault (Answer × Builder)) : Catalog × Answer :=
  match c.builder? place with
  | none => (c, .idle)
  | some (b, source) =>
    match work b (c.scope? source) with
    | .error fault => (c, .failed fault)
    | .ok (answer, b) => ({ c with builder? := put place (some (b, source)) c.builder? }, answer)

def step (c : Catalog) : Step → Catalog × Answer
  | .start place keyspace limit origin =>
    match c.source? origin with
    | none => (c, .idle)
    | some source =>
      ({ c with builder? := put place (some (.start keyspace limit, source)) c.builder? }, .done)
  | .addTypes place rows =>
    c.building place fun b fallback => (b.addTypes fallback rows).map (.done, ·)
  | .addTable place row columns =>
    c.building place fun b fallback => (b.addTable fallback row columns).map (.done, ·)
  | .addView place row columns =>
    c.building place fun b fallback =>
      (b.addView fallback row columns).map fun (known, b) => (.added known, b)
  | .finish place =>
    match c.builder? place with
    | none => (c, .idle)
    | some (b, _) =>
      ({ c with
          builder? := put place none c.builder?
          finished := b.keyspace :: c.finished },
        .finished b.keyspace)
  | .replace index finished =>
    match c.finished[finished]? with
    | none => (c, .idle)
    | some keyspace =>
      ({ c with registry := put index ((c.registry index).replace keyspace) c.registry },
        .replaced ((c.registry index).keyspace? keyspace.name))
  | .remove index keyspace =>
    ({ c with registry := put index ((c.registry index).remove keyspace) c.registry },
      .removed ((c.registry index).keyspace? keyspace))
  | .change index resolver => ({ c with elsewhere := put index resolver c.elsewhere }, .done)

/-- The catalog after some steps. -/
def run (c : Catalog) (steps : List Step) : Catalog := steps.foldl (fun c step => (c.step step).1) c

end Catalog

end Cql
