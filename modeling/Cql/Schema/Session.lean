import Cql.Schema.Catalog

/-!
Working on one registry step by step. At most one keyspace is being built at a time; the registry does
not change before that keyspace is put into it, and a step that fails changes nothing at all.
-/

namespace Cql

/-- Where the builder looks up what it does not know. -/
inductive Fallback where
  | none
  /-- The registry as it is at the time of the look-up. -/
  | registry
  | reversing
  deriving DecidableEq, Repr

def Fallback.origin : Fallback → Catalog.Origin
  | none => .nowhere
  | registry => .registry 0
  | reversing => .elsewhere 0

/-- The registry and the builder are the first ones of a catalog. -/
structure Session where
  catalog : Catalog
  /-- The registry as it was when it was last kept. -/
  kept : Registry

inductive Session.Step where
  | start (keyspace : String) (limit : Nat) (fallback : Fallback)
  | addTypes (rows : List TypeRow)
  | addTable (row : TableRow) (columns : List ColumnRow)
  | addView (row : ViewRow) (columns : List ColumnRow)
  | finish
  | commit
  | remove (keyspace : String)
  | keep

namespace Session

abbrev Answer := Catalog.Answer

def empty : Session := ⟨(Catalog.empty.step (.change 0 (.ofTypes .reversing))).1, .empty⟩

def registry (s : Session) : Registry := s.catalog.registry 0

/-- The scope of the keyspace that is being built. -/
def builderScope? (s : Session) : Option Scope :=
  (s.catalog.builder? 0).map fun (b, source) => b.scope (s.catalog.scope? source)

/-- Takes a step of the catalog. -/
def take (s : Session) (step : Catalog.Step) : Session × Answer :=
  let (catalog, answer) := s.catalog.step step
  ({ s with catalog }, answer)

def step (s : Session) : Step → Session × Answer
  | .start keyspace limit fallback => s.take (.start 0 keyspace limit fallback.origin)
  | .addTypes rows => s.take (.addTypes 0 rows)
  | .addTable row columns => s.take (.addTable 0 row columns)
  | .addView row columns => s.take (.addView 0 row columns)
  | .finish => s.take (.finish 0)
  | .commit =>
    match s.take (.finish 0) with
    | (done, .finished _) => done.take (.replace 0 0)
    | (s, answer) => (s, answer)
  | .remove keyspace => s.take (.remove 0 keyspace)
  | .keep => ({ s with kept := s.registry }, .done)

end Session

end Cql
