import Cql.Schema.DependencyOrder
import Cql.Schema.Keyspace

/-!
Building a keyspace from rows. Names are looked up in what was added so far and then in a fallback, if
there is one.
-/

namespace Cql

structure Builder where
  keyspace : Keyspace
  /-- How deep parameters of types may be nested. -/
  limit : Nat

namespace Builder

def start (name : String) (limit : Nat) : Builder := ⟨.empty name, limit⟩

def userType? (b : Builder) (fallback : Option Scope) (keyspace name : String) : Option UserType :=
  let own := if keyspace = b.keyspace.name then b.keyspace.types.get? name else none
  own.or (fallback.bind fun f => f.userType? keyspace name)

def table? (b : Builder) (fallback : Option Scope) (keyspace name : String) : Option Table :=
  let own := if keyspace = b.keyspace.name then b.keyspace.tables.get? name else none
  own.or (fallback.bind fun f => f.table? keyspace name)

/-- Tuples are put together as the fallback does it. -/
def makeTuple (fallback : Option Scope) (elements : List ColumnType) : ColumnType :=
  match fallback with
  | some f => f.makeTuple elements
  | none => .tuple elements

def scope (b : Builder) (fallback : Option Scope) : Scope :=
  ⟨⟨b.userType? fallback, makeTuple fallback⟩, b.table? fallback⟩

/-- Defines a type with what is known so far. -/
def define (fallback : Option Scope) (b : Builder) (d : TypeDraft) : Builder :=
  let type := d.define (b.scope fallback).toTypeScope b.keyspace.name
  { b with keyspace := { b.keyspace with types := b.keyspace.types.insert d.name type } }

/-- Adds user types, which may refer to each other and may stand in any order. Of rows with the same
name the last one counts. -/
def addTypes (b : Builder) (fallback : Option Scope) (rows : List TypeRow) :
    Except SchemaFault Builder := do
  let drafts ← rows.mapM (TypeRow.draft b.limit)
  let drafts ← DependencyOrder.order (DependencyOrder.latest drafts)
  .ok (drafts.foldl (define fallback) b)

def addTable (b : Builder) (fallback : Option Scope) (row : TableRow) (columns : List ColumnRow) :
    Except SchemaFault Builder := do
  let table ← Table.ofRow b.limit (b.scope fallback).toTypeScope row columns
  .ok { b with keyspace := { b.keyspace with tables := b.keyspace.tables.insert table.name table } }

/-- Adds a view, unless its base table is not known; the answer tells which. -/
def addView (b : Builder) (fallback : Option Scope) (row : ViewRow) (columns : List ColumnRow) :
    Except SchemaFault (Bool × Builder) := do
  match ← View.ofRow b.limit (b.scope fallback) row columns with
  | none => .ok (false, b)
  | some view =>
    .ok (true,
      { b with keyspace := { b.keyspace with views := b.keyspace.views.insert view.name view } })

end Builder

end Cql
