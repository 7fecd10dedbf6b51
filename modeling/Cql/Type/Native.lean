import Cql.Text.Basic

/-!
The simple types and their keywords.
-/

namespace Cql

inductive NativeType where
  | ascii | bigint | blob | boolean | counter | decimal | double | float | inet | int | text | varchar
  | timestamp | date | time | uuid | varint | timeuuid | tinyint | smallint
  deriving DecidableEq, Repr

namespace NativeType

/-- Every simple type once, in the order of their numbers. -/
def all : List NativeType :=
  [ascii, bigint, blob, boolean, counter, decimal, double, float, inet, int, text, varchar,
   timestamp, date, time, uuid, varint, timeuuid, tinyint, smallint]

def name : NativeType → String
  | ascii => "ascii"
  | bigint => "bigint"
  | blob => "blob"
  | boolean => "boolean"
  | counter => "counter"
  | decimal => "decimal"
  | double => "double"
  | float => "float"
  | inet => "inet"
  | int => "int"
  | text => "text"
  | varchar => "varchar"
  | timestamp => "timestamp"
  | date => "date"
  | time => "time"
  | uuid => "uuid"
  | varint => "varint"
  | timeuuid => "timeuuid"
  | tinyint => "tinyint"
  | smallint => "smallint"

/-- Keywords are read in any case. -/
def ofName? (name : Text) : Option NativeType :=
  all.find? fun t => Text.sameWord t.name.toList name

/-- The place of a type among all. -/
def index (t : NativeType) : Nat := all.idxOf t

/-- Bytes of an encoded value, where every value takes the same number. -/
def fixedSize : NativeType → Option Nat
  | tinyint | boolean => some 1
  | smallint => some 2
  | int | float | date => some 4
  | bigint | counter | double | timestamp | time => some 8
  | uuid | timeuuid => some 16
  | _ => none

/-- Whether no bytes at all stand for an empty value. Strings and blobs may be empty themselves, and a
counter is never empty. -/
def supportsEmpty : NativeType → Bool
  | ascii | text | varchar | blob | counter => false
  | _ => true

theorem mem_all (t : NativeType) : t ∈ all := by cases t <;> decide

end NativeType

end Cql
