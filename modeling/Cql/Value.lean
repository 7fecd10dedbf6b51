import Cql.Address
import Cql.Number.Decimal
import Cql.Uuid

/-!
Values of columns. The value tells its kind by itself; a text is the same value for `text` and
`varchar`, and components of tuples and fields of user defined types may be absent.
-/

namespace Cql

inductive Value where
  | ascii (text : String)
  | text (text : String)
  | blob (bytes : Bytes)
  | boolean (value : Bool)
  | tinyint (value : Int8)
  | smallint (value : Int16)
  | int (value : Int32)
  | bigint (value : Int64)
  | counter (value : Int64)
  | varint (value : Int)
  | decimal (value : Decimal)
  /-- The bits of a binary floating point number, so that every pattern is kept. -/
  | float (bits : UInt32)
  | double (bits : UInt64)
  /-- Milliseconds since the epoch. -/
  | timestamp (millis : Int64)
  /-- Days, the epoch being day `2 ^ 31`. -/
  | date (days : UInt32)
  /-- Nanoseconds since midnight. -/
  | time (nanos : Int64)
  | inet (address : Address)
  | uuid (uuid : Uuid)
  | timeuuid (uuid : Uuid)
  /-- No bytes, for a type of which that is not a regular value. -/
  | empty
  | list (items : List Value)
  | set (items : List Value)
  | map (entries : List (Value × Value))
  | tuple (items : List (Option Value))
  | userDefined (keyspace name : String) (fields : List (String × Option Value))
  deriving Repr, Inhabited

namespace Value

def asAscii? : Value → Option String
  | ascii s => some s
  | _ => none

def asText? : Value → Option String
  | text s => some s
  | _ => none

def asBlob? : Value → Option Bytes
  | blob bytes => some bytes
  | _ => none

def asInt? : Value → Option Int32
  | int i => some i
  | _ => none

def asBigint? : Value → Option Int64
  | bigint i => some i
  | _ => none

def asDate? : Value → Option UInt32
  | date days => some days
  | _ => none

def asTimestamp? : Value → Option Int64
  | timestamp millis => some millis
  | _ => none

def asTime? : Value → Option Int64
  | time nanos => some nanos
  | _ => none

/-- The identifier of either kind. -/
def asUuid? : Value → Option Uuid
  | uuid u | timeuuid u => some u
  | _ => none

def asList? : Value → Option (List Value)
  | list items => some items
  | _ => none

def asSet? : Value → Option (List Value)
  | set items => some items
  | _ => none

def asMap? : Value → Option (List (Value × Value))
  | map entries => some entries
  | _ => none

def asTuple? : Value → Option (List (Option Value))
  | tuple items => some items
  | _ => none

/-- The text of either kind. -/
def string? : Value → Option String
  | ascii s | text s => some s
  | _ => none

end Value

end Cql
