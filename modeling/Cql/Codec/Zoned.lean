import Cql.Codec.Composite
import Cql.Codec.Temporal
import Cql.Time.Zone

/-!
Timestamps that keep their offset: a tuple of the timestamp and the name of its zone. A region is read
as the offset it has at the instant, and is written back as that offset; the regions are a parameter.
-/

namespace Cql

/-- The two components, either of which may be absent. -/
structure ZonedParts (R : Type) where
  instant : Option Instant
  zone : Option (Zone R)

namespace ZonedParts

variable {R : Type}

def ofZoned (z : ZonedInstant) : ZonedParts R := ⟨some z.instant, some (.fixed z.offset)⟩

/-- Nothing without an instant; UTC without a zone. -/
def zoned? (regions : Regions R) (parts : ZonedParts R) : Option ZonedInstant :=
  parts.instant.map fun i => ⟨i, (parts.zone.map (·.offsetAt regions i)).getD .utc⟩

end ZonedParts

namespace Codec

variable {R : Type} (regions : Regions R)

/-- Names of zones as strings of a given type. -/
def zone (type : NativeType) : Codec (Zone R) :=
  let ofName (name : String) : Except Fault (Zone R) :=
    orFail (.native type) (.unparsable name.toList .notZone) (Zone.read regions name.toList)
  { type := .native type
    encode := fun version z => (string type).encode version (String.ofList (z.print regions))
    decode := fun version bytes => do
      match ← (string type).decode version bytes with
      | some name => (ofName name).map some
      | none => .ok none
    print := fun z => (string type).print (String.ofList (z.print regions))
    read := fun literal => do
      let name ← (string type).read literal
      ofName name }

def zonedParts (zoneType : NativeType) : Composite (ZonedParts R) where
  type := .tuple [.native .timestamp, .native zoneType]
  components :=
    [.of instant (·.instant) (fun i parts => { parts with instant := i }),
     .of (zone regions zoneType) (·.zone) (fun z parts => { parts with zone := z })]
  blank := ⟨none, none⟩
  count? _ := none

/-- The codec for a tuple of a timestamp and a string of the given type. -/
def zonedWith (zoneType : NativeType) : Codec ZonedInstant :=
  let inner := (zonedParts regions zoneType).codec
  { type := inner.type
    encode := fun version z => inner.encode version (.ofZoned z)
    decode := fun version bytes =>
      (inner.decode version bytes).map fun parts => parts.bind (·.zoned? regions)
    print := fun z => inner.print (.ofZoned z)
    read := fun literal => do
      let parts ← inner.read literal
      orFail inner.type (.unparsable literal .missingTimestamp) (parts.zoned? regions) }

/-- The zone may be of the type `varchar` or `text`. -/
def zoned? (type : ColumnType) : Except Fault (Codec ZonedInstant) :=
  match type with
  | .tuple [.native .timestamp, .native .varchar] => .ok (zonedWith regions .varchar)
  | .tuple [.native .timestamp, .native .text] => .ok (zonedWith regions .text)
  | _ => .error ⟨type, .unsupported .zonedTimestamp⟩

end Codec

end Cql
