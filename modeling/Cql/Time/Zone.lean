import Cql.Time.Instant

/-!
Zones of timestamps: offsets from UTC, and regions with a name. Which regions there are and when their
clocks change is not told here; what is known of them is a parameter.
-/

namespace Cql

/-- What is known of regions: those that have a name, and the offset of each at an instant. -/
structure Regions (R : Type) where
  ofName? : Text → Option R
  name : R → Text
  offsetAt : R → Instant → Offset

/-- The zone of a timestamp: an offset, or a region whose offset depends on the instant. -/
inductive Zone (R : Type) where
  | fixed (offset : Offset)
  | region (region : R)
  deriving DecidableEq, Repr

namespace Zone

variable {R : Type} (regions : Regions R)

/-- Offsets come before regions; blanks around the name are dropped. -/
def read (t : Text) : Option (Zone R) :=
  match Offset.readZone t with
  | some offset => some (.fixed offset)
  | none => (regions.ofName? (Text.trim t)).map .region

def print : Zone R → Text
  | .fixed offset => offset.print
  | .region r => regions.name r

def offsetAt : Zone R → Instant → Offset
  | .fixed offset, _ => offset
  | .region r, instant => regions.offsetAt r instant

end Zone

/-- An instant with the offset of the clock it was read from. -/
structure ZonedInstant where
  instant : Instant
  offset : Offset
  deriving DecidableEq, Repr

end Cql
