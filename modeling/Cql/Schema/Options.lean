import Cql.Codec.OfType
import Cql.Dictionary
import Cql.Schema.Fault

/-!
Options of tables and views. Those with a known meaning are read from their literals and written back
as such; all others are kept as they are.
-/

namespace Cql

structure TableOptions where
  comment : Option String
  speculativeRetry : Option String
  /-- In seconds. -/
  defaultTimeToLive : Option Int32
  gcGraceSeconds : Option Int32
  bloomFilterFpChance : Option UInt64
  crcCheckChance : Option UInt64
  caching : Dictionary String
  compaction : Dictionary String
  compression : Dictionary String
  /-- The literals of options that have no field of their own. -/
  other : Dictionary String
  deriving DecidableEq, Repr

namespace TableOptions

def empty : TableOptions :=
  ⟨none, none, none, none, none, none, .empty, .empty, .empty, .empty⟩

/-- Maps of texts to texts. -/
def textMap : Codec Value := ColumnType.codec (.map (.native .text) (.native .text) false)

def textEntry : Value × Value → Option (String × String)
  | (k, v) => do
    let k ← k.string?
    let v ← v.string?
    some (k, v)

/-- An absent map is empty. -/
def readMap (literal : Text) : Except Fault (Dictionary String) := do
  match ← textMap.parse literal with
  | none => .ok .empty
  | some .empty => .ok .empty
  | some (.map entries) =>
    match entries.mapM textEntry with
    | some entries => .ok (.ofList entries)
    | none => .error ⟨textMap.type, .incompatible .textMap⟩
  | some _ => .error ⟨textMap.type, .incompatible .textMap⟩

def printMap (d : Dictionary String) : Except Fault Text :=
  textMap.print (.map (d.entries.map fun (k, v) => (.text k, .text v)))

/-- Sets the option of a name from its literal. -/
def set (o : TableOptions) (name literal : String) : Except Fault TableOptions := do
  let t := literal.toList
  match name with
  | "comment" => .ok { o with comment := ← (Codec.string .text).parse t }
  | "speculative_retry" => .ok { o with speculativeRetry := ← (Codec.string .text).parse t }
  | "default_time_to_live" => .ok { o with defaultTimeToLive := ← Codec.int.parse t }
  | "gc_grace_seconds" => .ok { o with gcGraceSeconds := ← Codec.int.parse t }
  | "bloom_filter_fp_chance" => .ok { o with bloomFilterFpChance := ← Codec.double.parse t }
  | "crc_check_chance" => .ok { o with crcCheckChance := ← Codec.double.parse t }
  | "caching" => .ok { o with caching := ← readMap t }
  | "compaction" => .ok { o with compaction := ← readMap t }
  | "compression" => .ok { o with compression := ← readMap t }
  | _ => .ok { o with other := o.other.insert name literal }

/-- Reads options in order, the later ones of a name taking the place of the earlier. -/
def read (literals : List (String × String)) : Except OptionFault TableOptions :=
  literals.foldlM (fun o (name, literal) => (o.set name literal).mapError fun f => ⟨name, f⟩) empty

/-- The literals of the options with fields of their own, where they are set. -/
def known (o : TableOptions) : List (String × Except Fault Text) :=
  let one {α : Type} (name : String) (codec : Codec α) (value : Option α) :
      List (String × Except Fault Text) :=
    (value.map fun a => (name, codec.print a)).toList
  let many (name : String) (d : Dictionary String) : List (String × Except Fault Text) :=
    if d.isEmpty then [] else [(name, printMap d)]
  one "comment" (.string .text) o.comment ++ one "speculative_retry" (.string .text) o.speculativeRetry
    ++ one "default_time_to_live" .int o.defaultTimeToLive
    ++ one "gc_grace_seconds" .int o.gcGraceSeconds
    ++ one "bloom_filter_fp_chance" .double o.bloomFilterFpChance
    ++ one "crc_check_chance" .double o.crcCheckChance
    ++ many "caching" o.caching ++ many "compaction" o.compaction ++ many "compression" o.compression

/-- All options with their literals, by name. -/
def literals (o : TableOptions) : Dictionary String :=
  o.known.foldl
    (fun d (name, literal) => match literal with
      | .ok t => d.insert name (String.ofList t)
      | .error _ => d)
    o.other

end TableOptions

end Cql
