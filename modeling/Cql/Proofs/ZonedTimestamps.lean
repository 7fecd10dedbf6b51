import Cql.Codec.Zoned
import Cql.Proofs.BracketedText
import Cql.Proofs.TemporalLiterals
import Cql.Proofs.WireRoundTrip
import Cql.Time.Region

/-!
Timestamps with an offset keep both, as bytes to the millisecond and as literals in full. What holds of every
composite value comes first: components that are written and read alone are written and read together.
-/

namespace Cql

/-! ## Components -/

namespace Component

open Literal (spread_join)
open Scanner (Scanned)

variable {σ : Type}

/-- Component after component of a value is written and read again, from one state of what is read to
another. -/
inductive Travels (version : Version) (value : σ) : List (Component σ) → σ → σ → Prop where
  | nil {state : σ} : Travels version value [] state state
  | cons {c : Component σ} {cs : List (Component σ)} {payload : Bytes} {state next last : σ}
    (hwrite : c.serialize version value = .ok (some payload)) (hsize : payload.length < 2 ^ 31)
    (hread : c.deserialize version (some payload) state = .ok next)
    (h : Travels version value cs next last) : Travels version value (c :: cs) state last

theorem exists_frame (type : ColumnType) {payload : Bytes} (hsize : payload.length < 2 ^ 31) :
    ∃ framed, frame type (some payload) = .ok framed := by
  simp [frame, Wire.writeOptional, Wire.writeBytes, Wire.writeIntLength_eq hsize]

theorem Travels.carried {version : Version} {value : σ} {cs : List (Component σ)} {state last : σ}
    (h : Travels version value cs state last) (type : ColumnType) :
    ∃ bytes, encodeAll type version value cs = .ok bytes ∧
      decodeAll type version cs bytes state = .ok last := by
  induction h with
  | nil => exact ⟨[], rfl, rfl⟩
  | cons hwrite hsize hread _ ih =>
    obtain ⟨later, hlater, hlast⟩ := ih
    obtain ⟨framed, hframe⟩ := exists_frame type hsize
    have hframed := frame_eq hframe
    have hne : ¬ (framed ++ later).isEmpty = true := by
      simp [Wire.writeOptional_ne_nil hframed]
    refine ⟨framed ++ later, ?_, ?_⟩
    · rw [encodeAll, hwrite, ok_bind, hframe, ok_bind, hlater]
      rfl
    · rw [decodeAll, if_neg hne, Wire.readOptional_write hframed]
      dsimp only
      rw [hread]
      exact hlast

theorem Travels.of {α : Type} {codec : Codec α} {get : σ → Option α} {put : Option α → σ → σ}
    {version : Version} {value : σ} {cs : List (Component σ)} {payload : Bytes} {a : α} {b : Option α}
    {state last : σ} (hget : get value = some a) (hencode : codec.encode version a = .ok payload)
    (hsize : payload.length < 2 ^ 31) (hdecode : codec.decode version payload = .ok b)
    (h : Travels version value cs (put b state) last) :
    Travels version value (.of codec get put :: cs) state last := by
  refine .cons ?_ hsize ?_ h
  · simp only [Component.of, hget, Codec.serialize, hencode, map_ok]
  · simp only [Component.of, Codec.deserialize, hdecode, map_ok]

theorem Reads.of {α : Type} {codec : Codec α} {get : σ → Option α} {put : Option α → σ → σ}
    {cs : List (Component σ)} {part : Text} {parts : List Text} {b : Option α} {state last : σ}
    (hparse : codec.parse part = .ok b) (h : Reads cs parts (put b state) last) :
    Reads (.of codec get put :: cs) (part :: parts) state last := by
  refine .cons ?_ h
  simp only [Component.of, hparse, map_ok]

/-- A literal of the components' literals is one value for the scanner and is read as a whole. -/
theorem readAll_join (type : ColumnType) {cs : List (Component σ)} {texts : List Text} {state last : σ}
    (htexts : ∀ t ∈ texts, Scanned t) (hreads : Reads cs texts state last) :
    Scanned ('(' :: Text.join [','] texts ++ [')']) ∧
      readAll type cs state ('(' :: Text.join [','] texts ++ [')']) = .ok last := by
  have hspread := spread_join texts
  have hpasses := hspread.passes fun t ht => (htexts t ht).passes
  exact ⟨Scanner.Brackets.round.scanned hpasses, readAll_spread hspread htexts hreads⟩

end Component

/-! ## The two components of a timestamp with an offset -/

theorem Utf8.length_encode_le (t : Text) : (Utf8.encode t).length ≤ 4 * t.length := by
  induction t with
  | nil => exact Nat.le_refl _
  | cons c t ih =>
    have hchar : (Utf8.encodeChar c).length ≤ 4 := by
      simp only [Utf8.encodeChar]
      repeat' split
      all_goals simp
    rw [Utf8.encode, List.flatMap_cons, ← Utf8.encode, List.length_append, List.length_cons]
    omega

theorem Offset.length_print_le (o : Offset) : o.print.length ≤ 9 := by
  have htwo : ∀ n < 100, (Date.twoDigits n).length = 2 := fun n hn =>
    Integer.length_padTo_digits (by decide) hn
  have hlower := o.lower
  have hupper := o.upper
  by_cases h : o.seconds = 0
  · rw [print, if_pos h]
    decide
  · have hseconds := htwo (o.seconds.natAbs % 60) (by omega)
    rw [print_eq h, List.length_cons, List.length_append, List.length_cons, List.length_append,
      htwo (o.seconds.natAbs / 3600) (by omega), htwo (o.seconds.natAbs / 60 % 60) (by omega)]
    split
    · decide
    · rw [List.length_cons, hseconds]

/-- The instant that is left when less than a millisecond is dropped. -/
theorem Instant.exists_floor (i : Instant) (hnano : i.nano < 1000000000) :
    ∃ j : Instant, j.At (i.nanos / 1000000) := by
  refine ⟨⟨i.second, i.nano / 1000000 * 1000000, i.first_le, i.lt_end, by omega⟩, ?_⟩
  simp only [At, nanos]
  omega

namespace Codec

variable {zoneType : NativeType} {R : Type} (regions : Regions R)

/-- The bytes of an instant hold its milliseconds, whatever the calendar makes of them. -/
theorem instant_decode (i : Instant) (version : Version) :
    instant.decode version (BigEndian.ofInt 8 i.millis) =
      (orFail (.native .timestamp) .overflow (Instant.ofMillis? i.millis)).map some := by
  have hlow := i.toStored.le_toInt
  have hhigh := i.toStored.toInt_lt
  rw [i.toInt_toStored, ← i.millis_eq] at hlow hhigh
  have hlength := BigEndian.length_ofInt 8 i.millis
  have hne : BigEndian.ofInt 8 i.millis ≠ [] := List.ne_nil_of_length_pos (by rw [hlength]; decide)
  have hback : BigEndian.toInt (BigEndian.ofInt 8 i.millis) = i.millis :=
    BigEndian.toInt_ofInt (by omega) (by omega)
  simp [instant, hne, fixedBytes_of_length hlength, hback]

theorem instant_decode_iff {i j : Instant} {version : Version} :
    instant.decode version (BigEndian.ofInt 8 i.millis) = .ok (some j) ↔ j.At (i.nanos / 1000000) := by
  rw [instant_decode, ← i.millis_eq, ← Instant.ofMillis?_eq_some]
  cases Instant.ofMillis? i.millis <;> simp [orFail]

theorem instant_carried {i : Instant} (hnano : i.nano < 1000000000) (version : Version) :
    ∃ j : Instant, j.At (i.nanos / 1000000) ∧
      instant.decode version (BigEndian.ofInt 8 i.millis) = .ok (some j) := by
  obtain ⟨j, hj⟩ := i.exists_floor hnano
  exact ⟨j, hj, instant_decode_iff.2 hj⟩

theorem checkAscii_ok (h : zoneType ≠ .ascii) (t : Text) : checkAscii zoneType t = .ok t := by
  simp [checkAscii, h]

theorem zone_read_print (o : Offset) : Zone.read regions o.print = some (.fixed o) := by
  rw [Zone.read, o.readZone_print]

theorem zone_encode (h : zoneType ≠ .ascii) (o : Offset) (version : Version) :
    (zone regions zoneType).encode version (.fixed o) = .ok (Utf8.encode o.print) := by
  simp [zone, string, Zone.print, checkAscii_ok h]

theorem zone_decode (h : zoneType ≠ .ascii) (o : Offset) (version : Version) :
    (zone regions zoneType).decode version (Utf8.encode o.print) = .ok (some (.fixed o)) := by
  simp [zone, string, Utf8.decode_encode, checkAscii_ok h, zone_read_print regions, orFail]

theorem zone_read (h : zoneType ≠ .ascii) (o : Offset) :
    (zone regions zoneType).read (Quoted.quote o.print) = .ok (.fixed o) := by
  simp [zone, string, unquoted, Quoted.unquote_quote, checkAscii_ok h, zone_read_print regions, orFail]

/-- Both components are written and read; of the instant, what is shorter than a millisecond is lost. -/
theorem zoned_carried (h : zoneType ≠ .ascii) {z : ZonedInstant} (hnano : z.instant.nano < 1000000000)
    (version : Version) :
    ∃ bytes j, (zonedWith regions zoneType).encode version z = .ok bytes ∧
      (zonedWith regions zoneType).decode version bytes = .ok (some ⟨j, z.offset⟩) ∧
      j.At (z.instant.nanos / 1000000) := by
  obtain ⟨j, hj, hinstant⟩ := instant_carried hnano version
  have hlength := z.offset.length_print_le
  have hname := Utf8.length_encode_le z.offset.print
  have hmillis : (BigEndian.ofInt 8 z.instant.millis).length < 2 ^ 31 := by
    rw [BigEndian.length_ofInt]
    decide
  have hsize : (Utf8.encode z.offset.print).length < 2 ^ 31 := by omega
  have htravels : Component.Travels version (.ofZoned z) (zonedParts regions zoneType).components
      (zonedParts regions zoneType).blank ⟨some j, some (.fixed z.offset)⟩ :=
    .of rfl rfl hmillis hinstant
      (.of rfl (zone_encode regions h z.offset version) hsize (zone_decode regions h z.offset version)
        .nil)
  obtain ⟨bytes, hencode, hdecode⟩ := htravels.carried (zonedParts regions zoneType).type
  refine ⟨bytes, j, hencode, ?_, hj⟩
  simp only [zonedWith, Composite.codec, hdecode, map_ok]
  rfl

/-- The literal holds the instant in full and the offset. -/
theorem zoned_readsBack (h : zoneType ≠ .ascii) {z : ZonedInstant}
    (hnano : z.instant.nano < 1000000000) :
    ∃ t, (zonedWith regions zoneType).format (some z) = .ok t ∧
      (zonedWith regions zoneType).parse t = .ok (some z) := by
  let texts := [Quoted.quote z.instant.print, Quoted.quote z.offset.print]
  have hinstant : instant.read (Quoted.quote z.instant.print) = .ok z.instant := by
    simp only [instant, readTimestamp_quote _ _ hnano, id_eq]
  have hreads : Component.Reads (zonedParts regions zoneType).components texts
      (zonedParts regions zoneType).blank (.ofZoned z) :=
    .of (parse_quote hinstant) (.of (parse_quote (zone_read regions h z.offset)) .nil)
  have hscanned : ∀ t ∈ texts, Scanner.Scanned t := by
    simp [texts, Scanner.scanned_quote]
  obtain ⟨hwhole, hread⟩ := Component.readAll_join (zonedParts regions zoneType).type hscanned hreads
  have hnull : Quoted.isNull ('(' :: Text.join [','] texts ++ [')']) = false :=
    Quoted.isNull_eq_false List.mem_cons_self (by decide)
  refine ⟨'(' :: Text.join [','] texts ++ [')'], ?_, parse_some_iff.2 ?_⟩
  · simp [format, zonedWith, Composite.codec, Component.printAll, zonedParts, Component.of, instant, zone,
      string, ZonedParts.ofZoned, texts, Zone.print]
  · rw [hwhole.trim_eq_self]
    refine ⟨hnull, ?_⟩
    simp only [zonedWith, Composite.codec, hread, ok_bind]
    rfl

/-- Whatever the offset is, whichever type the zone has and whatever is known of regions: stored and read again, a timestamp is rounded
down to milliseconds and has its offset; written as a literal and read again, it is the same to the
nanosecond, and so is the literal of what was read. -/
theorem zoned_keeps_offset (hzone : zoneType = .varchar ∨ zoneType = .text) (version : Version)
    (z : ZonedInstant) (hnano : z.instant.nano < 1000000000) :
    ∃ codec, zoned? regions (.tuple [.native .timestamp, .native zoneType]) = .ok codec ∧
      (∃ bytes j, codec.encode version z = .ok bytes ∧
        codec.decode version bytes = .ok (some ⟨j, z.offset⟩) ∧ j.At (z.instant.nanos / 1000000)) ∧
      ∃ t, codec.format (some z) = .ok t ∧ codec.parse t = .ok (some z) ∧
        ∀ back, codec.parse t = .ok (some back) → codec.format (some back) = .ok t := by
  have hcodec : zoned? regions (.tuple [.native .timestamp, .native zoneType]) =
      .ok (zonedWith regions zoneType) := by
    rcases hzone with rfl | rfl <;> rfl
  have hascii : zoneType ≠ .ascii := by
    rcases hzone with rfl | rfl <;> decide
  obtain ⟨t, hformat, hparse⟩ := zoned_readsBack regions hascii hnano
  refine ⟨_, hcodec, zoned_carried regions hascii hnano version, t, hformat, hparse, ?_⟩
  intro back hback
  cases hparse.symm.trans hback
  exact hformat

/-- A nanosecond before the epoch, half an hour and fifteen seconds west of UTC. -/
theorem zoned_keeps_offset_west :
    let z : ZonedInstant := ⟨⟨-1, 999999999, by decide, by decide, by decide⟩,
      ⟨-1815, by decide, by decide⟩⟩
    ∃ codec, zoned? Region.table (.tuple [.native .timestamp, .native .varchar]) = .ok codec ∧
      (∃ bytes j, codec.encode .v4 z = .ok bytes ∧
        codec.decode .v4 bytes = .ok (some ⟨j, z.offset⟩) ∧ j.nanos = -1000000) ∧
      codec.format (some z) = .ok "('1969-12-31T23:59:59.999999999Z','-00:30:15')".toList ∧
      codec.parse "('1969-12-31T23:59:59.999999999Z','-00:30:15')".toList = .ok (some z) := by
  intro z
  obtain ⟨codec, hcodec, ⟨bytes, j, hencode, hdecode, hj⟩, t, hformat, hparse, -⟩ :=
    zoned_keeps_offset Region.table (.inl rfl) .v4 z (by decide)
  cases hcodec
  have hwritten : (zonedWith Region.table .varchar).format (some z) =
      .ok "('1969-12-31T23:59:59.999999999Z','-00:30:15')".toList := by decide +kernel
  cases hwritten.symm.trans hformat
  have hfloor : z.instant.nanos / 1000000 = -1 := by decide
  refine ⟨_, rfl, ⟨bytes, j, hencode, hdecode, ?_⟩, hformat, hparse⟩
  rw [hj.2, hfloor]
  rfl

end Codec

end Cql
