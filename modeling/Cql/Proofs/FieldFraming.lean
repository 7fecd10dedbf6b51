import Cql.Proofs.WireRoundTrip
import Mathlib.Data.List.Nodup

/-!
A user type and the tuple of the types of its fields have the same bytes, although fields and components
are framed each in their own way. Bytes are fields of the one exactly if they are components of the
other, and where they are neither, both say the same of them. Values are written alike, in whatever order
they list the fields.
-/

namespace Cql

/-! ## Outcomes that agree -/

/-- Both answer, the one what stands for the answer of the other, or both fail for the same cause. The
types at which they fail may differ. -/
inductive Agree {α β : Type} (R : α → β → Prop) : Except Fault α → Except Fault β → Prop where
  | ok {a : α} {b : β} (h : R a b) : Agree R (.ok a) (.ok b)
  | fault {type other : ColumnType} (cause : Cause) : Agree R (.error ⟨type, cause⟩) (.error ⟨other, cause⟩)

namespace Agree

variable {α β γ δ : Type} {R : α → β → Prop} {S : γ → δ → Prop}

theorem refl (x : Except Fault α) : Agree (· = ·) x x := by
  cases x with
  | ok a => exact .ok rfl
  | error fault => exact .fault fault.cause

theorem bind {x : Except Fault α} {y : Except Fault β} {f : α → Except Fault γ} {g : β → Except Fault δ}
    (h : Agree R x y) (hnext : ∀ a b, R a b → Agree S (f a) (g b)) : Agree S (x >>= f) (y >>= g) := by
  cases h with
  | ok h => exact hnext _ _ h
  | fault cause => exact .fault cause

theorem of_ok {a : α} {y : Except Fault β} (h : Agree R (.ok a) y) : ∃ b, y = .ok b ∧ R a b := by
  cases h with
  | ok h => exact ⟨_, rfl, h⟩

theorem of_ok_right {x : Except Fault α} {b : β} (h : Agree R x (.ok b)) : ∃ a, x = .ok a ∧ R a b := by
  cases h with
  | ok h => exact ⟨_, rfl, h⟩

theorem of_error {fault : Fault} {y : Except Fault β} (h : Agree R (.error fault) y) :
    ∃ other, y = .error ⟨other, fault.cause⟩ := by
  cases h with
  | fault cause => exact ⟨_, rfl⟩

end Agree

/-! ## Components under two types -/

namespace Component

variable {σ : Type} (type other : ColumnType) (version : Version)

theorem frame_agree (component : Option Bytes) :
    Agree (· = ·) (frame type component) (frame other component) := by
  unfold frame
  cases Wire.writeOptional component with
  | ok bytes => exact .ok rfl
  | error fault => exact .fault _

theorem encodeAll_agree (components : List (Component σ)) (value : σ) :
    Agree (· = ·) (encodeAll type version value components) (encodeAll other version value components) := by
  induction components with
  | nil => exact .ok rfl
  | cons c components ih =>
    rw [encodeAll, encodeAll]
    refine (Agree.refl (c.serialize version value)).bind ?_
    rintro component _ rfl
    refine (frame_agree type other component).bind ?_
    rintro bytes _ rfl
    refine ih.bind ?_
    rintro later _ rfl
    exact .ok rfl

theorem decodeAll_agree (components : List (Component σ)) (bytes : Bytes) (value : σ) :
    Agree (· = ·) (decodeAll type version components bytes value)
      (decodeAll other version components bytes value) := by
  induction components generalizing bytes value with
  | nil => exact .ok rfl
  | cons c components ih =>
    rw [decodeAll, decodeAll]
    by_cases hempty : bytes.isEmpty = true
    · rw [if_pos hempty, if_pos hempty]
      exact .ok rfl
    · rw [if_neg hempty, if_neg hempty]
      cases Wire.readOptional bytes with
      | error fault => exact .fault _
      | ok read =>
        obtain ⟨component, later⟩ := read
        refine (Agree.refl (c.deserialize version component value)).bind ?_
        rintro next _ rfl
        exact ih later next

end Component

/-! ## Fields and components -/

namespace UserType

variable (t : UserType)

/-- The types of the fields, as a tuple. -/
def tuple : ColumnType := .tuple (t.fields.map (·.2))

/-- What was read of a user type and of its tuple is the same: one value for each field, under the names
of the fields. -/
def SameParts (v w : Option Value) : Prop :=
  ∃ items, items.length = t.fields.length ∧
    v = some (.userDefined t.keyspace t.name (t.fieldNames.zip items)) ∧ w = some (.tuple items)

/-- The values of fields in the order of declaration; those that are not listed are absent. -/
structure Arranges (fields : List (String × Option Value)) (items : List (Option Value)) : Prop where
  length : items.length = t.fields.length
  listed : ∀ f ∈ fields, f ∈ t.fieldNames.zip items
  omitted : ∀ f ∈ t.fieldNames.zip items, f.1 ∉ fields.map (·.1) → f.2 = none

variable {t}

theorem fieldValue_of_not_mem {fields : List (String × Option Value)} {name : String}
    (h : name ∉ fields.map (·.1)) : fieldValue fields name = none := by
  have hnone : fields.find? (·.1 == name) = none := by
    refine List.find?_eq_none.2 fun f hf heq => h ?_
    exact List.mem_map.2 ⟨f, hf, beq_iff_eq.1 heq⟩
  rw [fieldValue, hnone]
  rfl

/-- There is one such order only. -/
theorem Arranges.eq {fields : List (String × Option Value)} {items : List (Option Value)}
    (hnames : t.fieldNames.Nodup) (hfields : (fields.map (·.1)).Nodup) (h : t.Arranges fields items) :
    t.fieldNames.map (fieldValue fields) = items := by
  have hlength : t.fieldNames.length = items.length := by rw [h.length, fieldNames, List.length_map]
  have hfirst : (t.fieldNames.zip items).map (·.1) = t.fieldNames := List.map_fst_zip (Nat.le_of_eq hlength)
  have hsecond : (t.fieldNames.zip items).map (·.2) = items :=
    List.map_snd_zip (Nat.le_of_eq hlength.symm)
  have hvalue : ∀ p ∈ t.fieldNames.zip items, fieldValue fields p.1 = p.2 := by
    intro p hp
    by_cases hlisted : p.1 ∈ fields.map (·.1)
    · obtain ⟨f, hf, heq⟩ := List.mem_map.1 hlisted
      -- a name stands in one place of the definition only
      have hsame : f = p := List.inj_on_of_nodup_map (hfirst.symm ▸ hnames) (h.listed f hf) hp heq
      exact fieldValue_of_mem hfields (hsame ▸ hf)
    · rw [fieldValue_of_not_mem hlisted, h.omitted p hp hlisted]
  calc t.fieldNames.map (fieldValue fields)
      = (t.fieldNames.zip items).map fun p => fieldValue fields p.1 := by
        conv_lhs => rw [← hfirst, List.map_map]
        rfl
    _ = (t.fieldNames.zip items).map (·.2) := List.map_congr_left hvalue
    _ = items := hsecond

theorem arranges_fieldValues {fields : List (String × Option Value)} (hfields : (fields.map (·.1)).Nodup)
    (hknown : ∀ f ∈ fields, f.1 ∈ t.fieldNames) :
    t.Arranges fields (t.fieldNames.map (fieldValue fields)) := by
  have hzip : t.fieldNames.zip (t.fieldNames.map (fieldValue fields)) =
      t.fieldNames.map fun name => (name, fieldValue fields name) := List.map_prod_left_eq_zip.symm
  refine ⟨by simp [fieldNames], ?_, ?_⟩
  · rintro ⟨name, value⟩ hf
    rw [hzip]
    exact List.mem_map.2 ⟨name, hknown _ hf, by rw [fieldValue_of_mem hfields hf]⟩
  · intro f hf hnot
    rw [hzip] at hf
    obtain ⟨name, -, rfl⟩ := List.mem_map.1 hf
    exact fieldValue_of_not_mem hnot

/-- A tuple with one item for each component is written as its components. -/
theorem encode_tuple (t : UserType) (version : Version) {items : List (Option Value)}
    (hlength : items.length = t.fields.length) :
    t.tuple.codec.encode version (.tuple items) =
      Component.encodeAll (.tuple ((ColumnType.codecs (t.fields.map (·.2))).map (·.type))) version items
        (slots (ColumnType.codecs (t.fields.map (·.2)))) := by
  have hcount : ¬ (t.fields.map (·.2)).length < items.length := by
    rw [List.length_map, hlength]
    exact Nat.lt_irrefl _
  rw [tuple, ColumnType.codec, Codec.tupleValue_encode, if_neg hcount, ColumnType.types_codecs]

theorem encode_fields (t : UserType) (frozen : Bool) (version : Version) (keyspace name : String)
    {fields : List (String × Option Value)} (hknown : ∀ f ∈ fields, f.1 ∈ t.fieldNames) :
    (ColumnType.userDefined t frozen).codec.encode version (.userDefined keyspace name fields) =
      Component.encodeAll (.userDefined t frozen) version (t.fieldNames.map (fieldValue fields))
        (slots (ColumnType.codecs (t.fields.map (·.2)))) := by
  rw [ColumnType.codec, Codec.userDefined_encode, if_pos hknown]

/-- However short the bytes are, every component has its place in what is read. -/
theorem length_decodeAll {names : List String} {ts : List ColumnType} (hlength : names.length = ts.length)
    {type : ColumnType} {version : Version} {bytes : Bytes} {items : List (Option Value)}
    (h : Component.decodeAll type version (slots (ColumnType.codecs ts)) bytes
      (blanks (ColumnType.codecs ts)) = .ok items) : items.length = ts.length := by
  obtain ⟨fields, hread, rfl⟩ := map_ok_iff.1 ((decodeAll_append [] hlength bytes).symm.trans h)
  have hnames : fields.map (·.1) = names :=
    names_decodeFields (hlength.trans (by simp [ColumnType.codecs_eq])) hread
  rw [List.nil_append, List.length_map, ← hlength, ← hnames, List.length_map]

theorem decode_agree (t : UserType) (frozen : Bool) (version : Version) (bytes : Bytes) :
    Agree t.SameParts ((ColumnType.userDefined t frozen).codec.decode version bytes)
      (t.tuple.codec.decode version bytes) := by
  have hsame := Component.decodeAll_agree (.userDefined t frozen)
    (.tuple ((ColumnType.codecs (t.fields.map (·.2))).map (·.type))) version
    (slots (ColumnType.codecs (t.fields.map (·.2)))) bytes (blanks (ColumnType.codecs (t.fields.map (·.2))))
  simp only [ColumnType.codec, codec, fieldCodecs_eq, decodeFields_eq t.length_fieldNames, tuple,
    Codec.tupleValue, Codec.tuple, Composite.codec]
  cases hfields : Component.decodeAll (.userDefined t frozen) version
      (slots (ColumnType.codecs (t.fields.map (·.2)))) bytes
      (blanks (ColumnType.codecs (t.fields.map (·.2)))) with
  | error fault =>
    rw [hfields] at hsame
    obtain ⟨other, hitems⟩ := hsame.of_error
    rw [hitems]
    exact .fault fault.cause
  | ok items =>
    rw [hfields] at hsame
    obtain ⟨_, hitems, rfl⟩ := hsame.of_ok
    rw [hitems]
    have hlength : items.length = t.fields.length := by
      rw [length_decodeAll t.length_fieldNames hfields, List.length_map]
    exact .ok ⟨items, hlength, rfl, rfl⟩

/-- Bytes hold the fields of a user type exactly if they hold those values as components of its tuple,
and what is wrong with other bytes is the same. A value that lists each field at most once is written as
its values in the order of declaration, fields that it does not list as absent ones. -/
theorem wire_agrees_tuple (t : UserType) (frozen : Bool) (hnames : t.fieldNames.Nodup)
    (version : Version) :
    (∀ bytes fields,
      (ColumnType.userDefined t frozen).codec.decode version bytes =
          .ok (some (.userDefined t.keyspace t.name fields)) ↔
        ∃ items, t.tuple.codec.decode version bytes = .ok (some (.tuple items)) ∧
          fields = t.fieldNames.zip items) ∧
    (∀ bytes, Agree t.SameParts ((ColumnType.userDefined t frozen).codec.decode version bytes)
      (t.tuple.codec.decode version bytes)) ∧
    ∀ keyspace name fields, (fields.map (·.1)).Nodup → (∀ f ∈ fields, f.1 ∈ t.fieldNames) →
      (∃ items, t.Arranges fields items) ∧
      ∀ items, t.Arranges fields items →
        Agree (· = ·)
          ((ColumnType.userDefined t frozen).codec.encode version (.userDefined keyspace name fields))
          (t.tuple.codec.encode version (.tuple items)) := by
  refine ⟨fun bytes fields => ?_, t.decode_agree frozen version, ?_⟩
  · have hsame := t.decode_agree frozen version bytes
    constructor
    · intro h
      rw [h] at hsame
      obtain ⟨_, htuple, items, -, hfields, rfl⟩ := hsame.of_ok
      cases hfields
      exact ⟨items, htuple, rfl⟩
    · rintro ⟨items, h, rfl⟩
      rw [h] at hsame
      obtain ⟨_, hread, items', -, rfl, hitems⟩ := hsame.of_ok_right
      cases hitems
      exact hread
  · intro keyspace name fields hfields hknown
    refine ⟨⟨_, arranges_fieldValues hfields hknown⟩, fun items hitems => ?_⟩
    rw [encode_fields t frozen version keyspace name hknown, hitems.eq hnames hfields,
      encode_tuple t version hitems.length]
    exact Component.encodeAll_agree _ _ version _ items

/-- The last field first and one left out; the bytes without the last field; and bytes that end within a
length. -/
theorem wire_agrees_tuple_unordered :
    let t : UserType := ⟨"ks", "entry", [("x", .native .int), ("y", .native .text), ("z", .native .boolean)]⟩
    let fields : List (String × Option Value) := [("z", some (.boolean true)), ("x", some (.int 7))]
    let items : List (Option Value) := [some (.int 7), none, some (.boolean true)]
    let bytes : Bytes := [0, 0, 0, 4, 0, 0, 0, 7, 255, 255, 255, 255, 0, 0, 0, 1, 1]
    t.fieldNames.Nodup ∧ t.Arranges fields items ∧
      (ColumnType.userDefined t true).codec.encode .v4 (.userDefined "" "" fields) = .ok bytes ∧
      t.tuple.codec.encode .v4 (.tuple items) = .ok bytes ∧
      (ColumnType.userDefined t true).codec.decode .v4 (bytes.take 12) =
        .ok (some (.userDefined "ks" "entry" [("x", some (.int 7)), ("y", none), ("z", none)])) ∧
      Agree t.SameParts ((ColumnType.userDefined t true).codec.decode .v4 (bytes.take 10))
        (t.tuple.codec.decode .v4 (bytes.take 10)) := by
  intro t fields items bytes
  have hnames : t.fieldNames.Nodup := by decide
  obtain ⟨hread, hfaults, hwritten⟩ := t.wire_agrees_tuple true hnames .v4
  obtain ⟨-, hwritten⟩ := hwritten "" "" fields (by decide) (by decide)
  have harranged : t.Arranges fields items := by
    refine ⟨rfl, ?_, ?_⟩
    · simp [t, fields, items, UserType.fieldNames]
    · simp [t, fields, items, UserType.fieldNames]
  have htuple : t.tuple.codec.encode .v4 (.tuple items) = .ok bytes := by rfl
  refine ⟨hnames, harranged, ?_, htuple, ?_, hfaults _⟩
  · have hsame := hwritten items harranged
    rw [htuple] at hsame
    obtain ⟨_, hwritten, rfl⟩ := hsame.of_ok_right
    exact hwritten
  · exact (hread _ _).2 ⟨[some (.int 7), none, none], by rfl, rfl⟩

end UserType

end Cql
