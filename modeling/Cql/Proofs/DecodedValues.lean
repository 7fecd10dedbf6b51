import Cql.Proofs.WireRoundTrip

/-!
Whatever bytes are read, the value that comes out is in canonical form and can be stored again: every
check of what is stored was made before when the value was read. Only its size can have grown, since
components that the bytes leave out are written as absent, and numbers without bytes as zero.
-/

namespace Cql

/-- Nothing fails but for a size that does not fit in front of a value. -/
def OnlyTooBig {α : Type} (x : Except Fault α) : Prop :=
  ∀ fault, x = .error fault → ∃ size, fault.cause = .tooBig size

namespace OnlyTooBig

variable {α β : Type}

theorem ok (a : α) : OnlyTooBig (.ok a) := fun _ h => by cases h

theorem of_ok {x : Except Fault α} (h : ∃ a, x = .ok a) : OnlyTooBig x := by
  obtain ⟨a, rfl⟩ := h
  exact ok a

theorem tooBig (type : ColumnType) (size : Nat) :
    OnlyTooBig (.error ⟨type, .tooBig size⟩ : Except Fault α) := by
  rintro fault heq
  cases heq
  exact ⟨size, rfl⟩

theorem bind {x : Except Fault α} {f : α → Except Fault β} (hx : OnlyTooBig x)
    (hf : ∀ a, x = .ok a → OnlyTooBig (f a)) : OnlyTooBig (x >>= f) := by
  cases x with
  | error fault =>
    rintro _ heq
    cases heq
    exact hx fault rfl
  | ok a => exact hf a rfl

theorem map {x : Except Fault α} (hx : OnlyTooBig x) (f : α → β) : OnlyTooBig (x.map f) := by
  cases x with
  | error fault =>
    rintro _ heq
    cases heq
    exact hx fault rfl
  | ok a => exact ok _

theorem mapM {f : α → Except Fault β} {xs : List α} (h : ∀ x ∈ xs, OnlyTooBig (f x)) :
    OnlyTooBig (xs.mapM f) := by
  induction xs with
  | nil => exact ok _
  | cons x xs ih =>
    obtain ⟨hx, hxs⟩ := List.forall_mem_cons.1 h
    rw [List.mapM_cons]
    exact hx.bind fun _ _ => (ih hxs).bind fun _ _ => ok _

end OnlyTooBig

/-- A value that is as it would be read back, and that can be stored if it is not too big. -/
structure Codec.Settled (codec : Codec Value) (canonical : Value → Value) (version : Version)
    (v : Value) : Prop where
  canonical_eq : canonical v = v
  stored : OnlyTooBig (codec.encode version v)

/-- Bytes stand for such values only. -/
def Codec.Settles (codec : Codec Value) (canonical : Value → Value) : Prop :=
  ∀ version bytes o, codec.decode version bytes = .ok o →
    ∃ v, o = some v ∧ codec.Settled canonical version v

/-! ## Simple types -/

namespace Codec

section Scalars

variable {α : Type} {type : NativeType} {codec : Codec α} {make : α → Value}
  {get? : Value → Option α}

theorem scalar_settles (hrestores : codec.Restores)
    (hpresent : type.supportsEmpty = false → codec.Present) (hget : ∀ a, get? (make a) = some a)
    (hempty : get? .empty = none) (hmake : ∀ a, type.canonical (make a) = make a) :
    (scalar type codec make get?).Settles type.canonical := by
  intro version bytes o h
  have hsettled : type.supportsEmpty = true →
      (scalar type codec make get?).Settled type.canonical version .empty := by
    intro hs
    refine ⟨type.canonical_empty, .of_ok ⟨[], ?_⟩⟩
    simp only [scalar, hempty, hs, if_true]
  simp only [scalar] at h
  split at h
  · rename_i hregular
    cases h
    exact ⟨_, rfl, hsettled (Bool.and_eq_true_iff.1 hregular).2⟩
  · obtain ⟨read, hread, rfl⟩ := map_ok_iff.1 h
    cases read with
    | some a =>
      obtain ⟨back, hback⟩ := hrestores version bytes a hread
      refine ⟨make a, rfl, hmake a, .of_ok ⟨back, ?_⟩⟩
      simp only [scalar, hget, hback]
    | none =>
      cases hs : type.supportsEmpty with
      | true => exact ⟨_, rfl, hsettled hs⟩
      | false => exact absurd hread (hpresent hs version bytes)

end Scalars

theorem ofNative_settles (type : NativeType) : (ofNative type).Settles type.canonical := by
  cases type <;> refine scalar_settles ?_ ?_ (fun _ => rfl) rfl (fun _ => rfl)
  all_goals simp [NativeType.supportsEmpty, tinyint, smallint, int, bigint, counter, long, float, double]

end Codec

/-! ## Collections -/

theorem Collection.encode_onlyTooBig {version : Version} {elements : List (Codec Value × Value)}
    (h : ∀ e ∈ elements, OnlyTooBig (e.1.encode version e.2)) (type : ColumnType) (count : Nat) :
    OnlyTooBig (encode type version count elements) := by
  unfold encode
  split
  · exact .tooBig _ _
  · refine .bind (.mapM fun e he => (h e he).bind fun payload _ => ?_) fun _ _ => .ok _
    unfold frame
    split
    · exact .ok _
    · exact .tooBig _ _

namespace Codec

variable {element key value : Codec Value} {f g canonical : Value → Value}

/-- An element is never absent. -/
theorem Settles.decodeElement (h : element.Settles f) {version : Version} {bytes : Bytes} {v : Value}
    (hv : Collection.decodeElement element version bytes = .ok v) : element.Settled f version v := by
  obtain ⟨o, hread, rfl⟩ := map_ok_iff.1 hv
  obtain ⟨w, rfl, hw⟩ := h version bytes o hread
  exact hw

theorem items_settles {type : ColumnType} {shape : Shape} {make : List Value → Value}
    {items? : Value → Option (List Value)} {opening close : Char} (helement : element.Settles f)
    (hitems : ∀ items, items? (make items) = some items)
    (hcanonical : ∀ items, canonical (make items) = make (items.map f)) :
    (items type shape make items? opening close element).Settles canonical := by
  intro version bytes o h
  obtain ⟨elements, -, hmore⟩ := bind_ok_iff.1 h
  obtain ⟨vs, hvs, heq⟩ := bind_ok_iff.1 hmore
  cases heq
  have hall : ∀ v ∈ vs, element.Settled f version v := by
    intro v hv
    obtain ⟨payload, hpayload⟩ := exists_of_forall₂ (mapM_ok_iff_forall₂.1 hvs).flip v hv
    exact helement.decodeElement hpayload
  refine ⟨_, rfl, ?_, ?_⟩
  · rw [hcanonical, List.map_congr_left fun v hv => (hall v hv).canonical_eq, List.map_id']
  · simp only [items, hitems]
    refine Collection.encode_onlyTooBig (fun e he => ?_) type vs.length
    obtain ⟨v, hv, rfl⟩ := List.mem_map.1 he
    exact (hall v hv).stored

theorem map_settles (hkey : key.Settles f) (hvalue : value.Settles g)
    (hcanonical : ∀ entries, canonical (.map entries) = .map (entries.map fun (k, v) => (f k, g v)))
    (frozen : Bool) : (map key value frozen).Settles canonical := by
  intro version bytes o h
  obtain ⟨elements, -, hmore⟩ := bind_ok_iff.1 h
  obtain ⟨entries, hentries, heq⟩ := bind_ok_iff.1 hmore
  cases heq
  have hall : ∀ e ∈ entries, key.Settled f version e.1 ∧ value.Settled g version e.2 := by
    intro e he
    obtain ⟨pair, hpair⟩ := exists_of_forall₂ (mapM_ok_iff_forall₂.1 hentries).flip e he
    obtain ⟨k, hk, hrest⟩ := bind_ok_iff.1 hpair
    obtain ⟨v, hv, heq⟩ := bind_ok_iff.1 hrest
    cases heq
    exact ⟨hkey.decodeElement hk, hvalue.decodeElement hv⟩
  refine ⟨_, rfl, ?_, ?_⟩
  · have hsame : ∀ e ∈ entries, (f e.1, g e.2) = e := fun e he => by
      rw [(hall e he).1.canonical_eq, (hall e he).2.canonical_eq]
    rw [hcanonical, List.map_congr_left hsame, List.map_id']
  · simp only [map, Value.asMap?]
    refine Collection.encode_onlyTooBig (fun e he => ?_) _ entries.length
    obtain ⟨entry, hentry, hmem⟩ := List.mem_flatMap.1 he
    rcases List.mem_pair.1 hmem with rfl | rfl
    · exact (hall entry hentry).1.stored
    · exact (hall entry hentry).2.stored

end Codec

/-! ## Tuples and user types -/

/-- A component that is absent, or a value that is settled. -/
def ColumnType.SettledItem (version : Version) (t : ColumnType) (item : Option Value) : Prop :=
  ∀ v, item = some v → t.codec.Settled t.canonical version v

namespace Component

open ColumnType (SettledItem codecs)

variable {version : Version} {type : ColumnType} {ts : List ColumnType}

theorem blanks_settled (version : Version) (ts : List ColumnType) :
    List.Forall₂ (SettledItem version) ts (blanks (codecs ts)) := by
  induction ts with
  | nil => exact .nil
  | cons t ts ih => exact .cons (fun _ h => nomatch h) ih

theorem deserialize_settled {t : ColumnType} (ht : t.codec.Settles t.canonical)
    {component : Option Bytes} {item : Option Value}
    (h : t.codec.deserialize version component = .ok item) : SettledItem version t item := by
  rintro v rfl
  cases component with
  | none => cases h
  | some payload =>
    obtain ⟨w, heq, hw⟩ := ht version payload _ h
    cases heq
    exact hw

/-- There is one component for each place, whatever the bytes are. `done` holds those that were read
before. -/
theorem decodeAll_settles (hts : ∀ t ∈ ts, t.codec.Settles t.canonical)
    (done : List (Option Value)) {k : Nat} (hk : done.length = k) {bytes : Bytes}
    {items : List (Option Value)}
    (h : decodeAll type version (slotsFrom k (codecs ts)) bytes (done ++ blanks (codecs ts)) =
      .ok items) :
    ∃ later, items = done ++ later ∧ List.Forall₂ (SettledItem version) ts later := by
  induction ts generalizing done k bytes with
  | nil =>
    cases h
    exact ⟨_, rfl, .nil⟩
  | cons t ts ih =>
    subst hk
    obtain ⟨ht, hrest⟩ := List.forall_mem_cons.1 hts
    rw [slotsFrom_cons, decodeAll] at h
    split at h
    · cases h
      exact ⟨_, rfl, blanks_settled version (t :: ts)⟩
    · split at h
      · cases h
      · obtain ⟨_, hvalue, hmore⟩ := bind_ok_iff.1 h
        rw [deserialize_slot] at hvalue
        obtain ⟨item, hitem, rfl⟩ := map_ok_iff.1 hvalue
        obtain ⟨later, rfl, hlater⟩ := ih hrest (done ++ [item]) (by simp) hmore
        exact ⟨item :: later, by simp, .cons (deserialize_settled ht hitem) hlater⟩

theorem decodeAll_slots_settles (hts : ∀ t ∈ ts, t.codec.Settles t.canonical) {bytes : Bytes}
    {items : List (Option Value)}
    (h : decodeAll type version (slots (codecs ts)) bytes (blanks (codecs ts)) = .ok items) :
    List.Forall₂ (SettledItem version) ts items := by
  obtain ⟨_, rfl, hsettled⟩ := decodeAll_settles hts [] rfl h
  exact hsettled

theorem frame_onlyTooBig (type : ColumnType) (component : Option Bytes) :
    OnlyTooBig (frame type component) := by
  unfold frame
  split
  · exact .ok _
  · exact .tooBig _ _

theorem serialize_onlyTooBig {t : ColumnType} {item : Option Value}
    (h : SettledItem version t item) : OnlyTooBig (t.codec.serialize version item) := by
  cases item with
  | none => exact .ok _
  | some v => exact (h v rfl).stored.map some

theorem encodeAll_onlyTooBig {σ : Type} {value : σ} {components : List (Component σ)}
    (h : ∀ c ∈ components, OnlyTooBig (c.serialize version value)) :
    OnlyTooBig (encodeAll type version value components) := by
  induction components with
  | nil => exact .ok _
  | cons c cs ih =>
    obtain ⟨hc, hcs⟩ := List.forall_mem_cons.1 h
    exact hc.bind fun _ _ => (frame_onlyTooBig type _).bind fun _ _ => (ih hcs).bind fun _ _ => .ok _

/-- Settled components fill their places. -/
theorem slots_onlyTooBig {items : List (Option Value)}
    (h : List.Forall₂ (SettledItem version) ts items) :
    OnlyTooBig (encodeAll type version items (slots (codecs ts))) := by
  apply encodeAll_onlyTooBig
  intro c hc
  obtain ⟨i, t, ht, rfl⟩ := mem_slots.1 hc
  obtain ⟨hi, rfl⟩ := List.getElem?_eq_some_iff.1 ht
  have hitem : i < items.length := h.length_eq ▸ hi
  have hsettled : SettledItem version ts[i] items[i]?.join := by
    rw [List.getElem?_eq_getElem hitem]
    exact h.get hi hitem
  exact serialize_onlyTooBig hsettled

theorem canonicalItems_settled {items : List (Option Value)}
    (h : List.Forall₂ (SettledItem version) ts items) :
    ColumnType.canonicalItems ts items = items := by
  induction h with
  | nil => rfl
  | @cons t item ts items hitem _ ih =>
    have hsame : item.map t.canonical = item := by
      cases item with
      | none => rfl
      | some v => rw [Option.map_some, (hitem v rfl).canonical_eq]
    rw [ColumnType.canonicalItems, List.head?_cons, Option.join_some, List.tail_cons, hsame, ih]

end Component

namespace Codec

theorem tuple_settles {ts : List ColumnType} (hts : ∀ t ∈ ts, t.codec.Settles t.canonical) :
    (tupleValue (ColumnType.codecs ts)).Settles (ColumnType.tuple ts).canonical := by
  intro version bytes o h
  obtain ⟨_, hread, rfl⟩ := map_ok_iff.1 h
  obtain ⟨items, hitems, rfl⟩ := map_ok_iff.1 hread
  have hsettled := Component.decodeAll_slots_settles hts hitems
  refine ⟨.tuple items, rfl, ?_, ?_⟩
  · rw [ColumnType.canonical, Component.canonicalItems_settled hsettled]
  · have hcount : ¬ ts.length < items.length := by rw [hsettled.length_eq]; exact Nat.lt_irrefl _
    rw [tupleValue_encode, if_neg hcount]
    exact Component.slots_onlyTooBig hsettled

theorem userDefined_settles {t : UserType} (frozen : Bool) (hnames : t.fieldNames.Nodup)
    (hfields : ∀ f ∈ t.fields, f.2.codec.Settles f.2.canonical) :
    (t.codec frozen t.fieldCodecs).Settles (ColumnType.userDefined t frozen).canonical := by
  have htypes : ∀ type ∈ t.fields.map (·.2), type.codec.Settles type.canonical := by
    intro type htype
    obtain ⟨f, hf, rfl⟩ := List.mem_map.1 htype
    exact hfields f hf
  intro version bytes o h
  rw [UserType.fieldCodecs_eq] at h
  obtain ⟨fields, hread, heq⟩ := bind_ok_iff.1 h
  cases heq
  rw [UserType.decodeFields_eq t.length_fieldNames] at hread
  obtain ⟨items, hitems, rfl⟩ := map_ok_iff.1 hread
  have hsettled := Component.decodeAll_slots_settles htypes hitems
  have hlength : items.length = t.fieldNames.length := by
    rw [← hsettled.length_eq, UserType.fieldNames, List.length_map, List.length_map]
  have hvalues := UserType.fieldValues_zip hnames hlength
  refine ⟨.userDefined t.keyspace t.name (t.fieldNames.zip items), rfl, ?_, ?_⟩
  · rw [ColumnType.canonical, ← UserType.zip_canonicalItems, hvalues,
      Component.canonicalItems_settled hsettled]
  · have hknown : ∀ f ∈ t.fieldNames.zip items, f.1 ∈ t.fieldNames := fun f hf => (List.of_mem_zip hf).1
    rw [userDefined_encode, if_pos hknown, hvalues]
    exact Component.slots_onlyTooBig hsettled

theorem rawBytes_settles (type : ColumnType) {canonical : Value → Value}
    (hcanonical : ∀ bytes, canonical (.blob bytes) = .blob bytes) :
    (rawBytes type).Settles canonical := by
  intro version bytes o h
  cases h
  exact ⟨_, rfl, hcanonical bytes, .ok _⟩

end Codec

/-! ## All types -/

/-- No definition inside the type, at any depth, declares two fields of one name. -/
def ColumnType.DistinctFields (t : ColumnType) : Prop :=
  ∀ definition frozen, Part (fun _ => True) (.userDefined definition frozen) t →
    definition.fieldNames.Nodup

namespace ColumnType

@[simp] theorem distinctFields_native (type : NativeType) : (native type).DistinctFields :=
  defines_native type

@[simp] theorem distinctFields_list {element : ColumnType} {frozen : Bool} :
    (list element frozen).DistinctFields ↔ element.DistinctFields := defines_list

@[simp] theorem distinctFields_set {element : ColumnType} {frozen : Bool} :
    (set element frozen).DistinctFields ↔ element.DistinctFields := defines_set

@[simp] theorem distinctFields_map {key value : ColumnType} {frozen : Bool} :
    (map key value frozen).DistinctFields ↔ key.DistinctFields ∧ value.DistinctFields := defines_map

@[simp] theorem distinctFields_tuple {elements : List ColumnType} :
    (tuple elements).DistinctFields ↔ ∀ element ∈ elements, element.DistinctFields := defines_tuple

@[simp] theorem distinctFields_userDefined {definition : UserType} {frozen : Bool} :
    (userDefined definition frozen).DistinctFields ↔
      definition.fieldNames.Nodup ∧ ∀ field ∈ definition.fields, field.2.DistinctFields :=
  defines_userDefined

end ColumnType

theorem ColumnType.codec_settles {t : ColumnType} (h : t.DistinctFields) :
    t.codec.Settles t.canonical := by
  induction t with
  | native type => exact Codec.ofNative_settles type
  | list element frozen ih =>
    exact Codec.items_settles (ih (distinctFields_list.1 h)) (fun _ => rfl)
      fun items => by rw [canonical]
  | set element frozen ih =>
    exact Codec.items_settles (ih (distinctFields_set.1 h)) (fun _ => rfl)
      fun items => by rw [canonical]
  | map key value frozen ihk ihv =>
    obtain ⟨hkey, hvalue⟩ := distinctFields_map.1 h
    exact Codec.map_settles (ihk hkey) (ihv hvalue) (fun entries => by rw [canonical]) frozen
  | tuple elements ih =>
    exact Codec.tuple_settles fun t ht => ih t ht (distinctFields_tuple.1 h t ht)
  | userDefined definition frozen ih =>
    obtain ⟨hnames, hfields⟩ := distinctFields_userDefined.1 h
    exact Codec.userDefined_settles frozen hnames fun field hfield =>
      ih field hfield (hfields field hfield)
  | custom name => exact Codec.rawBytes_settles _ fun bytes => rfl
  | empty => exact Codec.rawBytes_settles _ fun bytes => rfl

/-- Whatever bytes a value was read from, it can be stored again and is read back as it is, unless what
would be written is too long. -/
theorem ColumnType.decoded_stores_again (t : ColumnType) (hfields : t.DistinctFields)
    (version : Version) (bytes : Bytes) (v : Value)
    (h : t.codec.decode version bytes = .ok (some v)) :
    (∃ back, t.codec.encode version v = .ok back ∧ t.codec.decode version back = .ok (some v)) ∨
      ∃ fault size, t.codec.encode version v = .error fault ∧ fault.cause = .tooBig size := by
  obtain ⟨w, heq, hw⟩ := t.codec_settles hfields version bytes _ h
  cases heq
  cases hstored : t.codec.encode version v with
  | ok back =>
    have hback := t.codec_recovers version v back hstored
    rw [hw.canonical_eq] at hback
    exact .inl ⟨back, rfl, hback⟩
  | error fault =>
    obtain ⟨size, hsize⟩ := hw.stored fault hstored
    exact .inr ⟨fault, size, rfl, hsize⟩

/-- Seven for a truth value, a number with a byte too many, a field that is left out, and a negative
length other than -1: what is written instead is longer. -/
theorem ColumnType.decoded_stores_again_longer :
    let point : UserType := ⟨"ks", "point", [("x", .native .varint), ("y", .native .text)]⟩
    let t : ColumnType :=
      .list (.tuple [.native .boolean, .userDefined point true, .native .int]) false
    let bytes : Bytes := [0, 0, 0, 1, 0, 0, 0, 19, 0, 0, 0, 1, 7,
      0, 0, 0, 6, 0, 0, 0, 2, 0, 5, 255, 255, 255, 254]
    let v : Value := .list [.tuple [some (.boolean true),
      some (.userDefined "ks" "point" [("x", some (.varint 5)), ("y", none)]), none]]
    t.DistinctFields ∧ t.codec.decode .v4 bytes = .ok (some v) ∧
      ∃ back, t.codec.encode .v4 v = .ok back ∧ t.codec.decode .v4 back = .ok (some v) ∧
        bytes.length < back.length := by
  intro point t bytes v
  have hfields : t.DistinctFields := by simp [t, point, UserType.fieldNames]
  have h : t.codec.decode .v4 bytes = .ok (some v) := by
    unfold v bytes t point
    rfl
  refine ⟨hfields, h, ?_⟩
  rcases t.decoded_stores_again hfields .v4 bytes v h with ⟨back, hback, hread⟩ | ⟨fault, _, hfault, _⟩
  · refine ⟨back, hback, hread, ?_⟩
    cases hback
    decide
  · cases hfault

end Cql
