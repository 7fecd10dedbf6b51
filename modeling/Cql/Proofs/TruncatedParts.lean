import Cql.Proofs.ExactFrames

/-!
Tuples and user defined values that end early. Where their bytes end between two components, those behind
the end are absent and all others are what they were; where the bytes end inside a component, in its
length or behind it, they are refused. Bytes behind the last component change nothing.
-/

namespace Cql

/-! ## Input that goes on -/

namespace Wire

variable {bytes rest : Bytes}

theorem split?_more {count : Nat} {first : Bytes} (h : split? count bytes = some (first, rest))
    (more : Bytes) : split? count (bytes ++ more) = some (first, rest ++ more) := by
  obtain ⟨rfl, hlength⟩ := split?_exact h
  rw [List.append_assoc, split?_append hlength]

theorem readInt_more {i : Int32} (h : readInt bytes = .ok (i, rest)) (more : Bytes) :
    readInt (bytes ++ more) = .ok (i, rest ++ more) := by
  rw [readInt] at h ⊢
  split at h
  · cases h
  · next hsplit =>
    cases h
    rw [split?_more hsplit]

theorem readRaw_more {count : Nat} {first : Bytes} (h : readRaw count bytes = .ok (first, rest))
    (more : Bytes) : readRaw count (bytes ++ more) = .ok (first, rest ++ more) := by
  obtain ⟨rfl, hlength⟩ := readRaw_exact h
  rw [List.append_assoc, readRaw_append hlength]

/-- What is read does not depend on what comes behind it. -/
theorem readOptional_more {value : Option Bytes} (h : readOptional bytes = .ok (value, rest))
    (more : Bytes) : readOptional (bytes ++ more) = .ok (value, rest ++ more) := by
  obtain ⟨⟨i, later⟩, hlength, hvalue⟩ := bind_ok_iff.1 h
  rw [readOptional, readInt_more hlength]
  dsimp only [ok_bind] at hvalue ⊢
  split at hvalue
  · next hi =>
    cases hvalue
    exact if_pos hi
  · next hi =>
    obtain ⟨⟨found, _⟩, hraw, hsame⟩ := bind_ok_iff.1 hvalue
    cases hsame
    rw [if_neg hi, readRaw_more hraw]
    rfl

/-- A component of which the end is missing is not read. -/
theorem readOptional_cut {component : Option Bytes} {frame front : Bytes}
    (hframe : writeOptional component = .ok frame) (hfront : front <+: frame) (hne : front ≠ frame) :
    ∃ fault, readOptional front = .error fault := by
  cases hread : readOptional front with
  | error fault => exact ⟨fault, rfl⟩
  | ok read =>
    obtain ⟨value, rest⟩ := read
    obtain ⟨missing, rfl⟩ := hfront
    -- the whole frame would be read as the same, and what is missing would be left over
    have hmore := readOptional_more hread missing
    have hwhole := readOptional_write hframe []
    rw [List.append_nil, hmore] at hwhole
    have hnothing : rest ++ missing = [] := (Prod.mk.inj (Except.ok.inj hwhole)).2
    rw [(List.append_eq_nil_iff.1 hnothing).2, List.append_nil] at hne
    exact absurd rfl hne

end Wire

/-! ## Frames in a row -/

/-- The beginning of some frames ends between two of them or inside of one. -/
theorem prefix_flatten_cases {frames : List Bytes} {front : Bytes} (h : front <+: frames.flatten) :
    (∃ k ≤ frames.length, front = (frames.take k).flatten) ∨
      ∃ whole frame later part, frames = whole ++ frame :: later ∧ part <+: frame ∧ part ≠ [] ∧
        part ≠ frame ∧ front = whole.flatten ++ part := by
  induction frames generalizing front with
  | nil =>
    rw [List.flatten_nil, List.prefix_nil] at h
    exact .inl ⟨0, Nat.le_refl 0, h⟩
  | cons frame frames ih =>
    rw [List.flatten_cons] at h
    obtain hshort | hlong := List.prefix_or_prefix_of_prefix h (List.prefix_append frame frames.flatten)
    · by_cases hnil : front = []
      · exact .inl ⟨0, Nat.zero_le _, hnil⟩
      by_cases hwhole : front = frame
      · exact .inl ⟨1, Nat.le_add_left 1 _, by simpa using hwhole⟩
      · exact .inr ⟨[], frame, frames, front, rfl, hshort, hnil, hwhole, rfl⟩
    · obtain ⟨later, rfl⟩ := hlong
      obtain ⟨k, hk, rfl⟩ | ⟨whole, next, others, part, rfl, hpart, hnil, hwhole, rfl⟩ :=
        ih ((List.prefix_append_right_inj frame).1 h)
      · exact .inl ⟨k + 1, Nat.succ_le_succ hk, rfl⟩
      · exact .inr ⟨frame :: whole, next, others, part, rfl, hpart, hnil, hwhole, by simp⟩

namespace ColumnType

theorem length_canonicalItems (ts : List ColumnType) (items : List (Option Value)) :
    (canonicalItems ts items).length = ts.length := by
  induction ts generalizing items with
  | nil => rw [canonicalItems, List.length_nil, List.length_nil]
  | cons t ts ih => rw [canonicalItems, List.length_cons, List.length_cons, ih]

theorem canonicalItems_take (ts : List ColumnType) (items : List (Option Value)) (k : Nat) :
    canonicalItems (ts.take k) items = (canonicalItems ts items).take k := by
  induction ts generalizing items k with
  | nil => simp [canonicalItems]
  | cons t ts ih =>
    cases k with
    | zero => simp [canonicalItems]
    | succ k =>
      rw [List.take_succ_cons, canonicalItems, canonicalItems, ih, List.take_succ_cons]

end ColumnType

/-- The frames of components in a row, one for each type. A component that the value does not list is
absent. -/
inductive Framed (version : Version) :
    List ColumnType → List (Option Value) → List Bytes → Prop
  | nil (items : List (Option Value)) : Framed version [] items []
  | cons {t : ColumnType} {ts : List ColumnType} {items : List (Option Value)}
      {component : Option Bytes} {frame : Bytes} {frames : List Bytes}
      (hcomponent : t.codec.serialize version items.head?.join = .ok component)
      (hframe : Wire.writeOptional component = .ok frame)
      (hlater : Framed version ts items.tail frames) :
      Framed version (t :: ts) items (frame :: frames)

namespace Framed

variable {version : Version} {ts : List ColumnType} {items : List (Option Value)}
  {frames : List Bytes}

theorem length_eq (h : Framed version ts items frames) : frames.length = ts.length := by
  induction h with
  | nil => rfl
  | cons _ _ _ ih => rw [List.length_cons, List.length_cons, ih]

theorem take (h : Framed version ts items frames) (k : Nat) :
    Framed version (ts.take k) items (frames.take k) := by
  induction h generalizing k with
  | nil items =>
    rw [List.take_nil, List.take_nil]
    exact .nil items
  | cons hcomponent hframe _ ih =>
    cases k with
    | zero => exact .nil _
    | succ k => exact .cons hcomponent hframe (ih k)

theorem of_encodeAll {type : ColumnType} {bytes : Bytes} (k : Nat)
    (h : Component.encodeAll type version items (slotsFrom k (ColumnType.codecs ts)) = .ok bytes) :
    ∃ frames, Framed version ts (items.drop k) frames ∧ bytes = frames.flatten := by
  induction ts generalizing k bytes with
  | nil =>
    cases h
    exact ⟨[], .nil _, rfl⟩
  | cons t ts ih =>
    rw [slotsFrom_cons, Component.encodeAll] at h
    obtain ⟨component, hcomponent, hframed⟩ := bind_ok_iff.1 h
    obtain ⟨frame, hframe, hmore⟩ := bind_ok_iff.1 hframed
    obtain ⟨later, hlater, hbytes⟩ := bind_ok_iff.1 hmore
    cases hbytes
    obtain ⟨frames, hframes, rfl⟩ := ih (k + 1) hlater
    refine ⟨frame :: frames, .cons ?_ (Component.frame_eq hframe) ?_, rfl⟩
    · rw [List.head?_drop]
      exact hcomponent
    · rw [List.tail_drop]
      exact hframes

/-- Frames that stand in front are read, and what is behind them is left to the types behind. `done` are
the components that were read before. -/
theorem decodeAll_append (h : Framed version ts items frames) (type : ColumnType)
    (us : List ColumnType) (done : List (Option Value)) (rest : Bytes) :
    Component.decodeAll type version (slotsFrom done.length (ColumnType.codecs (ts ++ us)))
        (frames.flatten ++ rest) (done ++ blanks (ColumnType.codecs (ts ++ us))) =
      Component.decodeAll type version (slotsFrom (done.length + ts.length) (ColumnType.codecs us))
        rest (done ++ ColumnType.canonicalItems ts items ++ blanks (ColumnType.codecs us)) := by
  induction h generalizing done with
  | nil items => simp [ColumnType.canonicalItems]
  | @cons t ts items component frame frames hcomponent hframe _ ih =>
    have hread := Component.deserialize_serialize t.codec_recovers hcomponent
    have hne : (frame ++ (frames.flatten ++ rest)).isEmpty = false := by
      simp [Wire.writeOptional_ne_nil hframe]
    have hlater := ih (done ++ [items.head?.join.map t.canonical])
    rw [List.length_append, List.length_singleton] at hlater
    rw [List.cons_append, slotsFrom_cons, List.flatten_cons, List.append_assoc, Component.decodeAll, hne,
      Wire.readOptional_write hframe]
    dsimp only
    rw [Component.deserialize_slot, hread, map_ok, ok_bind, hlater, ColumnType.canonicalItems,
      List.length_cons, Nat.succ_add_eq_add_succ, List.append_assoc done, List.singleton_append]
    exact if_neg Bool.false_ne_true

theorem decodeAll_take (h : Framed version ts items frames) (type : ColumnType) (k : Nat) :
    Component.decodeAll type version (slots (ColumnType.codecs ts)) (frames.take k).flatten
        (blanks (ColumnType.codecs ts)) =
      .ok ((ColumnType.canonicalItems ts items).take k ++
        List.replicate (frames.length - k) none) := by
  have hread := (h.take k).decodeAll_append type (ts.drop k) [] []
  rw [List.append_nil, List.take_append_drop, Component.decodeAll_nil, ColumnType.canonicalItems_take]
    at hread
  have hblanks : blanks (ColumnType.codecs (ts.drop k)) = List.replicate (frames.length - k) none := by
    rw [h.length_eq, blanks, ColumnType.codecs_eq, List.map_map, ← List.length_drop]
    exact List.map_const' ..
  rw [← hblanks]
  exact hread

theorem written (h : Framed version ts items frames) :
    ∀ frame ∈ frames, ∃ component, Wire.writeOptional component = .ok frame := by
  induction h with
  | nil => exact fun frame hframe => absurd hframe List.not_mem_nil
  | cons _ hframe _ ih => exact List.forall_mem_cons.2 ⟨⟨_, hframe⟩, ih⟩

/-- Bytes that end inside of a frame are refused: those in front are read, and this one is torn. -/
theorem decodeAll_cut (h : Framed version ts items frames) (type : ColumnType) {front : Bytes}
    (hfront : front <+: frames.flatten)
    (hinside : ∀ k ≤ frames.length, front ≠ (frames.take k).flatten) :
    ∃ fault, Component.decodeAll type version (slots (ColumnType.codecs ts)) front
      (blanks (ColumnType.codecs ts)) = .error ⟨type, .truncated fault⟩ := by
  obtain ⟨k, hk, hbetween⟩ | ⟨whole, frame, later, part, rfl, hpart, hnil, hne, rfl⟩ :=
    prefix_flatten_cases hfront
  · exact absurd hbetween (hinside k hk)
  obtain ⟨component, hframe⟩ := h.written frame (by simp)
  obtain ⟨fault, htorn⟩ := Wire.readOptional_cut hframe hpart hne
  have hlength := h.length_eq
  obtain ⟨t, us, hdrop⟩ : ∃ t us, ts.drop whole.length = t :: us := by
    refine List.exists_cons_of_ne_nil fun hnone => ?_
    rw [List.drop_eq_nil_iff, ← hlength, List.length_append, List.length_cons] at hnone
    omega
  have hread := (h.take whole.length).decodeAll_append type (ts.drop whole.length) [] part
  rw [List.take_append_drop, List.take_left, hdrop, slotsFrom_cons, Component.decodeAll, htorn] at hread
  refine ⟨fault, hread.trans (if_neg ?_)⟩
  rwa [List.isEmpty_iff]

theorem decodeAll_behind (h : Framed version ts items frames) (type : ColumnType) (more : Bytes) :
    Component.decodeAll type version (slots (ColumnType.codecs ts)) (frames.flatten ++ more)
        (blanks (ColumnType.codecs ts)) = .ok (ColumnType.canonicalItems ts items) := by
  have hread := h.decodeAll_append type [] [] more
  rw [List.append_nil] at hread
  refine hread.trans ?_
  rw [ColumnType.codecs, blanks, List.map_nil, List.nil_append, List.append_nil]
  rfl

end Framed

/-! ## Values in full -/

/-- What a codec reads of a value that is stored in frames, one for each of its parts, when bytes are
missing at the end or others follow. `make` puts the parts together. -/
structure ReadsFronts {α : Type} (codec : Codec α) (version : Version)
    (make : List (Option Value) → α) (frames : List Bytes) (parts : List (Option Value)) : Prop where
  length : parts.length = frames.length
  whole : codec.decode version frames.flatten = .ok (some (make parts))
  between : ∀ k ≤ frames.length, codec.decode version (frames.take k).flatten =
    .ok (some (make (parts.take k ++ List.replicate (frames.length - k) none)))
  inside : ∀ front, front <+: frames.flatten →
    (∀ k ≤ frames.length, front ≠ (frames.take k).flatten) →
    ∃ fault, codec.decode version front = .error ⟨codec.type, .truncated fault⟩
  behind : ∀ more, codec.decode version (frames.flatten ++ more) = codec.decode version frames.flatten

/-- A codec that reads its components one by one. -/
theorem Framed.readsFronts {α : Type} {codec : Codec α} {version : Version}
    {make : List (Option Value) → α} {ts : List ColumnType} {items : List (Option Value)}
    {frames : List Bytes} (h : Framed version ts items frames)
    (hdecode : ∀ bytes, codec.decode version bytes =
      (Component.decodeAll codec.type version (slots (ColumnType.codecs ts)) bytes
        (blanks (ColumnType.codecs ts))).map fun parts => some (make parts)) :
    ReadsFronts codec version make frames (ColumnType.canonicalItems ts items) where
  length := (ColumnType.length_canonicalItems ts items).trans h.length_eq.symm
  whole := by
    have hwhole := h.decodeAll_behind codec.type []
    rw [List.append_nil] at hwhole
    rw [hdecode, hwhole]
    rfl
  between k _ := by
    rw [hdecode, h.decodeAll_take]
    rfl
  inside front hfront hinside := by
    obtain ⟨fault, hcut⟩ := h.decodeAll_cut codec.type hfront hinside
    refine ⟨fault, ?_⟩
    rw [hdecode, hcut]
    rfl
  behind more := by
    have hwhole := h.decodeAll_behind codec.type []
    rw [List.append_nil] at hwhole
    rw [hdecode, hdecode, hwhole, h.decodeAll_behind]

section Tuples

variable {ts : List ColumnType} {version : Version} {items : List (Option Value)} {bytes : Bytes}

theorem Codec.tuple_framed (h : (Codec.tuple (ColumnType.codecs ts)).encode version items = .ok bytes) :
    items.length ≤ ts.length ∧ ∃ frames, Framed version ts items frames ∧ bytes = frames.flatten := by
  have hencode := Codec.tupleValue_encode ts version items
  rw [show (Codec.tupleValue (ColumnType.codecs ts)).encode version (.tuple items) = .ok bytes from h]
    at hencode
  split at hencode
  · cases hencode
  · next hlength => exact ⟨Nat.le_of_not_lt hlength, Framed.of_encodeAll 0 hencode.symm⟩

theorem Framed.tuple_readsFronts {frames : List Bytes} (h : Framed version ts items frames) :
    ReadsFronts (Codec.tuple (ColumnType.codecs ts)) version id frames
      (ColumnType.canonicalItems ts items) :=
  h.readsFronts fun _ => rfl

theorem Framed.tupleValue_readsFronts {frames : List Bytes} (h : Framed version ts items frames) :
    ReadsFronts (ColumnType.tuple ts).codec version .tuple frames
      (ColumnType.canonicalItems ts items) := by
  refine h.readsFronts fun bytes => ?_
  rw [ColumnType.codec, Codec.tupleValue, Codec.tuple, Composite.codec]
  dsimp only
  cases Component.decodeAll _ version (slots (ColumnType.codecs ts)) bytes _ <;> rfl

end Tuples

theorem Framed.userDefined_readsFronts {t : UserType} {version : Version}
    {items : List (Option Value)} {frames : List Bytes}
    (h : Framed version (t.fields.map (·.2)) items frames) (frozen : Bool) :
    ReadsFronts (ColumnType.userDefined t frozen).codec version
      (fun parts => .userDefined t.keyspace t.name (t.fieldNames.zip parts)) frames
      (ColumnType.canonicalItems (t.fields.map (·.2)) items) := by
  refine h.readsFronts fun bytes => ?_
  simp only [ColumnType.codec, UserType.codec, UserType.fieldCodecs_eq]
  rw [UserType.decodeFields_eq t.length_fieldNames]
  cases Component.decodeAll _ version _ bytes _ <;> rfl

/-- Tuples and user defined values are read from every front of their bytes as far as whole components
stand there, and never as something else; what stands behind their bytes is not read. -/
theorem ColumnType.truncated_parts (version : Version) :
    (∀ ts v bytes, (ColumnType.tuple ts).codec.encode version v = .ok bytes →
      ∃ items frames, v = .tuple items ∧ items.length ≤ ts.length ∧ Framed version ts items frames ∧
        bytes = frames.flatten ∧
        ReadsFronts (ColumnType.tuple ts).codec version .tuple frames (canonicalItems ts items)) ∧
    (∀ ts codec items bytes, Codec.ofTuple? (.tuple ts) = .ok codec →
      codec.encode version items = .ok bytes →
      items.length ≤ ts.length ∧ ∃ frames, Framed version ts items frames ∧ bytes = frames.flatten ∧
        ReadsFronts codec version id frames (canonicalItems ts items)) ∧
    (∀ (t : UserType) frozen v bytes,
      (ColumnType.userDefined t frozen).codec.encode version v = .ok bytes →
      ∃ keyspace name fields frames, v = .userDefined keyspace name fields ∧
        Framed version (t.fields.map (·.2)) (t.fieldNames.map (UserType.fieldValue fields)) frames ∧
        bytes = frames.flatten ∧
        ReadsFronts (ColumnType.userDefined t frozen).codec version
          (fun parts => .userDefined t.keyspace t.name (t.fieldNames.zip parts)) frames
          (canonicalItems (t.fields.map (·.2)) (t.fieldNames.map (UserType.fieldValue fields)))) := by
  refine ⟨?tuples, ?lists, ?userTypes⟩
  case tuples =>
    intro ts v bytes h
    rw [codec] at h
    cases v with
    | tuple items =>
      obtain ⟨hlength, frames, hframed, rfl⟩ := Codec.tuple_framed h
      exact ⟨items, frames, rfl, hlength, hframed, rfl, hframed.tupleValue_readsFronts⟩
    | _ => cases h
  case lists =>
    intro ts codec items bytes hcodec h
    cases hcodec
    obtain ⟨hlength, frames, hframed, rfl⟩ := Codec.tuple_framed h
    exact ⟨hlength, frames, hframed, rfl, hframed.tuple_readsFronts⟩
  case userTypes =>
    intro t frozen v bytes h
    rw [codec] at h
    cases v with
    | userDefined keyspace name fields =>
      rw [Codec.userDefined_encode] at h
      split at h
      · obtain ⟨frames, hframed, rfl⟩ := Framed.of_encodeAll 0 h
        exact ⟨keyspace, name, fields, frames, rfl, hframed, rfl, hframed.userDefined_readsFronts frozen⟩
      · cases h
    | _ => cases h

/-- A component that is absent, one without bytes and a value of a user type that ends early by itself. The
bytes end behind the second, inside the length of the third and inside of its fields. -/
theorem ColumnType.truncated_parts_nested :
    let point : UserType := ⟨"ks", "point", [("x", .native .int), ("y", .native .boolean)]⟩
    let t : ColumnType := .tuple [.native .int, .native .text, .userDefined point true]
    let v : Value := .tuple [none, some (.text ""), some (.userDefined "" "" [("x", some (.int 7))])]
    let bytes : Bytes := [255, 255, 255, 255, 0, 0, 0, 0, 0, 0, 0, 12, 0, 0, 0, 4, 0, 0, 0, 7,
      255, 255, 255, 255]
    t.codec.encode .v4 v = .ok bytes ∧
      t.codec.decode .v4 (bytes.take 8) = .ok (some (.tuple [none, some (.text ""), none])) ∧
      (∃ fault, t.codec.decode .v4 (bytes.take 10) = .error ⟨t, .truncated fault⟩) ∧
      (∃ fault, t.codec.decode .v4 (bytes.take 20) = .error ⟨t, .truncated fault⟩) ∧
      t.codec.decode .v4 (bytes ++ [0, 0]) = t.codec.decode .v4 bytes := by
  intro point t v bytes
  have h : t.codec.encode .v4 v = .ok bytes := by rfl
  obtain ⟨items, frames, hv, -, hframed, hbytes, hreads⟩ :=
    (ColumnType.truncated_parts .v4).1 [.native .int, .native .text, .userDefined point true] v bytes h
  obtain rfl := Value.tuple.inj hv
  have hframes : frames = [[255, 255, 255, 255], [0, 0, 0, 0],
      [0, 0, 0, 12, 0, 0, 0, 4, 0, 0, 0, 7, 255, 255, 255, 255]] := by
    obtain _ | ⟨hfirst, hnull, _ | ⟨hsecond, hempty, _ | ⟨hthird, hpoint, _ | _⟩⟩⟩ := hframed
    cases hfirst
    cases hsecond
    cases hthird
    cases hnull
    cases hempty
    cases hpoint
    rfl
  subst hframes
  refine ⟨h, hreads.between 2 (by decide), hreads.inside (bytes.take 10) ?_ ?_,
    hreads.inside (bytes.take 20) ?_ ?_, hreads.behind [0, 0]⟩
  · exact List.take_prefix ..
  · decide
  · exact List.take_prefix ..
  · decide

end Cql
