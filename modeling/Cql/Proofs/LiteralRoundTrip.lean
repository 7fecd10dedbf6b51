import Cql.Proofs.BracketedLiterals

/-!
The literal of a value carries what its stored form carries, for every type: with any blanks that may be
put into it, it is read as the value that is read back from the bytes.
-/

namespace Cql

/-! ## What is stored of the parts -/

theorem Collection.encode_elements {type : ColumnType} {version : Version} {count : Nat}
    {elements : List (Codec Value × Value)} {bytes : Bytes}
    (h : encode type version count elements = .ok bytes) :
    ∀ e ∈ elements, ∃ payload, e.1.encode version e.2 = .ok payload := by
  obtain ⟨_, _, _, _, hpayloads, _⟩ := encode_eq h
  exact exists_of_forall₂ hpayloads

theorem Codec.items_encode {type : ColumnType} {shape : Shape} {make : List Value → Value}
    {items? : Value → Option (List Value)} {opening close : Char} {element : Codec Value}
    {version : Version} {v : Value} {bytes : Bytes}
    (h : (items type shape make items? opening close element).encode version v = .ok bytes) :
    ∃ vs, items? v = some vs ∧ ∀ item ∈ vs, ∃ payload, element.encode version item = .ok payload := by
  simp only [items] at h
  split at h
  · next vs hvs =>
    refine ⟨vs, hvs, fun item hitem => ?_⟩
    exact Collection.encode_elements h (element, item) (List.mem_map_of_mem hitem)
  · cases h

theorem Codec.map_encode {key value : Codec Value} {frozen : Bool} {version : Version} {v : Value}
    {bytes : Bytes} (h : (map key value frozen).encode version v = .ok bytes) :
    ∃ entries, v = .map entries ∧ ∀ e ∈ entries,
      (∃ payload, key.encode version e.1 = .ok payload) ∧
        ∃ payload, value.encode version e.2 = .ok payload := by
  cases v with
  | map entries =>
    have helements := Collection.encode_elements h
    refine ⟨entries, rfl, fun e he => ⟨?_, ?_⟩⟩
    · exact helements (key, e.1) (List.mem_flatMap.2 ⟨e, he, List.mem_cons_self⟩)
    · exact helements (value, e.2)
        (List.mem_flatMap.2 ⟨e, he, List.mem_cons_of_mem _ List.mem_cons_self⟩)
  | _ => cases h

/-- A value that is in a place of a tuple type is written by itself. -/
theorem Codec.encode_of_slots {type : ColumnType} {version : Version} {items : List (Option Value)}
    {ts : List ColumnType} {bytes : Bytes}
    (h : Component.encodeAll type version items (slots (ColumnType.codecs ts)) = .ok bytes) {i : Nat}
    {t : ColumnType} (ht : ts[i]? = some t) {v : Value} (hv : items[i]?.join = some v) :
    ∃ payload, t.codec.encode version v = .ok payload := by
  obtain ⟨component, hcomponent⟩ :=
    Component.serialize_of_encodeAll h (slot t.codec i) (mem_slots.2 ⟨i, t, ht, rfl⟩)
  change t.codec.serialize version items[i]?.join = .ok component at hcomponent
  rw [hv] at hcomponent
  obtain ⟨payload, hpayload, -⟩ := map_ok_iff.1 hcomponent
  exact ⟨payload, hpayload⟩

theorem Codec.component_encode {elements : List ColumnType} {version : Version}
    {items : List (Option Value)} {bytes : Bytes}
    (h : (ColumnType.tuple elements).codec.encode version (.tuple items) = .ok bytes) {i : Nat}
    {t : ColumnType} (ht : elements[i]? = some t) {v : Value} (hv : items[i]? = some (some v)) :
    ∃ payload, t.codec.encode version v = .ok payload := by
  rw [ColumnType.codec, tupleValue_encode] at h
  split at h
  · cases h
  · exact encode_of_slots h ht (by rw [hv, Option.join_some])

/-- The value that a field is written with is written by itself. -/
theorem Codec.field_encode {definition : UserType} {frozen : Bool} {version : Version}
    {keyspace name : String} {fields : List (String × Option Value)} {bytes : Bytes}
    (h : (ColumnType.userDefined definition frozen).codec.encode version
      (.userDefined keyspace name fields) = .ok bytes) {field : String} {declared : ColumnType}
    (htype : definition.typeOf? field = some declared) {v : Value}
    (hv : UserType.fieldValue fields field = some v) :
    ∃ payload, declared.codec.encode version v = .ok payload := by
  rw [ColumnType.codec, userDefined_encode] at h
  split at h
  · obtain ⟨i, hi⟩ := List.getElem?_of_mem (UserType.mem_of_typeOf? htype)
    refine encode_of_slots (i := i) h ?_ ?_
    · rw [List.getElem?_map, hi]
      rfl
    · rw [UserType.fieldNames, List.map_map, List.getElem?_map, hi]
      exact hv
  · cases h

/-! ## Every type -/

namespace ColumnType

/-- Types whose literals carry what is stored. -/
def CarriesLiterals (t : ColumnType) : Prop :=
  t.Separable → ∀ version v bytes, v.ListsFieldsOnce → t.codec.encode version v = .ok bytes →
    t.codec.ReadsBack (some v) (some (t.canonical v))

/-- Types whose literals are read as the values they were printed of, fields that are listed more than once
as they are listed last. -/
def Rereads (t : ColumnType) : Prop :=
  t.Separable → ∀ version v, t.StoresParts version v →
    t.codec.ReadsBack (some v) (some (t.canonical v.lastFirst))

theorem Rereads.component {t : ColumnType} (h : t.Rereads) (ht : t.Separable) (version : Version)
    {o : Option Value} (ho : ∀ v, o = some v → t.StoresParts version v) :
    t.codec.ReadsBack o ((o.map Value.lastFirst).map t.canonical) := by
  cases o with
  | none => exact Codec.none_readsBack _
  | some v => exact h ht version v (ho v rfl)

/-- A simple type stores no values with fields in them. -/
theorem lastFirst_native {type : NativeType} {version : Version} {v : Value}
    (hv : (native type).StoresParts version v) : v.lastFirst = v := by
  obtain ⟨bytes, hencode⟩ := hv (native type) v .whole
  cases v
  case list | set | map | tuple | userDefined => cases type <;> cases hencode
  all_goals rfl

theorem rereads_native (type : NativeType) : (native type).Rereads := by
  intro _ version v hv
  obtain ⟨bytes, hencode⟩ := hv (native type) v .whole
  rw [lastFirst_native hv, canonical]
  exact Codec.ofNative_readsBack hencode

theorem rereads_list {element : ColumnType} {frozen : Bool} (h : element.Rereads) :
    (list element frozen).Rereads := by
  intro ht version v hv
  obtain ⟨bytes, hencode⟩ := hv _ v .whole
  obtain ⟨vs, hvs, -⟩ := Codec.items_encode hencode
  cases v <;> cases hvs
  rw [Value.lastFirst_list, canonical, List.map_map]
  refine Codec.list_readsBack frozen (List.forall₂_map_right_iff.2 (List.forall₂_same.2 ?_))
  intro item hitem
  exact h (ht.part (.list .whole)) version item (hv.part (.item hitem .whole))

theorem rereads_set {element : ColumnType} {frozen : Bool} (h : element.Rereads) :
    (set element frozen).Rereads := by
  intro ht version v hv
  obtain ⟨bytes, hencode⟩ := hv _ v .whole
  obtain ⟨vs, hvs, -⟩ := Codec.items_encode hencode
  cases v <;> cases hvs
  rw [Value.lastFirst_set, canonical, List.map_map]
  refine Codec.set_readsBack frozen (List.forall₂_map_right_iff.2 (List.forall₂_same.2 ?_))
  intro item hitem
  exact h (ht.part (.set .whole)) version item (hv.part (.member hitem .whole))

theorem rereads_map {key value : ColumnType} {frozen : Bool} (hkey : key.Rereads)
    (hvalue : value.Rereads) : (map key value frozen).Rereads := by
  intro ht version v hv
  obtain ⟨bytes, hencode⟩ := hv _ v .whole
  obtain ⟨entries, rfl, -⟩ := Codec.map_encode hencode
  rw [Value.lastFirst_map, canonical, List.map_map]
  refine Codec.map_readsBack frozen (List.forall₂_map_right_iff.2 (List.forall₂_same.2 ?_))
  intro e he
  exact ⟨hkey (ht.part (.key .whole)) version e.1 (hv.part (.key he .whole)),
    hvalue (ht.part (.value .whole)) version e.2 (hv.part (.value he .whole))⟩

theorem rereads_tuple {elements : List ColumnType} (h : ∀ t ∈ elements, t.Rereads) :
    (tuple elements).Rereads := by
  intro ht version v hv
  obtain ⟨bytes, hencode⟩ := hv _ v .whole
  cases v with
  | tuple items =>
    rw [Value.lastFirst_tuple, canonical]
    refine Codec.tuple_readsBack fun i t hi => ?_
    have hmem := List.mem_of_getElem? hi
    have hitem : (items.map (Option.map Value.lastFirst))[i]?.join =
        items[i]?.join.map Value.lastFirst := by
      rw [List.getElem?_map]
      cases items[i]? <;> rfl
    rw [hitem]
    refine (h t hmem).component (ht.part (.element hmem .whole)) version fun v hitem => ?_
    exact hv.part (.component hi (Option.join_eq_some_iff.1 hitem) .whole)
  | _ => cases hencode

theorem rereads_userDefined {definition : UserType} {frozen : Bool}
    (h : ∀ f ∈ definition.fields, f.2.Rereads) : (userDefined definition frozen).Rereads := by
  intro ht version v hv
  obtain ⟨bytes, hencode⟩ := hv _ v .whole
  cases v with
  | userDefined keyspace name fields =>
    have hseparable := ht definition frozen .whole
    rw [codec, Codec.userDefined_encode] at hencode
    split at hencode
    · next hknown =>
      rw [Value.lastFirst_userDefined, canonical]
      refine UserType.userDefined_readsBack hseparable frozen
        (List.forall₂_map_right_iff.2 (List.forall₂_same.2 fun f hf => ?_))
      obtain ⟨field, o⟩ := f
      obtain ⟨g, hg, rfl⟩ := List.mem_map.1 (hknown _ hf)
      have htype := UserType.typeOf?_of_mem hseparable.nodup hg
      refine ⟨rfl, g.2, hg, (h g hg).component (ht.part (.field trivial hg .whole)) version ?_⟩
      rintro v rfl
      exact hv.part (.field htype hf .whole)
    · cases hencode
  | _ => cases hencode

theorem lastFirst_rawBytes {type : ColumnType} {version : Version} {v : Value} {bytes : Bytes}
    (h : (Codec.rawBytes type).encode version v = .ok bytes) : v.lastFirst = v := by
  cases v <;> cases h
  rfl

theorem rereads_rawBytes {type : ColumnType} {version : Version} {v : Value} {bytes : Bytes}
    (h : (Codec.rawBytes type).encode version v = .ok bytes) :
    (Codec.rawBytes type).ReadsBack (some v) (some v.lastFirst) := by
  rw [lastFirst_rawBytes h]
  cases v <;> cases h
  refine Codec.token_readsBack rfl (Codec.blob_token _) (Codec.blob_isNull _) ⟨.blob _, ?_, .refl _⟩
  exact map_ok_iff.2 ⟨_, Codec.blob_read _, rfl⟩

theorem rereads (t : ColumnType) : t.Rereads := by
  induction t with
  | native type => exact rereads_native type
  | list element frozen ih => exact rereads_list ih
  | set element frozen ih => exact rereads_set ih
  | map key value frozen hkey hvalue => exact rereads_map hkey hvalue
  | tuple elements ih => exact rereads_tuple ih
  | userDefined definition frozen ih => exact rereads_userDefined ih
  | custom name =>
    intro _ version v hv
    obtain ⟨bytes, hencode⟩ := hv _ v .whole
    exact rereads_rawBytes hencode
  | empty =>
    intro _ version v hv
    obtain ⟨bytes, hencode⟩ := hv _ v .whole
    exact rereads_rawBytes hencode

/-! ## Values that list a field once -/

/-- Where every field has one value only, storing the whole stores every part. -/
theorem storesParts_of_encode {t : ColumnType} {version : Version} {v : Value} (hv : v.Consistent)
    (h : ∃ bytes, t.codec.encode version v = .ok bytes) : t.StoresParts version v := by
  intro type part hplaced
  induction hplaced with
  | whole => exact h
  | item hmem _ ih =>
    obtain ⟨bytes, hencode⟩ := h
    obtain ⟨vs, hvs, hall⟩ := Codec.items_encode hencode
    cases hvs
    exact ih (hv.part (.item hmem .whole)) (hall _ hmem)
  | member hmem _ ih =>
    obtain ⟨bytes, hencode⟩ := h
    obtain ⟨vs, hvs, hall⟩ := Codec.items_encode hencode
    cases hvs
    exact ih (hv.part (.member hmem .whole)) (hall _ hmem)
  | key hmem _ ih =>
    obtain ⟨bytes, hencode⟩ := h
    obtain ⟨entries, heq, hall⟩ := Codec.map_encode hencode
    cases heq
    exact ih (hv.part (.key hmem .whole)) (hall _ hmem).1
  | value hmem _ ih =>
    obtain ⟨bytes, hencode⟩ := h
    obtain ⟨entries, heq, hall⟩ := Codec.map_encode hencode
    cases heq
    exact ih (hv.part (.value hmem .whole)) (hall _ hmem).2
  | component htype hitem _ ih =>
    obtain ⟨bytes, hencode⟩ := h
    exact ih (hv.part (.component (List.mem_of_getElem? hitem) .whole))
      (Codec.component_encode hencode htype hitem)
  | @field definition frozen keyspace name field fields declared v htype hmem _ ih =>
    obtain ⟨bytes, hencode⟩ := h
    have hvalue : UserType.fieldValue fields field = some v :=
      UserType.fieldValue_of_consistent (hv keyspace name fields .whole field) hmem
    exact ih (hv.part (.field hmem .whole)) (Codec.field_encode hencode htype hvalue)

theorem canonicalItems_map {ts : List ColumnType} {items : List (Option Value)} {f : Value → Value}
    (h : ∀ (i : Nat) (t : ColumnType) (v : Value), ts[i]? = some t → items[i]? = some (some v) →
      t.canonical (f v) = t.canonical v) :
    canonicalItems ts (items.map (Option.map f)) = canonicalItems ts items := by
  induction ts generalizing items with
  | nil => rw [canonicalItems, canonicalItems]
  | cons t ts ih =>
    rw [canonicalItems, canonicalItems, ← List.map_tail]
    congr 1
    · cases items with
      | nil => rfl
      | cons item items =>
        cases item with
        | none => rfl
        | some v => exact congrArg some (h 0 t v rfl rfl)
    · refine ih fun i t' v ht hv => h (i + 1) t' v ht ?_
      rwa [List.getElem?_tail] at hv

/-- Types for which the order of listed fields does not matter where every field has one value only. -/
def KeepsOrder (t : ColumnType) : Prop :=
  t.Separable → ∀ version v, v.Consistent → t.StoresParts version v →
    t.canonical v.lastFirst = t.canonical v

theorem keepsOrder_list {element : ColumnType} {frozen : Bool} (h : element.KeepsOrder) :
    (list element frozen).KeepsOrder := by
  intro ht version v hv hstores
  obtain ⟨bytes, hencode⟩ := hstores _ v .whole
  obtain ⟨items, hitems, -⟩ := Codec.items_encode hencode
  cases v <;> cases hitems
  rw [Value.lastFirst_list, canonical, canonical, List.map_map]
  refine congrArg _ (List.map_congr_left fun item hitem => ?_)
  exact h (ht.part (.list .whole)) version item (hv.part (.item hitem .whole))
    (hstores.part (.item hitem .whole))

theorem keepsOrder_set {element : ColumnType} {frozen : Bool} (h : element.KeepsOrder) :
    (set element frozen).KeepsOrder := by
  intro ht version v hv hstores
  obtain ⟨bytes, hencode⟩ := hstores _ v .whole
  obtain ⟨items, hitems, -⟩ := Codec.items_encode hencode
  cases v <;> cases hitems
  rw [Value.lastFirst_set, canonical, canonical, List.map_map]
  refine congrArg _ (List.map_congr_left fun item hitem => ?_)
  exact h (ht.part (.set .whole)) version item (hv.part (.member hitem .whole))
    (hstores.part (.member hitem .whole))

theorem keepsOrder_map {key value : ColumnType} {frozen : Bool} (hkey : key.KeepsOrder)
    (hvalue : value.KeepsOrder) : (map key value frozen).KeepsOrder := by
  intro ht version v hv hstores
  obtain ⟨bytes, hencode⟩ := hstores _ v .whole
  obtain ⟨entries, rfl, -⟩ := Codec.map_encode hencode
  rw [Value.lastFirst_map, canonical, canonical, List.map_map]
  refine congrArg _ (List.map_congr_left fun e he => Prod.ext ?_ ?_)
  · exact hkey (ht.part (.key .whole)) version e.1 (hv.part (.key he .whole))
      (hstores.part (.key he .whole))
  · exact hvalue (ht.part (.value .whole)) version e.2 (hv.part (.value he .whole))
      (hstores.part (.value he .whole))

theorem keepsOrder_tuple {elements : List ColumnType} (h : ∀ t ∈ elements, t.KeepsOrder) :
    (tuple elements).KeepsOrder := by
  intro ht version v hv hstores
  obtain ⟨bytes, hencode⟩ := hstores _ v .whole
  cases v with
  | tuple items =>
    rw [Value.lastFirst_tuple, canonical, canonical]
    refine congrArg _ (canonicalItems_map fun i t v hi hitem => ?_)
    have hmem := List.mem_of_getElem? hi
    exact h t hmem (ht.part (.element hmem .whole)) version v
      (hv.part (.component (List.mem_of_getElem? hitem) .whole))
      (hstores.part (.component hi hitem .whole))
  | _ => cases hencode

theorem keepsOrder_userDefined {definition : UserType} {frozen : Bool}
    (h : ∀ f ∈ definition.fields, f.2.KeepsOrder) : (userDefined definition frozen).KeepsOrder := by
  intro ht version v hv hstores
  obtain ⟨bytes, hencode⟩ := hstores _ v .whole
  cases v with
  | userDefined keyspace name fields =>
    have hnodup := (ht definition frozen .whole).nodup
    rw [Value.lastFirst_userDefined, canonical, canonical, UserType.canonicalFields_eq,
      UserType.canonicalFields_eq]
    refine congrArg _ (List.map_congr_left fun f hf => congrArg _ ?_)
    have hreverse := UserType.fieldValue_reverse (hv keyspace name fields .whole f.1)
    rw [← List.map_reverse, UserType.fieldValue_map, hreverse]
    cases hvalue : UserType.fieldValue fields f.1 with
    | none => rfl
    | some w =>
      have hmem := UserType.mem_of_fieldValue hvalue
      have htype := UserType.typeOf?_of_mem hnodup hf
      exact congrArg some (h f hf (ht.part (.field trivial hf .whole)) version w
        (hv.part (.field hmem .whole)) (hstores.part (.field htype hmem .whole)))
  | _ => cases hencode

theorem keepsOrder (t : ColumnType) : t.KeepsOrder := by
  induction t with
  | native type => exact fun _ _ _ _ hstores => by rw [lastFirst_native hstores]
  | list element frozen ih => exact keepsOrder_list ih
  | set element frozen ih => exact keepsOrder_set ih
  | map key value frozen hkey hvalue => exact keepsOrder_map hkey hvalue
  | tuple elements ih => exact keepsOrder_tuple ih
  | userDefined definition frozen ih => exact keepsOrder_userDefined ih
  | custom name =>
    intro _ version v _ hstores
    obtain ⟨bytes, hencode⟩ := hstores _ v .whole
    rw [lastFirst_rawBytes hencode]
  | empty =>
    intro _ version v _ hstores
    obtain ⟨bytes, hencode⟩ := hstores _ v .whole
    rw [lastFirst_rawBytes hencode]

theorem carriesLiterals (t : ColumnType) : t.CarriesLiterals := by
  intro ht version v bytes hv hencode
  have hstores := storesParts_of_encode hv.consistent ⟨bytes, hencode⟩
  have hback := t.rereads ht version v hstores
  rwa [t.keepsOrder ht version v hv.consistent hstores] at hback

/-- The literal of a value that can be stored is read, with any blanks that may be put into it, as what
is read back of the stored value. -/
theorem literal_reads_stored {t : ColumnType} (ht : t.Separable) {version : Version} {v : Value}
    (hv : v.ListsFieldsOnce) {bytes : Bytes} (h : t.codec.encode version v = .ok bytes) :
    ∃ s, t.codec.print v = .ok s ∧ ∀ s', Literal.Respaced s s' →
      ∃ w w', t.codec.parse s' = .ok (some w) ∧ t.codec.decode version bytes = .ok (some w') ∧
        w.Alike w' := by
  obtain ⟨s, hprint, _, hread⟩ := t.carriesLiterals ht version v bytes hv h
  refine ⟨s, hprint, fun s' hspaced => ?_⟩
  obtain ⟨front, core, back, hfront, hcore, hback, rfl⟩ := hspaced
  obtain ⟨hscanned, u, hparse, halike⟩ := hread core hcore
  have htrim : t.codec.parse (front ++ (core ++ back)) = t.codec.parse core := by
    simp only [Codec.parse, hscanned.trim_append hfront hback, hscanned.trim_eq_self]
  cases halike with
  | some halike =>
    exact ⟨_, _, htrim.trans hparse, t.codec_recovers version v bytes h, halike⟩

/-- A string with the marks of literals in it, a field without a value and an empty component. -/
theorem literal_reads_stored_nested :
    let point : UserType := ⟨"ks", "point", [("x", .native .int), ("Full Name", .native .text)]⟩
    let t : ColumnType :=
      .map (.native .text) (.list (.tuple [.userDefined point true, .native .double]) false) false
    let v : Value := .map [(.text "it's, [", .list [.tuple [some (.userDefined "" ""
      [("Full Name", none), ("x", some (.int (-1)))]), some .empty]])]
    ∃ bytes, t.codec.encode .v4 v = .ok bytes ∧ ∃ s, t.codec.print v = .ok s ∧
      ∀ s', Literal.Respaced s s' → ∃ w w', t.codec.parse s' = .ok (some w) ∧
        t.codec.decode .v4 bytes = .ok (some w') ∧ w.Alike w' := by
  intro point t v
  have ht : t.Separable := by
    intro definition frozen hpart
    have hpoint : point.Separable := ⟨by decide, by decide⟩
    dsimp only [t] at hpart
    rcases hpart with _ | _ | _ | hkey | hvalue
    · cases hkey
    · rcases hvalue with _ | hlist
      rcases hlist with _ | _ | _ | _ | _ | ⟨hmem, helement⟩
      rcases List.mem_pair.1 hmem with rfl | rfl
      · rcases helement with _ | _ | _ | _ | _ | _ | ⟨-, hfield, htype⟩
        · exact hpoint
        · rcases List.mem_pair.1 hfield with h | h <;> cases h <;> cases htype
      · cases helement
  have hv : v.ListsFieldsOnce := by
    intro keyspace name fields hpart
    dsimp only [v] at hpart
    rcases hpart with _ | _ | _ | ⟨hmem, hkey⟩ | ⟨hmem, hvalue⟩
    · cases List.mem_singleton.1 hmem
      cases hkey
    · cases List.mem_singleton.1 hmem
      rcases hvalue with _ | ⟨hmem, hitem⟩
      cases List.mem_singleton.1 hmem
      rcases hitem with _ | _ | _ | _ | _ | ⟨hmem, hcomponent⟩
      rcases List.mem_pair.1 hmem with h | h <;> cases h
      · rcases hcomponent with _ | _ | _ | _ | _ | _ | ⟨hmem, hfield⟩
        · decide
        · rcases List.mem_pair.1 hmem with h | h <;> cases h
          cases hfield
      · cases hcomponent
  obtain ⟨bytes, h⟩ : ∃ bytes, t.codec.encode .v4 v = .ok bytes := ⟨_, rfl⟩
  exact ⟨bytes, h, literal_reads_stored ht hv h⟩

end ColumnType

end Cql
