import Cql.Proofs.ScalarBytes
import Cql.Proofs.Sequences

/-!
What is stored of a value is read back as its canonical form, for every type and every version of the
protocol. Collections count and measure their elements, tuples and user defined values measure their
components, and neither can lose the place where the next one starts.
-/

namespace Cql

namespace Codec

/-- What is stored of a value is read back as its canonical form. -/
def Recovers (codec : Codec Value) (canonical : Value → Value) : Prop :=
  ∀ version v bytes, codec.encode version v = .ok bytes →
    codec.decode version bytes = .ok (some (canonical v))

/-- What one codec stores of a value is read by another one as the image of the value. A codec
recovers values if it carries them to itself. -/
def Carries (writer reader : Codec Value) (image : Value → Value) : Prop :=
  ∀ version v bytes, writer.encode version v = .ok bytes →
    reader.decode version bytes = .ok (some (image v))

/-! ## Simple types -/

section Scalars

variable {α : Type} {type : NativeType} {codec : Codec α} {make : α → Value}
  {get? : Value → Option α}

theorem scalar_recovers (hfaithful : codec.Faithful)
    (hroom : type.supportsEmpty = true → codec.TakesRoom)
    (hmake : ∀ v a, get? v = some a → make a = type.canonical v) :
    (scalar type codec make get?).Recovers type.canonical := by
  intro version v bytes h
  simp only [scalar] at h ⊢
  cases hget : get? v with
  | some a =>
    simp only [hget] at h
    have hregular : (bytes.isEmpty && type.supportsEmpty) = false := by
      cases bytes with
      | cons b rest => rfl
      | nil =>
        cases hs : type.supportsEmpty with
        | false => rfl
        | true => exact absurd h (hroom hs version a)
    rw [hregular, hfaithful version a bytes h]
    simp [Except.map, hmake v a hget]
  | none =>
    rw [hget] at h
    split at h
    · rename_i hsome
      cases hsome
    · rename_i hv _
      split at h
      · rename_i hs
        cases h
        simp [hs, NativeType.canonical_empty]
      · cases h
    · cases h

end Scalars

theorem ofNative_recovers (type : NativeType) : (ofNative type).Recovers type.canonical := by
  cases type <;> refine scalar_recovers (by simp) (by simp [NativeType.supportsEmpty]) ?_
  all_goals
    intro v a h
    cases v <;> cases h <;> rfl

end Codec

/-! ## Collections -/

namespace Collection

/-- Elements with their lengths in front are taken apart again. -/
theorem takeElements_append {type : ColumnType} {version : Version} {payloads frames : List Bytes}
    (h : List.Forall₂ (fun payload frame => Wire.writeElement version payload = .ok frame)
      payloads frames) (done : List Bytes) (rest : Bytes) :
    takeElements type version done payloads.length (frames.flatten ++ rest) =
      .ok (done.reverse ++ payloads, rest) := by
  induction h generalizing done with
  | nil => simp [takeElements]
  | cons hframe _ ih =>
    rw [List.flatten_cons, List.length_cons, List.append_assoc, takeElements,
      Wire.readElement_write hframe]
    dsimp only
    rw [ih, List.reverse_cons, List.append_assoc, List.singleton_append]

/-- What a collection is made of: its size, and a payload for each element. -/
theorem encode_eq {type : ColumnType} {version : Version} {count : Nat}
    {elements : List (Codec Value × Value)} {bytes : Bytes}
    (h : encode type version count elements = .ok bytes) :
    ∃ size payloads frames, Wire.writeSize version count = .ok size ∧
      List.Forall₂ (fun e payload => e.1.encode version e.2 = .ok payload) elements payloads ∧
      List.Forall₂ (fun payload frame => Wire.writeElement version payload = .ok frame)
        payloads frames ∧
      bytes = size ++ frames.flatten := by
  unfold encode at h
  split at h
  · cases h
  · rename_i size hsize
    obtain ⟨frames, hframes, hbytes⟩ := bind_ok_iff.1 h
    cases hbytes
    rw [mapM_ok_iff_forall₂] at hframes
    suffices ∃ payloads,
        List.Forall₂ (fun e payload => e.1.encode version e.2 = .ok payload) elements payloads ∧
        List.Forall₂ (fun payload frame => Wire.writeElement version payload = .ok frame)
          payloads frames by
      obtain ⟨payloads, hpayloads, hframed⟩ := this
      exact ⟨size, payloads, frames, hsize, hpayloads, hframed, rfl⟩
    clear h hsize
    induction hframes with
    | nil => exact ⟨[], .nil, .nil⟩
    | cons hhead _ ih =>
      obtain ⟨payload, hpayload, hframe⟩ := bind_ok_iff.1 hhead
      obtain ⟨payloads, hpayloads, hframed⟩ := ih
      refine ⟨payload :: payloads, .cons hpayload hpayloads, .cons ?_ hframed⟩
      unfold frame at hframe
      split at hframe
      · cases hframe
        assumption
      · cases hframe

theorem split_append {type : ColumnType} {version : Version} {count perEntry : Nat}
    {size : Bytes} {payloads frames : List Bytes} (hsize : Wire.writeSize version count = .ok size)
    (hcount : payloads.length = count * perEntry)
    (hframes : List.Forall₂ (fun payload frame => Wire.writeElement version payload = .ok frame)
      payloads frames) :
    split type version perEntry (size ++ frames.flatten) = .ok payloads := by
  have hne : (size ++ frames.flatten).isEmpty = false := by
    simp [Wire.writeSize_ne_nil hsize]
  have htake : takeElements type version [] payloads.length (frames.flatten ++ []) = _ :=
    takeElements_append hframes [] []
  rw [List.append_nil, hcount] at htake
  simp only [split, hne, Bool.false_eq_true, if_false, Wire.readSize_write hsize, htake, bind,
    Except.bind, List.isEmpty_nil, if_true, List.reverse_nil, List.nil_append]

theorem decodeElement_carries {writer reader : Codec Value} {image : Value → Value}
    (hcarries : writer.Carries reader image) {version : Version} {v : Value} {payload : Bytes}
    (h : writer.encode version v = .ok payload) :
    decodeElement reader version payload = .ok (image v) := by
  simp [decodeElement, hcarries version v payload h, Except.map]

end Collection

namespace Codec

variable {writer reader keyWriter keyReader valueWriter valueReader : Codec Value}
  {f g image : Value → Value}

theorem items_carries {type other : ColumnType} {shape shape' : Shape}
    {make make' : List Value → Value} {items? items?' : Value → Option (List Value)}
    {opening close opening' close' : Char} (hcarries : writer.Carries reader f)
    (himage : ∀ v items, items? v = some items → image v = make' (items.map f)) :
    (items type shape make items? opening close writer).Carries
      (items other shape' make' items?' opening' close' reader) image := by
  intro version v bytes h
  simp only [items] at h ⊢
  split at h
  · rename_i items hitems
    obtain ⟨size, payloads, frames, hsize, hpayloads, hframes, rfl⟩ := Collection.encode_eq h
    rw [List.forall₂_map_left_iff] at hpayloads
    have hcount : payloads.length = items.length * 1 := by rw [← hpayloads.length_eq, Nat.mul_one]
    rw [Collection.split_append hsize hcount hframes]
    have hdecoded : payloads.mapM (Collection.decodeElement reader version) = .ok (items.map f) := by
      rw [mapM_ok_iff_forall₂, List.forall₂_map_right_iff]
      exact hpayloads.flip.imp fun _ _ hp => Collection.decodeElement_carries hcarries hp
    simp only [bind, Except.bind, hdecoded, himage v items hitems]
  · cases h

theorem list_carries (hcarries : writer.Carries reader f)
    (himage : ∀ items, image (.list items) = .list (items.map f)) (frozen frozen' : Bool) :
    (list writer frozen).Carries (list reader frozen') image :=
  items_carries hcarries fun v items h => by
    cases v <;> cases h
    exact himage items

theorem set_carries (hcarries : writer.Carries reader f)
    (himage : ∀ items, image (.set items) = .set (items.map f)) (frozen frozen' : Bool) :
    (set writer frozen).Carries (set reader frozen') image :=
  items_carries hcarries fun v items h => by
    cases v <;> cases h
    exact himage items

/-- Keys and values alternate, so that pairing what was taken apart gives the entries back. -/
theorem mapM_pairs {version : Version} (hkey : keyWriter.Carries keyReader f)
    (hvalue : valueWriter.Carries valueReader g) {entries : List (Value × Value)}
    {payloads : List Bytes}
    (h : List.Forall₂ (fun e payload => e.1.encode version e.2 = .ok payload)
      (entries.flatMap fun (k, v) => [(keyWriter, k), (valueWriter, v)]) payloads) :
    ((Collection.pairs payloads).mapM fun (k, v) => do
      let k ← Collection.decodeElement keyReader version k
      let v ← Collection.decodeElement valueReader version v
      .ok (k, v)) = .ok (entries.map fun (k, v) => (f k, g v)) := by
  induction entries generalizing payloads with
  | nil =>
    cases h
    rfl
  | cons e entries ih =>
    obtain ⟨k, v⟩ := e
    rw [List.flatMap_cons, List.cons_append, List.cons_append, List.nil_append] at h
    obtain ⟨p, _, hp, hvalues, rfl⟩ := List.forall₂_cons_left_iff.1 h
    obtain ⟨q, rest, hq, hrest, rfl⟩ := List.forall₂_cons_left_iff.1 hvalues
    rw [Collection.pairs, List.mapM_cons, List.map_cons, ih hrest]
    dsimp only
    rw [Collection.decodeElement_carries hkey hp, Collection.decodeElement_carries hvalue hq]
    rfl

theorem length_alternating (entries : List (Value × Value)) :
    (entries.flatMap fun (k, v) => [(keyWriter, k), (valueWriter, v)]).length =
      entries.length * 2 := by
  induction entries with
  | nil => rfl
  | cons e entries ih =>
    rw [List.flatMap_cons, List.length_append, ih, List.length_cons]
    simp only [List.length_cons, List.length_nil]
    omega

theorem map_carries (hkey : keyWriter.Carries keyReader f)
    (hvalue : valueWriter.Carries valueReader g)
    (himage : ∀ entries, image (.map entries) = .map (entries.map fun (k, v) => (f k, g v)))
    (frozen frozen' : Bool) :
    (map keyWriter valueWriter frozen).Carries (map keyReader valueReader frozen') image := by
  intro version v bytes h
  simp only [map] at h ⊢
  split at h
  · rename_i entries hentries
    obtain ⟨size, payloads, frames, hsize, hpayloads, hframes, rfl⟩ := Collection.encode_eq h
    have hcount : payloads.length = entries.length * 2 := by
      rw [← hpayloads.length_eq, length_alternating]
    cases v <;> cases hentries
    rw [himage]
    refine bind_ok_iff.2 ⟨payloads, Collection.split_append hsize hcount hframes, ?_⟩
    exact bind_ok_iff.2 ⟨_, mapM_pairs hkey hvalue hpayloads, rfl⟩
  · cases h

end Codec

/-! ## Tuples and user types -/

/-- The place of a component in a list of optional values. -/
def slot (codec : Codec Value) (i : Nat) : Component (List (Option Value)) :=
  .of codec (fun items => items[i]?.join) (fun a items => items.set i a)

/-- The components of a list of optional values from a place on. -/
def slotsFrom (k : Nat) (codecs : List (Codec Value)) : List (Component (List (Option Value))) :=
  (codecs.zipIdx k).map fun (codec, i) => slot codec i

theorem slotsFrom_cons (k : Nat) (t : ColumnType) (ts : List ColumnType) :
    slotsFrom k (ColumnType.codecs (t :: ts)) =
      slot t.codec k :: slotsFrom (k + 1) (ColumnType.codecs ts) := rfl

/-- The components of a tuple type stand in the places from zero on. -/
theorem mem_slots {ts : List ColumnType} {c : Component (List (Option Value))} :
    c ∈ slots (ColumnType.codecs ts) ↔ ∃ i t, ts[i]? = some t ∧ c = slot t.codec i := by
  rw [slots, ColumnType.codecs_eq, List.mem_map]
  constructor
  · rintro ⟨⟨codec, i⟩, hmem, rfl⟩
    rw [List.mem_zipIdx_iff_getElem?, List.getElem?_map] at hmem
    obtain ⟨t, ht, rfl⟩ := Option.map_eq_some_iff.1 hmem
    exact ⟨i, t, ht, rfl⟩
  · rintro ⟨i, t, ht, rfl⟩
    refine ⟨(t.codec, i), ?_, rfl⟩
    rw [List.mem_zipIdx_iff_getElem?, List.getElem?_map, ht]
    rfl

/-- The first component that is still absent takes its place behind those that were read. -/
theorem set_blanks (done : List (Option Value)) (t : ColumnType) (ts : List ColumnType)
    (item : Option Value) :
    (done ++ blanks (ColumnType.codecs (t :: ts))).set done.length item =
      (done ++ [item]) ++ blanks (ColumnType.codecs ts) := by
  simp [blanks, ColumnType.codecs]

namespace Component

theorem frame_eq {type : ColumnType} {component : Option Bytes} {bytes : Bytes}
    (h : frame type component = .ok bytes) : Wire.writeOptional component = .ok bytes := by
  unfold frame at h
  split at h
  · cases h
    assumption
  · cases h

/-- Every component of a value that is written is written by itself. -/
theorem serialize_of_encodeAll {σ : Type} {type : ColumnType} {version : Version} {value : σ}
    {components : List (Component σ)} {bytes : Bytes}
    (h : encodeAll type version value components = .ok bytes) :
    ∀ c ∈ components, ∃ component, c.serialize version value = .ok component := by
  induction components generalizing bytes with
  | nil => exact fun c hc => absurd hc List.not_mem_nil
  | cons c cs ih =>
    obtain ⟨component, hcomponent, hframed⟩ := bind_ok_iff.1 h
    obtain ⟨_, _, hmore⟩ := bind_ok_iff.1 hframed
    obtain ⟨_, hlater, _⟩ := bind_ok_iff.1 hmore
    exact List.forall_mem_cons.2 ⟨⟨component, hcomponent⟩, ih hlater⟩

/-- A component that is written with one codec is read with another one. -/
theorem deserialize_serialize {writer reader : Codec Value} {image : Value → Value}
    (hcarries : writer.Carries reader image) {version : Version} {item : Option Value}
    {component : Option Bytes} (h : writer.serialize version item = .ok component) :
    reader.deserialize version component = .ok (item.map image) := by
  cases item with
  | none =>
    cases h
    rfl
  | some v =>
    obtain ⟨payload, hpayload, rfl⟩ := map_ok_iff.1 h
    exact hcarries version v payload hpayload

/-- What is read of components that were written: nothing in a place behind those that were
written, and those behind the last place are not read. -/
def carriedItems (image : ColumnType → ColumnType → Value → Value) :
    List ColumnType → List ColumnType → List (Option Value) → List (Option Value)
  | _, [], _ => []
  | [], _ :: ts, items => none :: carriedItems image [] ts items
  | s :: ss, t :: ts, items =>
    items.head?.join.map (image s t) :: carriedItems image ss ts items.tail

variable {image : ColumnType → ColumnType → Value → Value}

theorem carriedItems_nil (ts : List ColumnType) (items : List (Option Value)) :
    carriedItems image [] ts items = blanks (ColumnType.codecs ts) := by
  induction ts with
  | nil => rfl
  | cons t ts ih =>
    rw [carriedItems, ih]
    rfl

/-- A component is read into its place. -/
theorem deserialize_slot (version : Version) (component : Option Bytes) (done : List (Option Value))
    (t : ColumnType) (ts : List ColumnType) :
    (slot t.codec done.length).deserialize version component
        (done ++ blanks (ColumnType.codecs (t :: ts))) =
      (t.codec.deserialize version component).map fun item =>
        (done ++ [item]) ++ blanks (ColumnType.codecs ts) := by
  simp only [slot, of, set_blanks]

/-- The components of a value are read one after the other. `done` holds those that were read before,
and `items` the whole value. -/
theorem decodeAll_encodeAll {type other : ColumnType} {version : Version} {ss ts : List ColumnType}
    (hcarries : ∀ p ∈ ss.zip ts, p.1.codec.Carries p.2.codec (image p.1 p.2))
    (items done : List (Option Value)) {k : Nat} (hk : done.length = k) {bytes : Bytes}
    (h : encodeAll type version items (slotsFrom k (ColumnType.codecs ss)) = .ok bytes) :
    decodeAll other version (slotsFrom k (ColumnType.codecs ts)) bytes
        (done ++ blanks (ColumnType.codecs ts)) =
      .ok (done ++ carriedItems image ss ts (items.drop k)) := by
  induction ts generalizing ss done k bytes with
  | nil =>
    rw [carriedItems]
    rfl
  | cons t ts ih =>
    cases ss with
    | nil =>
      cases h
      rw [carriedItems_nil]
      rfl
    | cons s ss =>
      subst hk
      obtain ⟨hfirst, hrest⟩ := List.forall_mem_cons.1 hcarries
      rw [slotsFrom_cons] at h ⊢
      obtain ⟨component, hcomponent, hframed⟩ := bind_ok_iff.1 h
      obtain ⟨framed, hframe, hmore⟩ := bind_ok_iff.1 hframed
      obtain ⟨later, hlater, hbytes⟩ := bind_ok_iff.1 hmore
      cases hbytes
      have hwritten := frame_eq hframe
      have hne : (framed ++ later).isEmpty = false := by simp [Wire.writeOptional_ne_nil hwritten]
      have hread := deserialize_serialize hfirst hcomponent
      generalize hitem : items[done.length]?.join.map (image s t) = item at hread
      have hdone : decodeAll other version (slotsFrom (done.length + 1) (ColumnType.codecs ts)) later
          ((done ++ [item]) ++ blanks (ColumnType.codecs ts)) =
          .ok ((done ++ [item]) ++ carriedItems image ss ts (items.drop (done.length + 1))) :=
        ih hrest (done ++ [item]) (by simp) hlater
      rw [decodeAll, hne, Wire.readOptional_write hwritten]
      refine bind_ok_iff.2 ⟨_, (deserialize_slot ..).trans (map_ok_iff.2 ⟨_, hread, rfl⟩), ?_⟩
      rw [hdone, carriedItems, List.head?_drop, List.tail_drop, hitem, List.append_assoc,
        List.singleton_append]

/-- A whole value, none of which was read before. -/
theorem decodeAll_slots {type other : ColumnType} {version : Version} {ss ts : List ColumnType}
    (hcarries : ∀ p ∈ ss.zip ts, p.1.codec.Carries p.2.codec (image p.1 p.2))
    {items : List (Option Value)} {bytes : Bytes}
    (h : encodeAll type version items (slots (ColumnType.codecs ss)) = .ok bytes) :
    decodeAll other version (slots (ColumnType.codecs ts)) bytes (blanks (ColumnType.codecs ts)) =
      .ok (carriedItems image ss ts items) :=
  decodeAll_encodeAll hcarries items [] rfl h

theorem decodeAll_nil {σ : Type} (type : ColumnType) (version : Version) (components : List (Component σ))
    (value : σ) : decodeAll type version components [] value = .ok value := by
  cases components <;> rfl

end Component

/-! Fields of a user type are written and read one by one, as the components of a tuple are in their
places. -/

namespace UserType

variable {type : ColumnType} {version : Version}

/-- `done` are the names of the fields that were written before. -/
theorem encodeFields_append (fields : List (String × Option Value)) (done : List String)
    {names : List String} {ts : List ColumnType} (hlength : names.length = ts.length) :
    encodeFields type version fields (names.zip (ColumnType.codecs ts)) =
      Component.encodeAll type version ((done ++ names).map (fieldValue fields))
        (slotsFrom done.length (ColumnType.codecs ts)) := by
  induction ts generalizing done names with
  | nil =>
    cases List.length_eq_zero_iff.1 hlength
    rfl
  | cons t ts ih =>
    obtain ⟨name, names, rfl⟩ := List.exists_cons_of_length_eq_add_one hlength
    have hplace : ((done ++ name :: names).map (fieldValue fields))[done.length]?.join =
        fieldValue fields name := by simp
    have hlater := ih (done ++ [name]) (Nat.succ.inj hlength)
    rw [List.append_assoc, List.singleton_append, List.length_append, List.length_singleton] at hlater
    rw [ColumnType.codecs, List.zip_cons_cons, encodeFields, hlater, ← ColumnType.codecs,
      slotsFrom_cons, Component.encodeAll]
    simp only [slot, Component.of, hplace]

theorem length_fieldNames (t : UserType) : t.fieldNames.length = (t.fields.map (·.2)).length := by
  rw [fieldNames, List.length_map, List.length_map]

theorem encodeFields_eq (fields : List (String × Option Value)) {names : List String}
    {ts : List ColumnType} (hlength : names.length = ts.length) :
    encodeFields type version fields (names.zip (ColumnType.codecs ts)) =
      Component.encodeAll type version (names.map (fieldValue fields))
        (slots (ColumnType.codecs ts)) :=
  encodeFields_append fields [] hlength

/-- `done` are the values of the fields that were read before. -/
theorem decodeAll_append (done : List (Option Value)) {names : List String} {ts : List ColumnType}
    (hlength : names.length = ts.length) (bytes : Bytes) :
    Component.decodeAll type version (slotsFrom done.length (ColumnType.codecs ts)) bytes
        (done ++ blanks (ColumnType.codecs ts)) =
      (decodeFields type version (names.zip (ColumnType.codecs ts)) bytes).map fun fields =>
        done ++ fields.map (·.2) := by
  induction ts generalizing done names bytes with
  | nil =>
    cases List.length_eq_zero_iff.1 hlength
    rfl
  | cons t ts ih =>
    obtain ⟨name, names, rfl⟩ := List.exists_cons_of_length_eq_add_one hlength
    -- what is read behind a field, once its value is known
    have hlater : ∀ (item : Option Value) (later : Bytes),
        Component.decodeAll type version (slotsFrom (done.length + 1) (ColumnType.codecs ts)) later
          ((done ++ [item]) ++ blanks (ColumnType.codecs ts)) =
        (decodeFields type version (names.zip (ColumnType.codecs ts)) later).map fun fields =>
          done ++ item :: fields.map (·.2) := by
      intro item later
      have hrest := ih (done ++ [item]) (Nat.succ.inj hlength) later
      rw [List.length_append, List.length_singleton] at hrest
      rw [hrest]
      simp
    have hcodecs : (name :: names).zip (ColumnType.codecs (t :: ts)) =
        (name, t.codec) :: names.zip (ColumnType.codecs ts) := rfl
    rw [slotsFrom_cons, Component.decodeAll, hcodecs, decodeFields]
    by_cases hempty : bytes.isEmpty = true
    · rw [if_pos hempty, if_pos hempty]
      cases List.isEmpty_iff.1 hempty
      have hnothing := hlater none []
      rw [Component.decodeAll_nil] at hnothing
      refine Eq.trans ?_ (hnothing.trans ?_)
      · simp [blanks, ColumnType.codecs]
      · cases decodeFields type version (names.zip (ColumnType.codecs ts)) [] <;> rfl
    · rw [if_neg hempty, if_neg hempty]
      cases Wire.readOptional bytes with
      | error fault => rfl
      | ok read =>
        obtain ⟨field, later⟩ := read
        dsimp only
        rw [Component.deserialize_slot]
        cases t.codec.deserialize version field with
        | error fault => rfl
        | ok item =>
          refine (hlater item later).trans ?_
          cases decodeFields type version (names.zip (ColumnType.codecs ts)) later <;> rfl

/-- Every field has an entry, whatever the bytes are. -/
theorem names_decodeFields {names : List String} {codecs : List (Codec Value)}
    (hlength : names.length = codecs.length) {bytes : Bytes} {fields : List (String × Option Value)}
    (h : decodeFields type version (names.zip codecs) bytes = .ok fields) :
    fields.map (·.1) = names := by
  induction codecs generalizing names bytes fields with
  | nil =>
    cases List.length_eq_zero_iff.1 hlength
    cases h
    rfl
  | cons codec codecs ih =>
    obtain ⟨name, names, rfl⟩ := List.exists_cons_of_length_eq_add_one hlength
    rw [List.zip_cons_cons, decodeFields] at h
    have hrest := fun later rest => @ih names (Nat.succ.inj hlength) later rest
    split at h
    · obtain ⟨rest, hread, heq⟩ := bind_ok_iff.1 h
      cases heq
      rw [List.map_cons, hrest _ _ hread]
    · split at h
      · cases h
      · obtain ⟨item, -, hmore⟩ := bind_ok_iff.1 h
        obtain ⟨rest, hread, heq⟩ := bind_ok_iff.1 hmore
        cases heq
        rw [List.map_cons, hrest _ _ hread]

theorem decodeFields_eq {names : List String} {ts : List ColumnType}
    (hlength : names.length = ts.length) (bytes : Bytes) :
    decodeFields type version (names.zip (ColumnType.codecs ts)) bytes =
      (Component.decodeAll type version (slots (ColumnType.codecs ts)) bytes
        (blanks (ColumnType.codecs ts))).map names.zip := by
  have hitems : Component.decodeAll type version (slots (ColumnType.codecs ts)) bytes
      (blanks (ColumnType.codecs ts)) = _ := decodeAll_append [] hlength bytes
  rw [hitems]
  cases hfields : decodeFields type version (names.zip (ColumnType.codecs ts)) bytes with
  | error fault => rfl
  | ok fields =>
    have hnames := names_decodeFields (hlength.trans (by simp [ColumnType.codecs_eq])) hfields
    rw [map_ok, map_ok, List.nil_append, ← List.zip_of_prod hnames rfl]

end UserType

namespace Codec

/-- A tuple is written as its components, if it has no more of them than its type. -/
theorem tupleValue_encode (ts : List ColumnType) (version : Version) (items : List (Option Value)) :
    (tupleValue (ColumnType.codecs ts)).encode version (.tuple items) =
      if ts.length < items.length then .error ⟨.tuple ts, .arity ts.length items.length⟩
      else Component.encodeAll (.tuple ts) version items (slots (ColumnType.codecs ts)) := by
  have hplaces : (slots (ColumnType.codecs ts)).length = ts.length := by
    simp [slots, ColumnType.codecs_eq]
  simp only [tupleValue, Value.asTuple?, tuple, Composite.codec, Composite.arity, hplaces,
    ColumnType.types_codecs, Option.filter_some, decide_eq_true_eq]
  split
  · next hmore =>
    split at hmore
    · next hlt =>
      cases hmore
      rw [if_pos hlt]
    · cases hmore
  · next hnone =>
    split at hnone
    · cases hnone
    · next hlt => rw [if_neg hlt]

/-- A user defined value is written as its fields in their order, if it lists none but those. -/
theorem userDefined_encode (t : UserType) (frozen : Bool) (version : Version) (keyspace name : String)
    (fields : List (String × Option Value)) :
    (t.codec frozen t.fieldCodecs).encode version (.userDefined keyspace name fields) =
      if ∀ f ∈ fields, f.1 ∈ t.fieldNames then
        Component.encodeAll (.userDefined t frozen) version
          (t.fieldNames.map (UserType.fieldValue fields))
          (slots (ColumnType.codecs (t.fields.map (·.2))))
      else .error ⟨.userDefined t frozen, .incompatible .knownFields⟩ := by
  have hknown : (fields.any fun f => !t.fieldNames.contains f.1) = true ↔
      ¬ ∀ f ∈ fields, f.1 ∈ t.fieldNames := by
    simp
  simp only [UserType.codec, UserType.fieldCodecs_eq, UserType.encodeFields_eq _ t.length_fieldNames,
    hknown, ite_not]

variable (places : ColumnType → ColumnType → Value → Value) {image : Value → Value}

theorem tuple_carries {ss ts : List ColumnType}
    (hcarries : ∀ p ∈ ss.zip ts, p.1.codec.Carries p.2.codec (places p.1 p.2))
    (himage : ∀ items, image (.tuple items) = .tuple (Component.carriedItems places ss ts items)) :
    (tupleValue (ColumnType.codecs ss)).Carries (tupleValue (ColumnType.codecs ts)) image := by
  intro version v bytes h
  cases v with
  | tuple items =>
    rw [tupleValue_encode] at h
    split at h
    · cases h
    · simp only [tupleValue, tuple, Composite.codec]
      rw [Component.decodeAll_slots hcarries h, himage]
      rfl
  | _ => cases h

theorem userDefined_carries {s t : UserType} {frozen frozen' : Bool}
    (hcarries : ∀ p ∈ (s.fields.map (·.2)).zip (t.fields.map (·.2)),
      p.1.codec.Carries p.2.codec (places p.1 p.2))
    (himage : ∀ keyspace name fields, image (.userDefined keyspace name fields) =
      .userDefined t.keyspace t.name (t.fieldNames.zip (Component.carriedItems places
        (s.fields.map (·.2)) (t.fields.map (·.2))
        (s.fieldNames.map (UserType.fieldValue fields))))) :
    (s.codec frozen s.fieldCodecs).Carries (t.codec frozen' t.fieldCodecs) image := by
  intro version v bytes h
  cases v with
  | userDefined keyspace name fields =>
    rw [userDefined_encode] at h
    split at h
    · simp only [UserType.codec, UserType.fieldCodecs_eq]
      rw [UserType.decodeFields_eq t.length_fieldNames, Component.decodeAll_slots hcarries h, himage]
      rfl
    · cases h
  | _ => cases h

theorem rawBytes_carries (type other : ColumnType)
    (himage : ∀ bytes, image (.blob bytes) = .blob bytes) :
    (rawBytes type).Carries (rawBytes other) image := by
  intro version v bytes h
  simp only [rawBytes] at h ⊢
  cases v with
  | blob value =>
    cases h
    rw [himage]
  | _ => cases h

end Codec

/-- Components that are written and read in the same places have their canonical form. -/
theorem ColumnType.carriedItems_canonical (ts : List ColumnType) (items : List (Option Value)) :
    Component.carriedItems (fun _ t => t.canonical) ts ts items = canonicalItems ts items := by
  induction ts generalizing items with
  | nil => rw [Component.carriedItems, canonicalItems]
  | cons t ts ih => rw [Component.carriedItems, canonicalItems, ih]

theorem ColumnType.zip_recovers {ts : List ColumnType}
    (h : ∀ t ∈ ts, t.codec.Recovers t.canonical) :
    ∀ p ∈ ts.zip ts, p.1.codec.Carries p.2.codec p.2.canonical := by
  intro p hp
  obtain ⟨i, hi⟩ := List.getElem?_of_mem hp
  obtain ⟨hfirst, hsecond⟩ := List.getElem?_zip_eq_some.1 hi
  rw [Option.some.inj (hfirst.symm.trans hsecond)]
  exact h p.2 (List.mem_of_getElem? hsecond)

/-- Every codec that is built for a type recovers canonical values. -/
theorem ColumnType.codec_recovers (t : ColumnType) : t.codec.Recovers t.canonical := by
  induction t with
  | native type => exact Codec.ofNative_recovers type
  | list element frozen ih =>
    exact Codec.list_carries ih (fun items => by rw [canonical]) frozen frozen
  | set element frozen ih =>
    exact Codec.set_carries ih (fun items => by rw [canonical]) frozen frozen
  | map key value frozen ihk ihv =>
    exact Codec.map_carries ihk ihv (fun entries => by rw [canonical]) frozen frozen
  | tuple elements ih =>
    refine Codec.tuple_carries (fun _ t => t.canonical) (zip_recovers ih) fun items => ?_
    rw [carriedItems_canonical, canonical]
  | userDefined definition frozen ih =>
    have hfields : ∀ t ∈ definition.fields.map (·.2), t.codec.Recovers t.canonical := by
      intro t ht
      obtain ⟨f, hf, rfl⟩ := List.mem_map.1 ht
      exact ih f hf
    refine Codec.userDefined_carries (fun _ t => t.canonical) (zip_recovers hfields)
      fun keyspace name fields => ?_
    rw [carriedItems_canonical, UserType.zip_canonicalItems, canonical]
  | custom name => exact Codec.rawBytes_carries _ _ fun bytes => rfl
  | empty => exact Codec.rawBytes_carries _ _ fun bytes => rfl

/-- What is stored is read back as the canonical form of the value, so that only values of the same
canonical form are ever stored as the same bytes: an absent component, an empty value and a present one
do not meet. -/
theorem ColumnType.stored_reads_canonical (t : ColumnType) (version : Version) (v : Value) (bytes : Bytes)
    (h : t.codec.encode version v = .ok bytes) :
    t.codec.decode version bytes = .ok (some (t.canonical v)) ∧
      ∀ w, t.codec.encode version w = .ok bytes → t.canonical w = t.canonical v := by
  have hread := t.codec_recovers version v bytes h
  refine ⟨hread, fun w hw => ?_⟩
  have hsame := t.codec_recovers version w bytes hw
  rw [hread] at hsame
  exact (Option.some.inj (Except.ok.inj hsame)).symm

/-- Maps in the narrow frames of the first version: a tuple that lacks its last component, and a user
defined value that lists a field twice and leaves another one out. -/
theorem ColumnType.stored_reads_canonical_nested :
    let point : UserType := ⟨"ks", "point", [("x", .native .int), ("y", .native .varint)]⟩
    let t : ColumnType :=
      .map (.tuple [.native .boolean, .native .int]) (.list (.userDefined point true) false) false
    let v : Value := .map [(.tuple [some .empty],
      .list [.userDefined "" "" [("y", some (.varint (-129))), ("y", none)]])]
    let bytes : Bytes := [0, 1, 0, 8, 0, 0, 0, 0, 255, 255, 255, 255,
      0, 14, 0, 1, 0, 10, 255, 255, 255, 255, 0, 0, 0, 2, 255, 127]
    t.codec.encode .v1 v = .ok bytes ∧
      t.codec.decode .v1 bytes = .ok (some (.map [(.tuple [some .empty, none],
        .list [.userDefined "ks" "point" [("x", none), ("y", some (.varint (-129)))]])])) := by
  intro point t v bytes
  have h : t.codec.encode .v1 v = .ok bytes := by rfl
  exact ⟨h, (ColumnType.stored_reads_canonical t .v1 v bytes h).1⟩

end Cql
