import Cql.Proofs.PrintedValues

/-!
Which of the values that have a literal can be stored. Printing does not check what storing checks:
whether strings are ASCII, a time is one of a day, an identifier has the version of its type, the scale of
a decimal fits into four bytes, and a tuple has no more components than its type. Nothing else is in the
way but the size.
-/

namespace Cql

/-- What a simple type asks of its values besides their kind. -/
def NativeType.admits : NativeType → Value → Bool
  | ascii, .ascii s | ascii, .text s => Text.isAscii s.toList
  | decimal, .decimal d => -2 ^ 31 ≤ d.scale && d.scale < 2 ^ 31
  | time, .time nanos => Codec.isWithinDay nanos.toInt
  | timeuuid, .timeuuid u => u.version == 1
  | _, _ => true

mutual

/-- Simple types admit what is in the value, at every depth, and no tuple has components that its type
does not have. -/
def ColumnType.admits : ColumnType → Value → Bool
  | .native t, v => t.admits v
  | .list element _, .list items => items.all element.admits
  | .set element _, .set items => items.all element.admits
  | .map key value _, .map entries => entries.all fun (k, v) => key.admits k && value.admits v
  | .tuple elements, .tuple items =>
    items.length ≤ elements.length && ColumnType.admitsItems elements items
  | .userDefined definition _, .userDefined _ _ fields => definition.admitsFields fields
  | _, _ => true

def ColumnType.admitsItems : List ColumnType → List (Option Value) → Bool
  | [], _ => true
  | t :: ts, items => items.head?.join.all t.admits && ColumnType.admitsItems ts items.tail

/-- Fields that are listed a second time do not count. -/
def UserType.admitsFields : UserType → List (String × Option Value) → Bool
  | ⟨_, _, declared⟩, fields => UserType.admitsFieldsOf declared fields

def UserType.admitsFieldsOf : List (String × ColumnType) → List (String × Option Value) → Bool
  | [], _ => true
  | (name, t) :: rest, fields =>
    (UserType.fieldValue fields name).all t.admits && UserType.admitsFieldsOf rest fields

end

theorem NativeType.admits_empty (type : NativeType) : type.admits .empty = true := by
  cases type <;> rfl

theorem ColumnType.admitsItems_iff {ts : List ColumnType} {items : List (Option Value)} :
    ColumnType.admitsItems ts items = true ↔ ∀ (i : Nat) (t : ColumnType), ts[i]? = some t →
      ∀ v, items[i]?.join = some v → t.admits v = true := by
  induction ts generalizing items with
  | nil => simp [ColumnType.admitsItems]
  | cons t ts ih =>
    rw [ColumnType.admitsItems, Bool.and_eq_true_iff, ih, List.head?_eq_getElem?]
    constructor
    · rintro ⟨hhead, htail⟩ i t' ht v hv
      cases i with
      | zero =>
        cases ht
        rw [hv] at hhead
        exact hhead
      | succ i => exact htail i t' ht v (by rwa [List.getElem?_tail])
    · intro h
      constructor
      · cases hitem : items[0]?.join with
        | none => rfl
        | some v => exact h 0 t rfl v hitem
      · intro i t' ht v hv
        exact h (i + 1) t' ht v (by rwa [List.getElem?_tail] at hv)

/-- A user defined value is the tuple of its fields. -/
theorem UserType.admitsFields_eq (t : UserType) (fields : List (String × Option Value)) :
    t.admitsFields fields =
      ColumnType.admitsItems (t.fields.map (·.2)) (t.fieldNames.map (fieldValue fields)) := by
  obtain ⟨keyspace, name, declared⟩ := t
  simp only [fieldNames, admitsFields]
  induction declared with
  | nil => rfl
  | cons f declared ih =>
    simp only [List.map_cons, ColumnType.admitsItems, List.head?_cons, Option.join_some,
      List.tail_cons, admitsFieldsOf, ih]

/-- If the value is admitted, nothing but its size keeps it from being stored, and otherwise it is not
stored. -/
structure Codec.Decides (codec : Codec Value) (admits : Value → Bool) (version : Version)
    (v : Value) : Prop where
  stored : admits v = true → OnlyTooBig (codec.encode version v)
  admitted : ∀ bytes, codec.encode version v = .ok bytes → admits v = true

/-- So it is for all values that are printed. -/
def Codec.DecidesPrinted (codec : Codec Value) (admits : Value → Bool) : Prop :=
  ∀ v s, codec.print v = .ok s → ∀ version, codec.Decides admits version v

/-! ## Simple types -/

namespace Codec

theorem ascii_encode_iff {version : Version} {s : String} :
    (∃ bytes, (string .ascii).encode version s = .ok bytes) ↔ Text.isAscii s.toList = true := by
  simp only [string, checkAscii]
  cases Text.isAscii s.toList <;> simp [fail]

theorem decimal_encode_iff {version : Version} {d : Decimal} :
    (∃ bytes, decimal.encode version d = .ok bytes) ↔ -2 ^ 31 ≤ d.scale ∧ d.scale < 2 ^ 31 := by
  simp only [decimal]
  split <;> simp_all [fail]

theorem time_encode_iff {version : Version} {nanos : Int64} :
    (∃ bytes, storedTime.encode version nanos = .ok bytes) ↔ isWithinDay nanos.toInt = true := by
  simp only [storedTime]
  split <;> simp_all [fail]

theorem timeuuid_encode_iff {version : Version} {u : Uuid} :
    (∃ bytes, (uuid .timeuuid).encode version u = .ok bytes) ↔ u.version = 1 := by
  simp only [uuid, checkVersion]
  split <;> simp_all [fail]

section Scalars

variable {α : Type} {type : NativeType} {codec : Codec α} {make : α → Value}
  {get? : Value → Option α}

theorem scalar_decides (hencode : ∀ v a version, get? v = some a →
      ((∃ bytes, codec.encode version a = .ok bytes) ↔ type.admits v = true)) :
    (scalar type codec make get?).DecidesPrinted type.admits := by
  intro v s h version
  rcases (scalar_print h).2 with ⟨a, hget⟩ | ⟨rfl, hget, hempty⟩
  · have heq : (scalar type codec make get?).encode version v = codec.encode version a := by
      simp only [scalar, hget]
    constructor
    · intro hadmits
      rw [heq]
      exact .of_ok ((hencode v a version hget).2 hadmits)
    · intro bytes hbytes
      exact (hencode v a version hget).1 ⟨bytes, heq ▸ hbytes⟩
  · constructor
    · intro _
      refine .of_ok ⟨[], ?_⟩
      simp only [scalar, hget, hempty, if_true]
    · exact fun _ _ => type.admits_empty

end Scalars

theorem ofNative_decides (type : NativeType) : (ofNative type).DecidesPrinted type.admits := by
  cases type <;> refine scalar_decides fun v a version hget => ?_
  all_goals cases v <;> cases hget
  all_goals first
    | exact ⟨fun _ => rfl, fun _ => ⟨_, rfl⟩⟩
    | exact ascii_encode_iff
    | exact time_encode_iff
    | skip
  · rw [decimal_encode_iff, NativeType.admits, Bool.and_eq_true_iff, decide_eq_true_iff,
      decide_eq_true_iff]
  · rw [timeuuid_encode_iff, NativeType.admits, beq_iff_eq]

theorem rawBytes_decides (type : ColumnType) {admits : Value → Bool}
    (hadmits : ∀ bytes, admits (.blob bytes) = true) : (rawBytes type).DecidesPrinted admits := by
  intro v s h version
  cases v with
  | blob bytes => exact ⟨fun _ => .ok bytes, fun _ _ => hadmits bytes⟩
  | _ => cases h

/-! ## Collections -/

variable {element key value : Codec Value} {f g admits : Value → Bool}

theorem items_decides {type : ColumnType} {shape : Shape} {make : List Value → Value}
    {items? : Value → Option (List Value)} {opening close : Char} (helement : element.DecidesPrinted f)
    (hadmits : ∀ v vs, items? v = some vs → admits v = vs.all f) :
    (items type shape make items? opening close element).DecidesPrinted admits := by
  intro v s h version
  obtain ⟨vs, texts, hvs, htexts, -⟩ := items_print h
  have hall : ∀ w ∈ vs, element.Decides f version w := by
    intro w hw
    obtain ⟨text, htext⟩ := exists_of_forall₂ htexts w hw
    exact helement w text htext version
  constructor
  · intro hv
    rw [hadmits v vs hvs, List.all_eq_true] at hv
    simp only [items, hvs]
    refine Collection.encode_onlyTooBig (fun e he => ?_) type vs.length
    obtain ⟨w, hw, rfl⟩ := List.mem_map.1 he
    exact (hall w hw).stored (hv w hw)
  · intro bytes hbytes
    obtain ⟨ws, hws, hstored⟩ := items_encode hbytes
    cases hvs.symm.trans hws
    rw [hadmits v vs hvs, List.all_eq_true]
    intro w hw
    obtain ⟨payload, hpayload⟩ := hstored w hw
    exact (hall w hw).admitted payload hpayload

theorem map_decides (hkey : key.DecidesPrinted f) (hvalue : value.DecidesPrinted g)
    (hadmits : ∀ entries, admits (.map entries) = entries.all fun (k, v) => f k && g v) (frozen : Bool) :
    (map key value frozen).DecidesPrinted admits := by
  intro v s h version
  obtain ⟨entries, texts, rfl, htexts, -⟩ := map_print h
  have hall : ∀ e ∈ entries, key.Decides f version e.1 ∧ value.Decides g version e.2 := by
    intro e he
    obtain ⟨text, htext⟩ := exists_of_forall₂ htexts e he
    obtain ⟨left, right, hleft, hright, -⟩ := printEntry_ok_iff.1 htext
    exact ⟨hkey e.1 left hleft version, hvalue e.2 right hright version⟩
  constructor
  · intro hv
    rw [hadmits, List.all_eq_true] at hv
    simp only [map, Value.asMap?]
    refine Collection.encode_onlyTooBig (fun e he => ?_) _ entries.length
    obtain ⟨entry, hentry, hmem⟩ := List.mem_flatMap.1 he
    obtain ⟨hfirst, hsecond⟩ := Bool.and_eq_true_iff.1 (hv entry hentry)
    rcases List.mem_pair.1 hmem with rfl | rfl
    · exact (hall entry hentry).1.stored hfirst
    · exact (hall entry hentry).2.stored hsecond
  · intro bytes hbytes
    obtain ⟨_, heq, hstored⟩ := map_encode hbytes
    cases heq
    rw [hadmits, List.all_eq_true]
    intro entry hentry
    obtain ⟨⟨payload, hpayload⟩, payload', hpayload'⟩ := hstored entry hentry
    exact Bool.and_eq_true_iff.2 ⟨(hall entry hentry).1.admitted payload hpayload,
      (hall entry hentry).2.admitted payload' hpayload'⟩

/-! ## Tuples and user types -/

variable {version : Version} {type : ColumnType} {ts : List ColumnType} {items : List (Option Value)}

/-- The components in their places are stored if they are admitted there. -/
theorem slots_stored (h : ∀ (i : Nat) (t : ColumnType), ts[i]? = some t → ∀ v,
      items[i]?.join = some v → t.codec.Decides t.admits version v)
    (hadmits : ColumnType.admitsItems ts items = true) :
    OnlyTooBig (Component.encodeAll type version items (slots (ColumnType.codecs ts))) := by
  apply Component.encodeAll_onlyTooBig
  intro c hc
  obtain ⟨i, t, ht, rfl⟩ := mem_slots.1 hc
  show OnlyTooBig (t.codec.serialize version items[i]?.join)
  cases hitem : items[i]?.join with
  | none => exact .ok _
  | some v =>
    have hv := ColumnType.admitsItems_iff.1 hadmits i t ht v hitem
    exact ((h i t ht v hitem).stored hv).map some

theorem slots_admitted (h : ∀ (i : Nat) (t : ColumnType), ts[i]? = some t → ∀ v,
      items[i]?.join = some v → t.codec.Decides t.admits version v) {bytes : Bytes}
    (hbytes : Component.encodeAll type version items (slots (ColumnType.codecs ts)) = .ok bytes) :
    ColumnType.admitsItems ts items = true := by
  rw [ColumnType.admitsItems_iff]
  intro i t ht v hv
  obtain ⟨payload, hpayload⟩ := encode_of_slots hbytes ht hv
  exact (h i t ht v hv).admitted payload hpayload

theorem tuple_decides (hts : ∀ t ∈ ts, t.codec.DecidesPrinted t.admits) :
    (tupleValue (ColumnType.codecs ts)).DecidesPrinted (ColumnType.tuple ts).admits := by
  intro v s h version
  obtain ⟨items, texts, rfl, htexts, -⟩ := tuple_print h
  have hall : ∀ (i : Nat) (t : ColumnType), ts[i]? = some t → ∀ v, items[i]?.join = some v →
      t.codec.Decides t.admits version v := by
    intro i t ht v hv
    obtain ⟨text, htext⟩ := exists_of_forall₂ htexts (slot t.codec i) (mem_slots.2 ⟨i, t, ht, rfl⟩)
    have hprint : t.codec.format items[i]?.join = .ok text := htext
    rw [hv] at hprint
    exact hts t (List.mem_of_getElem? ht) v text hprint version
  constructor
  · intro hadmits
    rw [ColumnType.admits] at hadmits
    obtain ⟨hlength, hitems⟩ := Bool.and_eq_true_iff.1 hadmits
    rw [tupleValue_encode, if_neg (Nat.not_lt.2 (of_decide_eq_true hlength))]
    exact slots_stored hall hitems
  · intro bytes hbytes
    rw [tupleValue_encode] at hbytes
    split at hbytes
    · cases hbytes
    · next hlength =>
      rw [ColumnType.admits]
      exact Bool.and_eq_true_iff.2 ⟨decide_eq_true (Nat.not_lt.1 hlength), slots_admitted hall hbytes⟩

theorem userDefined_decides {t : UserType} (frozen : Bool) (hnames : t.fieldNames.Nodup)
    (hfields : ∀ f ∈ t.fields, f.2.codec.DecidesPrinted f.2.admits) :
    (t.codec frozen t.fieldCodecs).DecidesPrinted (ColumnType.userDefined t frozen).admits := by
  intro v s h version
  obtain ⟨keyspace, name, fields, texts, rfl, htexts, -⟩ := UserType.codec_print h
  have hknown : ∀ f ∈ fields, f.1 ∈ t.fieldNames := by
    intro f hf
    obtain ⟨text, htext⟩ := exists_of_forall₂ htexts f hf
    obtain ⟨type, right, hmem, -⟩ := UserType.printField_ok htext
    exact List.mem_map.2 ⟨_, hmem, rfl⟩
  have hall : ∀ (i : Nat) (type : ColumnType), (t.fields.map (·.2))[i]? = some type → ∀ v,
      (t.fieldNames.map (UserType.fieldValue fields))[i]?.join = some v →
        type.codec.Decides type.admits version v := by
    intro i type htype v hv
    rw [List.getElem?_map] at htype
    obtain ⟨f, hf, rfl⟩ := Option.map_eq_some_iff.1 htype
    rw [UserType.fieldNames, List.map_map, List.getElem?_map, hf] at hv
    obtain ⟨text, htext⟩ := exists_of_forall₂ htexts _ (UserType.mem_of_fieldValue hv)
    obtain ⟨type, right, hmem, -, hright, -⟩ := UserType.printField_ok htext
    have hdeclared := List.mem_of_getElem? hf
    -- the field of this name in the definition is the one whose value is looked at
    have hsame : f = (f.1, type) := List.inj_on_of_nodup_map hnames hdeclared hmem rfl
    rw [hsame]
    rw [hsame] at hdeclared
    exact hfields _ hdeclared v right hright version
  constructor
  · intro hadmits
    rw [ColumnType.admits, UserType.admitsFields_eq] at hadmits
    rw [userDefined_encode, if_pos hknown]
    exact slots_stored hall hadmits
  · intro bytes hbytes
    rw [userDefined_encode, if_pos hknown] at hbytes
    rw [ColumnType.admits, UserType.admitsFields_eq]
    exact slots_admitted hall hbytes

end Codec

/-! ## Every type -/

theorem ColumnType.codec_decides {t : ColumnType} (h : t.DistinctFields) :
    t.codec.DecidesPrinted t.admits := by
  induction t with
  | native type => exact Codec.ofNative_decides type
  | list element frozen ih =>
    refine Codec.items_decides (ih (distinctFields_list.1 h)) fun v vs hvs => ?_
    cases v <;> cases hvs
    rw [admits]
  | set element frozen ih =>
    refine Codec.items_decides (ih (distinctFields_set.1 h)) fun v vs hvs => ?_
    cases v <;> cases hvs
    rw [admits]
  | map key value frozen ihk ihv =>
    obtain ⟨hkey, hvalue⟩ := distinctFields_map.1 h
    exact Codec.map_decides (ihk hkey) (ihv hvalue) (fun entries => by rw [admits]) frozen
  | tuple elements ih =>
    exact Codec.tuple_decides fun t ht => ih t ht (distinctFields_tuple.1 h t ht)
  | userDefined definition frozen ih =>
    obtain ⟨hnames, hfields⟩ := distinctFields_userDefined.1 h
    exact Codec.userDefined_decides frozen hnames fun f hf => ih f hf (hfields f hf)
  | custom name => exact Codec.rawBytes_decides _ fun bytes => rfl
  | empty => exact Codec.rawBytes_decides _ fun bytes => rfl

/-- A value that has a literal can be stored, unless what would be written is too long, exactly if its type
admits it: it is only in these respects that the literal may stand for a value which is not one of the
type, or for a part of one. -/
theorem ColumnType.printed_stores {t : ColumnType} (ht : t.DistinctFields) {v : Value} {s : Text}
    (h : t.codec.print v = .ok s) (version : Version) :
    (t.admits v = true → OnlyTooBig (t.codec.encode version v)) ∧
      ∀ bytes, t.codec.encode version v = .ok bytes → t.admits v = true :=
  ⟨(t.codec_decides ht v s h version).stored, (t.codec_decides ht v s h version).admitted⟩

/-- The last nanosecond of a day is stored, next to a tuple that lacks a component, but not the one that
follows it. -/
theorem ColumnType.printed_stores_nested :
    let visit : UserType := ⟨"ks", "visit", [("at", .native .time), ("page", .native .ascii)]⟩
    let t : ColumnType := .list (.tuple [.userDefined visit true, .native .decimal]) false
    let v (nanos : Int64) : Value := .list [.tuple [some (.userDefined "" ""
      [("page", some (.text "home")), ("at", some (.time nanos))])]]
    t.DistinctFields ∧
      (∃ s, t.codec.print (v 86399999999999) = .ok s ∧ t.admits (v 86399999999999) = true ∧
        OnlyTooBig (t.codec.encode .v4 (v 86399999999999))) ∧
      ∃ s, t.codec.print (v 86400000000000) = .ok s ∧ t.admits (v 86400000000000) = false ∧
        ∀ bytes, t.codec.encode .v4 (v 86400000000000) ≠ .ok bytes := by
  intro visit t v
  have ht : t.DistinctFields := by simp [t, visit, UserType.fieldNames]
  have hlast : t.admits (v 86399999999999) = true := by decide
  have hnext : t.admits (v 86400000000000) = false := by decide
  obtain ⟨s, hs⟩ : ∃ s, t.codec.print (v 86399999999999) = .ok s := ⟨_, rfl⟩
  obtain ⟨s', hs'⟩ : ∃ s, t.codec.print (v 86400000000000) = .ok s := ⟨_, rfl⟩
  refine ⟨ht, ⟨s, hs, hlast, (printed_stores ht hs .v4).1 hlast⟩, s', hs', hnext, fun bytes hbytes => ?_⟩
  rw [(printed_stores ht hs' .v4).2 bytes hbytes] at hnext
  cases hnext

/-- The literal of a tuple with a component too many stands for a part of it only. -/
theorem ColumnType.printed_cuts_tuple : ¬ ∀ (t : ColumnType) (v : Value) (s : Text), t.DistinctFields →
    t.codec.print v = .ok s → OnlyTooBig (t.codec.encode .v4 v) := by
  intro h
  have hstored := h (.tuple [.native .int]) (.tuple [some (.int 1), some (.int 2)]) "(1)".toList
    (by simp) rfl ⟨.tuple [.native .int], .arity 1 2⟩ rfl
  obtain ⟨size, hsize⟩ := hstored
  cases hsize

end Cql
