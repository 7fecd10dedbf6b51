import Cql.Proofs.AddressText
import Cql.Proofs.Canonical
import Cql.Proofs.FloatText
import Cql.Proofs.ScalarBytes
import Cql.Proofs.Sequences
import Cql.Proofs.StoredTimes
import Cql.Proofs.UuidText
import Cql.Proofs.ValueScan
import Mathlib.Data.List.Forall2

/-!
Literals of values of simple types. A literal is a string or a run of name characters, it never stands
for an absent value, and the value that is read from it is the one it was written for, up to the form of
a decimal and to what a number that is not one looks like inside.
-/

namespace Cql

/-- Equality up to the form of decimals and to the bits of numbers that are none. -/
inductive Value.Alike : Value → Value → Prop where
  | refl (v : Value) : Alike v v
  | float {a b : UInt32} (ha : BinaryFormat.single.isNaN a.toNat = true)
    (hb : BinaryFormat.single.isNaN b.toNat = true) : Alike (.float a) (.float b)
  | double {a b : UInt64} (ha : BinaryFormat.double.isNaN a.toNat = true)
    (hb : BinaryFormat.double.isNaN b.toNat = true) : Alike (.double a) (.double b)
  | decimal {d e : Decimal} (h : d.Same e) : Alike (.decimal d) (.decimal e)
  | list {vs ws : List Value} (h : List.Forall₂ Alike vs ws) : Alike (.list vs) (.list ws)
  | set {vs ws : List Value} (h : List.Forall₂ Alike vs ws) : Alike (.set vs) (.set ws)
  | map {vs ws : List (Value × Value)}
    (hkeys : List.Forall₂ Alike (vs.map (·.1)) (ws.map (·.1)))
    (hvalues : List.Forall₂ Alike (vs.map (·.2)) (ws.map (·.2))) : Alike (.map vs) (.map ws)
  | tuple {vs ws : List (Option Value)} (h : List.Forall₂ (Option.Rel Alike) vs ws) :
    Alike (.tuple vs) (.tuple ws)
  | userDefined {keyspace name : String} {vs ws : List (String × Option Value)}
    (hnames : vs.map (·.1) = ws.map (·.1))
    (hvalues : List.Forall₂ (Option.Rel Alike) (vs.map (·.2)) (ws.map (·.2))) :
    Alike (.userDefined keyspace name vs) (.userDefined keyspace name ws)

open Literal (Spaced Rigid Whole State)
open Scanner (Scanned)

/-! ## Literals that are not absent -/

namespace Quoted

theorem isNull_eq_false {t : Text} {c : Char} (hc : c ∈ t) (hother : c.toLower ∉ ['n', 'u', 'l', 'l']) :
    isNull t = false := by
  have hempty : t.isEmpty = false := by
    cases t with
    | nil => exact absurd hc List.not_mem_nil
    | cons _ _ => rfl
  rw [isNull, hempty, Bool.false_or]
  exact Text.sameWord_eq_false hc hother

theorem isNull_quote (t : Text) : isNull (quote t) = false :=
  isNull_eq_false List.mem_cons_self (by decide)

theorem isNull_digit {t : Text} {c : Char} (hc : c ∈ t) (hdigit : c.isDigit = true) :
    isNull t = false := by
  refine isNull_eq_false hc ?_
  rw [Identifier.toLower_of_lower_or_digit (.inr (.inl hdigit))]
  intro hmem
  simp only [List.mem_cons, List.not_mem_nil, or_false] at hmem
  rcases hmem with rfl | rfl | rfl | rfl <;> exact absurd hdigit (by decide)

end Quoted

/-- A literal without room for blanks: a run of name characters, or a string. -/
def Literal.Token (t : Text) : Prop :=
  t ≠ [] ∧ (∀ c ∈ t, Identifier.isNameChar c = true) ∨ ∃ s, t = Quoted.quote s

open Literal (Token)

theorem IsNumeral.token {t : Text} (h : IsNumeral t) : Token t := .inl ⟨h.ne_nil, h.all⟩

theorem IsNumeral.isNull {t : Text} (h : IsNumeral t) : Quoted.isNull t = false := by
  obtain ⟨c, hc, hdigit⟩ := h.digit
  exact Quoted.isNull_digit hc hdigit

theorem Literal.Token.rigid {t : Text} (h : Token t) : Rigid t := by
  rcases h with ⟨_, hall⟩ | ⟨s, rfl⟩
  · exact Literal.rigid_names hall
  · exact Literal.rigid_quote s

theorem Literal.Token.scanned {t : Text} (h : Token t) : Scanned t := by
  rcases h with ⟨hne, hall⟩ | ⟨s, rfl⟩
  · exact Scanner.scanned_names hne hall
  · exact Scanner.scanned_quote s

namespace Codec

/-- The literal of a value that may be absent, with blanks put into it, is one value for the scanner
and is read as a value like the given one. -/
def ReadsBack (codec : Codec Value) (v w : Option Value) : Prop :=
  ∃ t, codec.format v = .ok t ∧ Whole t ∧ ∀ core, Spaced .tight t core →
    Scanned core ∧ ∃ u, codec.parse core = .ok u ∧ Option.Rel Value.Alike u w

theorem some_readsBack {codec : Codec Value} {v w : Value} {t : Text} (hprint : codec.print v = .ok t)
    (hwhole : Whole t) (h : ∀ core, Spaced .tight t core → Scanned core ∧
      Quoted.isNull core = false ∧ ∃ u, codec.read core = .ok u ∧ u.Alike w) :
    codec.ReadsBack (some v) (some w) := by
  refine ⟨t, hprint, hwhole, fun core hcore => ?_⟩
  obtain ⟨hscanned, hnull, u, hread, halike⟩ := h core hcore
  refine ⟨hscanned, some u, ?_, .some halike⟩
  simp only [parse, hscanned.trim_eq_self, hnull, Bool.false_eq_true, if_false, hread]
  rfl

theorem ReadsBack.read {codec : Codec Value} {v w : Value} (h : codec.ReadsBack (some v) (some w)) :
    ∃ t u, codec.print v = .ok t ∧ codec.parse t = .ok (some u) ∧ u.Alike w := by
  obtain ⟨t, hprint, -, hread⟩ := h
  obtain ⟨-, u, hparse, halike⟩ := hread t (Spaced.refl _ t)
  cases halike with
  | some halike => exact ⟨t, _, hprint, hparse, halike⟩

theorem null_isNameChar : ∀ c ∈ Value.nullText, Identifier.isNameChar c = true :=
  List.all_eq_true.1 (by decide)

theorem scanned_null : Scanned Value.nullText :=
  Scanner.scanned_names (List.cons_ne_nil _ _) null_isNameChar

theorem none_readsBack (codec : Codec Value) : codec.ReadsBack none none := by
  have hrigid := Literal.rigid_names null_isNameChar
  refine ⟨Value.nullText, rfl, ⟨List.cons_ne_nil _ _, hrigid.2⟩, fun core hcore => ?_⟩
  rw [hrigid.1.spaced_eq hcore]
  have hnull : Quoted.isNull Value.nullText = true := by decide
  refine ⟨scanned_null, none, ?_, .none⟩
  simp only [parse, scanned_null.trim_eq_self, hnull, if_true]

/-- The literal of a value of a simple type is read back. -/
structure Printed {α : Type} (codec : Codec α) (make : α → Value) (v w : Value) : Prop where
  token : Token v.display
  isNull : Quoted.isNull v.display = false
  reads : ∃ a, codec.read v.display = .ok a ∧ (make a).Alike w

/-- The literal of the empty value is no other literal. -/
def RefusesEmpty {α : Type} (codec : Codec α) : Prop :=
  ∀ a, codec.read ['0', 'x'] ≠ .ok a ∧ codec.read ['0', 'X'] ≠ .ok a

section Scalars

variable {α : Type} {type : NativeType} {codec : Codec α} {make : α → Value}
  {get? : Value → Option α}

theorem eq_of_sameWord_empty {t : Text} (h : Text.sameWord t ['0', 'x'] = true) :
    t = ['0', 'x'] ∨ t = ['0', 'X'] := by
  obtain ⟨a, rest, rfl, ha, hrest⟩ := List.map_eq_cons_iff.1 (beq_iff_eq.1 h)
  obtain ⟨b, rest, rfl, hb, hrest⟩ := List.map_eq_cons_iff.1 hrest
  cases List.map_eq_nil_iff.1 hrest
  have hzero : a = '0' := by
    rcases Identifier.toLower_cases a with heq | ⟨hupper, heq⟩
    · exact heq.symm.trans ha
    · have hvalue : a.toLower.toNat = 48 := congrArg Char.toNat ha
      omega
  have hx : b = 'x' ∨ b = 'X' := by
    rcases Identifier.toLower_cases b with heq | ⟨_, heq⟩
    · exact .inl (heq.symm.trans hb)
    · have hvalue : b.toLower.toNat = 120 := congrArg Char.toNat hb
      refine .inr (Char.toNat_inj.1 ?_)
      show b.toNat = 88
      omega
  rcases hx with rfl | rfl
  · exact .inl (by rw [hzero])
  · exact .inr (by rw [hzero])

theorem token_readsBack {codec : Codec Value} {v w : Value} {t : Text} (hprint : codec.print v = .ok t)
    (htoken : Token t) (hnull : Quoted.isNull t = false)
    (hread : ∃ u, codec.read t = .ok u ∧ u.Alike w) : codec.ReadsBack (some v) (some w) := by
  have hne : t ≠ [] := by
    rintro rfl
    cases hnull
  refine some_readsBack hprint ⟨hne, htoken.rigid.2⟩ fun core hcore => ?_
  rw [htoken.rigid.1.spaced_eq hcore]
  exact ⟨htoken.scanned, hnull, hread⟩

/-- What is read as a regular value is not read as the empty one. -/
theorem scalar_read {t : Text} {a : α} (hempty : type.supportsEmpty = true → codec.RefusesEmpty)
    (hread : codec.read t = .ok a) : (scalar type codec make get?).read t = .ok (make a) := by
  have hregular : (type.supportsEmpty && Text.sameWord t ['0', 'x']) = false := by
    rw [Bool.and_eq_false_iff, Bool.eq_false_iff, Bool.eq_false_iff]
    by_contra hnot
    obtain ⟨hsupports, hword⟩ : type.supportsEmpty = true ∧ Text.sameWord t ['0', 'x'] = true := by
      simpa [not_or] using hnot
    obtain ⟨hlower, hupper⟩ := hempty hsupports a
    rcases eq_of_sameWord_empty hword with rfl | rfl
    · exact hlower hread
    · exact hupper hread
  simp only [scalar, hregular, Bool.false_eq_true, if_false, hread]
  rfl

theorem scalar_readsBack
    (hprinted : ∀ v a version bytes, get? v = some a → codec.encode version a = .ok bytes →
      codec.Printed make v (type.canonical v))
    (hempty : type.supportsEmpty = true → codec.RefusesEmpty) {version : Version} {v : Value}
    {bytes : Bytes} (h : (scalar type codec make get?).encode version v = .ok bytes) :
    (scalar type codec make get?).ReadsBack (some v) (some (type.canonical v)) := by
  simp only [scalar] at h
  cases hget : get? v with
  | some a =>
    simp only [hget] at h
    have hprint := hprinted v a version bytes hget h
    obtain ⟨b, hread, halike⟩ := hprint.reads
    refine token_readsBack ?_ hprint.token hprint.isNull ⟨make b, scalar_read hempty hread, halike⟩
    simp only [scalar, hget]
  | none =>
    rw [hget] at h
    split at h
    · rename_i hsome
      cases hsome
    · split at h
      · rename_i hsupports
        refine token_readsBack (t := Hex.blob []) ?_ (.inl ⟨List.cons_ne_nil _ _, Hex.blob_isNameChar⟩) rfl
          ⟨.empty, ?_, ?_⟩
        · simp only [scalar, hget, hsupports, if_true]
          rfl
        · have hword : Text.sameWord (Hex.blob []) ['0', 'x'] = true := by decide
          simp only [scalar, hsupports, hword, Bool.and_self, if_true]
        · rw [NativeType.canonical_empty]
          exact .refl _
      · cases h
    · cases h

end Scalars

/-! ## Simple types -/

theorem numeral_printed {α : Type} {codec : Codec α} {make : α → Value} {v w : Value} {a : α} {t : Text}
    (hdisplay : v.display = t) (hnumeral : IsNumeral t) (hread : codec.read t = .ok a)
    (halike : (make a).Alike w) : codec.Printed make v w :=
  ⟨hdisplay ▸ hnumeral.token, hdisplay ▸ hnumeral.isNull, a, hdisplay ▸ hread, halike⟩

theorem quoted_printed {α : Type} {codec : Codec α} {make : α → Value} {v w : Value} {a : α} {t : Text}
    (hquoted : v.display = Quoted.quote t) (hread : codec.read (Quoted.quote t) = .ok a)
    (halike : (make a).Alike w) : codec.Printed make v w :=
  ⟨.inr ⟨t, hquoted⟩, by rw [hquoted, Quoted.isNull_quote], a, by rw [hquoted, hread], halike⟩

theorem tinyint_printed (i : Int8) : tinyint.Printed .tinyint (.tinyint i) (.tinyint i) := by
  refine numeral_printed (t := Integer.print i.toInt) rfl (Integer.print_isNumeral _) ?_ (.refl _)
  have hread : Integer.readWithin (-2 ^ 7) (2 ^ 7 - 1) (Integer.print i.toInt) = some i.toInt :=
    Integer.readWithin_print i.le_toInt (Int.le_sub_one_of_lt i.toInt_lt)
  simp only [tinyint, number, hread, Option.map_some, orFail, Int8.ofInt_toInt]

theorem smallint_printed (i : Int16) : smallint.Printed .smallint (.smallint i) (.smallint i) := by
  refine numeral_printed (t := Integer.print i.toInt) rfl (Integer.print_isNumeral _) ?_ (.refl _)
  have hread : Integer.readWithin (-2 ^ 15) (2 ^ 15 - 1) (Integer.print i.toInt) = some i.toInt :=
    Integer.readWithin_print i.le_toInt (Int.le_sub_one_of_lt i.toInt_lt)
  simp only [smallint, number, hread, Option.map_some, orFail, Int16.ofInt_toInt]

theorem int_printed (i : Int32) : int.Printed .int (.int i) (.int i) := by
  refine numeral_printed (t := Integer.print i.toInt) rfl (Integer.print_isNumeral _) ?_ (.refl _)
  have hread : Integer.readWithin (-2 ^ 31) (2 ^ 31 - 1) (Integer.print i.toInt) = some i.toInt :=
    Integer.readWithin_print i.le_toInt (Int.le_sub_one_of_lt i.toInt_lt)
  simp only [int, number, hread, Option.map_some, orFail, Int32.ofInt_toInt]

theorem long_read_print (type : NativeType) (i : Int64) :
    (long type).read (Integer.print i.toInt) = .ok i := by
  have hread : Integer.readWithin (-2 ^ 63) (2 ^ 63 - 1) (Integer.print i.toInt) = some i.toInt :=
    Integer.readWithin_print i.le_toInt (Int.le_sub_one_of_lt i.toInt_lt)
  simp only [long, number, hread, Option.map_some, orFail, Int64.ofInt_toInt]

theorem varint_printed (i : Int) : varint.Printed .varint (.varint i) (.varint i) := by
  refine numeral_printed (t := Integer.print i) rfl (Integer.print_isNumeral i) ?_ (.refl _)
  simp only [varint, Integer.readWide_print, orFail]

theorem decimal_printed {version : Version} {d : Decimal} {bytes : Bytes}
    (h : decimal.encode version d = .ok bytes) :
    decimal.Printed .decimal (.decimal d) (.decimal d) := by
  have hscale : -2 ^ 31 ≤ d.scale ∧ d.scale < 2 ^ 31 := by
    simp only [decimal] at h
    split at h
    · assumption
    · cases h
  have hlow : Decimal.leastScale ≤ d.scale := by
    rw [Decimal.leastScale]
    omega
  have hhigh : d.scale ≤ Decimal.greatestScale := by
    rw [Decimal.greatestScale]
    omega
  obtain ⟨e, hread, hsame⟩ := Decimal.read_print hlow hhigh
  refine numeral_printed (t := d.print) rfl (Decimal.print_isNumeral d) ?_ (.decimal hsame)
  simp only [decimal, hread, orFail]

theorem boolean_printed (b : Bool) : boolean.Printed .boolean (.boolean b) (.boolean b) := by
  cases b
  · exact ⟨.inl ⟨by decide, List.all_eq_true.1 (by decide)⟩, rfl, false, rfl, .refl _⟩
  · exact ⟨.inl ⟨by decide, List.all_eq_true.1 (by decide)⟩, rfl, true, rfl, .refl _⟩

theorem string_printed {type : NativeType} {make : String → Value} {v w : Value} {s : String}
    {version : Version} {bytes : Bytes} (h : (string type).encode version s = .ok bytes)
    (hdisplay : v.display = Quoted.quote s.toList) (hmake : make s = w) :
    (string type).Printed make v w := by
  obtain ⟨t, hascii, _⟩ := map_ok_iff.1 h
  have ht : t = s.toList := by
    simp only [checkAscii] at hascii
    split at hascii
    · cases hascii
    · cases hascii
      rfl
  subst ht
  refine quoted_printed hdisplay (a := s) ?_ (hmake ▸ .refl _)
  simp only [string, unquoted, Quoted.unquote_quote, orFail, bind, Except.bind, hascii,
    String.ofList_toList]

theorem blob_token (bytes : Bytes) : Literal.Token (Hex.blob bytes) :=
  .inl ⟨List.cons_ne_nil _ _, Hex.blob_isNameChar⟩

theorem blob_isNull (bytes : Bytes) : Quoted.isNull (Hex.blob bytes) = false :=
  Quoted.isNull_digit List.mem_cons_self rfl

theorem blob_read (bytes : Bytes) : blob.read (Hex.blob bytes) = .ok bytes := by
  simp only [blob, Hex.readBlob_blob, orFail]

theorem uuid_token (u : Uuid) : Literal.Token u.print := by
  refine .inl ⟨fun hnil => ?_, Uuid.print_isNameChar⟩
  have hlength := u.length_print
  rw [hnil] at hlength
  cases hlength

/-- The literal is too long to be the word for an absent value. -/
theorem uuid_isNull (u : Uuid) : Quoted.isNull u.print = false := by
  have hlength := u.length_print
  rw [Quoted.isNull, Bool.or_eq_false_iff, List.isEmpty_eq_false_iff]
  constructor
  · intro hnil
    rw [hnil] at hlength
    cases hlength
  · rw [Text.sameWord, beq_eq_false_iff_ne]
    intro heq
    have hword := congrArg List.length heq
    rw [Text.lower, List.length_map, hlength] at hword
    cases hword

theorem uuid_printed {type : NativeType} {make : Uuid → Value} {v w : Value} {u : Uuid}
    {version : Version} {bytes : Bytes} (h : (uuid type).encode version u = .ok bytes)
    (hdisplay : v.display = u.print) (hmake : make u = w) : (uuid type).Printed make v w := by
  have hversion : checkVersion type u = .ok u := by
    obtain ⟨w, hw, _⟩ := map_ok_iff.1 h
    obtain rfl := checkVersion_eq hw
    exact hw
  refine ⟨hdisplay ▸ uuid_token u, hdisplay ▸ uuid_isNull u, u, ?_, hmake ▸ .refl _⟩
  simp only [uuid, hdisplay, Uuid.read_print, orFail, bind, Except.bind, hversion]

theorem inet_printed (address : Address) : inet.Printed .inet (.inet address) (.inet address) := by
  have hquote : '\x27' :: address.print ++ ['\x27'] = Quoted.quote address.print := by
    rw [Quoted.quote, Quoted.double_eq_self (Address.quote_not_mem_print address)]
  have htrim : Text.trim address.print = address.print :=
    Text.trim_eq_self fun c hc => (Address.print_isMark c hc).isBlank
  refine quoted_printed (a := address) hquote ?_ (.refl _)
  simp only [inet, unquoted, Quoted.unquote_quote, orFail, bind, Except.bind, htrim,
    Address.read_print]

theorem storedDate_read_displayDate (days : UInt32) :
    storedDate.read (Value.displayDate days) = .ok days := by
  simp only [storedDate, storedDate?_displayDate, orFail]

theorem date_printed (days : UInt32) : storedDate.Printed .date (.date days) (.date days) := by
  have hread := storedDate_read_displayDate days
  have hdisplay : (Value.date days).display = Value.displayDate days := rfl
  simp only [Value.displayDate] at hdisplay
  split at hdisplay
  · exact quoted_printed hdisplay (hdisplay ▸ hread) (.refl _)
  · exact numeral_printed hdisplay (Integer.digits_isDigits _).isNumeral (hdisplay ▸ hread) (.refl _)

theorem timestamp_printed (millis : Int64) :
    timestampMillis.Printed .timestamp (.timestamp millis) (.timestamp millis) := by
  have hread : timestampMillis.read (Value.timestamp millis).display = .ok millis :=
    readTimestamp_displayTimestamp millis
  have hdisplay : (Value.timestamp millis).display = Value.displayTimestamp millis := rfl
  simp only [Value.displayTimestamp] at hdisplay
  split at hdisplay
  · exact quoted_printed hdisplay (hdisplay ▸ hread) (.refl _)
  · exact numeral_printed hdisplay (Integer.print_isNumeral _) (hdisplay ▸ hread) (.refl _)

theorem time_printed {version : Version} {nanos : Int64} {bytes : Bytes}
    (h : storedTime.encode version nanos = .ok bytes) :
    storedTime.Printed .time (.time nanos) (.time nanos) := by
  have hday := (storedTime_encode_eq h).1
  have hread : storedTime.read (Value.time nanos).display = .ok nanos := readTime_displayTime hday
  exact quoted_printed rfl hread (.refl _)

theorem floating_token (f : BinaryFormat) (bits : Nat) : Token (Floating.print f bits) ∧
    Quoted.isNull (Floating.print f bits) = false := by
  rcases Floating.print_cases f bits with h | h
  · exact ⟨h.token, h.isNull⟩
  · have hwords : ∀ t ∈ ["NaN".toList, "Infinity".toList, "-Infinity".toList],
        t ≠ [] ∧ t.all Identifier.isNameChar = true ∧ Quoted.isNull t = false := by decide
    obtain ⟨hne, hall, hnull⟩ := hwords _ h
    exact ⟨.inl ⟨hne, List.all_eq_true.1 hall⟩, hnull⟩

theorem float_printed (bits : UInt32) : float.Printed .float (.float bits) (.float bits) := by
  obtain ⟨htoken, hnull⟩ := floating_token .single bits.toNat
  cases hnan : BinaryFormat.single.isNaN bits.toNat with
  | true =>
    have hread : float.read (Floating.print .single bits.toNat) = .ok (UInt32.ofNat BinaryFormat.single.nan) := by
      simp only [float, number, Floating.print_nan hnan, Floating.read_nan, Option.map_some, orFail]
    exact ⟨htoken, hnull, _, hread, .float (by decide) hnan⟩
  | false =>
    have hread : float.read (Floating.print .single bits.toNat) = .ok bits := by
      simp only [float, number, Floating.read_print bits.toNat_lt hnan, Option.map_some, orFail,
        UInt32.ofNat_toNat]
    exact ⟨htoken, hnull, bits, hread, .refl _⟩

theorem double_printed (bits : UInt64) : double.Printed .double (.double bits) (.double bits) := by
  obtain ⟨htoken, hnull⟩ := floating_token .double bits.toNat
  cases hnan : BinaryFormat.double.isNaN bits.toNat with
  | true =>
    have hread : double.read (Floating.print .double bits.toNat) = .ok (UInt64.ofNat BinaryFormat.double.nan) := by
      simp only [double, number, Floating.print_nan hnan, Floating.read_nan, Option.map_some, orFail]
    exact ⟨htoken, hnull, _, hread, .double (by decide) hnan⟩
  | false =>
    have hread : double.read (Floating.print .double bits.toNat) = .ok bits := by
      simp only [double, number, Floating.read_print bits.toNat_lt hnan, Option.map_some, orFail,
        UInt64.ofNat_toNat]
    exact ⟨htoken, hnull, bits, hread, .refl _⟩

/-! The literal `0x` is taken by no type that has an empty value. -/

@[simp]
theorem tinyint_refusesEmpty : tinyint.RefusesEmpty := fun _ => ⟨nofun, nofun⟩

@[simp]
theorem smallint_refusesEmpty : smallint.RefusesEmpty := fun _ => ⟨nofun, nofun⟩

@[simp]
theorem int_refusesEmpty : int.RefusesEmpty := fun _ => ⟨nofun, nofun⟩

@[simp]
theorem bigint_refusesEmpty : bigint.RefusesEmpty := fun _ => ⟨nofun, nofun⟩

@[simp]
theorem float_refusesEmpty : float.RefusesEmpty := fun _ => ⟨nofun, nofun⟩

@[simp]
theorem double_refusesEmpty : double.RefusesEmpty := fun _ => ⟨nofun, nofun⟩

@[simp]
theorem boolean_refusesEmpty : boolean.RefusesEmpty := fun _ => ⟨nofun, nofun⟩

@[simp]
theorem varint_refusesEmpty : varint.RefusesEmpty := fun _ => ⟨nofun, nofun⟩

@[simp]
theorem decimal_refusesEmpty : decimal.RefusesEmpty := fun _ => ⟨nofun, nofun⟩

@[simp]
theorem inet_refusesEmpty : inet.RefusesEmpty := fun _ => ⟨nofun, nofun⟩

@[simp]
theorem timestampMillis_refusesEmpty : timestampMillis.RefusesEmpty := fun _ => ⟨nofun, nofun⟩

@[simp]
theorem storedDate_refusesEmpty : storedDate.RefusesEmpty := fun _ => ⟨nofun, nofun⟩

@[simp]
theorem storedTime_refusesEmpty : storedTime.RefusesEmpty := fun _ => ⟨nofun, nofun⟩

@[simp]
theorem uuid_refusesEmpty (type : NativeType) : (uuid type).RefusesEmpty := fun _ => ⟨nofun, nofun⟩

theorem ofNative_readsBack {type : NativeType} {version : Version} {v : Value} {bytes : Bytes}
    (h : (ofNative type).encode version v = .ok bytes) :
    (ofNative type).ReadsBack (some v) (some (type.canonical v)) := by
  cases type <;> refine scalar_readsBack ?_ (by simp [NativeType.supportsEmpty]) h
  all_goals
    intro v a version bytes hget hencode
    cases v <;> cases hget
  all_goals first | exact string_printed hencode rfl rfl | exact uuid_printed hencode rfl rfl | skip
  · exact numeral_printed rfl (Integer.print_isNumeral _) (long_read_print _ _) (.refl _)
  · exact ⟨blob_token _, blob_isNull _, _, blob_read _, .refl _⟩
  · exact boolean_printed _
  · exact numeral_printed rfl (Integer.print_isNumeral _) (long_read_print _ _) (.refl _)
  · exact decimal_printed hencode
  · exact double_printed _
  · exact float_printed _
  · exact inet_printed _
  · exact int_printed _
  · exact timestamp_printed _
  · exact date_printed _
  · exact time_printed hencode
  · exact varint_printed _
  · exact tinyint_printed _
  · exact smallint_printed _

end Codec

end Cql
