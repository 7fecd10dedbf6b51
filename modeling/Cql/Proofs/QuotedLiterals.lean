import Cql.Codec.Document
import Cql.Codec.OfType
import Cql.Codec.Zoned
import Cql.Proofs.BracketedLiterals
import Cql.Proofs.TemporalLiterals

/-!
What is taken for a string literal. Quotes around the characters are enough; that a quote among them is
written twice is not asked for. Where it is, the literal is the one that is written of its string, and
it is taken whole as a part of other literals; where it is not, neither is so.
-/

namespace Cql

namespace Quoted

/-! ## The escaped form -/

/-- Every quote is one of two that are read as one. -/
def isPaired : Text → Bool
  | [] => true
  | '\x27' :: '\x27' :: rest => isPaired rest
  | c :: rest => c != '\x27' && isPaired rest

/-- A string literal as it is written: quotes around characters among which every quote is doubled. -/
def isEscaped (t : Text) : Bool := isQuoted t && isPaired (t.drop 1).dropLast

theorem isPaired_cons {c : Char} (hc : c ≠ '\x27') (t : Text) : isPaired (c :: t) = isPaired t := by
  rw [isPaired, bne_iff_ne.2 hc, Bool.true_and]
  exact fun _ h => absurd h hc

theorem isPaired_double (t : Text) : isPaired (double t) = true := by
  induction t with
  | nil => rfl
  | cons c t ih =>
    by_cases hc : c = '\x27'
    · subst hc
      rw [double_cons_quote, isPaired, ih]
    · rw [double_cons hc, isPaired_cons hc, ih]

theorem double_undouble {t : Text} (h : isPaired t = true) : double (undouble t) = t := by
  fun_induction isPaired t with
  | case1 => rfl
  | case2 rest ih => rw [undouble, double_cons_quote, ih h]
  | case3 c rest _ ih =>
    obtain ⟨hc, hrest⟩ := Bool.and_eq_true_iff.1 h
    rw [undouble_cons (bne_iff_ne.1 hc), double_cons (bne_iff_ne.1 hc), ih hrest]

theorem isQuoted_iff {t : Text} : isQuoted t = true ↔ ∃ inner, t = '\x27' :: (inner ++ ['\x27']) := by
  constructor
  · intro h
    simp only [isQuoted, Bool.and_eq_true, decide_eq_true_eq, beq_iff_eq] at h
    obtain ⟨⟨hlength, hhead⟩, hlast⟩ := h
    cases t with
    | nil => cases hhead
    | cons c t =>
      cases hhead
      have hne : t ≠ [] := fun hnil => by simp [hnil] at hlength
      rw [List.getLast?_cons_of_ne_nil hne, List.getLast?_eq_some_iff] at hlast
      obtain ⟨inner, rfl⟩ := hlast
      exact ⟨inner, rfl⟩
  · rintro ⟨inner, rfl⟩
    exact isQuoted_between inner

theorem unquote_eq_some_iff {literal s : Text} :
    unquote literal = some s ↔ ∃ inner, literal = '\x27' :: (inner ++ ['\x27']) ∧ undouble inner = s := by
  constructor
  · intro h
    have hquoted : isQuoted literal = true := by
      by_contra hbare
      rw [unquote, if_neg hbare] at h
      cases h
    obtain ⟨inner, rfl⟩ := isQuoted_iff.1 hquoted
    exact ⟨inner, rfl, Option.some.inj ((unquote_between inner).symm.trans h)⟩
  · rintro ⟨inner, rfl, rfl⟩
    exact unquote_between inner

theorem mem_of_unquote {literal s : Text} (h : unquote literal = some s) : '\x27' ∈ literal := by
  obtain ⟨inner, rfl, -⟩ := unquote_eq_some_iff.1 h
  exact List.mem_cons_self

theorem isNull_of_unquote {literal s : Text} (h : unquote literal = some s) : isNull literal = false :=
  isNull_eq_false (mem_of_unquote h) (by decide)

theorem isEscaped_quoted (inner : Text) :
    isEscaped ('\x27' :: (inner ++ ['\x27'])) = isPaired inner := by
  rw [isEscaped, isQuoted_between, between_eq, Bool.true_and]

theorem isEscaped_quote (s : Text) : isEscaped (quote s) = true :=
  (isEscaped_quoted (double s)).trans (isPaired_double s)

/-- Of the literals of a string only the one that is written of it is escaped. -/
theorem isEscaped_iff {literal s : Text} (h : unquote literal = some s) :
    isEscaped literal = true ↔ literal = quote s := by
  obtain ⟨inner, rfl, rfl⟩ := unquote_eq_some_iff.1 h
  constructor
  · intro hescaped
    rw [isEscaped_quoted] at hescaped
    rw [quote_eq, double_undouble hescaped]
  · intro hquote
    rw [hquote]
    exact isEscaped_quote _

/-- A text is a literal of the string that it is written of and of no other, unless a quote in it stands
alone. -/
theorem unquote_iff_quote {t : Text} :
    (∀ s, unquote t = some s ↔ t = quote s) ↔ (isQuoted t = true → isEscaped t = true) := by
  constructor
  · intro hmeets hquoted
    obtain ⟨inner, hinner⟩ := isQuoted_iff.1 hquoted
    have hs := unquote_eq_some_iff.2 ⟨inner, hinner, rfl⟩
    exact (isEscaped_iff hs).2 ((hmeets _).1 hs)
  · intro hescaped s
    constructor
    · intro hs
      obtain ⟨inner, hinner, -⟩ := unquote_eq_some_iff.1 hs
      exact (isEscaped_iff hs).1 (hescaped (isQuoted_iff.2 ⟨inner, hinner⟩))
    · rintro rfl
      exact unquote_quote s

end Quoted

/-! ## Literals as parts of others -/

open Quoted (isEscaped isPaired quote unquote)

/-- A string that goes to the end of the text is paired up to its last quote. -/
theorem Scanner.isPaired_of_afterValue {inner : Text}
    (h : afterValue .none true (inner ++ ['\x27']) = some []) : isPaired inner = true := by
  fun_induction isPaired inner with
  | case1 => rfl
  | case2 rest ih =>
    rw [List.cons_append, List.cons_append, afterValue_doubled] at h
    exact ih h
  | case3 c rest hpair ih =>
    rw [Bool.and_eq_true_iff]
    by_cases hc : c = '\x27'
    · subst hc
      -- a quote that stands alone would end the string before the last quote
      cases rest with
      | nil => cases h
      | cons d rest =>
        have hd : (d :: rest ++ ['\x27']).head? ≠ some '\x27' := by
          rintro hhead
          cases hhead
          exact hpair rest rfl rfl
        rw [List.cons_append, afterValue_last _ hd] at h
        cases h
    · rw [List.cons_append, afterValue_inside _ hc] at h
      exact ⟨bne_iff_ne.2 hc, ih h⟩

/-- A string literal is taken whole wherever it stands if and only if it is escaped. -/
theorem Scanner.cut_iff_isEscaped {literal s : Text} (h : unquote literal = some s) :
    Cut literal ↔ isEscaped literal = true := by
  constructor
  · intro hcut
    obtain ⟨inner, rfl, -⟩ := Quoted.unquote_eq_some_iff.1 h
    have hskip := hcut [] .nil
    rw [List.append_nil] at hskip
    have hscan := (skipValue_ok hskip).1
    rw [afterValue_open] at hscan
    rw [Quoted.isEscaped_quoted]
    exact isPaired_of_afterValue hscan
  · intro hescaped
    rw [(Quoted.isEscaped_iff h).1 hescaped]
    exact (scanned_quote s).cut

/-! ## Codecs that ask for quotes -/

namespace Codec

variable {α β : Type} {codec : Codec α}

/-- A value is read of a literal if and only if the literal is in quotes and the value is read of what is
written of the string in them. -/
def ReadsQuoted (codec : Codec α) (a : α) : Prop :=
  ∀ literal, codec.read literal = .ok a ↔
    ∃ s, unquote literal = some s ∧ codec.read (quote s) = .ok a

theorem unquoted_ok_iff {type : ColumnType} {literal s : Text} :
    unquoted type literal = .ok s ↔ unquote literal = some s := orFail_ok_iff

theorem readsQuoted_of {type : ColumnType} {next : Text → Text → Except Fault α}
    (hread : ∀ literal, codec.read literal = unquoted type literal >>= next literal)
    (hnext : ∀ literal other s a, next literal s = .ok a → next other s = .ok a) (a : α) :
    codec.ReadsQuoted a := by
  have hquote : ∀ s, codec.read (quote s) = next (quote s) s := by
    intro s
    rw [hread, unquoted, Quoted.unquote_quote]
    rfl
  intro literal
  rw [hread, bind_ok_iff]
  constructor
  · rintro ⟨s, hs, ha⟩
    exact ⟨s, unquoted_ok_iff.1 hs, (hquote s).trans (hnext _ _ _ _ ha)⟩
  · rintro ⟨s, hs, ha⟩
    exact ⟨s, unquoted_ok_iff.2 hs, hnext _ _ _ _ ((hquote s).symm.trans ha)⟩

theorem ReadsQuoted.bind {inner : Codec β} (h : ∀ b, inner.ReadsQuoted b) {next : β → Except Fault α}
    (hread : ∀ literal, codec.read literal = inner.read literal >>= next) (a : α) :
    codec.ReadsQuoted a := by
  intro literal
  simp only [hread, bind_ok_iff]
  constructor
  · rintro ⟨b, hb, ha⟩
    obtain ⟨s, hs, hb⟩ := (h b literal).1 hb
    exact ⟨s, hs, b, hb, ha⟩
  · rintro ⟨s, hs, b, hb, ha⟩
    exact ⟨b, (h b literal).2 ⟨s, hs, hb⟩, ha⟩

/-- The empty value has a literal of its own, without quotes. -/
theorem ReadsQuoted.scalar (h : ∀ a, codec.ReadsQuoted a) (type : NativeType) (make : α → Value)
    (get? : Value → Option α) {v : Value} (hv : v ≠ .empty) :
    (scalar type codec make get?).ReadsQuoted v := by
  have hregular : ∀ {literal}, '\x27' ∈ literal →
      (type.supportsEmpty && Text.sameWord literal ['0', 'x']) = false := by
    intro literal hmark
    rw [Text.sameWord_eq_false hmark (by decide), Bool.and_false]
  have hread : ∀ literal, (Codec.scalar type codec make get?).read literal = .ok v ↔
      (type.supportsEmpty && Text.sameWord literal ['0', 'x']) = false ∧
        ∃ a, codec.read literal = .ok a ∧ make a = v := by
    intro literal
    rw [Codec.scalar]
    dsimp only
    split
    · next hempty => simp [hempty, hv.symm]
    · next hempty => simp only [hempty, map_ok_iff, true_and]
  intro literal
  simp only [hread]
  constructor
  · rintro ⟨-, a, ha, rfl⟩
    obtain ⟨s, hs, ha⟩ := (h a literal).1 ha
    exact ⟨s, hs, hregular List.mem_cons_self, a, ha, rfl⟩
  · rintro ⟨s, hs, -, a, ha, rfl⟩
    exact ⟨hregular (Quoted.mem_of_unquote hs), a, (h a literal).2 ⟨s, hs, ha⟩, rfl⟩

theorem ReadsQuoted.parse_iff {a : α} (h : codec.ReadsQuoted a) (t : Text) :
    codec.parse t = .ok (some a) ↔
      ∃ s, unquote (Text.trim t) = some s ∧ codec.parse (quote s) = .ok (some a) := by
  have hquote : ∀ s, codec.parse (quote s) = .ok (some a) ↔ codec.read (quote s) = .ok a := by
    intro s
    rw [parse_some_iff, (Scanner.scanned_quote s).trim_eq_self, Quoted.isNull_quote]
    exact and_iff_right rfl
  simp only [parse_some_iff, hquote, h (Text.trim t)]
  refine and_iff_right_of_imp ?_
  rintro ⟨s, hs, -⟩
  exact Quoted.isNull_of_unquote hs

theorem checkAscii_ok_iff {type : NativeType} {t u : Text} :
    checkAscii type t = .ok u ↔ t = u ∧ (type = .ascii → Text.isAscii u = true) := by
  rw [checkAscii]
  by_cases hcheck : type = .ascii → Text.isAscii t = true
  · rw [if_neg (by simpa using hcheck), Except.ok.injEq]
    exact ⟨fun h => ⟨h, h ▸ hcheck⟩, fun h => h.1⟩
  · rw [if_pos (by simpa using hcheck)]
    constructor
    · intro h
      cases h
    · rintro ⟨rfl, hascii⟩
      exact absurd hascii hcheck

/-- A literal denotes the text in its quotes. -/
theorem string_parse_iff {type : NativeType} {t : Text} {s : String} :
    (string type).parse t = .ok (some s) ↔
      unquote (Text.trim t) = some s.toList ∧ (type = .ascii → Text.isAscii s.toList = true) := by
  rw [parse_some_iff]
  simp only [string, bind_ok_iff, unquoted_ok_iff, checkAscii_ok_iff, Except.ok.injEq]
  constructor
  · rintro ⟨-, u, hu, _, ⟨rfl, hascii⟩, rfl⟩
    rw [String.toList_ofList]
    exact ⟨hu, hascii⟩
  · rintro ⟨hs, hascii⟩
    exact ⟨Quoted.isNull_of_unquote hs, s.toList, hs, s.toList, ⟨rfl, hascii⟩, String.ofList_toList⟩

/-- The codecs whose literals are strings. -/
inductive OfStrings : {α : Type} → Codec α → Prop where
  | string (type : NativeType) : OfStrings (string type)
  | inet : OfStrings inet
  | storedTime : OfStrings storedTime
  | localTime : OfStrings localTime
  | zone {R : Type} (regions : Regions R) (type : NativeType) : OfStrings (zone regions type)
  | document {α : Type} (format : DocumentFormat α) {type : NativeType} (h : type ≠ .blob) :
    OfStrings (documentOf format type)

theorem string_readsQuoted (type : NativeType) : ∀ s, (string type).ReadsQuoted s :=
  readsQuoted_of (fun _ => rfl) fun _ _ _ _ ha => ha

theorem storedTime_readsQuoted : ∀ nanos, storedTime.ReadsQuoted nanos := by
  refine readsQuoted_of (fun _ => rfl) fun literal other s nanos h => ?_
  dsimp only at h ⊢
  -- only what is said of a failure depends on the literal; how the text is read is not computed here
  generalize Integer.isLiteral (Text.trim s) = numeric at h ⊢
  generalize Integer.readWithin (-2 ^ 63) (2 ^ 63 - 1) (Text.trim s) = number at h ⊢
  generalize TimeOfDay.take (Text.trim s) = taken at h ⊢
  cases numeric with
  | true =>
    cases number with
    | none => cases h
    | some number => exact h
  | false =>
    rcases taken with _ | ⟨time, _ | ⟨c, rest⟩⟩
    · cases h
    · exact h
    · cases h

theorem document_readsQuoted (format : DocumentFormat α) {type : NativeType} (htype : type ≠ .blob) :
    ∀ a, (documentOf format type).ReadsQuoted a := by
  have hread : ∀ literal, (documentOf format type).read literal =
      unquoted (.native type) literal >>= fun s => readDocument format type (Utf8.encode s) := by
    intro literal
    simp only [documentOf, if_neg htype]
    cases unquoted (.native type) literal <;> rfl
  exact readsQuoted_of hread fun _ _ _ _ ha => ha

theorem OfStrings.readsQuoted (h : codec.OfStrings) : ∀ a, codec.ReadsQuoted a := by
  cases h with
  | string type => exact string_readsQuoted type
  | inet =>
    exact readsQuoted_of (fun _ => rfl) fun _ _ _ _ ha => orFail_ok_iff.2 (orFail_ok_iff.1 ha)
  | storedTime => exact storedTime_readsQuoted
  | localTime => exact .bind storedTime_readsQuoted fun _ => rfl
  | zone regions type => exact .bind (string_readsQuoted type) fun _ => rfl
  | document format htype => exact document_readsQuoted format htype

/-- Whatever stands in quotes is a string literal. It is the one that is written of its string if and only
if it is escaped, and so are exactly those that are taken whole where they stand in another literal.
Codecs of strings read the string of a literal, and all codecs that ask for quotes read of it what they
read of the literal that is written of its string. -/
theorem string_literals (t : Text) :
    (∀ s, unquote t = some s ↔
      ∃ inner, t = '\x27' :: (inner ++ ['\x27']) ∧ Quoted.undouble inner = s) ∧
    ((∀ s, unquote t = some s ↔ t = quote s) ↔ (Quoted.isQuoted t = true → isEscaped t = true)) ∧
    (∀ s, unquote t = some s →
      (isEscaped t = true ↔ t = quote s) ∧ (isEscaped t = true ↔ Scanner.Cut t)) ∧
    (∀ type s, (string type).parse t = .ok (some s) ↔
      unquote (Text.trim t) = some s.toList ∧ (type = .ascii → Text.isAscii s.toList = true)) ∧
    ∀ {α : Type} {codec : Codec α}, codec.OfStrings →
      (∀ a, codec.parse t = .ok (some a) ↔
        ∃ s, unquote (Text.trim t) = some s ∧ codec.parse (quote s) = .ok (some a)) ∧
      ∀ type make get? v, v ≠ .empty →
        ((scalar type codec make get?).parse t = .ok (some v) ↔
          ∃ s, unquote (Text.trim t) = some s ∧
            (scalar type codec make get?).parse (quote s) = .ok (some v)) := by
  refine ⟨fun _ => Quoted.unquote_eq_some_iff, Quoted.unquote_iff_quote,
    fun _ h => ⟨Quoted.isEscaped_iff h, (Scanner.cut_iff_isEscaped h).symm⟩,
    fun _ _ => string_parse_iff, fun hcodec => ⟨fun a => ?_, fun type make get? v hv => ?_⟩⟩
  · exact (hcodec.readsQuoted a).parse_iff t
  · exact (ReadsQuoted.scalar hcodec.readsQuoted type make get? hv).parse_iff t

/-- Quotes that are not doubled, next to some that are. -/
theorem string_literals_lone_quote :
    unquote "'''a'b'''".toList = some "'a'b'".toList ∧
      isEscaped "'''a'b'''".toList = false ∧ ¬ Scanner.Cut "'''a'b'''".toList ∧
      (string .text).parse " 'a'b' ".toList = .ok (some "a'b") ∧
      (ofNative .text).parse " 'a'b' ".toList = .ok (some (.text "a'b")) := by
  have hunquote : unquote "'''a'b'''".toList = some "'a'b'".toList := by decide
  have hescaped : isEscaped "'''a'b'''".toList = false := by decide
  have hlone : unquote (Text.trim " 'a'b' ".toList) = some "a'b".toList := by decide
  have hwritten : (ofNative .text).parse (quote "a'b".toList) = .ok (some (.text "a'b")) := by rfl
  obtain ⟨-, -, hsame, -, -⟩ := string_literals "'''a'b'''".toList
  obtain ⟨-, -, -, hstring, hcodecs⟩ := string_literals " 'a'b' ".toList
  obtain ⟨-, hscalar⟩ := hcodecs (.string .text)
  refine ⟨hunquote, hescaped, ?_, (hstring ..).2 ⟨hlone, by decide⟩, ?_⟩
  · rw [← (hsame _ hunquote).2, hescaped]
    exact Bool.false_ne_true
  · exact (hscalar .text .text Value.string? (.text "a'b") (by simp)).2 ⟨_, hlone, hwritten⟩

/-- A quote that stands alone: the literal is read as a string, as the one is in which the quote is
doubled, but not where it is the element of a list. -/
theorem lone_quote_differs :
    unquote "'a'b'".toList = some "a'b".toList ∧ quote "a'b".toList = "'a''b'".toList ∧
      (string .text).parse "'a'b'".toList = (string .text).parse "'a''b'".toList ∧
      Scanner.skipValue "'a'b'".toList = .ok ("'a'".toList, "b'".toList) ∧
      (ColumnType.list (.native .text) false).codec.parse "['a''b']".toList =
        .ok (some (.list [.text "a'b"])) ∧
      ∃ fault, (ColumnType.list (.native .text) false).codec.parse "['a'b']".toList = .error fault := by
  have helement : Codec.ReadsPart (ofNative .text) (quote "a'b".toList) (some (.text "a'b")) :=
    ⟨Scanner.scanned_quote _, by rfl⟩
  have hlist : (list (ofNative .text) false).read "['a''b']".toList = .ok (.list [.text "a'b"]) :=
    items_read _ _ _ _ .square (.last .nil .nil) (.cons helement .nil)
  have hfails : ((ColumnType.list (.native .text) false).codec.parse "['a'b']".toList).toBool = false := by
    decide +kernel
  have hparse := (parse_bracketed (list (ofNative .text) false) .square (quote "a'b".toList)).trans
    (congrArg (Except.map some) hlist)
  refine ⟨by decide, by decide, by rfl, by rfl, hparse, ?_⟩
  cases houtcome : (ColumnType.list (.native .text) false).codec.parse "['a'b']".toList with
  | ok _ =>
    rw [houtcome] at hfails
    cases hfails
  | error fault => exact ⟨fault, rfl⟩

end Codec

end Cql
