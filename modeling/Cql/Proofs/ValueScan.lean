import Cql.Proofs.Spacing

/-!
The scanner of values ends exactly behind a literal: behind a run of name characters, a string, or
brackets around values, whatever stands inside of strings.
-/

namespace Cql.Scanner

open Literal (isOpening isClosing isSeparator)

/-! ## Characters -/

/-- What may stand behind a value: nothing, or a blank, a separator or a closing bracket. -/
def Ends (rest : Text) : Prop := ∀ c, rest.head? = some c →
  Text.isBlank c = true ∨ isSeparator c = true ∨ isClosing c = true

theorem Ends.nil : Ends [] := fun _ h => by cases h

theorem Ends.blank_append {gap rest : Text} (hgap : Text.Blank gap) (hrest : Ends rest) :
    Ends (gap ++ rest) := by
  cases gap with
  | nil => exact hrest
  | cons c gap =>
    intro d hd
    cases hd
    exact .inl hgap.of_cons.1

theorem Ends.cons {c : Char} {rest : Text} (hc : isSeparator c = true ∨ isClosing c = true) :
    Ends (c :: rest) := by
  intro d hd
  cases hd
  exact .inr hc

theorem Ends.isNameChar {rest : Text} (h : Ends rest) {c : Char} (hc : rest.head? = some c) :
    Identifier.isNameChar c = false := by
  rw [Bool.eq_false_iff]
  intro hname
  rcases h c hc with hblank | hseparator | hclosing
  · rw [Identifier.isBlank_of_isNameChar hname] at hblank
    cases hblank
  · rw [Literal.isSeparator_eq_false hname] at hseparator
    cases hseparator
  · rw [Literal.isClosing_eq_false hname] at hclosing
    cases hclosing

theorem Ends.not_mark {rest : Text} (h : Ends rest) {mark : Char} (hmark : mark = '\x27' ∨ mark = '"') :
    rest.head? ≠ some mark := by
  intro hhead
  rcases hmark with rfl | rfl
  · exact absurd (h _ hhead) (by decide)
  · exact absurd (h _ hhead) (by decide)

theorem open?_eq_none {c : Char} (h : isOpening c = false) (d : Depth) : d.open? c = none := by
  simp only [isOpening, Bool.or_eq_false_iff, beq_eq_false_iff_ne] at h
  rw [Depth.open?, if_neg h.2, if_neg h.1.2, if_neg h.1.1]

theorem closes?_eq_none {c : Char} (h : isClosing c = false) (d : Depth) : d.closes? c = none := by
  simp only [isClosing, Bool.or_eq_false_iff, beq_eq_false_iff_ne] at h
  rw [Depth.closes?, if_neg h.2, if_neg h.1.2, if_neg h.1.1]

theorem closes?_none {c : Char} (h : isClosing c = true) : Depth.none.closes? c = some 0 := by
  simp only [isClosing, Bool.or_eq_true, beq_iff_eq] at h
  rcases h with (rfl | rfl) | rfl <;> rfl

/-- An opening bracket and the one that closes it. -/
inductive Brackets : Char → Char → Prop where
  | round : Brackets '(' ')'
  | square : Brackets '[' ']'
  | curly : Brackets '\x7b' '\x7d'

theorem Brackets.depth {o c : Char} (h : Brackets o c) (d : Depth) : ∃ inner k,
    d.open? o = some inner ∧ inner.isNone = false ∧ inner.closes? c = some (k + 1) ∧
      inner.close c = d := by
  cases h with
  | round => exact ⟨_, d.round, rfl, by simp [Depth.isNone], rfl, rfl⟩
  | square => exact ⟨_, d.square, rfl, by simp [Depth.isNone], rfl, rfl⟩
  | curly => exact ⟨_, d.curly, rfl, by simp [Depth.isNone], rfl, rfl⟩

theorem Brackets.marks {o c : Char} (h : Brackets o c) :
    isOpening o = true ∧ isClosing c = true ∧ o ≠ '\x27' ∧ c ≠ '\x27' ∧ Text.isBlank o = false ∧
      Text.isBlank c = false ∧ isClosing o = false := by
  cases h <;> decide

/-! ## Inside of brackets -/

/-- Neither a quote nor a bracket. -/
def Plain (t : Text) : Prop := ∀ c ∈ t, c ≠ '\x27' ∧ isOpening c = false ∧ isClosing c = false

instance (t : Text) : Decidable (Plain t) :=
  List.decidableBAll (fun c => c ≠ '\x27' ∧ isOpening c = false ∧ isClosing c = false) t

/-- A text that the scanner passes over where a bracket is open. -/
def Passes (t : Text) : Prop := ∀ d : Depth, d.isNone = false → ∀ rest, Ends rest →
  afterValue d false (t ++ rest) = afterValue d false rest

/-- A character outside of strings that is no quote. -/
theorem afterValue_outside (d : Depth) {c : Char} (hc : c ≠ '\x27') (rest : Text) :
    afterValue d false (c :: rest) =
      match d.open? c with
      | some d => afterValue d false rest
      | none =>
        match d.closes? c with
        | some 0 => some (c :: rest)
        | some (_ + 1) => if (d.close c).isNone then some rest else afterValue (d.close c) false rest
        | none =>
          if d.isNone && !Identifier.isNameChar c then some (c :: rest)
          else afterValue d false rest := by
  rw [afterValue.eq_def]
  exact (if_neg Bool.false_ne_true).trans (if_neg hc)

theorem afterValue_open (d : Depth) (rest : Text) :
    afterValue d false ('\x27' :: rest) = afterValue d true rest := by
  rw [afterValue.eq_def]
  rfl

theorem afterValue_inside (d : Depth) {c : Char} (hc : c ≠ '\x27') (rest : Text) :
    afterValue d true (c :: rest) = afterValue d true rest := by
  rw [afterValue.eq_def]
  exact (if_pos rfl).trans (if_neg hc)

theorem afterValue_doubled (d : Depth) (rest : Text) :
    afterValue d true ('\x27' :: '\x27' :: rest) = afterValue d true rest := by
  rw [afterValue.eq_def]
  rfl

theorem afterValue_last (d : Depth) {rest : Text} (hrest : rest.head? ≠ some '\x27') :
    afterValue d true ('\x27' :: rest) =
      if d.isNone then some rest else afterValue d false rest := by
  rw [afterValue.eq_def]
  cases rest with
  | nil =>
    have hnil : afterValue d false [] = if d.isNone then some [] else none := by
      rw [afterValue.eq_def]
      cases d.isNone <;> rfl
    rw [hnil]
    cases d.isNone <;> rfl
  | cons c rest =>
    have hc : c ≠ '\x27' := fun h => hrest (by rw [h]; rfl)
    exact if_neg hc

theorem afterValue_plain {d : Depth} (hd : d.isNone = false) {t : Text} (ht : Plain t) (rest : Text) :
    afterValue d false (t ++ rest) = afterValue d false rest := by
  induction t with
  | nil => rfl
  | cons c t ih =>
    obtain ⟨⟨hquote, hopening, hclosing⟩, ht⟩ := List.forall_mem_cons.1 ht
    rw [List.cons_append, afterValue_outside d hquote, open?_eq_none hopening,
      closes?_eq_none hclosing, hd]
    exact ih ht

theorem Plain.passes {t : Text} (h : Plain t) : Passes t := fun _ hd rest _ =>
  afterValue_plain hd h rest

/-- A string ends with its last quote, and with it the value if no bracket is open. -/
theorem afterValue_string (d : Depth) (t : Text) {rest : Text} (hrest : rest.head? ≠ some '\x27') :
    afterValue d true (Quoted.double t ++ '\x27' :: rest) =
      if d.isNone then some rest else afterValue d false rest := by
  induction t with
  | nil => exact afterValue_last d hrest
  | cons c t ih =>
    by_cases hc : c = '\x27'
    · subst hc
      rw [Quoted.double_cons_quote, List.cons_append, List.cons_append, afterValue_doubled, ih]
    · rw [Quoted.double_cons hc, List.cons_append, afterValue_inside d hc, ih]

/-- Brackets end with the bracket that closes them, and with it the value if no other one is open. -/
theorem afterValue_brackets {o c : Char} (hbrackets : Brackets o c) {inner : Text}
    (hinner : Passes inner) (d : Depth) (rest : Text) :
    afterValue d false (o :: (inner ++ c :: rest)) =
      if d.isNone then some rest else afterValue d false rest := by
  obtain ⟨deeper, k, hopen, hdeeper, hcloses, hclose⟩ := hbrackets.depth d
  obtain ⟨_, hclosing, hquote, hquote', _⟩ := hbrackets.marks
  have hnoOpening : isOpening c = false := by cases hbrackets <;> rfl
  rw [afterValue_outside d hquote, hopen]
  dsimp only
  rw [hinner deeper hdeeper _ (Ends.cons (.inr hclosing)), afterValue_outside deeper hquote',
    open?_eq_none hnoOpening, hcloses]
  dsimp only
  rw [hclose]

/-! ## Values -/

/-- The first character is neither a blank nor a closing bracket. -/
def Starts (t : Text) : Prop := ∃ c rest, t = c :: rest ∧ Text.isBlank c = false ∧ isClosing c = false

theorem Starts.append {t : Text} (h : Starts t) (rest : Text) : Starts (t ++ rest) := by
  obtain ⟨c, more, rfl, hc⟩ := h
  exact ⟨c, more ++ rest, rfl, hc⟩

theorem Starts.trimStart {t : Text} (h : Starts t) {gap : Text} (hgap : Text.Blank gap) :
    Text.trimStart (gap ++ t) = t := by
  obtain ⟨c, more, rfl, hc, _⟩ := h
  rw [Text.trimStart_append hgap, Text.trimStart_cons hc]

/-- A text that the scanner takes as one value, wherever it stands. -/
structure Scanned (t : Text) : Prop where
  head : Starts t
  last : ∀ c, t.getLast? = some c → Text.isBlank c = false
  passes : Passes t
  ends : ∀ rest, Ends rest → afterValue .none false (t ++ rest) = some rest

theorem Scanned.skipValue_append {t rest : Text} (h : Scanned t) (hrest : Ends rest) :
    skipValue (t ++ rest) = .ok (t, rest) := by
  have hends := h.ends rest hrest
  have hconsumed := consumed_append t rest
  obtain ⟨c, more, rfl, hblank, _⟩ := h.head
  have hlength : rest.length ≠ ((c :: more) ++ rest).length := by
    rw [List.length_append, List.length_cons]
    omega
  rw [List.cons_append] at hends hlength hconsumed ⊢
  rw [skipValue, hblank, if_neg Bool.false_ne_true, hends]
  dsimp only
  rw [if_neg hlength, hconsumed]

theorem skipValue_ok {s value rest : Text} (h : skipValue s = .ok (value, rest)) :
    afterValue .none false s = some rest ∧ value = consumed s rest := by
  unfold skipValue at h
  split at h
  · cases h
  · split at h
    · cases h
    · split at h
      · cases h
      · next hscan =>
        split at h
        · cases h
        · cases h
          exact ⟨hscan, rfl⟩

/-- A text that is taken whole where it stands as a value in a literal. -/
def Cut (t : Text) : Prop := ∀ rest, Ends rest → skipValue (t ++ rest) = .ok (t, rest)

theorem Scanned.cut {t : Text} (h : Scanned t) : Cut t := fun _ => h.skipValue_append

theorem Cut.starts {t : Text} (h : Cut t) : Starts t := by
  have hskip := h [] .nil
  rw [List.append_nil] at hskip
  cases t with
  | nil => cases hskip
  | cons c t =>
    rw [skipValue] at hskip
    split at hskip
    · cases hskip
    · next hblank =>
      refine ⟨c, t, rfl, Bool.eq_false_iff.2 hblank, Bool.eq_false_iff.2 fun hclosing => ?_⟩
      have hquote : c ≠ '\x27' := by
        rintro rfl
        cases hclosing
      have hopening : isOpening c = false := by
        simp only [isClosing, Bool.or_eq_true, beq_iff_eq] at hclosing
        rcases hclosing with (rfl | rfl) | rfl <;> rfl
      rw [afterValue_outside _ hquote, open?_eq_none hopening, closes?_none hclosing] at hskip
      dsimp only at hskip
      rw [if_pos rfl] at hskip
      cases hskip

theorem Scanned.trim_append {t front back : Text} (h : Scanned t) (hfront : Text.Blank front)
    (hback : Text.Blank back) : Text.trim (front ++ (t ++ back)) = t := by
  refine Text.trim_append hfront hback ?_ h.last
  obtain ⟨c, rest, rfl, hblank, _⟩ := h.head
  intro d hd
  cases hd
  exact hblank

theorem Scanned.trim_eq_self {t : Text} (h : Scanned t) : Text.trim t = t := by
  have htrim := h.trim_append Text.Blank.nil Text.Blank.nil
  rwa [List.nil_append, List.append_nil] at htrim

theorem afterValue_ends {rest : Text} (h : Ends rest) : afterValue .none false rest = some rest := by
  cases rest with
  | nil => rfl
  | cons c rest =>
    have hquote : c ≠ '\x27' := fun heq => h.not_mark (.inl rfl) (by rw [heq]; rfl)
    have hname := h.isNameChar (c := c) rfl
    have hopening : isOpening c = false := by
      rcases h c rfl with hc | hc | hc
      · rw [Bool.eq_false_iff]
        intro hopening
        simp only [isOpening, Bool.or_eq_true, beq_iff_eq] at hopening
        rcases hopening with (rfl | rfl) | rfl <;> exact absurd hc (by decide)
      · simp only [isSeparator, Bool.or_eq_true, beq_iff_eq] at hc
        rcases hc with rfl | rfl <;> rfl
      · simp only [isClosing, Bool.or_eq_true, beq_iff_eq] at hc
        rcases hc with (rfl | rfl) | rfl <;> rfl
    rw [afterValue_outside _ hquote, open?_eq_none hopening]
    cases hclosing : isClosing c with
    | true => rw [closes?_none hclosing]
    | false =>
      rw [closes?_eq_none hclosing, hname]
      rfl

theorem plain_names {t : Text} (h : ∀ c ∈ t, Identifier.isNameChar c = true) : Plain t := fun c hc =>
  ⟨Literal.ne_of_isNameChar (h c hc) rfl, Literal.isOpening_eq_false (h c hc),
    Literal.isClosing_eq_false (h c hc)⟩

theorem scanned_names {t : Text} (hne : t ≠ []) (hall : ∀ c ∈ t, Identifier.isNameChar c = true) :
    Scanned t where
  head := by
    obtain ⟨c, rest, rfl⟩ := List.exists_cons_of_ne_nil hne
    have hc := hall c List.mem_cons_self
    exact ⟨c, rest, rfl, Identifier.isBlank_of_isNameChar hc, Literal.isClosing_eq_false hc⟩
  last c hc := Identifier.isBlank_of_isNameChar (hall c (List.mem_of_getLast? hc))
  passes := (plain_names hall).passes
  ends rest hrest := by
    have hplain := plain_names hall
    clear hne
    induction t with
    | nil => exact afterValue_ends hrest
    | cons c t ih =>
      obtain ⟨⟨hquote, hopening, hclosing⟩, ht⟩ := List.forall_mem_cons.1 hplain
      obtain ⟨hc, hnames⟩ := List.forall_mem_cons.1 hall
      rw [List.cons_append, afterValue_outside _ hquote, open?_eq_none hopening,
        closes?_eq_none hclosing, hc]
      exact ih hnames ht

theorem scanned_quote (t : Text) : Scanned (Quoted.quote t) where
  head := ⟨'\x27', _, Quoted.quote_eq t, by decide, by decide⟩
  last c hc := by
    rw [Quoted.quote_eq, ← List.cons_append, List.getLast?_concat] at hc
    cases hc
    decide
  passes d hd rest hrest := by
    rw [Quoted.quote_eq, List.cons_append, List.append_assoc, List.singleton_append, afterValue_open,
      afterValue_string d t (hrest.not_mark (.inl rfl)), hd, if_neg Bool.false_ne_true]
  ends rest hrest := by
    rw [Quoted.quote_eq, List.cons_append, List.append_assoc, List.singleton_append, afterValue_open,
      afterValue_string .none t (hrest.not_mark (.inl rfl))]
    rfl

theorem Brackets.scanned {o c : Char} (h : Brackets o c) {inner : Text} (hinner : Passes inner) :
    Scanned (o :: (inner ++ [c])) where
  head := ⟨o, _, rfl, h.marks.2.2.2.2.1, h.marks.2.2.2.2.2.2⟩
  last d hd := by
    rw [← List.cons_append, List.getLast?_concat] at hd
    cases hd
    exact h.marks.2.2.2.2.2.1
  passes d hd rest _ := by
    rw [List.cons_append, List.append_assoc, List.singleton_append,
      afterValue_brackets h hinner, hd, if_neg Bool.false_ne_true]
  ends rest _ := by
    rw [List.cons_append, List.append_assoc, List.singleton_append, afterValue_brackets h hinner]
    rfl

end Cql.Scanner
