import Cql.Number.Integer
import Cql.Proofs.Blanks
import Mathlib.Algebra.Group.Nat.Defs

/-!
Integers as they are printed are read back, in the plain grammar and in the wide one. Zeros in front of
digits do not change the number.
-/

namespace Cql.Integer

/-- Decimal digits, at least one of them. -/
structure IsDigits (t : Text) : Prop where
  ne_nil : t ≠ []
  all : ∀ c ∈ t, c.isDigit = true

theorem IsDigits.head {t : Text} (h : IsDigits t) : ∃ c rest, t = c :: rest ∧ c.isDigit = true := by
  cases t with
  | nil => exact absurd rfl h.ne_nil
  | cons c rest => exact ⟨c, rest, rfl, h.all c List.mem_cons_self⟩

theorem zero_isDigits : IsDigits ['0'] := ⟨List.cons_ne_nil _ _, List.forall_mem_singleton.2 rfl⟩

theorem ofDigits_append (n : Nat) (s t : Text) : ofDigits n (s ++ t) = ofDigits (ofDigits n s) t :=
  Nat.ofDigitChars_append n

theorem ofDigits_replicate (n k : Nat) : ofDigits n (List.replicate k '0') = 10 ^ k * n :=
  Nat.ofDigitChars_replicate_zero

theorem digits_isDigits (n : Nat) : IsDigits (digits n) :=
  ⟨Nat.toDigits_ne_nil, fun _ hc => Nat.isDigit_of_mem_toDigits (by decide) (by decide) hc⟩

theorem ofDigits_digits (n : Nat) : ofDigits 0 (digits n) = n := Nat.ofDigitChars_ten_toDigits

theorem length_digits_le_iff {n k : Nat} (hk : 0 < k) : (digits n).length ≤ k ↔ n < 10 ^ k :=
  Nat.length_toDigits_le_iff (by decide) hk

theorem digitValue_lt {c : Char} (hc : c.isDigit = true) : digitValue c < 10 := by
  simp only [Char.isDigit, Bool.and_eq_true, decide_eq_true_eq, ge_iff_le, UInt32.le_iff_toNat_le] at hc
  have hval : c.val.toNat = c.toNat := rfl
  have hnine : '9'.val.toNat = 57 := rfl
  rw [digitValue]
  omega

/-- So many digits denote a number below that power of ten; `n` stands in front of them. -/
theorem ofDigits_lt {t : Text} (ht : ∀ c ∈ t, c.isDigit = true) (n : Nat) :
    ofDigits n t < (n + 1) * 10 ^ t.length := by
  induction t generalizing n with
  | nil => simp [ofDigits]
  | cons c t ih =>
    obtain ⟨hc, hlater⟩ := List.forall_mem_cons.1 ht
    have hdigit := digitValue_lt hc
    calc ofDigits n (c :: t) = ofDigits (10 * n + digitValue c) t := rfl
      _ < (10 * n + digitValue c + 1) * 10 ^ t.length := ih hlater _
      _ ≤ (10 * (n + 1)) * 10 ^ t.length := Nat.mul_le_mul_right _ (by omega)
      _ = (n + 1) * 10 ^ (c :: t).length := by rw [List.length_cons, Nat.pow_succ]; ac_rfl

/-! ## Zeros in front -/

theorem padTo_isDigits {t : Text} (h : IsDigits t) (width : Nat) : IsDigits (padTo width t) := by
  refine ⟨fun hnil => h.ne_nil (List.append_eq_nil_iff.1 hnil).2, fun c hc => ?_⟩
  rcases List.mem_append.1 hc with hzero | hc
  · rw [List.eq_of_mem_replicate hzero]
    rfl
  · exact h.all c hc

theorem ofDigits_padTo (width : Nat) (t : Text) : ofDigits 0 (padTo width t) = ofDigits 0 t := by
  rw [padTo, ofDigits_append, ofDigits_replicate, Nat.mul_zero]

theorem length_padTo (width : Nat) (t : Text) : (padTo width t).length = max width t.length := by
  rw [padTo, List.length_append, List.length_replicate]
  omega

theorem length_padTo_digits {width n : Nat} (hwidth : 0 < width) (hn : n < 10 ^ width) :
    (padTo width (digits n)).length = width := by
  have := (length_digits_le_iff hwidth).2 hn
  rw [length_padTo]
  omega

/-! ## Reading what was printed -/

theorem readDigits_eq {t : Text} (h : IsDigits t) : readDigits t = some (ofDigits 0 t) := by
  rw [readDigits, if_pos]
  simp [h.ne_nil, List.all_eq_true.2 h.all]

/-- A digit is no sign. -/
theorem splitSign_cons {c : Char} (hc : c.isDigit = true) (rest : Text) :
    splitSign (c :: rest) = (false, c :: rest) := by
  rw [splitSign]
  all_goals
    rintro _ heq
    rw [(List.cons.inj heq).1] at hc
    exact absurd hc (by decide)

theorem splitSign_digits {t : Text} (h : IsDigits t) : splitSign t = (false, t) := by
  obtain ⟨c, rest, rfl, hc⟩ := h.head
  exact splitSign_cons hc rest

theorem read_digits {t : Text} (h : IsDigits t) : read t = some (ofDigits 0 t : Int) := by
  simp only [read, splitSign_digits h, readDigits_eq h]
  rfl

theorem print_eq (i : Int) :
    print i = if i < 0 then '-' :: digits i.natAbs else digits i.natAbs := rfl

theorem read_print (i : Int) : read (print i) = some i := by
  have hdigits := digits_isDigits i.natAbs
  rw [print_eq]
  split
  · next hneg =>
    simp only [read, splitSign, readDigits_eq hdigits, ofDigits_digits, if_true]
    show some (-(i.natAbs : Int)) = some i
    exact congrArg some (by omega)
  · next hpos =>
    rw [read_digits hdigits, ofDigits_digits]
    exact congrArg some (by omega)

theorem readWithin_print {low high i : Int} (hlow : low ≤ i) (hhigh : i ≤ high) :
    readWithin low high (print i) = some i := by
  rw [readWithin, read_print, Option.filter_some_pos]
  simp [hlow, hhigh]

theorem readUpTo_digits {high n : Nat} (h : n ≤ high) : readUpTo high (digits n) = some n := by
  have hdigits := digits_isDigits n
  have hplus : ∀ rest, digits n ≠ '+' :: rest := by
    intro rest heq
    exact absurd (hdigits.all '+' (heq ▸ List.mem_cons_self)) (by decide)
  rw [readUpTo, readDigits_eq hdigits, ofDigits_digits, Option.filter_some_pos]
  · simp [h]
  · exact hplus

/-- Digits are what the wide grammar takes for digits. -/
theorem readSeparated_digits {t : Text} (h : IsDigits t) :
    readSeparated t = some (ofDigits 0 t) := by
  obtain ⟨c, rest, rfl, hc⟩ := h.head
  have hfilter : (c :: rest).filter Char.isDigit = c :: rest := List.filter_eq_self.2 h.all
  have hall : ((c :: rest).all fun c => c.isDigit || c == '_') = true :=
    List.all_eq_true.2 fun d hd => by rw [h.all d hd]; rfl
  rw [readSeparated]
  · rw [if_pos hall, hfilter]
  · exact List.cons_ne_nil _ _
  · rintro _ heq
    rw [(List.cons.inj heq).1] at hc
    exact absurd hc (by decide)

theorem readWide_digits {t : Text} (h : IsDigits t) : readWide t = some (ofDigits 0 t : Int) := by
  obtain ⟨c, rest, rfl, hc⟩ := h.head
  rw [readWide]
  · rw [readSeparated_digits h]
    rfl
  all_goals
    rintro _ heq
    rw [(List.cons.inj heq).1] at hc
    exact absurd hc (by decide)

theorem readWide_minus {t : Text} (h : IsDigits t) :
    readWide ('-' :: t) = some (-(ofDigits 0 t : Int)) := by
  rw [readWide, readSeparated_digits h]
  rfl

theorem readWide_print (i : Int) : readWide (print i) = some i := by
  have hdigits := digits_isDigits i.natAbs
  rw [print_eq]
  split
  · next hneg =>
    rw [readWide_minus hdigits, ofDigits_digits]
    exact congrArg some (by omega)
  · next hpos =>
    rw [readWide_digits hdigits, ofDigits_digits]
    exact congrArg some (by omega)

/-! ## Literals -/

theorem isLiteral_digits {t : Text} (h : IsDigits t) : isLiteral t = true := by
  simp [isLiteral, splitSign_digits h, h.ne_nil, List.all_eq_true.2 h.all]

theorem isLiteral_print (i : Int) : isLiteral (print i) = true := by
  have hdigits := digits_isDigits i.natAbs
  rw [print_eq]
  split
  · simp [isLiteral, splitSign, hdigits.ne_nil, List.all_eq_true.2 hdigits.all]
  · exact isLiteral_digits hdigits

/-- A text with a mark among its characters, other than a sign in front, is no number. -/
theorem isLiteral_eq_false {c : Char} {t : Text} (hc : c.isDigit = false)
    (h : c ∈ (splitSign t).2) : isLiteral t = false := by
  rw [isLiteral, Bool.and_eq_false_iff]
  refine .inr (List.all_eq_false.2 ⟨c, h, ?_⟩)
  rw [hc]
  exact Bool.false_ne_true

theorem isNameChar_of_isDigit {c : Char} (h : c.isDigit = true) :
    Identifier.isNameChar c = true := by
  simp [Identifier.isNameChar, Char.isAlphanum, h]

theorem print_isNameChar {i : Int} : ∀ c ∈ print i, Identifier.isNameChar c = true := by
  intro c hc
  have hdigits := (digits_isDigits i.natAbs).all
  rw [print_eq] at hc
  split at hc
  · rcases List.mem_cons.1 hc with rfl | hc
    · decide
    · exact isNameChar_of_isDigit (hdigits c hc)
  · exact isNameChar_of_isDigit (hdigits c hc)

end Cql.Integer
