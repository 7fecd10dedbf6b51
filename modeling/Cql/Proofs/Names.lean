import Cql.Proofs.Blanks
import Cql.Text.Scanner

/-!
Names as they are written: the scanner ends exactly behind a name, and the written name denotes the name
it was written for.
-/

namespace Cql

theorem Scanner.consumed_append (front rest : Text) : consumed (front ++ rest) rest = front := by
  simp [consumed]

namespace Identifier

/-- Every double quote written twice. -/
def double (t : Text) : Text := t.flatMap fun c => if c = '"' then [c, c] else [c]

/-- The name between double quotes. -/
def quoted (t : Text) : Text := '"' :: double t ++ ['"']

theorem double_cons_quote (t : Text) : double ('"' :: t) = '"' :: '"' :: double t := rfl

theorem double_cons {c : Char} (hc : c ≠ '"') (t : Text) : double (c :: t) = c :: double t := by
  simp [double, hc]

theorem display_eq (name : String) :
    display name = if isPlain name then name.toList else quoted name.toList := rfl

theorem undouble_cons {c : Char} (hc : c ≠ '"') (t : Text) : undouble (c :: t) = c :: undouble t := by
  rw [undouble]
  exact fun _ h => absurd h hc

theorem undouble_double (t : Text) : undouble (double t) = t := by
  induction t with
  | nil => rfl
  | cons c t ih =>
    by_cases hc : c = '"'
    · subst hc
      rw [double_cons_quote, undouble, ih]
    · rw [double_cons hc, undouble_cons hc, ih]

/-- Letters in lower case, digits and underscores. -/
theorem isPlain_spec {name : String} (h : isPlain name = true) : name.toList ≠ [] ∧
    ∀ c ∈ name.toList, c.isLower = true ∨ c.isDigit = true ∨ c = '_' := by
  rw [isPlain] at h
  split at h
  · cases h
  · next c rest heq =>
    simp only [Bool.and_eq_true, List.all_eq_true, Bool.or_eq_true, beq_iff_eq, or_assoc] at h
    rw [heq]
    exact ⟨List.cons_ne_nil _ _, List.forall_mem_cons.2 ⟨.inl h.1.1, h.1.2⟩⟩

theorem isPlain_isNameChar {name : String} (h : isPlain name = true) :
    ∀ c ∈ name.toList, isNameChar c = true := by
  intro c hc
  rcases (isPlain_spec h).2 c hc with hlower | hdigit | rfl
  · have halpha : c.isAlpha = true := Bool.or_eq_true_iff.2 (.inr hlower)
    simp [isNameChar, Char.isAlphanum, halpha]
  · simp [isNameChar, Char.isAlphanum, hdigit]
  · rfl

theorem toLower_of_lower_or_digit {c : Char}
    (h : c.isLower = true ∨ c.isDigit = true ∨ c = '_') : c.toLower = c := by
  rcases toLower_cases c with heq | ⟨hupper, _⟩
  · exact heq
  · rcases h with h | h | rfl
    · unfold Char.isLower at h
      simp only [Bool.and_eq_true, decide_eq_true_eq, UInt32.le_iff_toNat_le, ge_iff_le] at h
      have hlow : 97 ≤ c.toNat := h.1
      omega
    · simp only [Char.isDigit, Bool.and_eq_true, decide_eq_true_eq, UInt32.le_iff_toNat_le,
        ge_iff_le] at h
      have hhigh : c.toNat ≤ 57 := h.2
      omega
    · rfl

theorem lower_plain {name : String} (h : isPlain name = true) :
    Text.lower name.toList = name.toList :=
  (List.map_congr_left fun c hc => toLower_of_lower_or_digit ((isPlain_spec h).2 c hc)).trans
    (List.map_id _)

/-- A written name denotes the name it was written for. -/
theorem read_display (name : String) : read (display name) = name := by
  rw [display_eq]
  split
  · next hplain =>
    have hread : read name.toList = String.ofList (Text.lower name.toList) := by
      rw [read]
      rintro rest heq
      have hquote := isPlain_isNameChar hplain '"' (heq ▸ List.mem_cons_self)
      exact absurd hquote (by decide)
    rw [hread, lower_plain hplain, String.ofList_toList]
  · have hlast : (double name.toList ++ ['"']).getLast? = some '"' := List.getLast?_concat
    show read ('"' :: (double name.toList ++ ['"'])) = name
    rw [read, hlast, List.dropLast_concat, undouble_double, String.ofList_toList]
    rfl

end Identifier

namespace Scanner

/-- A quote that is not followed by another one ends the name. -/
theorem afterQuotedName_double (t : Text) {rest : Text} (hrest : rest.head? ≠ some '"') :
    afterQuotedName (Identifier.double t ++ '"' :: rest) = some rest := by
  induction t with
  | nil =>
    rw [show Identifier.double [] = [] from rfl, List.nil_append]
    cases rest with
    | nil => rfl
    | cons c rest =>
      rw [afterQuotedName]
      rintro _ h
      rw [List.cons.injEq] at h
      exact hrest (by rw [List.head?_cons, h.1])
  | cons c t ih =>
    by_cases hc : c = '"'
    · subst hc
      rw [Identifier.double_cons_quote, List.cons_append, List.cons_append, afterQuotedName, ih]
    · rw [Identifier.double_cons hc, List.cons_append, afterQuotedName, ih]
      · exact fun _ h => absurd h hc
      · exact hc

/-- What stands before the quote that ends a name is a name with its quotes doubled. -/
theorem afterQuotedName_eq_some {t rest : Text} (h : afterQuotedName t = some rest) :
    ∃ name, t = Identifier.double name ++ '"' :: rest ∧ rest.head? ≠ some '"' := by
  fun_induction afterQuotedName t with
  | case1 => cases h
  | case2 next ih =>
    obtain ⟨name, rfl, hrest⟩ := ih h
    exact ⟨'"' :: name, by rw [Identifier.double_cons_quote]; rfl, hrest⟩
  | case3 next hnext =>
    cases h
    refine ⟨[], rfl, fun hquote => ?_⟩
    obtain ⟨more, hmore⟩ := List.head?_eq_some_iff.1 hquote
    exact hnext more hmore
  | case4 c next hdouble hquote ih =>
    obtain ⟨name, rfl, hrest⟩ := ih h
    exact ⟨c :: name, by rw [Identifier.double_cons hquote]; rfl, hrest⟩

theorem skipIdentifier_quoted (t : Text) {rest : Text} (hrest : rest.head? ≠ some '"') :
    skipIdentifier (Identifier.quoted t ++ rest) = .ok (Identifier.quoted t, rest) := by
  have hsplit : Identifier.quoted t ++ rest = '"' :: (Identifier.double t ++ '"' :: rest) := by
    simp [Identifier.quoted]
  rw [hsplit, skipIdentifier, afterQuotedName_double t hrest]
  dsimp only
  rw [← hsplit, consumed_append]

theorem skipIdentifier_bare {word rest : Text} (hne : word ≠ [])
    (hword : ∀ c ∈ word, Identifier.isNameChar c = true)
    (hrest : ∀ c, rest.head? = some c → Identifier.isNameChar c = false) :
    skipIdentifier (word ++ rest) = .ok (word, rest) := by
  cases word with
  | nil => exact absurd rfl hne
  | cons c word =>
    have hc : c ≠ '"' := fun h => by
      have := hword c List.mem_cons_self
      rw [h] at this
      exact absurd this (by decide)
    rw [skipIdentifier]
    · rw [Text.spanWhile_append hword hrest]
      rfl
    · rintro _ h
      rw [List.cons_append, List.cons.injEq] at h
      exact hc h.1

theorem skipIdentifier_display (name : String) {rest : Text}
    (hrest : ∀ c, rest.head? = some c → c ≠ '"' ∧ Identifier.isNameChar c = false) :
    skipIdentifier (Identifier.display name ++ rest) = .ok (Identifier.display name, rest) := by
  rw [Identifier.display_eq]
  split
  · next hplain =>
    exact skipIdentifier_bare (Identifier.isPlain_spec hplain).1
      (Identifier.isPlain_isNameChar hplain) fun c hc => (hrest c hc).2
  · exact skipIdentifier_quoted _ fun h => (hrest _ h).1 rfl

end Scanner

end Cql
