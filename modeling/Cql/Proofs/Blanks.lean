import Cql.Text.Identifier

/-!
Blanks, and the characters that are none: those of names, and the marks that stand between the parts of
a text.
-/

namespace Cql.Text

/-- Nothing but blanks. -/
def Blank (t : Text) : Prop := ∀ c ∈ t, isBlank c = true

instance (t : Text) : Decidable (Blank t) := List.decidableBAll (isBlank · = true) t

theorem Blank.nil : Blank [] := fun _ h => absurd h List.not_mem_nil

theorem Blank.of_cons {c : Char} {t : Text} (h : Blank (c :: t)) : isBlank c = true ∧ Blank t :=
  List.forall_mem_cons.1 h

theorem trimStart_append {s : Text} (hs : Blank s) (t : Text) :
    trimStart (s ++ t) = trimStart t := by
  induction s with
  | nil => rfl
  | cons c s ih =>
    obtain ⟨hc, hs⟩ := hs.of_cons
    rw [List.cons_append, trimStart, List.dropWhile_cons_of_pos hc]
    exact ih hs

theorem trimStart_blank {t : Text} (h : Blank t) : trimStart t = [] := by
  have happend := trimStart_append h []
  rwa [List.append_nil] at happend

/-- The blanks in front of a text. -/
theorem exists_blank_append (t : Text) : ∃ gap, Blank gap ∧ t = gap ++ trimStart t :=
  ⟨t.takeWhile isBlank, List.all_eq_true.1 List.all_takeWhile,
    List.takeWhile_append_dropWhile.symm⟩

theorem blank_of_trimStart {t : Text} (h : trimStart t = []) : Blank t := by
  obtain ⟨gap, hgap, ht⟩ := exists_blank_append t
  rw [ht, h, List.append_nil]
  exact hgap

theorem isBlank_of_trimStart {t rest : Text} {c : Char} (h : trimStart t = c :: rest) :
    isBlank c = false := by
  cases hc : isBlank c with
  | false => rfl
  | true =>
    have hagain := trimStart_trimStart t
    have hle := length_trimStart_le rest
    rw [h, trimStart, List.dropWhile_cons_of_pos hc] at hagain
    rw [trimStart, hagain, List.length_cons] at hle
    exact absurd hle (Nat.not_succ_le_self _)

theorem trimStart_cons {c : Char} (hc : isBlank c = false) (t : Text) :
    trimStart (c :: t) = c :: t := by
  rw [trimStart, List.dropWhile_cons_of_neg (by simp [hc])]

theorem trimEnd_append {t : Text} (ht : Blank t) (s : Text) : trimEnd (s ++ t) = trimEnd s := by
  have hreverse : Blank t.reverse := fun c hc => ht c (List.mem_reverse.1 hc)
  have hdrop := trimStart_append hreverse s.reverse
  rw [trimStart, trimStart] at hdrop
  rw [trimEnd, trimEnd, List.reverse_append, hdrop]

theorem trimEnd_eq_self {t : Text} (h : ∀ c, t.getLast? = some c → isBlank c = false) :
    trimEnd t = t := by
  rw [trimEnd]
  cases hreverse : t.reverse with
  | nil => rw [List.reverse_eq_nil_iff.1 hreverse]; rfl
  | cons c rest =>
    have hlast : t.getLast? = some c := by rw [← List.head?_reverse, hreverse, List.head?_cons]
    rw [List.dropWhile_cons_of_neg (by simp [h c hlast]), ← hreverse, List.reverse_reverse]

/-- Only what stands between the first and the last character that is no blank stays. -/
theorem trim_append {front core back : Text} (hfront : Blank front) (hback : Blank back)
    (hfirst : ∀ c, core.head? = some c → isBlank c = false)
    (hlast : ∀ c, core.getLast? = some c → isBlank c = false) :
    trim (front ++ (core ++ back)) = core := by
  rw [trim, trimStart_append hfront]
  cases core with
  | nil => rw [List.nil_append, trimStart_blank hback]; rfl
  | cons c core =>
    rw [List.cons_append, trimStart_cons (hfirst c rfl), ← List.cons_append, trimEnd_append hback,
      trimEnd_eq_self hlast]

theorem trim_eq_self {t : Text} (h : ∀ c ∈ t, isBlank c = false) : trim t = t := by
  have htrim := trim_append Blank.nil Blank.nil
    (fun c hc => h c (List.mem_of_mem_head? hc)) (fun c hc => h c (List.mem_of_getLast? hc))
  rwa [List.nil_append, List.append_nil] at htrim

/-- Blanks lie outside of the characters that are seen in ASCII. -/
theorem isBlank_eq_false {c : Char} (hlow : 0x21 ≤ c.toNat) (hhigh : c.toNat < 0x7F) :
    isBlank c = false := by
  simp only [isBlank, blankRanges, List.any_cons, List.any_nil, Bool.or_false, Bool.or_eq_false_iff,
    Bool.and_eq_false_iff, decide_eq_false_iff_not]
  omega

/-- Words with a character in one that is not in the other differ. -/
theorem sameWord_eq_false {s word : Text} {c : Char} (hc : c ∈ s) (hother : c.toLower ∉ lower word) :
    sameWord s word = false := by
  rw [sameWord, beq_eq_false_iff_ne]
  intro heq
  have hmem : c.toLower ∈ lower s := List.mem_map_of_mem hc
  rw [heq] at hmem
  exact hother hmem

/-- A longest match ends where a character fails. -/
theorem spanWhile_append {p : Char → Bool} {word rest : Text} (hword : ∀ c ∈ word, p c = true)
    (hrest : ∀ c, rest.head? = some c → p c = false) :
    spanWhile p (word ++ rest) = (word, rest) := by
  have hstop : rest.takeWhile p = [] ∧ rest.dropWhile p = rest := by
    cases rest with
    | nil => exact ⟨rfl, rfl⟩
    | cons c rest =>
      have hc := hrest c rfl
      exact ⟨List.takeWhile_cons_of_neg (by simp [hc]), List.dropWhile_cons_of_neg (by simp [hc])⟩
  rw [spanWhile, List.takeWhile_append_of_pos hword, List.dropWhile_append_of_pos hword, hstop.1,
    hstop.2, List.append_nil]

theorem mem_join {separator : Text} {parts : List Text} {c : Char}
    (h : c ∈ join separator parts) : c ∈ separator ∨ ∃ part ∈ parts, c ∈ part := by
  fun_induction join separator parts with
  | case1 => exact absurd h List.not_mem_nil
  | case2 t => exact .inr ⟨t, List.mem_cons_self, h⟩
  | case3 t ts _ ih =>
    rcases List.mem_append.1 h with h | h
    · rcases List.mem_append.1 h with h | h
      · exact .inr ⟨t, List.mem_cons_self, h⟩
      · exact .inl h
    · rcases ih h with h | ⟨part, hpart, hc⟩
      · exact .inl h
      · exact .inr ⟨part, List.mem_cons_of_mem _ hpart, hc⟩

end Cql.Text

namespace Cql.Identifier

/-- Letters in upper case lie 32 below those in lower case, and nothing else changes. -/
theorem toLower_cases (c : Char) :
    c.toLower = c ∨ (65 ≤ c.toNat ∧ c.toNat ≤ 90) ∧ c.toLower.toNat = c.toNat + 32 := by
  unfold Char.toLower
  split
  · next h =>
    have hbounds : 65 ≤ c.toNat ∧ c.toNat ≤ 90 := by simpa [UInt32.le_iff_toNat_le] using h
    have hdistance : 'a'.val - 'A'.val = 32 := by decide
    have hval : c.val.toNat = c.toNat := rfl
    refine .inr ⟨hbounds, ?_⟩
    show (c.val + ('a'.val - 'A'.val)).toNat = c.toNat + 32
    rw [hdistance, UInt32.toNat_add, hval]
    exact Nat.mod_eq_of_lt (Nat.lt_of_le_of_lt (Nat.add_le_add_right hbounds.2 32) (by decide))
  · exact .inl rfl

/-- Letters and digits by their code points. -/
theorem isAlphanum_iff {c : Char} : c.isAlphanum = true ↔
    65 ≤ c.toNat ∧ c.toNat ≤ 90 ∨ 97 ≤ c.toNat ∧ c.toNat ≤ 122 ∨ 48 ≤ c.toNat ∧ c.toNat ≤ 57 := by
  unfold Char.isAlphanum Char.isAlpha Char.isUpper Char.isLower Char.isDigit
  simp only [Bool.or_eq_true, Bool.and_eq_true, decide_eq_true_eq, UInt32.le_iff_toNat_le, ge_iff_le,
    or_assoc]
  exact Iff.rfl

theorem isNameChar_bounds {c : Char} (h : isNameChar c = true) : 0x21 ≤ c.toNat ∧ c.toNat < 0x7F := by
  simp only [isNameChar, Bool.or_eq_true, beq_iff_eq] at h
  rcases h with ((((h | rfl) | rfl) | rfl) | rfl) | rfl
  · rw [isAlphanum_iff] at h
    omega
  all_goals decide

theorem isBlank_of_isNameChar {c : Char} (h : isNameChar c = true) : Text.isBlank c = false :=
  have hbounds := isNameChar_bounds h
  Text.isBlank_eq_false hbounds.1 hbounds.2

end Cql.Identifier
