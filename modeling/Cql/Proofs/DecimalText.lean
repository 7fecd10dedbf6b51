import Cql.Number.Decimal
import Cql.Proofs.Integers
import Mathlib.Algebra.Group.Int.Defs

/-!
The printed form of a decimal number is read back as the same number. Its form is kept as well, except
that zeros in front of the point become digits, and that zero loses its places.
-/

namespace Cql

theorem Integer.read_signed (k : Int) : read (signed k) = some k := by
  rw [signed]
  split
  · exact read_print k
  · next hpos =>
    have hdigits := digits_isDigits k.natAbs
    rw [print_eq, if_neg hpos]
    simp only [read, splitSign, readDigits_eq hdigits, ofDigits_digits, Bool.false_eq_true, if_false]
    show some (k.natAbs : Int) = some k
    exact congrArg some (by omega)

namespace Decimal

/-- Two forms of one number. -/
def Same (d e : Decimal) : Prop :=
  d.unscaled * 10 ^ (e.scale - d.scale).toNat = e.unscaled * 10 ^ (d.scale - e.scale).toNat

theorem Same.refl (d : Decimal) : d.Same d := rfl

/-- Digits with their sign. -/
def withMinus (negative : Bool) (t : Text) : Text := if negative then '-' :: t else t

theorem readWide_withMinus (negative : Bool) {t : Text} (h : Integer.IsDigits t) :
    Integer.readWide (withMinus negative t) =
      some (if negative then -(Integer.ofDigits 0 t : Int) else Integer.ofDigits 0 t) := by
  cases negative with
  | true => exact Integer.readWide_minus h
  | false => exact Integer.readWide_digits h

theorem withMinus_append (negative : Bool) (s t : Text) :
    withMinus negative (s ++ t) = withMinus negative s ++ t := by
  cases negative <;> rfl

theorem mem_withMinus {negative : Bool} {t : Text} (h : Integer.IsDigits t) {c : Char}
    (hc : c ∈ withMinus negative t) : c.isDigit = true ∨ c = '-' := by
  cases negative with
  | true => exact (List.mem_cons.1 hc).elim .inr fun hc => .inl (h.all c hc)
  | false => exact .inl (h.all c hc)

/-- Digits and their sign are none of the marks at which a numeral is cut. -/
theorem not_mark {c : Char} (h : c.isDigit = true ∨ c = '-') : c ≠ 'e' ∧ c ≠ 'E' ∧ c ≠ '.' := by
  rcases h with h | rfl
  · refine ⟨?_, ?_, ?_⟩
    all_goals
      rintro rfl
      exact absurd h (by decide)
  · decide

theorem filter_digits {t : Text} (h : ∀ c ∈ t, c.isDigit = true) : t.filter (· != '_') = t := by
  refine List.filter_eq_self.2 fun c hc => bne_iff_ne.2 ?_
  rintro rfl
  exact absurd (h _ hc) (by decide)

/-- How digits behind the point are written. -/
def PointDigits (trail point : Text) : Prop := trail = [] ∧ point = [] ∨ point = '.' :: trail

theorem PointDigits.drop {trail point : Text} (h : PointDigits trail point) :
    point.drop 1 = trail := by
  rcases h with ⟨rfl, rfl⟩ | rfl <;> rfl

theorem PointDigits.head {trail point : Text} (h : PointDigits trail point) :
    ∀ c, point.head? = some c → (c != '.') = false := by
  intro c hc
  rcases h with ⟨-, rfl⟩ | rfl
  · cases hc
  · cases hc
    rfl

theorem PointDigits.mem {trail point : Text} (h : PointDigits trail point)
    (htrail : ∀ c ∈ trail, c.isDigit = true) {c : Char} (hc : c ∈ point) :
    c.isDigit = true ∨ c = '.' := by
  rcases h with ⟨-, rfl⟩ | rfl
  · exact absurd hc List.not_mem_nil
  · exact (List.mem_cons.1 hc).elim .inr fun hc => .inl (htrail c hc)

/-- How an exponent is written. -/
def ExponentText (k : Int) (t : Text) : Prop :=
  k = 0 ∧ t = [] ∨ t = 'e' :: signed k ∨ t = 'E' :: signed k

theorem ExponentText.head {k : Int} {t : Text} (h : ExponentText k t) :
    ∀ c, t.head? = some c → (c != 'e' && c != 'E') = false := by
  intro c hc
  rcases h with ⟨-, rfl⟩ | rfl | rfl
  · cases hc
  · cases hc
    rfl
  · cases hc
    rfl

/-- A numeral is cut at its exponent. -/
theorem span_exponent (negative : Bool) {lead trail point exponent : Text} {k : Int}
    (hlead : Integer.IsDigits lead) (htrail : ∀ c ∈ trail, c.isDigit = true)
    (hpoint : PointDigits trail point) (hexponent : ExponentText k exponent) :
    Text.spanWhile (fun c => c != 'e' && c != 'E') (withMinus negative lead ++ point ++ exponent) =
      (withMinus negative lead ++ point, exponent) := by
  refine Text.spanWhile_append (fun c hc => ?_) hexponent.head
  have hother : c ≠ 'e' ∧ c ≠ 'E' := by
    rcases List.mem_append.1 hc with hc | hc
    · obtain ⟨hlower, hupper, -⟩ := not_mark (mem_withMinus hlead hc)
      exact ⟨hlower, hupper⟩
    · rcases hpoint.mem htrail hc with hdigit | rfl
      · obtain ⟨hlower, hupper, -⟩ := not_mark (.inl hdigit)
        exact ⟨hlower, hupper⟩
      · decide
  simp [hother]

/-- Digits in front of the point and behind it are one number, the scale of which is the number of
digits behind the point less the exponent. -/
theorem read_parts (negative : Bool) {lead trail point exponent : Text} {k : Int}
    (hlead : Integer.IsDigits lead) (htrail : ∀ c ∈ trail, c.isDigit = true)
    (hpoint : PointDigits trail point) (hexponent : ExponentText k exponent)
    (hlow : leastScale ≤ trail.length - k) (hhigh : trail.length - k ≤ greatestScale) :
    read (withMinus negative lead ++ point ++ exponent) =
      some ⟨if negative then -(Integer.ofDigits 0 (lead ++ trail) : Int)
        else Integer.ofDigits 0 (lead ++ trail), trail.length - k⟩ := by
  have hdigits : Integer.IsDigits (lead ++ trail) :=
    ⟨List.append_ne_nil_of_left_ne_nil hlead.ne_nil _, List.forall_mem_append.2 ⟨hlead.all, htrail⟩⟩
  have hpointEnd : Text.spanWhile (· != '.') (withMinus negative lead ++ point) =
      (withMinus negative lead, point) :=
    Text.spanWhile_append (fun c hc => bne_iff_ne.2 (not_mark (mem_withMinus hlead hc)).2.2)
      hpoint.head
  rw [read, span_exponent negative hlead htrail hpoint hexponent]
  simp only [Option.bind_eq_bind, Option.bind_some, hpointEnd]
  rw [hpoint.drop, ← withMinus_append, readWide_withMinus negative hdigits, filter_digits htrail]
  simp only [Option.bind_some]
  rcases hexponent with ⟨rfl, rfl⟩ | rfl | rfl
  · exact if_pos ⟨hlow, hhigh⟩
  · dsimp only
    rw [Integer.read_signed, Option.bind_some, if_pos ⟨hlow, hhigh⟩]
  · dsimp only
    rw [Integer.read_signed, Option.bind_some, if_pos ⟨hlow, hhigh⟩]

/-- A whole number as it is read. -/
theorem read_whole (negative : Bool) {t : Text} (h : Integer.IsDigits t) :
    read (withMinus negative t) =
      some ⟨if negative then -(Integer.ofDigits 0 t : Int) else Integer.ofDigits 0 t, 0⟩ := by
  have hread := read_parts negative h (fun _ hc => absurd hc List.not_mem_nil) (.inl ⟨rfl, rfl⟩)
    (.inl ⟨rfl, rfl⟩) (by decide) (by decide)
  simp only [List.append_nil] at hread
  exact hread

/-- Digits with one of them before the point are read with their exponent. -/
theorem read_leadingDigit (negative : Bool) {t : Text} (h : Integer.IsDigits t) {s : Int}
    (hlow : leastScale ≤ s) (hhigh : s ≤ greatestScale) :
    read (withMinus negative ((leadingDigit t (-s)).1 ++ 'E' :: signed (leadingDigit t (-s)).2)) =
      some ⟨if negative then -(Integer.ofDigits 0 t : Int) else Integer.ofDigits 0 t, s⟩ := by
  obtain ⟨c, rest, rfl, hc⟩ := h.head
  have hlead : Integer.IsDigits [c] := ⟨List.cons_ne_nil _ _, List.forall_mem_singleton.2 hc⟩
  have htrail : ∀ d ∈ rest, d.isDigit = true := fun d hd => h.all d (List.mem_cons_of_mem c hd)
  have hscale : (rest.length : Int) - (-s + rest.length) = s := by omega
  have hread : ∀ point, PointDigits rest point →
      read (withMinus negative [c] ++ point ++ 'E' :: signed (-s + rest.length)) =
        some ⟨if negative then -(Integer.ofDigits 0 (c :: rest) : Int)
          else Integer.ofDigits 0 (c :: rest), s⟩ := by
    intro point hpoint
    have hparts := read_parts negative hlead htrail hpoint (.inr (.inr rfl))
      (hscale.symm ▸ hlow) (hscale.symm ▸ hhigh)
    rw [hscale] at hparts
    exact hparts
  cases rest with
  | nil =>
    have hparts := hread [] (.inl ⟨rfl, rfl⟩)
    rw [List.append_nil, List.length_nil, Int.natCast_zero, Int.add_zero] at hparts
    rw [withMinus_append]
    exact hparts
  | cons d rest =>
    have hparts := hread ('.' :: d :: rest) (.inr rfl)
    rw [← withMinus_append, ← withMinus_append] at hparts
    exact hparts

/-- Digits with a point among them or before them, or with zeros behind them. -/
theorem positional_parts {t : Text} (h : Integer.IsDigits t) (k : Int) :
    ∃ lead trail point, positional t k = lead ++ point ∧ Integer.IsDigits lead ∧
      (∀ c ∈ trail, c.isDigit = true) ∧ PointDigits trail point ∧ trail.length = (-k).toNat ∧
      Integer.ofDigits 0 (lead ++ trail) = Integer.ofDigits 0 t * 10 ^ k.toNat := by
  have hzeros : ∀ n, ∀ c ∈ List.replicate n '0', c.isDigit = true := by
    intro n c hc
    rw [List.eq_of_mem_replicate hc]
    rfl
  rw [positional]
  by_cases hk : 0 ≤ k
  · refine ⟨t ++ List.replicate k.toNat '0', [], [], ?_, ?_, ?_, .inl ⟨rfl, rfl⟩, ?_, ?_⟩
    · rw [if_pos hk, List.append_nil]
    · exact ⟨List.append_ne_nil_of_left_ne_nil h.ne_nil _, List.forall_mem_append.2 ⟨h.all, hzeros _⟩⟩
    · exact fun _ hc => absurd hc List.not_mem_nil
    · rw [List.length_nil]
      omega
    · rw [List.append_nil, Integer.ofDigits_append, Integer.ofDigits_replicate, Nat.mul_comm]
  · have hpower : 10 ^ k.toNat = 1 := by rw [show k.toNat = 0 by omega, Nat.pow_zero]
    rw [if_neg hk, hpower, Nat.mul_one]
    generalize (-k).toNat = places
    by_cases hinside : places < t.length
    · refine ⟨t.take (t.length - places), t.drop (t.length - places), _, if_pos hinside, ⟨?_, ?_⟩, ?_,
        .inr rfl, ?_, ?_⟩
      · exact List.ne_nil_of_length_pos (by rw [List.length_take]; omega)
      · exact fun c hc => h.all c (List.mem_of_mem_take hc)
      · exact fun c hc => h.all c (List.mem_of_mem_drop hc)
      · rw [List.length_drop]
        omega
      · rw [List.take_append_drop]
    · refine ⟨['0'], List.replicate (places - t.length) '0' ++ t, _, if_neg hinside, ?_, ?_, .inr rfl,
        ?_, ?_⟩
      · exact Integer.zero_isDigits
      · exact List.forall_mem_append.2 ⟨hzeros _, h.all⟩
      · rw [List.length_append, List.length_replicate]
        omega
      · rw [Integer.ofDigits_append, Integer.ofDigits_append, Integer.ofDigits_replicate]
        rfl

theorem read_positional (negative : Bool) {t : Text} (h : Integer.IsDigits t) {s : Int}
    (hhigh : s ≤ greatestScale) :
    ∃ e, read (withMinus negative (positional t (-s))) = some e ∧
      e.Same ⟨if negative then -(Integer.ofDigits 0 t : Int) else Integer.ofDigits 0 t, s⟩ := by
  obtain ⟨lead, trail, point, htext, hlead, htrail, hpoint, hlength, hvalue⟩ := positional_parts h (-s)
  have hleast : leastScale ≤ 0 := by decide
  have hgreatest : 0 ≤ greatestScale := by decide
  have hread := read_parts negative hlead htrail hpoint (.inl ⟨rfl, rfl⟩) (by omega) (by omega)
  rw [List.append_nil, ← withMinus_append, ← htext] at hread
  refine ⟨_, hread, ?_⟩
  rw [Same, hvalue, hlength, show (s - ((- -s).toNat - 0)).toNat = 0 by omega,
    show (((- -s).toNat : Int) - 0 - s).toNat = (-s).toNat by omega, Int.pow_zero, Int.mul_one,
    Int.natCast_mul, Int.natCast_pow]
  cases negative with
  | true => exact (Int.neg_mul _ _).symm
  | false => rfl

theorem read_print {d : Decimal} (hlow : leastScale ≤ d.scale) (hhigh : d.scale ≤ greatestScale) :
    ∃ e, read d.print = some e ∧ e.Same d := by
  have hdigits := Integer.digits_isDigits d.unscaled.natAbs
  have hnumber : (⟨if decide (d.unscaled < 0) = true
      then -(Integer.ofDigits 0 (Integer.digits d.unscaled.natAbs) : Int)
      else Integer.ofDigits 0 (Integer.digits d.unscaled.natAbs), d.scale⟩ : Decimal) = d := by
    obtain ⟨u, s⟩ := d
    simp only [Integer.ofDigits_digits, decide_eq_true_eq, Decimal.mk.injEq, and_true]
    split <;> omega
  have hsign : ∀ t, (if d.unscaled < 0 then '-' :: t else t) =
      withMinus (decide (d.unscaled < 0)) t := fun t => by simp only [withMinus, decide_eq_true_eq]
  simp only [print, hsign]
  split
  · next hzero =>
    refine ⟨_, read_whole _ Integer.zero_isDigits, ?_⟩
    have hvalue : Integer.ofDigits 0 ['0'] = 0 := rfl
    simp [Same, hzero, hvalue]
  · split
    · exact ⟨_, read_leadingDigit _ hdigits hlow hhigh, hnumber.symm ▸ Same.refl d⟩
    · split
      · have hscale : ((([] : Text).length : Int)) - -d.scale = d.scale := by simp
        have hread := read_parts (decide (d.unscaled < 0)) hdigits
          (fun _ hc => absurd hc List.not_mem_nil) (.inl ⟨rfl, rfl⟩) (.inr (.inl rfl))
          (hscale.symm ▸ hlow) (hscale.symm ▸ hhigh)
        rw [hscale, List.append_nil, List.append_nil, ← withMinus_append, hnumber] at hread
        exact ⟨d, hread, Same.refl d⟩
      · obtain ⟨e, hread, hsame⟩ := read_positional (decide (d.unscaled < 0)) hdigits hhigh
        exact ⟨e, hread, hnumber ▸ hsame⟩

end Decimal

/-! ## Characters -/

/-- Characters of names, with a digit among them. -/
structure IsNumeral (t : Text) : Prop where
  all : ∀ c ∈ t, Identifier.isNameChar c = true
  digit : ∃ c ∈ t, c.isDigit = true

theorem IsNumeral.ne_nil {t : Text} (h : IsNumeral t) : t ≠ [] := by
  obtain ⟨c, hc, _⟩ := h.digit
  exact List.ne_nil_of_mem hc

theorem IsNumeral.append {s t : Text} (hs : IsNumeral s)
    (ht : ∀ c ∈ t, Identifier.isNameChar c = true) : IsNumeral (s ++ t) := by
  obtain ⟨c, hc, hdigit⟩ := hs.digit
  exact ⟨List.forall_mem_append.2 ⟨hs.all, ht⟩, c, List.mem_append_left _ hc, hdigit⟩

theorem IsNumeral.cons {c : Char} {t : Text} (hc : Identifier.isNameChar c = true)
    (ht : IsNumeral t) : IsNumeral (c :: t) := by
  obtain ⟨d, hd, hdigit⟩ := ht.digit
  exact ⟨List.forall_mem_cons.2 ⟨hc, ht.all⟩, d, List.mem_cons_of_mem _ hd, hdigit⟩

theorem Integer.IsDigits.isNumeral {t : Text} (h : IsDigits t) : IsNumeral t := by
  refine ⟨fun c hc => isNameChar_of_isDigit (h.all c hc), ?_⟩
  obtain ⟨c, rest, rfl, hc⟩ := h.head
  exact ⟨c, List.mem_cons_self, hc⟩

theorem Integer.print_isNumeral (i : Int) : IsNumeral (print i) := by
  have hdigits := digits_isDigits i.natAbs
  rw [print_eq]
  split
  · exact .cons (by decide) hdigits.isNumeral
  · exact hdigits.isNumeral

theorem signed_isNumeral (i : Int) : IsNumeral (signed i) := by
  rw [signed]
  split
  · exact Integer.print_isNumeral i
  · exact .cons (by decide) (Integer.print_isNumeral i)

theorem positional_isNumeral {t : Text} (h : Integer.IsDigits t) (k : Int) :
    IsNumeral (positional t k) := by
  obtain ⟨lead, trail, point, htext, hlead, htrail, hpoint, -, -⟩ := Decimal.positional_parts h k
  rw [htext]
  refine hlead.isNumeral.append ?_
  rcases hpoint with ⟨-, rfl⟩ | rfl
  · exact fun _ hc => absurd hc List.not_mem_nil
  · exact List.forall_mem_cons.2 ⟨by decide, fun c hc => Integer.isNameChar_of_isDigit (htrail c hc)⟩

theorem leadingDigit_isNumeral {t : Text} (h : Integer.IsDigits t) (k : Int) :
    IsNumeral (leadingDigit t k).1 := by
  obtain ⟨c, rest, rfl, hc⟩ := h.head
  have hall := h.isNumeral.all
  cases rest with
  | nil => exact h.isNumeral
  | cons d rest =>
    obtain ⟨hname, hrest⟩ := List.forall_mem_cons.1 hall
    refine ⟨List.forall_mem_cons.2 ⟨hname, List.forall_mem_cons.2 ⟨by decide, hrest⟩⟩, ?_⟩
    exact ⟨c, List.mem_cons_self, hc⟩

theorem Decimal.print_isNumeral (d : Decimal) : IsNumeral d.print := by
  have hdigits := Integer.digits_isDigits d.unscaled.natAbs
  have hmagnitude : ∀ t, IsNumeral t → IsNumeral (if d.unscaled < 0 then '-' :: t else t) := by
    intro t ht
    split
    · exact .cons (by decide) ht
    · exact ht
  simp only [print]
  refine hmagnitude _ ?_
  split
  · exact Integer.zero_isDigits.isNumeral
  · split
    · exact (leadingDigit_isNumeral hdigits _).append
        (List.forall_mem_cons.2 ⟨by decide, (signed_isNumeral _).all⟩)
    · split
      · exact hdigits.isNumeral.append
          (List.forall_mem_cons.2 ⟨by decide, (signed_isNumeral _).all⟩)
      · exact positional_isNumeral hdigits _

end Cql
