import Cql.Number.Floating
import Cql.Proofs.DecimalText
import Cql.Proofs.Names
import Cql.Proofs.ShortestDigits

/-!
Binary floating point numbers as they are printed are read back: the digits stand for a number that is
rounded to the printed one.
-/

namespace Cql.Floating

open Decimal (PointDigits withMinus)

/-! ## Numerals -/

/-- A text with a digit is none of the words. -/
theorem sameWord_digit {t word : Text} {c : Char} (hc : c ∈ t) (hdigit : c.isDigit = true)
    (hword : (Text.lower word).any Char.isDigit = false) : Text.sameWord t word = false := by
  refine Text.sameWord_eq_false hc fun hmem => ?_
  rw [Identifier.toLower_of_lower_or_digit (.inr (.inl hdigit))] at hmem
  exact List.any_eq_false.1 hword c hmem hdigit

theorem readScientific_parts {lead trail point : Text} (hlead : Integer.IsDigits lead)
    (htrail : ∀ c ∈ trail, c.isDigit = true) (hpoint : PointDigits trail point) :
    readScientific (lead ++ point) =
      some (Integer.ofDigits 0 (lead ++ trail), -(trail.length : Int)) := by
  have hempty : lead.isEmpty = false := List.isEmpty_eq_false_iff.2 hlead.ne_nil
  rw [Integer.ofDigits_append]
  rcases hpoint with ⟨rfl, rfl⟩ | rfl
  · rw [readScientific, Text.spanWhile_append hlead.all (by simp)]
    simp only [hempty, Bool.false_and, Bool.false_eq_true, if_false]
  · have hend : ∀ c, ('.' :: trail).head? = some c → c.isDigit = false := by
      rintro c ⟨⟩
      decide
    have hspan : Text.spanWhile Char.isDigit (trail ++ []) = (trail, []) :=
      Text.spanWhile_append htrail (by simp)
    rw [List.append_nil] at hspan
    rw [readScientific, Text.spanWhile_append hlead.all hend]
    simp only [hspan, hempty, Bool.false_and, Bool.false_eq_true, if_false]

theorem splitSign_positional (n : Nat) (k : Int) :
    Integer.splitSign (positional (Integer.digits n) k) = (false, positional (Integer.digits n) k) := by
  obtain ⟨lead, -, point, htext, hlead, -⟩ :=
    Decimal.positional_parts (Integer.digits_isDigits n) k
  obtain ⟨c, rest, rfl, hc⟩ := hlead.head
  rw [htext]
  exact Integer.splitSign_cons hc _

/-- A printed numeral is rounded as the number it stands for. -/
theorem read_positional (f : BinaryFormat) (n : Nat) (k : Int) :
    read f (positional (Integer.digits n) k) =
      some (f.ofDecimal (n * 10 ^ k.toNat) (-((-k).toNat : Int))) := by
  obtain ⟨lead, trail, point, htext, hlead, htrail, hpoint, hlength, hvalue⟩ :=
    Decimal.positional_parts (Integer.digits_isDigits n) k
  rw [Integer.ofDigits_digits] at hvalue
  have hscientific := readScientific_parts hlead htrail hpoint
  rw [hvalue, hlength] at hscientific
  obtain ⟨c, rest, rfl, hc⟩ := hlead.head
  have hword : ∀ word, (Text.lower word).any Char.isDigit = false →
      Text.sameWord (c :: rest ++ point) word = false :=
    fun word => sameWord_digit List.mem_cons_self hc
  rw [read, splitSign_positional, htext]
  simp only [hword "nan".toList (by decide), hword "inf".toList (by decide),
    hword "infinity".toList (by decide), hscientific, Bool.or_self, Bool.false_eq_true, if_false,
    Option.map_some]
  rfl

/-- A numeral for a number with the digits that were found for it. -/
theorem read_digits {f : BinaryFormat} {magnitude : Nat} (hpos : 0 < magnitude)
    (hfinite : magnitude < f.infinity) :
    read f (positional (Integer.digits (Shortest.digits .up f magnitude).1)
      (Shortest.digits .up f magnitude).2) = some magnitude := by
  obtain ⟨n, k, hdigits, hn, haround⟩ := Shortest.digits_around f magnitude .up hpos
  rw [hdigits, read_positional]
  refine congrArg some (f.ofDecimal_around hpos hfinite (by positivity) ?_)
  have hvalue : ((n * 10 ^ k.toNat : Nat) : ℚ) * 10 ^ (-((-k).toNat : Int)) = n * 10 ^ k := by
    have hten := BinaryFormat.zpow_eq 10 (by norm_num) k
    push_cast at hten
    rw [zpow_neg, zpow_natCast, hten]
    push_cast
    ring
  rw [hvalue]
  exact haround

/-! ## Words and signs -/

theorem read_nan (f : BinaryFormat) : read f "NaN".toList = some f.nan := by
  have hsign : Integer.splitSign "NaN".toList = (false, "NaN".toList) := by decide
  have hword : Text.sameWord "NaN".toList "nan".toList = true := by decide
  rw [read, hsign]
  simp only [hword, if_true, Option.map_some]
  rfl

theorem read_infinity (f : BinaryFormat) : read f "Infinity".toList = some f.infinity := by
  have hsign : Integer.splitSign "Infinity".toList = (false, "Infinity".toList) := by decide
  have hnan : Text.sameWord "Infinity".toList "nan".toList = false := by decide
  have hword : Text.sameWord "Infinity".toList "infinity".toList = true := by decide
  rw [read, hsign]
  simp only [hnan, hword, Bool.or_true, Bool.false_eq_true, if_false, if_true, Option.map_some]
  rfl

theorem read_zero (f : BinaryFormat) : read f ['0'] = some 0 := by
  have hread := read_positional f 0 0
  rw [BinaryFormat.ofDecimal, if_pos (Nat.zero_mul _)] at hread
  exact hread

theorem read_withMinus {f : BinaryFormat} {t : Text} {magnitude : Nat} (negative : Bool)
    (hsplit : Integer.splitSign t = (false, t)) (h : read f t = some magnitude) :
    read f (withMinus negative t) = some (f.withSign negative magnitude) := by
  cases negative with
  | false => exact h
  | true =>
    have hminus : Integer.splitSign (withMinus true t) = (true, t) := rfl
    rw [read, hsplit] at h
    rw [read, hminus]
    obtain ⟨m, hm, hsame⟩ := Option.map_eq_some_iff.1 h
    obtain rfl : m = magnitude := hsame
    exact Option.map_eq_some_iff.2 ⟨m, hm, rfl⟩

/-- A pattern is its sign and its magnitude. -/
theorem withSign_magnitude {f : BinaryFormat} {bits : Nat} (h : bits < 2 * f.signBit) :
    f.withSign (f.isNegative bits) (f.magnitude bits) = bits := by
  rw [BinaryFormat.withSign, BinaryFormat.isNegative, BinaryFormat.magnitude]
  by_cases hnegative : f.signBit ≤ bits
  · rw [if_pos (decide_eq_true hnegative), Nat.mod_eq_sub_mod hnegative, Nat.mod_eq_of_lt (by omega)]
    omega
  · rw [if_neg (by simpa using hnegative), Nat.mod_eq_of_lt (by omega)]

theorem read_print {f : BinaryFormat} {bits : Nat} (hbits : bits < 2 * f.signBit)
    (hnan : f.isNaN bits = false) : read f (print f bits) = some bits := by
  have hle : f.magnitude bits ≤ f.infinity := by
    simpa [BinaryFormat.isNaN] using hnan
  have hsigned : ∀ t, Integer.splitSign t = (false, t) → read f t = some (f.magnitude bits) →
      read f (if f.isNegative bits then '-' :: t else t) = some bits := by
    intro t hsplit hread
    have hminus := read_withMinus (f.isNegative bits) hsplit hread
    rw [withSign_magnitude hbits] at hminus
    exact hminus
  simp only [print, hnan, Bool.false_eq_true, if_false]
  refine hsigned _ ?_ ?_
  · split
    · decide
    · split
      · decide
      · exact splitSign_positional _ _
  · split
    · next hinfinite =>
      rw [hinfinite]
      exact read_infinity f
    · next hfinite =>
      split
      · next hzero =>
        rw [hzero]
        exact read_zero f
      · next hzero => exact read_digits (Nat.pos_of_ne_zero hzero) (Nat.lt_of_le_of_ne hle hfinite)

theorem print_nan {f : BinaryFormat} {bits : Nat} (h : f.isNaN bits = true) :
    print f bits = "NaN".toList := if_pos h

/-- A literal is a numeral or one of three words. -/
theorem print_cases (f : BinaryFormat) (bits : Nat) :
    IsNumeral (print f bits) ∨
      print f bits ∈ ["NaN".toList, "Infinity".toList, "-Infinity".toList] := by
  have hword : "-Infinity".toList = '-' :: "Infinity".toList := by decide
  rw [print]
  split
  · exact .inr List.mem_cons_self
  · by_cases hinfinity : f.magnitude bits = f.infinity
    · refine .inr ?_
      simp only [hinfinity, if_true]
      split
      · exact hword ▸ List.mem_cons_of_mem _ (List.mem_cons_of_mem _ List.mem_cons_self)
      · exact List.mem_cons_of_mem _ List.mem_cons_self
    · refine .inl ?_
      have hmagnitude : IsNumeral (if f.magnitude bits = 0 then ['0'] else
          positional (Integer.digits (Shortest.digits .up f (f.magnitude bits)).1)
            (Shortest.digits .up f (f.magnitude bits)).2) := by
        split
        · exact Integer.zero_isDigits.isNumeral
        · exact positional_isNumeral (Integer.digits_isDigits _) _
      simp only [hinfinity, if_false]
      split
      · exact .cons (by decide) hmagnitude
      · exact hmagnitude

end Cql.Floating
