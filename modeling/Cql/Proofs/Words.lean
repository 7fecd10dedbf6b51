import Cql.Number.Word
import Mathlib.Algebra.Group.Int.Defs
import Mathlib.Algebra.Group.Nat.Defs

/-!
Arithmetic in words by the numbers that they stand for: a sum or a difference is exact where it stays in the
word, a quotient by a number greater than one always is, and counters go up and down by one.
-/

namespace Cql.Word

/-! ## Sums and differences -/

section Sums

variable {build : Build} {a b : Int64}

theorem bmod_word {i : Int} (h : InWord i) : i.bmod (2 ^ 64) = i := by
  obtain ⟨hlow, hhigh⟩ := h
  exact Int.bmod_eq_of_le_mul_two (by omega) (by omega)

theorem toInt_sub (h : InWord (a.toInt - b.toInt)) : (a - b).toInt = a.toInt - b.toInt := by
  rw [Int64.toInt_sub, bmod_word h]

theorem sub_inWord (h : InWord (a.toInt - b.toInt)) : sub build a b = .ok (a - b) :=
  if_neg fun hleaves => hleaves.2 h

theorem add_inWord (h : InWord (a.toInt + b.toInt)) :
    ∃ sum, add build a b = .ok sum ∧ sum.toInt = a.toInt + b.toInt :=
  ⟨a + b, if_neg fun hleaves => hleaves.2 h, by rw [Int64.toInt_add, bmod_word h]⟩

theorem add_checked (h : ¬ InWord (a.toInt + b.toInt)) : add .checked a b = .error .sum :=
  if_pos ⟨rfl, h⟩

/-- Above the greatest word sums go on at the least one. -/
theorem add_wrapping (h : 2 ^ 63 ≤ a.toInt + b.toInt) :
    ∃ sum, add .wrapping a b = .ok sum ∧ sum.toInt = a.toInt + b.toInt - 2 ^ 64 := by
  refine ⟨a + b, if_neg fun hleaves => Build.noConfusion hleaves.1, ?_⟩
  have ha := a.toInt_lt
  have hb := b.toInt_lt
  rw [Int64.toInt_add, ← Int.sub_bmod_right]
  exact bmod_word ⟨by omega, by omega⟩

end Sums

/-! ## Quotients -/

/-- Rounded toward zero, a number and its opposite have opposite parts. -/
theorem tdiv_tmod_cases (i n : Int) :
    0 ≤ i ∧ i.tdiv n = i / n ∧ i.tmod n = i % n ∨
      i < 0 ∧ i.tdiv n = -(-i / n) ∧ i.tmod n = -(-i % n) := by
  rcases Int.lt_or_le i 0 with hneg | hpos
  · obtain ⟨j, rfl⟩ : ∃ j, i = -j := ⟨-i, (Int.neg_neg i).symm⟩
    have hj : 0 ≤ j := by omega
    refine .inr ⟨hneg, ?_, ?_⟩
    · rw [Int.neg_tdiv, Int.tdiv_eq_ediv_of_nonneg hj, Int.neg_neg]
    · rw [Int.neg_tmod, Int.tmod_eq_emod_of_nonneg hj, Int.neg_neg]
  · exact .inl ⟨hpos, Int.tdiv_eq_ediv_of_nonneg hpos, Int.tmod_eq_emod_of_nonneg hpos⟩

variable {n : Int64}

theorem divisible_of_one_lt (h : 1 < n.toInt) (a : Int64) : divisible a n = true := by
  have hzero : n ≠ 0 := by
    rintro rfl
    exact absurd h (by decide)
  have hminus : n ≠ -1 := by
    rintro rfl
    exact absurd h (by decide)
  simp [divisible, hzero, hminus]

theorem div_of_one_lt (h : 1 < n.toInt) (a : Int64) : div a n = .ok (a / n) :=
  if_pos (divisible_of_one_lt h a)

theorem rem_of_one_lt (h : 1 < n.toInt) (a : Int64) : rem a n = .ok (a % n) :=
  if_pos (divisible_of_one_lt h a)

/-! ## Narrow words and counters -/

theorem narrow?_eq_some {a : Int64} {m : UInt32} : narrow? a = some m ↔ (m.toNat : Int) = a.toInt := by
  have hlt := m.toNat_lt
  rw [narrow?, Option.ite_none_right_eq_some, Option.some.injEq]
  constructor
  · rintro ⟨⟨hlow, hhigh⟩, rfl⟩
    have hfits : a.toInt.toNat < 2 ^ 32 := by omega
    rw [UInt32.toNat_ofNat_of_lt' hfits]
    exact Int.toNat_of_nonneg hlow
  · intro h
    refine ⟨by omega, ?_⟩
    rw [← h, Int.toNat_natCast, UInt32.ofNat_toNat]

theorem narrow?_eq_none {a : Int64} : narrow? a = none ↔ a.toInt < 0 ∨ 2 ^ 32 ≤ a.toInt := by
  rw [narrow?, ite_eq_right_iff]
  simp only [reduceCtorEq, imp_false]
  omega

theorem exists_toNat {k : Nat} (h : k < 2 ^ 32) : ∃ n : UInt32, n.toNat = k :=
  ⟨UInt32.ofNat k, UInt32.toNat_ofNat_of_lt' h⟩

theorem up_ok_iff {n m : UInt32} : up n = .ok m ↔ m.toNat = n.toNat + 1 := by
  have hlt := m.toNat_lt
  have hone : (n + 1).toNat = (n.toNat + 1) % 2 ^ 32 := UInt32.toNat_add n 1
  rw [up]
  split
  · rw [Except.ok.injEq, ← UInt32.toNat_inj]
    omega
  · exact iff_of_false (by simp) (by omega)

theorem up_error_iff {n : UInt32} {stop : Breakdown} :
    up n = .error stop ↔ stop = .sum ∧ n.toNat + 1 = 2 ^ 32 := by
  have hlt := n.toNat_lt
  rw [up]
  split
  · exact iff_of_false (by simp) (by omega)
  · rw [Except.error.injEq]
    constructor
    · rintro rfl
      exact ⟨rfl, by omega⟩
    · exact fun h => h.1.symm

theorem down_ok_iff {n m : UInt32} : down n = .ok m ↔ n.toNat = m.toNat + 1 := by
  have hlt := n.toNat_lt
  rw [down]
  split
  · exact iff_of_false (by simp) (by omega)
  · next hpos =>
    have hle : (1 : UInt32) ≤ n := UInt32.le_iff_toNat_le.2 (Nat.pos_of_ne_zero hpos)
    have hone : (n - 1).toNat = n.toNat - 1 := UInt32.toNat_sub_of_le n 1 hle
    rw [Except.ok.injEq, ← UInt32.toNat_inj]
    omega

theorem exists_down {n : UInt32} (h : n ≠ 0) : ∃ m, down n = .ok m ∧ n.toNat = m.toNat + 1 := by
  have hpos : n.toNat ≠ 0 := fun hzero => h (UInt32.toNat_inj.1 hzero)
  have hdown : down n = .ok (n - 1) := if_neg hpos
  exact ⟨_, hdown, down_ok_iff.1 hdown⟩

end Cql.Word
