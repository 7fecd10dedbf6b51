import Cql.Number.BigEndian
import Mathlib.Algebra.Group.Int.Defs
import Mathlib.Algebra.Group.Nat.Defs

/-!
Numbers survive as bytes: what is written in a width that has room for the number reads back as the
same number.
-/

namespace Cql.BigEndian

theorem toNat_append_singleton (bytes : Bytes) (b : UInt8) :
    toNat (bytes ++ [b]) = toNat bytes * 256 + b.toNat := by
  simp [toNat]

theorem toNat_ofNat (width n : Nat) : toNat (ofNat width n) = n % 256 ^ width := by
  induction width generalizing n with
  | zero => simp [ofNat, toNat, Nat.mod_one]
  | succ width ih =>
    have hbyte : (UInt8.ofNat (n % 256)).toNat = n % 256 := by simp
    rw [ofNat, toNat_append_singleton, ih, hbyte, Nat.pow_succ, Nat.mul_comm (256 ^ width), Nat.mod_mul]
    omega

theorem toNat_ofNat_of_lt {width n : Nat} (h : n < 256 ^ width) : toNat (ofNat width n) = n := by
  rw [toNat_ofNat, Nat.mod_eq_of_lt h]

theorem length_ofInt (width : Nat) (i : Int) : (ofInt width i).length = width := length_ofNat _ _

/-- Each byte takes the number less than 256 times as far. -/
theorem foldl_lt (bytes : Bytes) (n : Nat) :
    bytes.foldl (fun n b => n * 256 + b.toNat) n < (n + 1) * 256 ^ bytes.length := by
  induction bytes generalizing n with
  | nil => simp
  | cons b bytes ih =>
    have hbyte := b.toNat_lt
    calc (b :: bytes).foldl (fun n b => n * 256 + b.toNat) n
        < (n * 256 + b.toNat + 1) * 256 ^ bytes.length := ih (n * 256 + b.toNat)
      _ ≤ ((n + 1) * 256) * 256 ^ bytes.length := Nat.mul_le_mul_right _ (by omega)
      _ = (n + 1) * 256 ^ (bytes.length + 1) := by
        rw [Nat.pow_succ, Nat.mul_assoc, Nat.mul_comm 256]

theorem toNat_lt (bytes : Bytes) : toNat bytes < 256 ^ bytes.length := by
  have h := foldl_lt bytes 0
  rwa [Nat.zero_add, Nat.one_mul] at h

/-- What bytes stand for is within the numbers of their width. -/
theorem toInt_bounds (bytes : Bytes) :
    -(256 ^ bytes.length : Nat) ≤ 2 * toInt bytes ∧ 2 * toInt bytes < (256 ^ bytes.length : Nat) := by
  have hlt := toNat_lt bytes
  simp only [toInt]
  split <;> omega

/-- Half of the numbers of a width have a sign. -/
theorem toInt_ofInt {width : Nat} {i : Int} (hlow : -(256 ^ width : Nat) ≤ 2 * i)
    (hhigh : 2 * i < (256 ^ width : Nat)) : toInt (ofInt width i) = i := by
  have hpos : 0 < 256 ^ width := Nat.pow_pos (by decide)
  generalize hm : 256 ^ width = m at *
  have hlt : (i % (m : Int)).toNat < m := by
    have := Int.emod_lt_of_pos i (Int.natCast_pos.2 hpos)
    have := Int.emod_nonneg i (Int.natCast_ne_zero.2 (Nat.ne_of_gt hpos))
    omega
  have hn : toNat (ofInt width i) = (i % (m : Int)).toNat := by
    rw [ofInt, hm, toNat_ofNat_of_lt (by rw [hm]; exact hlt)]
  simp only [toInt, hn, length_ofInt, hm]
  by_cases hi : i < 0
  · have hmod : i % (m : Int) = i + m := by
      rw [← Int.add_emod_right, Int.emod_eq_of_lt (by omega) (by omega)]
    rw [hmod, if_neg (by omega)]
    omega
  · have hmod : i % (m : Int) = i := Int.emod_eq_of_lt (by omega) (by omega)
    rw [hmod, if_pos (by omega)]
    omega

/-- The width of the shortest form leaves room for the sign. -/
theorem two_mul_succ_le_minimalWidth (m : Nat) :
    2 * (m + 1) ≤ 256 ^ ((if m = 0 then 0 else m.log2 + 1) / 8 + 1) := by
  split
  · subst m; simp
  · have hlog : m < 2 ^ (m.log2 + 1) := Nat.lt_log2_self
    have hexp : m.log2 + 1 + 1 ≤ 8 * ((m.log2 + 1) / 8 + 1) := by omega
    calc 2 * (m + 1) ≤ 2 * 2 ^ (m.log2 + 1) := by omega
      _ = 2 ^ (m.log2 + 1 + 1) := by rw [Nat.pow_succ 2 (m.log2 + 1)]; omega
      _ ≤ 2 ^ (8 * ((m.log2 + 1) / 8 + 1)) := Nat.pow_le_pow_right (by decide) hexp
      _ = 256 ^ ((m.log2 + 1) / 8 + 1) := by rw [Nat.pow_mul]

theorem toInt_ofIntMinimal (i : Int) : toInt (ofIntMinimal i) = i := by
  by_cases hi : i < 0
  · have hw := two_mul_succ_le_minimalWidth (i.natAbs - 1)
    have hwidth : minimalWidth i =
        (if i.natAbs - 1 = 0 then 0 else (i.natAbs - 1).log2 + 1) / 8 + 1 := by
      simp only [minimalWidth, if_neg (Int.not_le.2 hi)]
    rw [← hwidth] at hw
    exact toInt_ofInt (by omega) (by omega)
  · have hw := two_mul_succ_le_minimalWidth i.toNat
    have hwidth : minimalWidth i = (if i.toNat = 0 then 0 else i.toNat.log2 + 1) / 8 + 1 := by
      simp only [minimalWidth, if_pos (Int.not_lt.1 hi)]
    rw [← hwidth] at hw
    exact toInt_ofInt (by omega) (by omega)

theorem ofIntMinimal_ne_nil (i : Int) : ofIntMinimal i ≠ [] := by
  intro h
  have hlen := congrArg List.length h
  simp [ofIntMinimal, length_ofInt, minimalWidth] at hlen

end Cql.BigEndian
