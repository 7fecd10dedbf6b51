import Cql.Number.Binary
import Mathlib.Algebra.Order.Field.Power
import Mathlib.Data.Nat.Log
import Mathlib.Data.Rat.Cast.Order
import Mathlib.Tactic.FieldSimp
import Mathlib.Tactic.Linarith
import Mathlib.Tactic.NormNum
import Mathlib.Tactic.Positivity
import Mathlib.Tactic.Ring

/-!
Rounding to binary floating point numbers. Every quotient among the reals around a finite number is
rounded to that number: the ends of the interval lie half a unit away, and a quarter of one below a power
of two, where the next smaller unit is half as large.
-/

namespace Cql.BinaryFormat

/-! ## Natural numbers -/

/-- A quotient within one half of a natural number is rounded to it; exactly one half only if it is
even. -/
theorem roundQuotient_eq {num den k : Nat} (hden : 0 < den) (hlow : 2 * k * den ≤ 2 * num + den)
    (hhigh : 2 * num ≤ 2 * k * den + den)
    (htie : k % 2 = 1 → 2 * k * den < 2 * num + den ∧ 2 * num < 2 * k * den + den) :
    roundQuotient num den = k := by
  have hsplit := Nat.div_add_mod num den
  have hmod := Nat.mod_lt num hden
  rw [roundQuotient]
  generalize num / den = floor at *
  generalize num % den = rest at *
  subst hsplit
  have hfloor : floor = k ∨ floor + 1 = k := by
    have hle : floor ≤ k := by
      by_contra hlt
      have hmul : den * (k + 1) ≤ den * floor := Nat.mul_le_mul_left den (by omega)
      nlinarith
    have hge : k ≤ floor + 1 := by
      by_contra hlt
      have hmul : den * (floor + 2) ≤ den * k := Nat.mul_le_mul_left den (by omega)
      nlinarith
    omega
  rcases hfloor with rfl | rfl
  · have hrest : 2 * rest ≤ den := by nlinarith
    rw [if_neg]
    simp only [Bool.or_eq_true, Bool.and_eq_true, decide_eq_true_eq, beq_iff_eq, not_or, not_and]
    refine ⟨by omega, fun heq hodd => ?_⟩
    have := (htie hodd).2
    nlinarith
  · have hrest : den ≤ 2 * rest := by nlinarith
    rw [if_pos]
    simp only [Bool.or_eq_true, Bool.and_eq_true, decide_eq_true_eq, beq_iff_eq]
    by_cases heq : den = 2 * rest
    · refine .inr ⟨heq, ?_⟩
      by_contra heven
      have := (htie (by omega)).1
      nlinarith
    · exact .inl (by omega)

/-! ## Rational numbers -/

theorem zpow_eq (b : Nat) (hb : 0 < b) (q : Int) :
    (b : ℚ) ^ q = (b ^ q.toNat : Nat) / (b ^ (-q).toNat : Nat) := by
  have hpos : (b : ℚ) ≠ 0 := by positivity
  rcases Int.le_total 0 q with hq | hq
  · obtain ⟨n, rfl⟩ := Int.eq_ofNat_of_zero_le hq
    simp
  · obtain ⟨n, hn⟩ := Int.eq_ofNat_of_zero_le (Int.neg_nonneg.2 hq)
    obtain rfl : q = -(n : Int) := by omega
    simp

theorem two_zpow_eq (q : Int) :
    (2 : ℚ) ^ q = (2 ^ q.toNat : Nat) / (2 ^ (-q).toNat : Nat) := by
  exact_mod_cast zpow_eq 2 (by decide) q

theorem two_zpow_pos (q : Int) : (0 : ℚ) < 2 ^ q := zpow_pos (by norm_num) q

theorem two_zpow_add_one (q : Int) : (2 : ℚ) ^ (q + 1) = 2 * 2 ^ q := by
  rw [zpow_add_one₀ (by norm_num)]
  ring

/-- A rational number near a natural one. -/
structure Near (k : Nat) (x : ℚ) : Prop where
  low : (k : ℚ) - 1 / 2 ≤ x
  high : x ≤ k + 1 / 2
  tie : k % 2 = 1 → (k : ℚ) - 1 / 2 < x ∧ x < k + 1 / 2

theorem Near.roundQuotient_eq {num den k : Nat} (hden : 0 < den) (h : Near k (num / den)) :
    roundQuotient num den = k := by
  have hpos : (0 : ℚ) < den := by exact_mod_cast hden
  have hle : ∀ a b : Nat, (a : ℚ) ≤ b → a ≤ b := fun a b h => by exact_mod_cast h
  have hlt : ∀ a b : Nat, (a : ℚ) < b → a < b := fun a b h => by exact_mod_cast h
  refine BinaryFormat.roundQuotient_eq hden ?_ ?_ fun hodd => ⟨?_, ?_⟩
  · have hlow := h.low
    rw [le_div_iff₀ hpos] at hlow
    refine hle _ _ ?_
    push_cast
    linarith
  · have hhigh := h.high
    rw [div_le_iff₀ hpos] at hhigh
    refine hle _ _ ?_
    push_cast
    linarith
  · have hlow := (h.tie hodd).1
    rw [lt_div_iff₀ hpos] at hlow
    refine hlt _ _ ?_
    push_cast
    linarith
  · have hhigh := (h.tie hodd).2
    rw [div_lt_iff₀ hpos] at hhigh
    refine hlt _ _ ?_
    push_cast
    linarith

theorem log2_bounds {n : Nat} (hn : 0 < n) : (2 : ℚ) ^ (n.log2 : Int) ≤ n ∧
    (n : ℚ) < 2 ^ ((n.log2 : Int) + 1) := by
  have hne : n ≠ 0 := Nat.ne_of_gt hn
  have hlow : 2 ^ n.log2 ≤ n := Nat.log2_self_le hne
  have hhigh : n < 2 ^ (n.log2 + 1) := Nat.lt_log2_self
  constructor
  · rw [zpow_natCast]
    exact_mod_cast hlow
  · rw [show (n.log2 : Int) + 1 = ((n.log2 + 1 : Nat) : Int) by push_cast; ring, zpow_natCast]
    exact_mod_cast hhigh

theorem two_zpow_le_div_iff {num den : Nat} (hden : 0 < den) (e : Int) :
    (2 : ℚ) ^ e ≤ num / den ↔
      if 0 ≤ e then den * 2 ^ e.toNat ≤ num else den ≤ num * 2 ^ (-e).toNat := by
  have hpos : (0 : ℚ) < den := by exact_mod_cast hden
  split
  · next he =>
    obtain ⟨n, rfl⟩ := Int.eq_ofNat_of_zero_le he
    rw [le_div_iff₀ hpos, Int.toNat_natCast, zpow_natCast, mul_comm]
    exact_mod_cast Iff.rfl
  · next he =>
    obtain ⟨n, hn⟩ := Int.eq_ofNat_of_zero_le (show 0 ≤ -e by omega)
    obtain rfl : e = -(n : Int) := by omega
    have htwo : (0 : ℚ) < 2 ^ n := by positivity
    rw [neg_neg, Int.toNat_natCast, zpow_neg, zpow_natCast, le_div_iff₀ hpos, inv_mul_le_iff₀ htwo,
      mul_comm]
    exact_mod_cast Iff.rfl

theorem floorLog_spec {num den : Nat} (hnum : 0 < num) (hden : 0 < den) :
    (2 : ℚ) ^ floorLog num den ≤ num / den ∧ (num : ℚ) / den < 2 ^ (floorLog num den + 1) := by
  have hpos : (0 : ℚ) < den := by exact_mod_cast hden
  obtain ⟨hnumLow, hnumHigh⟩ := log2_bounds hnum
  obtain ⟨hdenLow, hdenHigh⟩ := log2_bounds hden
  have hiff := @two_zpow_le_div_iff num den hden ((num.log2 : Int) - den.log2)
  have hhigh : (num : ℚ) / den < 2 ^ ((num.log2 : Int) - den.log2 + 1) := by
    rw [div_lt_iff₀ hpos]
    calc (num : ℚ) < 2 ^ ((num.log2 : Int) + 1) := hnumHigh
      _ = 2 ^ ((num.log2 : Int) - den.log2 + 1) * 2 ^ (den.log2 : Int) := by
        rw [← zpow_add₀ (by norm_num)]
        congr 1
        omega
      _ ≤ 2 ^ ((num.log2 : Int) - den.log2 + 1) * den :=
        mul_le_mul_of_nonneg_left hdenLow (two_zpow_pos _).le
  have hlow : (2 : ℚ) ^ ((num.log2 : Int) - den.log2 - 1) ≤ num / den := by
    rw [le_div_iff₀ hpos]
    calc (2 : ℚ) ^ ((num.log2 : Int) - den.log2 - 1) * den
        ≤ 2 ^ ((num.log2 : Int) - den.log2 - 1) * 2 ^ ((den.log2 : Int) + 1) :=
          mul_le_mul_of_nonneg_left hdenHigh.le (two_zpow_pos _).le
      _ = 2 ^ (num.log2 : Int) := by
        rw [← zpow_add₀ (by norm_num)]
        congr 1
        omega
      _ ≤ num := hnumLow
  generalize he : (num.log2 : Int) - den.log2 = e at *
  by_cases hleast : (2 : ℚ) ^ e ≤ num / den
  · have hfloor : floorLog num den = e := by
      rw [floorLog, he]
      exact if_pos (hiff.1 hleast)
    rw [hfloor]
    exact ⟨hleast, hhigh⟩
  · have hfloor : floorLog num den = e - 1 := by
      rw [floorLog, he]
      exact if_neg (mt hiff.2 hleast)
    rw [hfloor, Int.sub_add_cancel]
    exact ⟨hlow, not_le.1 hleast⟩

theorem lt_of_two_zpow_lt {a b : Int} (h : (2 : ℚ) ^ a < 2 ^ b) : a < b :=
  (zpow_lt_zpow_iff_right₀ (by norm_num)).1 h

variable (f : BinaryFormat)

/-- A quotient is rounded in units of a power of two. -/
theorem ofQuotient_eq {num den k : Nat} (hnum : 0 < num) (hden : 0 < den)
    (hnear : Near k ((num : ℚ) / den / 2 ^ max (floorLog num den - f.fractionBits) f.leastExponent)) :
    f.ofQuotient num den =
      min ((max (floorLog num den - f.fractionBits) f.leastExponent - f.leastExponent).toNat *
        2 ^ f.fractionBits + k) f.infinity := by
  rw [ofQuotient, if_neg (Nat.ne_of_gt hnum)]
  generalize max (floorLog num den - f.fractionBits) f.leastExponent = q at *
  have hround : (if 0 ≤ q then roundQuotient num (den * 2 ^ q.toNat)
      else roundQuotient (num * 2 ^ (-q).toNat) den) = k := by
    split
    · next hq =>
      refine Near.roundQuotient_eq (by positivity) ?_
      obtain ⟨n, rfl⟩ := Int.eq_ofNat_of_zero_le hq
      rw [zpow_natCast, div_div] at hnear
      exact_mod_cast hnear
    · next hq =>
      refine Near.roundQuotient_eq hden ?_
      obtain ⟨n, hn⟩ := Int.eq_ofNat_of_zero_le (show 0 ≤ -q by omega)
      obtain rfl : q = -(n : Int) := by omega
      rw [zpow_neg, zpow_natCast, div_inv_eq_mul, div_mul_eq_mul_div] at hnear
      rw [neg_neg, Int.toNat_natCast]
      exact_mod_cast hnear
  dsimp only
  rw [hround]

/-! ## Around a number -/

/-- A magnitude is its significand, with the units that are smaller than its own below it. -/
structure Decomposed (magnitude m : Nat) (q : Int) : Prop where
  eq_magnitude : magnitude = (q - f.leastExponent).toNat * 2 ^ f.fractionBits + m
  least : f.leastExponent ≤ q
  pos : 0 < m
  bound : m < 2 ^ (f.fractionBits + 1)
  normal : q = f.leastExponent ∨ 2 ^ f.fractionBits ≤ m

theorem decompose_spec {magnitude : Nat} (hpos : 0 < magnitude) :
    f.Decomposed magnitude (f.decompose magnitude).1 (f.decompose magnitude).2 := by
  have hunit : 0 < 2 ^ f.fractionBits := by positivity
  have hsplit := Nat.div_add_mod magnitude (2 ^ f.fractionBits)
  have hmod := Nat.mod_lt magnitude hunit
  have hdouble : 2 ^ (f.fractionBits + 1) = 2 * 2 ^ f.fractionBits := by ring
  rw [decompose]
  by_cases hzero : magnitude / 2 ^ f.fractionBits = 0
  · rw [if_pos hzero]
    rw [hzero] at hsplit
    dsimp only
    refine ⟨?_, Int.le_refl _, by omega, by omega, .inl rfl⟩
    rw [Int.sub_self, Int.toNat_zero]
    omega
  · rw [if_neg hzero]
    dsimp only
    refine ⟨?_, by omega, by omega, by omega, .inr (by omega)⟩
    obtain ⟨e, he⟩ := Nat.exists_eq_succ_of_ne_zero hzero
    have hexponent : (f.leastExponent + ((e.succ - 1 : Nat) : Int) - f.leastExponent).toNat = e := by
      omega
    rw [he] at hsplit ⊢
    rw [hexponent]
    conv_lhs => rw [← hsplit]
    rw [Nat.succ_eq_add_one]
    ring

theorem Decomposed.significand_lt {f : BinaryFormat} {magnitude m : Nat} {q : Int}
    (h : f.Decomposed magnitude m q) : (m : ℚ) + 1 ≤ 2 * 2 ^ f.fractionBits := by
  have hbound := h.bound
  rw [← pow_succ']
  exact_mod_cast hbound

/-- The reals that are rounded to a number `m · 2 ^ q`: half a unit to both sides, or less below it; the
ends belong to them only if the significand is even. -/
structure Around (m : Nat) (q : Int) (below x : ℚ) : Prop where
  low : ((m : ℚ) - below) * 2 ^ q ≤ x
  high : x ≤ (m + 1 / 2) * 2 ^ q
  strict : m % 2 = 1 → ((m : ℚ) - below) * 2 ^ q < x ∧ x < (m + 1 / 2) * 2 ^ q

theorem Around.mono {m : Nat} {q : Int} {below wider x : ℚ} (h : Around m q below x)
    (hle : below ≤ wider) : Around m q wider x := by
  have hroom : ((m : ℚ) - wider) * 2 ^ q ≤ (m - below) * 2 ^ q :=
    mul_le_mul_of_nonneg_right (by linarith) (two_zpow_pos q).le
  exact ⟨hroom.trans h.low, h.high, fun hodd => ⟨hroom.trans_lt (h.strict hodd).1, (h.strict hodd).2⟩⟩

theorem Around.near {m : Nat} {q : Int} {x : ℚ} (h : Around m q (1 / 2) x) : Near m (x / 2 ^ q) := by
  have hunit := two_zpow_pos q
  refine ⟨?_, ?_, fun hodd => ⟨?_, ?_⟩⟩
  · rw [le_div_iff₀ hunit]
    exact h.low
  · rw [div_le_iff₀ hunit]
    exact h.high
  · rw [lt_div_iff₀ hunit]
    exact (h.strict hodd).1
  · rw [div_lt_iff₀ hunit]
    exact (h.strict hodd).2

/-- Half a unit, or a quarter below the least number of its unit if there is a smaller unit. -/
def roomBelow (magnitude : Nat) : ℚ :=
  let (m, q) := f.decompose magnitude
  if m = 2 ^ f.fractionBits ∧ f.leastExponent < q then 1 / 4 else 1 / 2

theorem roomBelow_le_half (magnitude : Nat) : f.roomBelow magnitude ≤ 1 / 2 := by
  rw [roomBelow]
  dsimp only
  split <;> norm_num

theorem two_zpow_fraction (q : Int) :
    (2 : ℚ) ^ ((f.fractionBits : Int) + q) = 2 ^ f.fractionBits * 2 ^ q := by
  rw [zpow_add₀ (by norm_num), zpow_natCast]

/-- A quotient that is not below the power of two of the number is rounded in its units. -/
theorem ofQuotient_inside {magnitude m num den : Nat} {q : Int} (hspec : f.Decomposed magnitude m q)
    (hfinite : magnitude < f.infinity) (hnum : 0 < num) (hden : 0 < den)
    (h : Around m q (1 / 2) (num / den))
    (hinside : q = f.leastExponent ∨ (2 : ℚ) ^ ((f.fractionBits : Int) + q) ≤ num / den) :
    f.ofQuotient num den = magnitude := by
  obtain ⟨hfloorLow, hfloorHigh⟩ := floorLog_spec hnum hden
  have hupper : floorLog num den < f.fractionBits + q + 1 := by
    refine lt_of_two_zpow_lt (lt_of_le_of_lt hfloorLow ?_)
    rw [two_zpow_add_one, two_zpow_fraction]
    have hunit := two_zpow_pos q
    have hm := hspec.significand_lt
    have hhigh := h.high
    nlinarith
  have hq : max (floorLog num den - f.fractionBits) f.leastExponent = q := by
    rcases hinside with rfl | hinside
    · exact max_eq_right (by omega)
    · have hlower := lt_of_two_zpow_lt (lt_of_le_of_lt hinside hfloorHigh)
      have hleast := hspec.least
      rw [max_eq_left] <;> omega
  rw [f.ofQuotient_eq (k := m) hnum hden (hq.symm ▸ h.near), hq, ← hspec.eq_magnitude]
  exact Nat.min_eq_left hfinite.le

/-- A quotient that is so little below a power of two that its own units are half as large is rounded to
the power of two, which has twice as many of them. -/
theorem ofQuotient_under {num den : Nat} {q : Int} (hq : f.leastExponent < q)
    (hnum : 0 < num) (hden : 0 < den)
    (hfinite : (q - f.leastExponent).toNat * 2 ^ f.fractionBits + 2 ^ f.fractionBits < f.infinity)
    (hlow : ((2 : ℚ) ^ f.fractionBits - 1 / 4) * 2 ^ q ≤ num / den)
    (hbelow : (num : ℚ) / den < 2 ^ ((f.fractionBits : Int) + q)) :
    f.ofQuotient num den =
      (q - f.leastExponent).toNat * 2 ^ f.fractionBits + 2 ^ f.fractionBits := by
  obtain ⟨hfloorLow, hfloorHigh⟩ := floorLog_spec hnum hden
  have hunit := two_zpow_pos (q - 1)
  have hhalf : (2 : ℚ) ^ q = 2 * 2 ^ (q - 1) := by
    rw [← two_zpow_add_one, Int.sub_add_cancel]
  have he : max (floorLog num den - f.fractionBits) f.leastExponent = q - 1 := by
    have hbefore := lt_of_two_zpow_lt (lt_of_le_of_lt hfloorLow hbelow)
    have hafter : f.fractionBits + (q - 1) < floorLog num den + 1 := by
      refine lt_of_two_zpow_lt (lt_of_le_of_lt ?_ hfloorHigh)
      have hone : (1 : ℚ) ≤ 2 ^ f.fractionBits := one_le_pow₀ (by norm_num)
      rw [two_zpow_fraction]
      nlinarith
    rw [max_eq_left] <;> omega
  have hnear : Near (2 ^ (f.fractionBits + 1)) ((num : ℚ) / den / 2 ^ (q - 1)) := by
    have hdouble : ((2 ^ (f.fractionBits + 1) : Nat) : ℚ) = 2 * 2 ^ f.fractionBits := by
      push_cast
      ring
    rw [two_zpow_fraction] at hbelow
    refine ⟨?_, ?_, fun hodd => ?_⟩
    · rw [le_div_iff₀ hunit, hdouble]
      nlinarith
    · rw [div_le_iff₀ hunit, hdouble]
      nlinarith
    · rw [pow_succ] at hodd
      omega
  have hsum : (q - 1 - f.leastExponent).toNat * 2 ^ f.fractionBits + 2 ^ (f.fractionBits + 1) =
      (q - f.leastExponent).toNat * 2 ^ f.fractionBits + 2 ^ f.fractionBits := by
    have hsucc : (q - f.leastExponent).toNat = (q - 1 - f.leastExponent).toNat + 1 := by omega
    rw [hsucc]
    ring
  rw [f.ofQuotient_eq hnum hden (he.symm ▸ hnear), he, hsum]
  exact Nat.min_eq_left hfinite.le

/-- Only a number with the least significand of its unit has reals around it below its power of two, and
then there is less room below it. -/
theorem Around.least_of_lt {magnitude : Nat} {x : ℚ} (hpos : 0 < magnitude)
    (h : Around (f.decompose magnitude).1 (f.decompose magnitude).2 (f.roomBelow magnitude) x)
    (hsmaller : (f.decompose magnitude).2 ≠ f.leastExponent)
    (hbelow : x < 2 ^ ((f.fractionBits : Int) + (f.decompose magnitude).2)) :
    (f.decompose magnitude).1 = 2 ^ f.fractionBits ∧ f.roomBelow magnitude = 1 / 4 := by
  have hspec := f.decompose_spec hpos
  have hunit := two_zpow_pos (f.decompose magnitude).2
  have hroom := f.roomBelow_le_half magnitude
  have hleast : (f.decompose magnitude).1 = 2 ^ f.fractionBits := by
    by_contra hne
    have hmore : (2 ^ f.fractionBits : ℚ) + 1 ≤ (f.decompose magnitude).1 := by
      exact_mod_cast Nat.lt_of_le_of_ne (hspec.normal.resolve_left hsmaller) (Ne.symm hne)
    have hlow := h.low
    rw [two_zpow_fraction] at hbelow
    nlinarith
  refine ⟨hleast, ?_⟩
  rw [roomBelow]
  exact if_pos ⟨hleast, lt_of_le_of_ne hspec.least (Ne.symm hsmaller)⟩

theorem ofQuotient_around {magnitude num den : Nat} (hpos : 0 < magnitude)
    (hfinite : magnitude < f.infinity) (hnum : 0 < num) (hden : 0 < den)
    (h : Around (f.decompose magnitude).1 (f.decompose magnitude).2 (f.roomBelow magnitude)
      (num / den)) : f.ofQuotient num den = magnitude := by
  have hspec := f.decompose_spec hpos
  by_cases hinside : (f.decompose magnitude).2 = f.leastExponent ∨
      (2 : ℚ) ^ ((f.fractionBits : Int) + (f.decompose magnitude).2) ≤ num / den
  · exact f.ofQuotient_inside hspec hfinite hnum hden (h.mono (f.roomBelow_le_half magnitude)) hinside
  · obtain ⟨hsmaller, hbelow⟩ := not_or.1 hinside
    rw [not_le] at hbelow
    obtain ⟨hleast, hroom⟩ := h.least_of_lt f hpos hsmaller hbelow
    have hmagnitude := hspec.eq_magnitude
    have hlow := h.low
    rw [hleast] at hmagnitude hlow
    rw [hroom, Nat.cast_pow, Nat.cast_ofNat] at hlow
    rw [f.ofQuotient_under (lt_of_le_of_ne hspec.least (Ne.symm hsmaller)) hnum hden
      (hmagnitude ▸ hfinite) hlow hbelow]
    exact hmagnitude.symm

/-! ## Decimals -/

/-- Beyond this power of two, and below its inverse, no number of the format is near. -/
def reach : Nat := 2 ^ f.exponentBits + f.fractionBits

theorem leastExponent_bounds (hfinite : 0 < f.infinity) :
    -(f.reach : Int) ≤ f.leastExponent - 1 ∧
      f.leastExponent + f.fractionBits + 2 ^ f.exponentBits ≤ f.reach + 2 ∧
      f.leastExponent + f.fractionBits + 1 ≤ f.reach := by
  have hexponent : f.exponentBits ≠ 0 := by
    intro hzero
    rw [infinity, hzero] at hfinite
    simp at hfinite
  obtain ⟨k, hk⟩ := Nat.exists_eq_succ_of_ne_zero hexponent
  have hone : (1 : Int) ≤ 2 ^ k := one_le_pow₀ (by norm_num)
  have hdouble : (2 : Int) ^ (k + 1) = 2 * 2 ^ k := by ring
  rw [reach, leastExponent, hk, Nat.succ_sub_one, Nat.succ_eq_add_one]
  push_cast
  rw [hdouble]
  refine ⟨?_, ?_, ?_⟩ <;> linarith

theorem around_low {magnitude : Nat} (hpos : 0 < magnitude) {x : ℚ}
    (h : Around (f.decompose magnitude).1 (f.decompose magnitude).2 (f.roomBelow magnitude) x) :
    (2 : ℚ) ^ ((f.decompose magnitude).2 - 1) ≤ x := by
  have hunit := two_zpow_pos (f.decompose magnitude).2
  have hone : (1 : ℚ) ≤ (f.decompose magnitude).1 := by exact_mod_cast (f.decompose_spec hpos).pos
  have hlow := (h.mono (f.roomBelow_le_half magnitude)).low
  calc (2 : ℚ) ^ ((f.decompose magnitude).2 - 1) = 1 / 2 * 2 ^ (f.decompose magnitude).2 := by
        rw [zpow_sub_one₀ (by norm_num)]
        ring
    _ ≤ x := by nlinarith

/-- The unit of a finite number is below the reach with all its digits. -/
theorem Decomposed.le_reach {f : BinaryFormat} {magnitude m : Nat} {q : Int}
    (h : f.Decomposed magnitude m q) (hfinite : magnitude < f.infinity) :
    q + f.fractionBits + 1 ≤ f.reach := by
  obtain ⟨-, htop, hleastTop⟩ := f.leastExponent_bounds (Nat.lt_of_le_of_lt (Nat.zero_le _) hfinite)
  rcases h.normal with rfl | hnormal
  · exact hleastTop
  · have hsteps : (q - f.leastExponent).toNat + 1 < 2 ^ f.exponentBits - 1 := by
      refine lt_of_mul_lt_mul_right (a := 2 ^ f.fractionBits) ?_ (Nat.zero_le _)
      rw [infinity] at hfinite
      calc ((q - f.leastExponent).toNat + 1) * 2 ^ f.fractionBits
          = (q - f.leastExponent).toNat * 2 ^ f.fractionBits + 2 ^ f.fractionBits := by ring
        _ ≤ magnitude := by
          rw [h.eq_magnitude]
          exact Nat.add_le_add_left hnormal _
        _ < _ := hfinite
    have hcast : ((2 ^ f.exponentBits : Nat) : Int) = 2 ^ f.exponentBits := by
      push_cast
      rfl
    have hleast := h.least
    omega

theorem around_bounds {magnitude : Nat} (hpos : 0 < magnitude) (hfinite : magnitude < f.infinity)
    {x : ℚ} (h : Around (f.decompose magnitude).1 (f.decompose magnitude).2
      (f.roomBelow magnitude) x) :
    (2 : ℚ) ^ (-(f.reach : Int)) ≤ x ∧ x < 2 ^ (f.reach : Int) := by
  have hspec := f.decompose_spec hpos
  obtain ⟨hbottom, -, -⟩ := f.leastExponent_bounds (Nat.lt_of_le_of_lt (Nat.zero_le _) hfinite)
  have hleast := hspec.least
  constructor
  · exact le_trans (zpow_le_zpow_right₀ (by norm_num) (by omega)) (f.around_low hpos h)
  · have hunit := two_zpow_pos (f.decompose magnitude).2
    have hm := hspec.significand_lt
    have hhigh := h.high
    calc x < 2 * 2 ^ f.fractionBits * 2 ^ (f.decompose magnitude).2 := by nlinarith
      _ = 2 ^ ((f.decompose magnitude).2 + f.fractionBits + 1) := by
        rw [two_zpow_add_one, Int.add_comm, two_zpow_fraction]
        ring
      _ ≤ 2 ^ (f.reach : Int) := zpow_le_zpow_right₀ (by norm_num) (hspec.le_reach hfinite)

theorem ten_pow_le {n : Nat} (hn : 0 < n) : 10 ^ (n.log2 / 4) ≤ n :=
  calc 10 ^ (n.log2 / 4) ≤ (2 ^ 4) ^ (n.log2 / 4) := Nat.pow_le_pow_left (by norm_num) _
    _ = 2 ^ (4 * (n.log2 / 4)) := (pow_mul 2 4 _).symm
    _ ≤ 2 ^ n.log2 := Nat.pow_le_pow_right (by norm_num) (by omega)
    _ ≤ n := Nat.log2_self_le (Nat.ne_of_gt hn)

theorem lt_ten_pow (n : Nat) : n < 10 ^ (n.log2 / 3 + 1) :=
  calc n < 2 ^ (n.log2 + 1) := Nat.lt_log2_self
    _ ≤ 2 ^ (3 * (n.log2 / 3 + 1)) := Nat.pow_le_pow_right (by norm_num) (by omega)
    _ = (2 ^ 3) ^ (n.log2 / 3 + 1) := pow_mul 2 3 _
    _ ≤ 10 ^ (n.log2 / 3 + 1) := Nat.pow_le_pow_left (by norm_num) _

/-- A number with its digits above the reach is above every finite number. -/
theorem digits_le_reach {n : Nat} {e : Int} (hn : 0 < n)
    (h : (n : ℚ) * 10 ^ e < 2 ^ (f.reach : Int)) : e + (n.log2 / 4 : Nat) ≤ f.reach := by
  by_contra habove
  have hten : (0 : ℚ) < 10 ^ e := zpow_pos (by norm_num) e
  have hdigits : ((10 : ℚ) ^ (n.log2 / 4)) ≤ n := by exact_mod_cast ten_pow_le hn
  refine absurd h (not_lt.2 ?_)
  calc (2 : ℚ) ^ (f.reach : Int) ≤ 10 ^ (f.reach : Int) := by
        rw [zpow_natCast, zpow_natCast]
        exact pow_le_pow_left₀ (by norm_num) (by norm_num) _
    _ ≤ 10 ^ (e + (n.log2 / 4 : Nat)) := zpow_le_zpow_right₀ (by norm_num) (not_le.1 habove).le
    _ = 10 ^ (n.log2 / 4) * 10 ^ e := by
      rw [zpow_add₀ (by norm_num), zpow_natCast, mul_comm]
    _ ≤ n * 10 ^ e := mul_le_mul_of_nonneg_right hdigits hten.le

/-- A number with its digits below the inverse of the reach is below every finite number. -/
theorem reach_le_digits {n : Nat} {e : Int} (h : (2 : ℚ) ^ (-(f.reach : Int)) ≤ n * 10 ^ e) :
    -(f.reach : Int) ≤ e + (n.log2 / 3 : Nat) + 1 := by
  by_contra hbelow
  have hten : (0 : ℚ) < 10 ^ e := zpow_pos (by norm_num) e
  have hdigits : (n : ℚ) < 10 ^ (n.log2 / 3 + 1) := by exact_mod_cast lt_ten_pow n
  refine absurd h (not_le.2 ?_)
  calc (n : ℚ) * 10 ^ e < 10 ^ (n.log2 / 3 + 1) * 10 ^ e := mul_lt_mul_of_pos_right hdigits hten
    _ = 10 ^ (e + (n.log2 / 3 : Nat) + 1) := by
      rw [add_assoc, zpow_add₀ (by norm_num), mul_comm]
      exact_mod_cast rfl
    _ ≤ 10 ^ (-(f.reach : Int)) := zpow_le_zpow_right₀ (by norm_num) (not_le.1 hbelow).le
    _ ≤ 2 ^ (-(f.reach : Int)) := by
      rw [zpow_neg, zpow_neg, zpow_natCast, zpow_natCast]
      exact inv_anti₀ (by positivity) (pow_le_pow_left₀ (by norm_num) (by norm_num) _)

/-- Numbers near a finite one are not taken for numbers out of reach. -/
theorem ofDecimal_around {magnitude n : Nat} {e : Int} (hpos : 0 < magnitude)
    (hfinite : magnitude < f.infinity) (hn : 0 < n)
    (h : Around (f.decompose magnitude).1 (f.decompose magnitude).2 (f.roomBelow magnitude)
      (n * 10 ^ e)) : f.ofDecimal n e = magnitude := by
  obtain ⟨hlow, hhigh⟩ := f.around_bounds hpos hfinite h
  have hreach : (2 : Int) ^ f.exponentBits + f.fractionBits = f.reach := by
    rw [reach]
    push_cast
    rfl
  rw [ofDecimal, hreach, if_neg (Nat.ne_of_gt hn), if_neg (not_lt.2 (f.digits_le_reach hn hhigh)),
    if_neg (not_lt.2 (f.reach_le_digits hlow))]
  split
  · next he =>
    refine f.ofQuotient_around hpos hfinite (by positivity) Nat.one_pos ?_
    obtain ⟨k, rfl⟩ := Int.eq_ofNat_of_zero_le he
    rw [zpow_natCast] at h
    rw [Nat.cast_one, div_one, Int.toNat_natCast]
    exact_mod_cast h
  · next he =>
    refine f.ofQuotient_around hpos hfinite hn (by positivity) ?_
    obtain ⟨k, hk⟩ := Int.eq_ofNat_of_zero_le (show 0 ≤ -e by omega)
    obtain rfl : e = -(k : Int) := by omega
    rw [zpow_neg, zpow_natCast, ← div_eq_mul_inv] at h
    rw [neg_neg, Int.toNat_natCast]
    exact_mod_cast h

end Cql.BinaryFormat
