import Cql.Number.Shortest
import Cql.Proofs.Rounding

/-!
The digits that are written for a number lie among the reals that are rounded to it. The search reaches a
power of ten below a quarter of the unit, where the multiple next below the number cannot be missed.
-/

namespace Cql.Shortest

open BinaryFormat

/-! ## Membership -/

/-- A real between the ends of an interval. -/
structure Interval.Lies (i : Interval) (x : ℚ) : Prop where
  low : (i.low : ℚ) / i.den ≤ x
  high : x ≤ (i.high : ℚ) / i.den
  strict : i.closed = false → (i.low : ℚ) / i.den < x ∧ x < (i.high : ℚ) / i.den

theorem Interval.lies_of_contains {i : Interval} {num den : Nat} (hi : 0 < i.den) (hden : 0 < den)
    (h : i.contains num den = true) : i.Lies (num / den) := by
  have hi' : (0 : ℚ) < i.den := by exact_mod_cast hi
  have hden' : (0 : ℚ) < den := by exact_mod_cast hden
  rw [contains] at h
  have hle : ∀ a b c d : Nat, (0 : ℚ) < b → (0 : ℚ) < d → a * d ≤ c * b → (a : ℚ) / b ≤ c / d := by
    intro a b c d hb hd hmul
    rw [div_le_div_iff₀ hb hd]
    exact_mod_cast hmul
  have hlt : ∀ a b c d : Nat, (0 : ℚ) < b → (0 : ℚ) < d → a * d < c * b → (a : ℚ) / b < c / d := by
    intro a b c d hb hd hmul
    rw [div_lt_div_iff₀ hb hd]
    exact_mod_cast hmul
  split at h
  · next hclosed =>
    simp only [Bool.and_eq_true, decide_eq_true_eq] at h
    refine ⟨hle _ _ _ _ hi' hden' h.1, hle _ _ _ _ hden' hi' h.2, fun hopen => ?_⟩
    rw [hclosed] at hopen
    cases hopen
  · simp only [Bool.and_eq_true, decide_eq_true_eq] at h
    have hlow := hlt _ _ _ _ hi' hden' h.1
    have hhigh := hlt _ _ _ _ hden' hi' h.2
    exact ⟨hlow.le, hhigh.le, fun _ => ⟨hlow, hhigh⟩⟩

theorem Interval.contains_of_lt {i : Interval} {num den : Nat} (hlow : i.low * den < num * i.den)
    (hhigh : num * i.den < i.high * den) : i.contains num den = true := by
  rw [contains]
  split <;> simp only [Bool.and_eq_true, decide_eq_true_eq] <;> omega

variable (f : BinaryFormat) (magnitude : Nat)

theorem interval_den_pos : 0 < (interval f magnitude).den := by
  rw [interval]
  positivity

/-- The interval of a number holds the reals that are rounded to it. -/
theorem around_of_lies (hpos : 0 < magnitude) {x : ℚ} (h : (interval f magnitude).Lies x) :
    Around (f.decompose magnitude).1 (f.decompose magnitude).2 (f.roomBelow magnitude) x := by
  have hspec := f.decompose_spec hpos
  rw [interval] at h
  rw [roomBelow]
  generalize f.decompose magnitude = pair at *
  obtain ⟨m, q⟩ := pair
  dsimp only at h hspec ⊢
  have hm := hspec.pos
  have hscale : ((2 ^ (q - 2).toNat : Nat) : ℚ) / (2 ^ (-(q - 2)).toNat : Nat) = 2 ^ q / 4 := by
    rw [← two_zpow_eq, zpow_sub₀ (by norm_num)]
    norm_num
  have hhalf : ((4 * m + 2 : Nat) : ℚ) * (2 ^ q / 4) = (m + 1 / 2) * 2 ^ q := by
    push_cast
    ring
  have hbelow : ((4 * m - (if m = 2 ^ f.fractionBits && f.leastExponent < q then 1 else 2) : Nat) : ℚ) *
      (2 ^ q / 4) =
        (m - if m = 2 ^ f.fractionBits ∧ f.leastExponent < q then 1 / 4 else 1 / 2) * 2 ^ q := by
    by_cases hshort : m = 2 ^ f.fractionBits ∧ f.leastExponent < q
    · rw [if_pos hshort, if_pos (by simpa using hshort), Nat.cast_sub (by omega)]
      push_cast
      ring
    · rw [if_neg hshort, if_neg (by simpa using hshort), Nat.cast_sub (by omega)]
      push_cast
      ring
  obtain ⟨hlow, hhigh, hstrict⟩ := h
  rw [Nat.cast_mul, mul_div_assoc, hscale] at hlow hhigh hstrict
  rw [Nat.cast_mul, mul_div_assoc, hscale, hhalf] at hstrict
  rw [hbelow] at hlow hstrict
  rw [hhalf] at hhigh
  refine ⟨hlow, hhigh, fun hodd => hstrict ?_⟩
  rw [hodd]
  rfl

/-! ## The search -/

/-- What is found at a power of ten lies in the interval. -/
theorem contains_of_atPower {tie : Tie} {i : Interval} {k : Int} {n : Nat}
    (h : atPower tie i k = some n) : i.contains (n * 10 ^ k.toNat) (10 ^ (-k).toNat) = true := by
  rw [atPower] at h
  split at h
  · next hboth =>
    obtain ⟨hbelow, habove⟩ := Bool.and_eq_true_iff.1 hboth
    cases h
    split
    · exact habove
    · exact hbelow
  · split at h
    · next hbelow =>
      cases h
      exact hbelow
    · split at h
      · next habove =>
        cases h
        exact habove
      · cases h

/-- A multiple of a power of ten that is not above the room below the number is not missed. -/
theorem exists_atPower (tie : Tie) {i : Interval} {k : Int} (hden : 0 < i.den)
    (hhigh : i.value < i.high)
    (hroom : i.den * 10 ^ k.toNat ≤ (i.value - i.low) * 10 ^ (-k).toNat) :
    ∃ n, atPower tie i k = some n := by
  have hup : 0 < i.den * 10 ^ k.toNat := by positivity
  have hdown : 0 < 10 ^ (-k).toNat := by positivity
  have hsplit := Nat.div_add_mod (i.value * 10 ^ (-k).toNat) (i.den * 10 ^ k.toNat)
  have hmod := Nat.mod_lt (i.value * 10 ^ (-k).toNat) hup
  have hbelow : i.contains (i.value * 10 ^ (-k).toNat / (i.den * 10 ^ k.toNat) * 10 ^ k.toNat)
      (10 ^ (-k).toNat) = true := by
    generalize i.value * 10 ^ (-k).toNat / (i.den * 10 ^ k.toNat) = floor at *
    rw [Nat.sub_mul] at hroom
    have hfloor : floor * 10 ^ k.toNat * i.den = i.den * 10 ^ k.toNat * floor := by ring
    have hvalue : i.value * 10 ^ (-k).toNat < i.high * 10 ^ (-k).toNat :=
      Nat.mul_lt_mul_of_pos_right hhigh hdown
    refine Interval.contains_of_lt ?_ ?_
    · omega
    · omega
  rw [atPower]
  rw [hbelow]
  cases i.contains ((i.value * 10 ^ (-k).toNat / (i.den * 10 ^ k.toNat) + 1) * 10 ^ k.toNat)
      (10 ^ (-k).toNat)
  · exact ⟨_, rfl⟩
  · exact ⟨_, rfl⟩

/-- The search ends with a hit if it goes down to where there is one at every power. -/
theorem search_spec {tie : Tie} {i : Interval} {finest : Int}
    (hfinest : ∀ k ≤ finest, ∃ n, atPower tie i k = some n) {steps : Nat} {k : Int}
    (hsteps : k - steps ≤ finest) :
    ∃ n j, search tie i (steps + 1) k = (n, j) ∧ atPower tie i j = some n := by
  induction steps generalizing k with
  | zero =>
    obtain ⟨n, hn⟩ := hfinest k (by omega)
    exact ⟨n, k, by rw [search, hn], hn⟩
  | succ steps ih =>
    rw [search]
    cases hhit : atPower tie i k with
    | some n => exact ⟨n, k, rfl, hhit⟩
    | none => exact ih (by omega)

theorem two_zpow_le_powerAtLeast (e : Int) : (2 : ℚ) ^ e ≤ 10 ^ powerAtLeast e := by
  rw [powerAtLeast]
  split
  · next he =>
    calc (2 : ℚ) ^ e ≤ 2 ^ (3 * (e / 3 + 1)) := zpow_le_zpow_right₀ (by norm_num) (by omega)
      _ = 8 ^ (e / 3 + 1) := by
        rw [zpow_mul]
        norm_num
      _ ≤ 10 ^ (e / 3 + 1) := zpow_le_zpow_left₀ (by omega) (by norm_num) (by norm_num)
  · next he =>
    obtain ⟨n, hn⟩ := Int.eq_ofNat_of_zero_le (show 0 ≤ -e by omega)
    obtain rfl : e = -(n : Int) := by omega
    have hten : 10 ^ (n * 3 / 10) ≤ 2 ^ n := by
      refine (Nat.pow_le_pow_iff_left (n := 10) (by norm_num)).1 ?_
      calc (10 ^ (n * 3 / 10)) ^ 10 = 10 ^ (n * 3 / 10 * 10) := (pow_mul _ _ _).symm
        _ ≤ 10 ^ (3 * n) := Nat.pow_le_pow_right (by norm_num) (by omega)
        _ = 1000 ^ n := by
          rw [pow_mul]
          norm_num
        _ ≤ 1024 ^ n := Nat.pow_le_pow_left (by norm_num) _
        _ = (2 ^ n) ^ 10 := by
          rw [← pow_mul, mul_comm, pow_mul]
          norm_num
    have hexponent : (n : Int) * 3 / 10 = ((n * 3 / 10 : Nat) : Int) := by omega
    rw [neg_neg, hexponent, zpow_neg, zpow_neg, zpow_natCast, zpow_natCast]
    exact inv_anti₀ (by positivity) (by exact_mod_cast hten)

theorem exists_atPower_of_le_finest (tie : Tie) (hpos : 0 < magnitude) {k : Int}
    (hk : k ≤ -powerAtLeast (2 - (f.decompose magnitude).2)) :
    ∃ n, atPower tie (interval f magnitude) k = some n := by
  have hspec := f.decompose_spec hpos
  rw [interval]
  generalize f.decompose magnitude = pair at *
  obtain ⟨m, q⟩ := pair
  dsimp only at hk hspec ⊢
  have hm := hspec.pos
  refine exists_atPower tie (by positivity) ?_ ?_
  · exact Nat.mul_lt_mul_of_pos_right (by omega) (by positivity)
  · have hpower : (10 : ℚ) ^ k ≤ 2 ^ (q - 2) :=
      calc (10 : ℚ) ^ k ≤ 10 ^ (-powerAtLeast (2 - q)) := zpow_le_zpow_right₀ (by norm_num) hk
        _ ≤ (2 ^ (2 - q))⁻¹ := by
          rw [zpow_neg]
          exact inv_anti₀ (two_zpow_pos _) (two_zpow_le_powerAtLeast _)
        _ = 2 ^ (q - 2) := by
          rw [← zpow_neg]
          congr 1
          omega
    have hunits : 2 ^ (-(q - 2)).toNat * 10 ^ k.toNat ≤ 2 ^ (q - 2).toNat * 10 ^ (-k).toNat := by
      have hten := zpow_eq 10 (by norm_num) k
      push_cast at hten
      rw [hten, two_zpow_eq, div_le_div_iff₀ (by positivity) (by positivity), mul_comm] at hpower
      exact_mod_cast hpower
    refine Nat.le_trans hunits (Nat.mul_le_mul_right _ ?_)
    rw [← Nat.sub_mul]
    refine Nat.le_mul_of_pos_left _ ?_
    split <;> omega

/-- The digits that are written stand for a number that is rounded to the one they were found for. -/
theorem digits_around (tie : Tie) (hpos : 0 < magnitude) :
    ∃ n k, digits tie f magnitude = (n, k) ∧ 0 < n ∧
      Around (f.decompose magnitude).1 (f.decompose magnitude).2 (f.roomBelow magnitude)
        (n * 10 ^ k) := by
  rw [digits]
  generalize hfinest : -powerAtLeast (2 - (f.decompose magnitude).2) = finest
  generalize powerAtLeast _ = coarsest
  obtain ⟨n, k, hsearch, hhit⟩ : ∃ n k, search tie (interval f magnitude)
      ((coarsest - finest).toNat + 1) coarsest = (n, k) ∧
        atPower tie (interval f magnitude) k = some n := by
    have hhit : ∀ k ≤ finest, ∃ n, atPower tie (interval f magnitude) k = some n := fun k hk =>
      exists_atPower_of_le_finest f magnitude tie hpos (hfinest ▸ hk)
    exact search_spec hhit (by omega)
  have haround : Around (f.decompose magnitude).1 (f.decompose magnitude).2 (f.roomBelow magnitude)
      (n * 10 ^ k) := by
    have hlies := Interval.lies_of_contains (interval_den_pos f magnitude) (by positivity)
      (contains_of_atPower hhit)
    have hten := zpow_eq 10 (by norm_num) k
    rw [Nat.cast_mul, mul_div_assoc, ← hten] at hlies
    exact around_of_lies f magnitude hpos hlies
  refine ⟨n, k, hsearch, Nat.pos_of_ne_zero fun hzero => ?_, haround⟩
  have hleast := f.around_low hpos haround
  rw [hzero, Nat.cast_zero, zero_mul] at hleast
  exact absurd hleast (not_le.2 (two_zpow_pos _))

end Cql.Shortest
