import Cql.Proofs.LeapSeconds

/-!
Conversions of stored dates and times in words. Days and stored dates take back each other, and so do times
of day and their nanoseconds. One sum can leave its word: that of the epoch and a number of days near the
end of the word, which no stored date has.
-/

namespace Cql

variable {days : Int64}

/-! ## Dates -/

/-- No date is too far from the epoch. -/
theorem daysSinceEpoch_eq (build : Word.Build) (stored : UInt32) :
    Word.sub build (Int64.ofNat stored.toNat) storedEpoch = .ok (daysSinceEpoch stored) :=
  Word.sub_inWord (days_inWord stored)

/-- Where the sum with the epoch is a word, what is stored is that sum if there is room for it. -/
theorem storedOfDays_inWord (build : Word.Build) (h : days.toInt < 2 ^ 63 - 2 ^ 31) :
    ∃ sum : Int64, sum.toInt = days.toInt + 2 ^ 31 ∧
      storedOfDays build days = .ok (orOverflow (Word.narrow? sum)) := by
  have hlow := days.le_toInt
  have hword : Word.InWord (days.toInt + storedEpoch.toInt) := by
    rw [toInt_storedEpoch, Word.InWord]
    omega
  obtain ⟨sum, hadd, hsum⟩ : ∃ sum, Word.add build days storedEpoch = .ok sum ∧
      sum.toInt = days.toInt + storedEpoch.toInt := Word.add_inWord hword
  rw [toInt_storedEpoch] at hsum
  exact ⟨sum, hsum, by rw [storedOfDays, hadd, ok_bind]⟩

/-- Sums above the word: a number of days that is too great becomes one far below zero, or stops the
program. -/
theorem storedOfDays_above (h : 2 ^ 63 - 2 ^ 31 ≤ days.toInt) :
    storedOfDays .checked days = .error .sum ∧
      storedOfDays .wrapping days = .ok (.error .overflow) := by
  have hlt := days.toInt_lt
  have hsum : days.toInt + storedEpoch.toInt = days.toInt + 2 ^ 31 := by rw [toInt_storedEpoch]
  constructor
  · have hleaves : ¬ Word.InWord (days.toInt + storedEpoch.toInt) := fun hin => by
      have := hin.2
      omega
    rw [storedOfDays, Word.add_checked hleaves, error_bind]
  · obtain ⟨sum, hadd, hsumInt⟩ := Word.add_wrapping (a := days) (b := storedEpoch) (by omega)
    rw [storedOfDays, hadd, ok_bind, Word.narrow?_eq_none.2 (by omega), orOverflow]

theorem storedOfDays_daysSinceEpoch (build : Word.Build) (stored : UInt32) :
    storedOfDays build (daysSinceEpoch stored) = .ok (.ok stored) := by
  have hlt := stored.toNat_lt
  have hdays := toInt_daysSinceEpoch stored
  have hword : (daysSinceEpoch stored).toInt < 2 ^ 63 - 2 ^ 31 := by omega
  obtain ⟨sum, hsum, heq⟩ := storedOfDays_inWord build hword
  have hnarrow : Word.narrow? sum = some stored := Word.narrow?_eq_some.2 (by omega)
  rw [heq, hnarrow, orOverflow]

theorem storedOfDays_cases (build : Word.Build) (days : Int64) :
    (-2 ^ 31 ≤ days.toInt ∧ days.toInt < 2 ^ 31 ∧
      ∃ stored, storedOfDays build days = .ok (.ok stored) ∧ daysSinceEpoch stored = days) ∨
    ((days.toInt < -2 ^ 31 ∨ 2 ^ 31 ≤ days.toInt) ∧
      (days.toInt < 2 ^ 63 - 2 ^ 31 ∨ build = .wrapping) ∧
      storedOfDays build days = .ok (.error .overflow)) ∨
    (2 ^ 63 - 2 ^ 31 ≤ days.toInt ∧ build = .checked ∧ storedOfDays build days = .error .sum) := by
  by_cases hword : days.toInt < 2 ^ 63 - 2 ^ 31
  · obtain ⟨sum, hsum, heq⟩ := storedOfDays_inWord build hword
    cases hnarrow : Word.narrow? sum with
    | some stored =>
      have hstored := Word.narrow?_eq_some.1 hnarrow
      have hlt := stored.toNat_lt
      refine .inl ⟨by omega, by omega, stored, by rw [heq, hnarrow, orOverflow], ?_⟩
      rw [← Int64.toInt_inj, toInt_daysSinceEpoch]
      omega
    | none =>
      have hfar := Word.narrow?_eq_none.1 hnarrow
      exact .inr (.inl ⟨by omega, .inl hword, by rw [heq, hnarrow, orOverflow]⟩)
  · have habove : 2 ^ 63 - 2 ^ 31 ≤ days.toInt := by omega
    obtain ⟨hchecked, hwrapping⟩ := storedOfDays_above habove
    cases build with
    | checked => exact .inr (.inr ⟨habove, rfl, hchecked⟩)
    | wrapping => exact .inr (.inl ⟨.inr (by omega), .inr rfl, hwrapping⟩)

/-! ## Times -/

namespace TimeOfDay

/-- What is a time of day at all is the number again. -/
theorem ofStored_cases (n : Int64) :
    (0 ≤ n.toInt ∧ n.toInt ≤ lastNano ∧ ∃ t, ofStored n = .ok t ∧ t.toStored = .ok n) ∨
    ((n.toInt < 0 ∨ lastNano < n.toInt) ∧ ofStored n = .error .overflow) := by
  by_cases hday : 0 ≤ n.toInt ∧ n.toInt ≤ lastNano
  · obtain ⟨t, ht⟩ := exists_at hday.1 hday.2
    refine .inl ⟨hday.1, hday.2, t, ofStored_eq_ok.2 ht, ?_⟩
    rw [toStored, ht.2, if_pos hday.2, Int64.ofInt_toInt]
  · refine .inr ⟨by omega, ?_⟩
    cases hstored : ofStored n with
    | error found =>
      cases found
      rfl
    | ok t => exact absurd (ofStored_eq_ok.1 hstored).le_lastNano hday

end TimeOfDay

/-- Days and stored dates are each other's inverses, and so are times of day and their nanoseconds; what
has no counterpart is told to be too large, but for the days so near the end of the word that their sum
with the epoch leaves it. A checked program stops there. The difference that gives the days of a date never
leaves its word, and every number has its seconds and nanoseconds. -/
theorem conversions_exact (build : Word.Build) :
    (∀ stored : UInt32,
      Word.sub build (Int64.ofNat stored.toNat) storedEpoch = .ok (daysSinceEpoch stored) ∧
      (daysSinceEpoch stored).toInt = stored.toNat - 2 ^ 31 ∧
      storedOfDays build (daysSinceEpoch stored) = .ok (.ok stored)) ∧
    (∀ days : Int64,
      (-2 ^ 31 ≤ days.toInt ∧ days.toInt < 2 ^ 31 ∧
        ∃ stored, storedOfDays build days = .ok (.ok stored) ∧ daysSinceEpoch stored = days) ∨
      ((days.toInt < -2 ^ 31 ∨ 2 ^ 31 ≤ days.toInt) ∧
        (days.toInt < 2 ^ 63 - 2 ^ 31 ∨ build = .wrapping) ∧
        storedOfDays build days = .ok (.error .overflow)) ∨
      (2 ^ 63 - 2 ^ 31 ≤ days.toInt ∧ build = .checked ∧ storedOfDays build days = .error .sum)) ∧
    ∀ n : Int64,
      (Word.div n nanosPerSecond = .ok (n / nanosPerSecond) ∧
        Word.rem n nanosPerSecond = .ok (n % nanosPerSecond)) ∧
      ((0 ≤ n.toInt ∧ n.toInt ≤ lastNano ∧
          ∃ t, TimeOfDay.ofStored n = .ok t ∧ t.toStored = .ok n) ∨
        ((n.toInt < 0 ∨ lastNano < n.toInt) ∧ TimeOfDay.ofStored n = .error .overflow)) := by
  have hsecond : 1 < nanosPerSecond.toInt := by decide
  refine ⟨fun stored => ?_, storedOfDays_cases build, fun n => ⟨?_, TimeOfDay.ofStored_cases n⟩⟩
  · exact ⟨daysSinceEpoch_eq build stored, toInt_daysSinceEpoch stored,
      storedOfDays_daysSinceEpoch build stored⟩
  · exact ⟨Word.div_of_one_lt hsecond n, Word.rem_of_one_lt hsecond n⟩

/-- The greatest word is a number of days without a date, and its sum with the epoch leaves the word. -/
theorem greatest_days_leave_word :
    ¬ Word.InWord (Int64.maxValue.toInt + storedEpoch.toInt) ∧
      storedOfDays .checked Int64.maxValue = .error .sum ∧
      storedOfDays .wrapping Int64.maxValue = .ok (.error .overflow) := by
  decide

end Cql
