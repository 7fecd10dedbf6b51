import Cql.Codec.Temporal
import Cql.Proofs.Quoting
import Cql.Proofs.TimeText
import Cql.Proofs.Words

/-!
Literals of stored dates, times and timestamps give back the stored number, on the calendar and beyond it.
-/

namespace Cql

theorem Integer.mem_splitSign {c : Char} {t : Text} (h : c ∈ t.tail) : c ∈ (splitSign t).2 := by
  unfold splitSign
  split
  · exact h
  · exact h
  · exact List.mem_of_mem_tail h

/-- A literal that starts with a quote or a digit is no bare name, and the other way round. -/
theorem Quoted.unquoteIfQuoted_print (i : Int) : unquoteIfQuoted (Integer.print i) = Integer.print i := by
  refine unquoteIfQuoted_bare fun h => ?_
  exact absurd (Integer.print_isNameChar _ (List.mem_of_mem_head? h)) (by decide)

/-! ## Days since the epoch -/

theorem toInt_storedEpoch : storedEpoch.toInt = 2 ^ 31 := by decide

theorem days_inWord (stored : UInt32) :
    Word.InWord ((Int64.ofNat stored.toNat).toInt - storedEpoch.toInt) := by
  have hlt := stored.toNat_lt
  rw [Int64.toInt_ofNat_of_lt (by omega), toInt_storedEpoch, Word.InWord]
  omega

theorem toInt_daysSinceEpoch (stored : UInt32) :
    (daysSinceEpoch stored).toInt = stored.toNat - 2 ^ 31 := by
  have hlt := stored.toNat_lt
  rw [daysSinceEpoch, Word.toInt_sub (days_inWord stored), Int64.toInt_ofNat_of_lt (by omega),
    toInt_storedEpoch]

namespace Codec

/-! ## Dates -/

theorem isLiteral_date (d : Date) (rest : Text) : Integer.isLiteral (d.print ++ rest) = false := by
  obtain ⟨t, ht, _, _, hsign⟩ := Date.printYear_eq (Date.calendarDay d.day).1
  have hmem : ∀ year : Text, year ≠ [] → ∀ more : Text, '-' ∈ (year ++ '-' :: more).tail := by
    intro year hyear more
    cases year with
    | nil => exact absurd rfl hyear
    | cons c year => exact List.mem_append_right _ List.mem_cons_self
  have hne : Date.printYear (Date.calendarDay d.day).1 ≠ [] := by
    rcases hsign with ⟨_, heq⟩ | ⟨_, heq | heq⟩ <;> rw [heq]
    · exact List.cons_ne_nil _ _
    · exact ht.ne_nil
    · exact List.cons_ne_nil _ _
  refine Integer.isLiteral_eq_false (c := '-') rfl (Integer.mem_splitSign ?_)
  simpa [Date.print, Date.calendar] using hmem _ hne _

theorem toStored_ofStored {stored : UInt32} {d : Date} (h : Date.ofStored stored = .ok d) :
    d.toStored = stored := by
  rw [Date.ofStored, orOverflow_ok_iff, Date.ofDay?, Option.dite_none_right_eq_some] at h
  obtain ⟨_, hd⟩ := h
  cases hd
  have hday : (daysSinceEpoch stored).toInt + storedEpoch.toInt = stored.toNat := by
    rw [toInt_daysSinceEpoch, toInt_storedEpoch, Int.sub_add_cancel]
  rw [Date.toStored, hday, Int.toNat_natCast, UInt32.ofNat_toNat]

theorem storedDate?_quote (d : Date) : storedDate? (Quoted.quote d.print) = some d.toStored := by
  have hliteral := isLiteral_date d []
  have htake := d.take_print []
  rw [List.append_nil] at hliteral htake
  simp only [storedDate?, Quoted.unquoteIfQuoted_quote, hliteral, htake, Bool.false_eq_true, if_false]

theorem storedDate?_displayDate (stored : UInt32) :
    storedDate? (Value.displayDate stored) = some stored := by
  simp only [Value.displayDate]
  split
  · next d hd =>
    rw [storedDate?_quote, toStored_ofStored hd]
  · have hdigits := Integer.digits_isDigits stored.toNat
    have hbare : Quoted.unquoteIfQuoted (Integer.digits stored.toNat) = Integer.digits stored.toNat :=
      Quoted.unquoteIfQuoted_bare fun h =>
        absurd (hdigits.all _ (List.mem_of_mem_head? h)) (by decide)
    have hread : Integer.readUpTo (2 ^ 32 - 1) (Integer.digits stored.toNat) = some stored.toNat :=
      Integer.readUpTo_digits (Nat.le_pred_of_lt stored.toNat_lt)
    simp only [storedDate?, hbare, Integer.isLiteral_digits hdigits, if_true, hread, Option.map_some,
      UInt32.ofNat_toNat]

/-! ## Timestamps -/

theorem isLiteral_instant (i : Instant) : Integer.isLiteral i.print = false := by
  rw [Instant.print_eq]
  exact isLiteral_date _ _

theorem ofStored_spec {stored : Int64} {i : Instant} (h : Instant.ofStored stored = .ok i) :
    i.nano < 1000000000 ∧ i.toStored = stored := by
  rw [Instant.ofStored, orOverflow_ok_iff, Instant.ofMillis?] at h
  obtain ⟨-, hsecond, hnano⟩ := Instant.of?_eq_some.1 h
  have hmillis : i.millis = stored.toInt := by
    rw [Instant.millis, hsecond, hnano]
    omega
  exact ⟨by omega, by rw [Instant.toStored, hmillis, Int64.ofInt_toInt]⟩

theorem readTimestamp_quote {α : Type} (ofMillis : Int → Option α) (ofInstant : Instant → α)
    {i : Instant} (hnano : i.nano < 1000000000) :
    readTimestamp ofMillis ofInstant (Quoted.quote i.print) = .ok (ofInstant i) := by
  simp only [readTimestamp, Quoted.unquoteIfQuoted_quote, isLiteral_instant, Bool.false_eq_true,
    if_false, Instant.read_print hnano, Option.map_some, orFail]

theorem readTimestamp_number {α : Type} {ofMillis : Int → Option α} (ofInstant : Instant → α)
    {stored : Int64} {a : α} (h : ofMillis stored.toInt = some a) :
    readTimestamp ofMillis ofInstant (Integer.print stored.toInt) = .ok a := by
  have hread : Integer.readWithin (-2 ^ 63) (2 ^ 63 - 1) (Integer.print stored.toInt) =
      some stored.toInt :=
    Integer.readWithin_print (by have := stored.le_toInt; omega)
      (by have := stored.toInt_lt; omega)
  simp only [readTimestamp, Quoted.unquoteIfQuoted_print, Integer.isLiteral_print, if_true, hread,
    Option.bind_some, h, orFail]

theorem readTimestamp_displayTimestamp (stored : Int64) :
    readTimestamp (fun millis => some (Int64.ofInt millis)) Instant.toStored
      (Value.displayTimestamp stored) = .ok stored := by
  simp only [Value.displayTimestamp]
  split
  · next i hi =>
    obtain ⟨hnano, hstored⟩ := ofStored_spec hi
    rw [readTimestamp_quote _ _ hnano, hstored]
  · exact readTimestamp_number _ (congrArg some (Int64.ofInt_toInt stored))

/-! ## Times -/

theorem printPadded_two {n : Int} (h : 0 ≤ n) : Integer.printPadded 2 n = Date.twoDigits n.toNat := by
  rw [Integer.printPadded, if_neg (by omega), Date.twoDigits, show n.natAbs = n.toNat by omega]

/-- Hours, minutes, seconds and nine digits behind the point. -/
def clock (hour minute second nano : Nat) : Text :=
  Date.twoDigits hour ++ ':' :: (Date.twoDigits minute ++ ':' :: (Date.twoDigits second ++ '.' ::
    Integer.padTo 9 (Integer.digits nano)))

theorem displayTime_eq {nanos : Int64} (h : isWithinDay nanos.toInt = true) :
    ∃ hour minute second nano, hour < 24 ∧ minute < 60 ∧ second < 60 ∧ nano < 1000000000 ∧
      ((hour * 3600 + minute * 60 + second) * 1000000000 + nano : Nat) = nanos.toInt ∧
      Value.displayTime nanos = Quoted.quote (clock hour minute second nano) := by
  have hbounds : 0 ≤ nanos.toInt ∧ nanos.toInt < 86400000000000 := by
    simp only [isWithinDay, Bool.and_eq_true, decide_eq_true_eq] at h
    rw [lastNano] at h
    omega
  generalize hn : nanos.toInt = n at hbounds
  have hsum : (((n / 3600000000000).toNat * 3600 + (n / 60000000000 % 60).toNat * 60 +
      (n / 1000000000 % 60).toNat) * 1000000000 + (n % 1000000000).toNat : Nat) = n := by omega
  have hhour : n.tdiv 3600000000000 = n / 3600000000000 := Int.tdiv_eq_ediv_of_nonneg hbounds.1
  have hminute : (n.tdiv 60000000000).tmod 60 = n / 60000000000 % 60 := by
    rw [Int.tdiv_eq_ediv_of_nonneg hbounds.1, Int.tmod_eq_emod_of_nonneg (by omega)]
  have hsecond : (n.tdiv 1000000000).tmod 60 = n / 1000000000 % 60 := by
    rw [Int.tdiv_eq_ediv_of_nonneg hbounds.1, Int.tmod_eq_emod_of_nonneg (by omega)]
  have hnano : n.tmod 1000000000 = n % 1000000000 := Int.tmod_eq_emod_of_nonneg hbounds.1
  have hnine : Integer.printPadded 9 (n % 1000000000) =
      Integer.padTo 9 (Integer.digits (n % 1000000000).toNat) := by
    rw [Integer.printPadded, if_neg (by omega),
      show (n % 1000000000).natAbs = (n % 1000000000).toNat by omega]
  refine ⟨(n / 3600000000000).toNat, (n / 60000000000 % 60).toNat, (n / 1000000000 % 60).toNat,
    (n % 1000000000).toNat, by omega, by omega, by omega, by omega, hsum, ?_⟩
  rw [Value.displayTime, hn, hhour, hminute, hsecond, hnano, hnine, printPadded_two (by omega),
    printPadded_two (by omega), printPadded_two (by omega)]
  simp only [clock, List.append_assoc, List.cons_append]

theorem clock_isBlank {hour minute second nano : Nat} :
    ∀ c ∈ clock hour minute second nano, Text.isBlank c = false := by
  have hmarks : Text.isBlank ':' = false ∧ Text.isBlank '.' = false := by decide
  simp only [clock, List.forall_mem_append, List.forall_mem_cons]
  exact ⟨Date.twoDigits_isBlank, hmarks.1, Date.twoDigits_isBlank, hmarks.1, Date.twoDigits_isBlank,
    hmarks.2, Date.padded_isBlank⟩

theorem isLiteral_hour (hour : Nat) (rest : Text) :
    Integer.isLiteral (Date.twoDigits hour ++ ':' :: rest) = false := by
  obtain ⟨c, t, hdigits, _⟩ := (Integer.padTo_isDigits (Integer.digits_isDigits hour) 2).head
  refine Integer.isLiteral_eq_false (c := ':') rfl (Integer.mem_splitSign ?_)
  rw [Date.twoDigits, hdigits]
  simp

theorem isLiteral_clock (hour minute second nano : Nat) :
    Integer.isLiteral (clock hour minute second nano) = false := isLiteral_hour hour _

theorem take_clock {hour minute second nano : Nat} (hhour : hour < 24) (hminute : minute < 60)
    (hsecond : second < 60) (hnano : nano < 1000000000) :
    ∃ time : TimeOfDay, TimeOfDay.take (clock hour minute second nano) = some (time, []) ∧
      time.nanos = (hour * 3600 + minute * 60 + second) * 1000000000 + nano := by
  have hwritten := TimeOfDay.group_written 9 0 hhour hminute hsecond (by decide) rfl hnano
    (Nat.mod_one _)
  rw [Nat.pow_zero, Nat.div_one] at hwritten
  obtain ⟨time, htake, hseconds, hnanos⟩ := TimeOfDay.take_whole hwritten
  exact ⟨time, htake, by rw [TimeOfDay.nanos, hseconds, hnanos]⟩

theorem match_whole {time : TimeOfDay} (f : TimeOfDay → Except Fault Int64)
    (other : Except Fault Int64) (taken : Option (TimeOfDay × Text)) : taken = some (time, []) →
    (match taken with | some (time, []) => f time | _ => other) = f time := by
  rintro rfl
  rfl

theorem readTime_of_take {literal t : Text} {time : TimeOfDay} {nanos : Int64}
    (hquoted : Quoted.unquote literal = some t) (hblank : ∀ c ∈ t, Text.isBlank c = false)
    (hliteral : Integer.isLiteral t = false) (htake : TimeOfDay.take t = some (time, []))
    (hstored : time.toStored = .ok nanos) : readTime literal = .ok nanos := by
  have hunquoted : unquoted (.native .time) literal = .ok t := by
    rw [unquoted, hquoted]
    rfl
  rw [← Text.trim_eq_self hblank] at hliteral htake
  rw [readTime, hunquoted]
  refine (if_neg (by rw [hliteral]; exact Bool.false_ne_true)).trans ?_
  -- the match must not be computed before it is known what is stored
  refine (match_whole _ _ _ htake).trans ?_
  rw [hstored]

theorem readTime_displayTime {nanos : Int64} (h : isWithinDay nanos.toInt = true) :
    readTime (Value.displayTime nanos) = .ok nanos := by
  obtain ⟨hour, minute, second, nano, hhour, hminute, hsecond, hnano, hsum, heq⟩ := displayTime_eq h
  obtain ⟨time, htake, hnanos⟩ := take_clock hhour hminute hsecond hnano
  have hstored : time.toStored = .ok nanos := by
    simp only [isWithinDay, Bool.and_eq_true, decide_eq_true_eq] at h
    rw [TimeOfDay.toStored, hnanos, hsum, if_pos h.2, Int64.ofInt_toInt]
  rw [heq]
  exact readTime_of_take (Quoted.unquote_quote _) clock_isBlank (isLiteral_clock ..) htake hstored

end Codec

end Cql
