import Cql.Proofs.Calendar
import Cql.Proofs.TimestampGrammar

/-!
Dates, times of day and instants are printed as the grammar of timestamps has them, and so they are read
back, dates also with more text behind them.
-/

namespace Cql

open Timestamp

namespace Date

theorem padded_isBlank {width n : Nat} :
    ∀ c ∈ Integer.padTo width (Integer.digits n), Text.isBlank c = false := by
  intro c hc
  have hdigits := Integer.padTo_isDigits (Integer.digits_isDigits n) width
  exact Identifier.isBlank_of_isNameChar (Integer.isNameChar_of_isDigit (hdigits.all c hc))

theorem twoDigits_isBlank {n : Nat} : ∀ c ∈ twoDigits n, Text.isBlank c = false := padded_isBlank

/-- Digits behind a mark bring no blanks into a text. -/
theorem marked_isBlank {front : Text} {mark : Char} {width n : Nat}
    (hfront : ∀ c ∈ front, Text.isBlank c = false) (hmark : Text.isBlank mark = false) :
    ∀ c ∈ front ++ mark :: Integer.padTo width (Integer.digits n), Text.isBlank c = false :=
  List.forall_mem_append.2 ⟨hfront, List.forall_mem_cons.2 ⟨hmark, padded_isBlank⟩⟩

theorem twoDigits_written {n : Nat} (hn : n < 100) : TwoDigits (twoDigits n) n where
  digits := Integer.padTo_isDigits (Integer.digits_isDigits n) 2
  length := Integer.length_padTo_digits (by decide) hn
  value := (Integer.ofDigits_padTo 2 _).trans (Integer.ofDigits_digits n)

theorem exists?_bounds {year : Int} {month day : Nat} (h : exists? year month day = true) :
    month < 100 ∧ day < 100 := by
  have hdays : daysInMonth year month ≤ 31 := by
    simp only [daysInMonth]
    split
    · split <;> decide
    · split <;> decide
  simp only [exists?, Bool.and_eq_true, decide_eq_true_eq] at h
  omega

/-- A year has at least four digits behind its sign. -/
theorem printYear_eq (year : Int) : ∃ t, Integer.IsDigits t ∧ 4 ≤ t.length ∧
    Integer.ofDigits 0 t = year.natAbs ∧
    (year < 0 ∧ printYear year = '-' :: t ∨
      0 ≤ year ∧ (printYear year = t ∨ printYear year = '+' :: t)) := by
  refine ⟨Integer.padTo 4 (Integer.digits year.natAbs), ?_, ?_, ?_, ?_⟩
  · exact Integer.padTo_isDigits (Integer.digits_isDigits _) 4
  · rw [Integer.length_padTo]
    exact Nat.le_max_left _ _
  · rw [Integer.ofDigits_padTo, Integer.ofDigits_digits]
  · simp only [printYear]
    split
    · next h => exact .inl ⟨h, rfl⟩
    · next h =>
      refine .inr ⟨by omega, ?_⟩
      split
      · exact .inl rfl
      · exact .inr rfl

theorem printYear_written (year : Int) : ∃ sign negative digits, YearSign sign negative ∧
    Integer.IsDigits digits ∧ 4 ≤ digits.length ∧ yearNumber negative digits = year ∧
    printYear year = sign ++ digits := by
  obtain ⟨t, ht, hlong, hvalue, hsign⟩ := printYear_eq year
  obtain ⟨hneg, heq⟩ | ⟨hpos, heq | heq⟩ := hsign
  · exact ⟨_, true, t, .minus, ht, hlong, by rw [yearNumber, if_pos rfl]; omega, heq⟩
  · exact ⟨_, false, t, .absent, ht, hlong, by rw [yearNumber, if_neg Bool.false_ne_true]; omega, heq⟩
  · exact ⟨_, false, t, .plus, ht, hlong, by rw [yearNumber, if_neg Bool.false_ne_true]; omega, heq⟩

theorem print_written (d : Date) : DateText d.print d := by
  obtain ⟨hexists, hnumber⟩ := calendarDay_spec d.day
  obtain ⟨hmonth, hday⟩ := exists?_bounds hexists
  obtain ⟨sign, negative, year, hsign, hyear, hlong, hvalue, hprint⟩ :=
    printYear_written (calendarDay d.day).1
  rw [← hvalue] at hexists hnumber
  have hwritten := DateText.day hsign hyear hlong (twoDigits_written hmonth) (twoDigits_written hday)
    hexists hnumber.symm
  have htext : d.print = sign ++ (year ++ '-' :: (twoDigits (calendarDay d.day).2.1 ++
      '-' :: twoDigits (calendarDay d.day).2.2)) := by
    simp [print, calendar, hprint]
  rw [htext]
  exact hwritten

/-- A date in front of any text. -/
theorem take_print (d : Date) (rest : Text) : take (d.print ++ rest) = some (d, rest) :=
  take_eq_some.2 ⟨d.print, d.print_written, rfl⟩

end Date

namespace TimeOfDay

/-- A fraction that is written with fewer than nine digits. -/
theorem group_written (width scale : Nat) {hour minute second nano : Nat} (hhour : hour < 24)
    (hminute : minute < 60) (hsecond : second < 60) (hwidth : 0 < width) (hsum : width + scale = 9)
    (hnano : nano < 1000000000) (hzeros : nano % 10 ^ scale = 0) :
    TimeText (Date.twoDigits hour ++ ':' :: (Date.twoDigits minute ++ ':' ::
      (Date.twoDigits second ++ '.' :: Integer.padTo width (Integer.digits (nano / 10 ^ scale)))))
      (hour * 3600 + minute * 60 + second) nano := by
  have hdigits := Integer.padTo_isDigits (Integer.digits_isDigits (nano / 10 ^ scale)) width
  have hbound : nano / 10 ^ scale < 10 ^ width := by
    rw [Nat.div_lt_iff_lt_mul (Nat.pow_pos (by decide)), ← Nat.pow_add, hsum]
    exact hnano
  have hlength := Integer.length_padTo_digits hwidth hbound
  have hvalue : nano / 10 ^ scale * 10 ^ (9 - width) = nano := by
    rw [show 9 - width = scale by omega, Nat.div_mul_cancel (Nat.dvd_of_mod_eq_zero hzeros)]
  have hwritten := TimeText.fraction (Date.twoDigits_written (show hour < 100 by omega))
    (Date.twoDigits_written (show minute < 100 by omega))
    (Date.twoDigits_written (show second < 100 by omega)) hdigits (by omega) hhour hminute hsecond
  rw [hlength, Integer.ofDigits_padTo, Integer.ofDigits_digits, hvalue] at hwritten
  exact hwritten

/-- Times other than leap seconds, with or without seconds and however long the fraction is. -/
theorem print_written {t : TimeOfDay} (hnano : t.nano < 1000000000) :
    TimeText t.print t.second t.nano := by
  have hlt := t.second_lt
  have hhour : t.second / 3600 < 24 := by omega
  have hminute : t.second / 60 % 60 < 60 := by omega
  have hsecond : t.second % 60 < 60 := by omega
  have hclock : t.second / 3600 * 3600 + t.second / 60 % 60 * 60 + t.second % 60 = t.second := by omega
  have hours := Date.twoDigits_written (show t.second / 3600 < 100 by omega)
  have minutes := Date.twoDigits_written (show t.second / 60 % 60 < 100 by omega)
  have seconds := Date.twoDigits_written (show t.second % 60 < 100 by omega)
  simp only [print, Nat.mod_eq_of_lt hnano, List.append_assoc, List.cons_append]
  generalize t.second / 3600 = h at *
  generalize t.second / 60 % 60 = m at *
  generalize t.second % 60 = s at *
  rw [← hclock]
  split
  · next hzero =>
    simp only [Bool.and_eq_true, decide_eq_true_eq] at hzero
    rw [hzero.1, hzero.2, Nat.add_zero]
    exact .minutes hours minutes hhour hminute
  · split
    · next hwhole =>
      rw [hwhole]
      exact .seconds hours minutes seconds hhour hminute hsecond
    · split
      · next hmillis => exact group_written 3 6 hhour hminute hsecond (by decide) rfl hnano hmillis
      · split
        · next hmicros => exact group_written 6 3 hhour hminute hsecond (by decide) rfl hnano hmicros
        · have hwritten := group_written 9 0 hhour hminute hsecond (by decide) rfl hnano (Nat.mod_one _)
          rwa [Nat.pow_zero, Nat.div_one] at hwritten

theorem take_print {t : TimeOfDay} (hnano : t.nano < 1000000000) : take t.print = some (t, []) := by
  obtain ⟨time, htake, hsecond, hnano⟩ := take_whole (print_written hnano)
  have hsame : time = t := by
    cases time
    cases t
    cases hsecond
    cases hnano
    rfl
  rwa [hsame] at htake

theorem print_isBlank (t : TimeOfDay) : ∀ c ∈ t.print, Text.isBlank c = false := by
  have hminutes : ∀ c ∈ Date.twoDigits (t.second / 3600) ++ ':' :: Date.twoDigits (t.second / 60 % 60),
      Text.isBlank c = false := Date.marked_isBlank Date.twoDigits_isBlank rfl
  have hseconds : ∀ c ∈ _ ++ ':' :: Date.twoDigits (t.second % 60), Text.isBlank c = false :=
    Date.marked_isBlank hminutes rfl
  simp only [print]
  split
  · exact hminutes
  · split
    · exact hseconds
    · repeat' split
      all_goals exact Date.marked_isBlank hseconds rfl

end TimeOfDay

namespace Offset

theorem print_eq {o : Offset} (h : o.seconds ≠ 0) :
    o.print = (if o.seconds < 0 then '-' else '+') :: (Date.twoDigits (o.seconds.natAbs / 3600) ++
      (':' :: (Date.twoDigits (o.seconds.natAbs / 60 % 60) ++
        if o.seconds.natAbs % 60 = 0 then [] else ':' :: Date.twoDigits (o.seconds.natAbs % 60)))) := by
  rw [print, if_neg h]
  by_cases hwhole : o.seconds.natAbs % 60 = 0
  · simp [hwhole]
  · simp [hwhole]

/-- Minutes and, behind a colon, the seconds. -/
theorem minutes_written {minutes seconds : Nat} (hminutes : minutes < 60) (hseconds : seconds < 60) :
    MinutesText (':' :: (Date.twoDigits minutes ++
      if seconds = 0 then [] else ':' :: Date.twoDigits seconds)) minutes seconds := by
  have htwo := Date.twoDigits_written (show minutes < 100 by omega)
  by_cases hzero : seconds = 0
  · rw [if_pos hzero, hzero, List.append_nil]
    exact .colon htwo
  · rw [if_neg hzero]
    exact .colons htwo (Date.twoDigits_written (show seconds < 100 by omega))

/-- Every offset but that of UTC, also one of less than an hour to the west. -/
theorem print_written {o : Offset} (h : o.seconds ≠ 0) : OffsetText o.print o.seconds := by
  have hlower := o.lower
  have hupper := o.upper
  rw [print_eq h]
  generalize hn : o.seconds.natAbs = n
  have hsum : n / 3600 * 3600 + n / 60 % 60 * 60 + n % 60 = n := by omega
  have hours := Date.twoDigits_written (show n / 3600 < 100 by omega)
  have hminutes := minutes_written (show n / 60 % 60 < 60 by omega) (show n % 60 < 60 by omega)
  split
  · have hwritten := OffsetText.west hours hminutes (by omega) (by omega) (by omega)
    rwa [hsum, show -(n : Int) = o.seconds by omega] at hwritten
  · have hwritten := OffsetText.east hours hminutes (by omega) (by omega) (by omega)
    rwa [hsum, show (n : Int) = o.seconds by omega] at hwritten

theorem takeZone_print (o : Offset) : takeZone o.print = some (o, []) := by
  refine takeZone_end.2 ?_
  by_cases h : o.seconds = 0
  · rw [print, if_pos h, h]
    exact .zulu
  · exact .offset (print_written h)

theorem print_isBlank (o : Offset) : ∀ c ∈ o.print, Text.isBlank c = false := by
  have hsign : Text.isBlank (if o.seconds < 0 then '-' else '+') = false := by
    split <;> rfl
  have hminutes : ∀ c ∈ (if o.seconds < 0 then '-' else '+') :: Date.twoDigits (o.seconds.natAbs / 3600)
      ++ ':' :: Date.twoDigits (o.seconds.natAbs / 60 % 60), Text.isBlank c = false :=
    Date.marked_isBlank (List.forall_mem_cons.2 ⟨hsign, Date.twoDigits_isBlank⟩) rfl
  simp only [print]
  split
  · exact List.forall_mem_singleton.2 rfl
  · split
    · exact hminutes
    · exact Date.marked_isBlank hminutes rfl

theorem readZone_print (o : Offset) : readZone o.print = some o := by
  rw [readZone, Text.trim_eq_self o.print_isBlank, o.takeZone_print]

end Offset

namespace Instant

/-- Zeros at the end of a fraction do not count. -/
theorem printFraction_spec {nano : Nat} (hpos : 0 < nano) (hnano : nano < 1000000000) :
    ∃ t, printFraction nano = '.' :: t ∧ Integer.IsDigits t ∧ t.length ≤ 9 ∧
      Integer.ofDigits 0 t * 10 ^ (9 - t.length) = nano := by
  have hdigits := Integer.padTo_isDigits (Integer.digits_isDigits nano) 9
  have hlength : (Integer.padTo 9 (Integer.digits nano)).length = 9 :=
    Integer.length_padTo_digits (by decide) hnano
  have hvalue : Integer.ofDigits 0 (Integer.padTo 9 (Integer.digits nano)) = nano := by
    rw [Integer.ofDigits_padTo, Integer.ofDigits_digits]
  have hprint : printFraction nano =
      '.' :: ((Integer.padTo 9 (Integer.digits nano)).reverse.dropWhile (· == '0')).reverse := by
    rw [printFraction, if_neg (Nat.ne_of_gt hpos)]
  generalize Integer.padTo 9 (Integer.digits nano) = all at *
  -- the digits are those that stay and some zeros behind them
  have hsplit : all = (all.reverse.dropWhile (· == '0')).reverse ++
      List.replicate (all.reverse.takeWhile (· == '0')).length '0' := by
    have hzeros : all.reverse.takeWhile (· == '0') =
        List.replicate (all.reverse.takeWhile (· == '0')).length '0' := by
      refine List.eq_replicate_iff.2 ⟨rfl, fun c hc => ?_⟩
      have hall := List.all_eq_true.1 (List.all_takeWhile (p := (· == '0')) (l := all.reverse)) c hc
      simpa using hall
    rw [← List.reverse_replicate, ← hzeros, ← List.reverse_append, List.takeWhile_append_dropWhile,
      List.reverse_reverse]
  generalize (all.reverse.dropWhile (· == '0')).reverse = t at hprint hsplit
  generalize (all.reverse.takeWhile (· == '0')).length = zeros at hsplit
  subst hsplit
  rw [List.length_append, List.length_replicate] at hlength
  rw [Integer.ofDigits_append, Integer.ofDigits_replicate] at hvalue
  refine ⟨t, hprint, ⟨?_, fun c hc => hdigits.all c (List.mem_append_left _ hc)⟩, by omega, ?_⟩
  · rintro rfl
    have hzero : Integer.ofDigits 0 [] = 0 := rfl
    rw [hzero, Nat.mul_zero] at hvalue
    omega
  · rw [show 9 - t.length = zeros by omega, Nat.mul_comm, hvalue]

theorem print_eq (i : Instant) : i.print = i.date.print ++ 'T' ::
    (Date.twoDigits (i.secondOfDay / 3600) ++ ':' ::
      (Date.twoDigits (i.secondOfDay / 60 % 60) ++ ':' ::
        (Date.twoDigits (i.secondOfDay % 60 + i.nano / 1000000000) ++
          (printFraction (i.nano % 1000000000) ++ ['Z'])))) := by
  simp [print]

/-- The clock of an instant other than a leap second. -/
theorem clock_written {i : Instant} (hnano : i.nano < 1000000000) :
    TimeText (Date.twoDigits (i.secondOfDay / 3600) ++ ':' ::
      (Date.twoDigits (i.secondOfDay / 60 % 60) ++ ':' ::
        (Date.twoDigits (i.secondOfDay % 60) ++ printFraction i.nano))) i.secondOfDay i.nano := by
  have hday : i.secondOfDay < 86400 := by
    rw [secondOfDay]
    omega
  generalize i.secondOfDay = n at hday
  have hclock : n / 3600 * 3600 + n / 60 % 60 * 60 + n % 60 = n := by omega
  have hours := Date.twoDigits_written (show n / 3600 < 100 by omega)
  have minutes := Date.twoDigits_written (show n / 60 % 60 < 100 by omega)
  have seconds := Date.twoDigits_written (show n % 60 < 100 by omega)
  by_cases hzero : i.nano = 0
  · have hwritten := TimeText.seconds hours minutes seconds (by omega) (by omega) (by omega)
    rwa [hclock, ← List.append_nil (Date.twoDigits (n % 60)), ← show printFraction i.nano = [] from
      if_pos hzero, ← hzero] at hwritten
  · obtain ⟨t, hprint, ht, hlength, hvalue⟩ := printFraction_spec (Nat.pos_of_ne_zero hzero) hnano
    have hwritten := TimeText.fraction hours minutes seconds ht hlength (by omega) (by omega) (by omega)
    rwa [hclock, hvalue, ← hprint] at hwritten

/-- Instants other than leap seconds are read back. -/
theorem read_print {i : Instant} (hnano : i.nano < 1000000000) : read i.print = some i := by
  have hlocal : i.second = i.date.day * 86400 + (i.secondOfDay : Int) - 0 := by
    simp only [date, secondOfDay]
    omega
  have hwritten := Written.timestamp i.date.print_written (.present (.inl rfl) (clock_written hnano))
    Text.Blank.nil (.present .zulu) fun hnil => by cases hnil
  refine read_of_written ?_ ⟨hlocal, rfl⟩
  rw [print_eq, Nat.div_eq_of_lt hnano, Nat.mod_eq_of_lt hnano, Nat.add_zero]
  simpa using hwritten

end Instant

end Cql
