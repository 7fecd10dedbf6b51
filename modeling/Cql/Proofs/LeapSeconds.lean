import Cql.Proofs.ZonedTimestamps

/-!
Leap seconds on the wire and in literals. Bytes hold a distance from midnight or from the epoch, so that a
leap second comes back as the second behind it. The literal of a time of day leaves the whole second out.
That of an instant has the second behind it, which at the end of a minute is a sixtieth one that no reader
takes.
-/

namespace Cql

namespace TimeOfDay

/-- The same clock a second before a leap second; other times of day are as they were. -/
def regular (t : TimeOfDay) : TimeOfDay where
  second := t.second
  nano := t.nano % 1000000000
  second_lt := t.second_lt
  nano_lt := Nat.lt_trans (Nat.mod_lt _ (by decide)) (by decide)

theorem regular_nano_lt (t : TimeOfDay) : t.regular.nano < 1000000000 := Nat.mod_lt _ (by decide)

@[simp]
theorem regular_print (t : TimeOfDay) : t.regular.print = t.print := by
  unfold print
  rw [show t.regular.nano % 1000000000 = t.nano % 1000000000 from Nat.mod_mod _ _]
  rfl

theorem regular_of_lt {t : TimeOfDay} (hnano : t.nano < 1000000000) : t.regular = t := by
  simp only [regular, Nat.mod_eq_of_lt hnano]

theorem exists_at {nanos : Int} (hlow : 0 ≤ nanos) (hhigh : nanos ≤ lastNano) :
    ∃ t : TimeOfDay, t.At nanos := by
  rw [lastNano] at hhigh
  refine ⟨⟨(nanos / 1000000000).toNat, (nanos % 1000000000).toNat, by omega, by omega⟩, ?_⟩
  simp only [At, TimeOfDay.nanos]
  omega

theorem toStored_eq_ok {t : TimeOfDay} {stored : Int64} (h : t.toStored = .ok stored) :
    stored.toInt = t.nanos ∧ (t.nanos : Int) ≤ lastNano := by
  unfold toStored at h
  split at h
  · next hlast =>
    have hsmall : (t.nanos : Int) ≤ 86399999999999 := hlast
    cases h
    exact ⟨Int64.toInt_ofInt_of_le (by omega) (by omega), hlast⟩
  · cases h

theorem At.le_lastNano {t : TimeOfDay} {nanos : Int} (h : t.At nanos) : 0 ≤ nanos ∧ nanos ≤ lastNano := by
  have hsecond := t.second_lt
  have hnano := h.1
  have hnanos := h.2
  simp only [TimeOfDay.nanos, lastNano] at hnanos ⊢
  omega

theorem At.unique {t u : TimeOfDay} {nanos : Int} (ht : t.At nanos) (hu : u.At nanos) : t = u := by
  obtain ⟨second, nano, _, _⟩ := t
  obtain ⟨second', nano', _, _⟩ := u
  simp only [At, TimeOfDay.nanos] at ht hu
  have hsecond : second = second' := by omega
  have hnano : nano = nano' := by omega
  subst hsecond hnano
  rfl

/-- Only the nanoseconds of a leap second stand for another time of day. -/
theorem At.eq_regular_iff {t stored : TimeOfDay} (h : stored.At t.nanos) :
    stored = t.regular ↔ t.nano < 1000000000 := by
  constructor
  · rintro rfl
    have hnanos := h.2
    simp only [nanos, regular] at hnanos
    omega
  · intro hnano
    rw [regular_of_lt hnano]
    exact h.unique ⟨hnano, rfl⟩

theorem ofClock?_sixty (hour minute nano : Nat) : ofClock? hour minute 60 nano = none := by
  simp [ofClock?]

/-- No minute has a sixtieth second. -/
theorem take_sixty {hour minute : Nat} (hhour : hour < 100) (hminute : minute < 100) (rest : Text) :
    take (Date.twoDigits hour ++ ':' :: (Date.twoDigits minute ++ ':' :: (Date.twoDigits 60 ++ rest))) =
      none := by
  have hsecond := Date.twoDigits_written (show 60 < 100 by decide)
  simp only [take, Option.bind_eq_bind, Option.bind_some, Date.skip_cons,
    Date.takeDigits_written (Date.twoDigits_written hhour),
    Date.takeDigits_written (Date.twoDigits_written hminute), Date.takeDigits_written hsecond]
  split
  · simp [ofClock?_sixty]
  · simp [ofClock?_sixty]

end TimeOfDay

namespace Instant

/-- A leap second at the end of a minute is printed with a sixtieth second, and so it is not read. -/
theorem read_print_sixty {i : Instant} (hleap : 1000000000 ≤ i.nano) (hlast : i.second % 60 = 59) :
    read i.print = none := by
  have hday : i.secondOfDay < 86400 := by
    rw [secondOfDay]
    omega
  have hsixty : i.secondOfDay % 60 + i.nano / 1000000000 = 60 := by
    have hnano := i.nano_lt
    rw [secondOfDay]
    omega
  have htake := TimeOfDay.take_sixty (show i.secondOfDay / 3600 < 100 by omega)
    (show i.secondOfDay / 60 % 60 < 100 by omega) (printFraction (i.nano % 1000000000) ++ ['Z'])
  rw [read_eq, print_eq, hsixty, Date.take_print, Option.bind_some]
  dsimp only
  rw [takeClock, htake, Option.bind_none]

/-- A leap second elsewhere is printed as the second behind it. -/
theorem exists_print_behind {i : Instant} (hleap : 1000000000 ≤ i.nano) (hlast : i.second % 60 ≠ 59) :
    ∃ next : Instant, next.nano < 1000000000 ∧ next.nanos = i.nanos ∧ next.print = i.print := by
  have hfirst := i.first_le
  have hend := i.lt_end
  have hnano := i.nano_lt
  let next : Instant := ⟨i.second + 1, i.nano - 1000000000, by omega, by omega, by omega⟩
  have hday : next.date = i.date := by
    have hsame : (i.second + 1) / 86400 = i.second / 86400 := by omega
    simp only [date, next, hsame]
  have hsecond : next.secondOfDay = i.secondOfDay + 1 := by
    simp only [secondOfDay, next]
    omega
  have hminute : (i.secondOfDay + 1) / 3600 = i.secondOfDay / 3600 ∧
      (i.secondOfDay + 1) / 60 = i.secondOfDay / 60 ∧
      (i.secondOfDay + 1) % 60 + (i.nano - 1000000000) / 1000000000 =
        i.secondOfDay % 60 + i.nano / 1000000000 := by
    rw [secondOfDay]
    omega
  have hfraction : (i.nano - 1000000000) % 1000000000 = i.nano % 1000000000 := by omega
  have hbehind : next.nano < 1000000000 ∧ next.nanos = i.nanos := by
    simp only [nanos, next]
    omega
  refine ⟨next, hbehind.1, hbehind.2, ?_⟩
  rw [print_eq, print_eq, hday, hsecond, hminute.1, hminute.2.1, hminute.2.2, hfraction]

end Instant

namespace Codec

theorem localTime_parse_print (t : TimeOfDay) :
    localTime.parse (Quoted.quote t.print) = .ok (some t.regular) := by
  obtain ⟨nanos, ht, hparse⟩ := storedTime_parse_print t.regular_nano_lt
  rw [TimeOfDay.regular_print] at hparse
  exact localTime_parse_iff.2 ⟨nanos, ht, hparse⟩

/-- Where nothing is known of the time, what is stored of it must not be computed. -/
theorem localTime_encode_eq : localTime.encode = fun _ time =>
    match time.toStored with
    | .ok nanos => .ok (BigEndian.ofInt 8 nanos.toInt)
    | .error _ => fail (.native .time) .overflow := rfl

theorem localTime_encode_iff {version : Version} {t : TimeOfDay} {bytes : Bytes} :
    localTime.encode version t = .ok bytes ↔
      ∃ nanos : Int64, t.toStored = .ok nanos ∧ bytes = BigEndian.ofInt 8 nanos.toInt := by
  rw [localTime_encode_eq]
  dsimp only
  generalize t.toStored = answer
  cases answer with
  | error _ => simp [fail]
  | ok nanos => simp [eq_comm]

/-- What is stored of a time of day are its nanoseconds, those of a leap second among them. -/
theorem localTime_carried {t stored : TimeOfDay} (hat : stored.At t.nanos) (version : Version) :
    ∃ bytes, localTime.encode version t = .ok bytes ∧
      localTime.decode version bytes = .ok (some stored) := by
  obtain ⟨hlow, hlast⟩ := hat.le_lastNano
  obtain ⟨nanos, hnanos⟩ : ∃ nanos, t.toStored = .ok nanos := ⟨_, if_pos hlast⟩
  have hstored := (TimeOfDay.toStored_eq_ok hnanos).1
  have hday : isWithinDay nanos.toInt = true := by
    rw [isWithinDay, hstored, decide_eq_true hlow, decide_eq_true hlast, Bool.and_self]
  have hencode : storedTime.encode version nanos = .ok (BigEndian.ofInt 8 nanos.toInt) := if_pos hday
  have hdecode := storedTime_faithful version nanos _ hencode
  have hne : BigEndian.ofInt 8 nanos.toInt ≠ [] := fun hnil =>
    storedTime_takesRoom version nanos (hnil ▸ hencode)
  have htime : timeOfDay nanos = .ok stored := by
    rw [timeOfDay_ok_iff, hstored]
    exact hat
  refine ⟨_, localTime_encode_iff.2 ⟨nanos, hnanos, rfl⟩, ?_⟩
  simp only [localTime, List.isEmpty_iff, hne, if_false, hdecode, ok_bind, htime, map_ok]

theorem localTime_stored {version : Version} {t : TimeOfDay} {bytes : Bytes}
    (h : localTime.encode version t = .ok bytes) :
    ∃ stored, localTime.decode version bytes = .ok (some stored) ∧ stored.At t.nanos := by
  obtain ⟨nanos, hnanos, -⟩ := localTime_encode_iff.1 h
  obtain ⟨stored, hat⟩ :=
    TimeOfDay.exists_at (Int.natCast_nonneg t.nanos) (TimeOfDay.toStored_eq_ok hnanos).2
  obtain ⟨_, hencode, hdecode⟩ := localTime_carried hat version
  cases h.symm.trans hencode
  exact ⟨stored, hdecode, hat⟩

theorem instant_parse_print {i : Instant} (hnano : i.nano < 1000000000) :
    instant.parse (Quoted.quote i.print) = .ok (some i) := by
  refine parse_quote ?_
  simp only [instant, readTimestamp_quote _ _ hnano, id_eq]

theorem instant_parse_sixty {i : Instant} (hleap : 1000000000 ≤ i.nano) (hlast : i.second % 60 = 59) :
    instant.parse (Quoted.quote i.print) =
      .error ⟨.native .timestamp, .unparsable (Quoted.quote i.print) .notTimestamp⟩ := by
  have hread : instant.read (Quoted.quote i.print) =
      .error ⟨.native .timestamp, .unparsable (Quoted.quote i.print) .notTimestamp⟩ := by
    simp only [instant, readTimestamp, Quoted.unquoteIfQuoted_quote, isLiteral_instant,
      Instant.read_print_sixty hleap hlast, Bool.false_eq_true, if_false, Option.map_none, orFail]
  rw [parse_token (.inr ⟨_, rfl⟩) (Quoted.isNull_quote _), hread]
  rfl

/-- Bytes and literals mean the same time of day unless it is in a leap second: its bytes mean the second
behind it and its literal the second before. Bytes and literals of an instant mean the same but for what is
shorter than a millisecond, also in a leap second that does not end its minute: there both mean the second
behind it. One that ends its minute has a literal that is not read, and its bytes mean the second behind it,
if that is still in the calendar. -/
theorem leap_seconds_stored_and_written (version : Version) :
    (∀ t bytes, localTime.encode version t = .ok bytes → ∃ s stored,
      localTime.format (some t) = .ok s ∧ localTime.decode version bytes = .ok (some stored) ∧
        stored.At t.nanos ∧ localTime.parse s = .ok (some t.regular) ∧
        (stored = t.regular ↔ t.nano < 1000000000)) ∧
    (∀ i, ∃ s bytes, instant.format (some i) = .ok s ∧ instant.encode version i = .ok bytes ∧
      (∀ stored, instant.decode version bytes = .ok (some stored) ↔ stored.At (i.nanos / 1000000)) ∧
      (i.nano < 1000000000 → instant.parse s = .ok (some i) ∧
        ∃ stored, instant.decode version bytes = .ok (some stored)) ∧
      (1000000000 ≤ i.nano → i.second % 60 ≠ 59 → ∃ next : Instant, next.nano < 1000000000 ∧
        next.nanos = i.nanos ∧ instant.parse s = .ok (some next) ∧
        ∃ stored, instant.decode version bytes = .ok (some stored)) ∧
      (1000000000 ≤ i.nano → i.second % 60 = 59 → instant.parse s =
        .error ⟨.native .timestamp, .unparsable s .notTimestamp⟩)) := by
  constructor
  · intro t bytes hencode
    obtain ⟨stored, hdecode, hat⟩ := localTime_stored hencode
    exact ⟨_, stored, rfl, hdecode, hat, localTime_parse_print t, hat.eq_regular_iff⟩
  · intro i
    refine ⟨_, _, rfl, rfl, fun stored => instant_decode_iff, fun hnano => ?_, fun hleap hlast => ?_,
      instant_parse_sixty⟩
    · obtain ⟨stored, -, hdecode⟩ := instant_carried hnano version
      exact ⟨instant_parse_print hnano, stored, hdecode⟩
    · obtain ⟨next, hnano, hnanos, hprint⟩ := Instant.exists_print_behind hleap hlast
      obtain ⟨stored, hat⟩ := next.exists_floor hnano
      refine ⟨next, hnano, hnanos, ?_, stored, instant_decode_iff.2 (hnanos ▸ hat)⟩
      rw [← hprint]
      exact instant_parse_print hnano

/-- The leap second at the end of 2016, the second in front of it, half a second into a leap second that is
not the end of its minute, and a time of day without seconds. -/
theorem leap_seconds_stored_and_written_2016 :
    let t : TimeOfDay := ⟨48300, 0, by decide, by decide⟩
    let i : Instant := ⟨1483228799, 0, by decide, by decide, by decide⟩
    let inside : Instant := ⟨1483228700, 1500000000, by decide, by decide, by decide⟩
    let leap : Instant := ⟨1483228799, 1000000000, by decide, by decide, by decide⟩
    let next : Instant := ⟨1483228800, 0, by decide, by decide, by decide⟩
    (∃ s bytes, localTime.encode .v4 t = .ok bytes ∧ localTime.format (some t) = .ok s ∧
      localTime.decode .v4 bytes = .ok (some t) ∧ localTime.parse s = .ok (some t)) ∧
    (∃ s, instant.format (some i) = .ok s ∧ instant.parse s = .ok (some i)) ∧
    (∃ s behind, instant.format (some inside) = .ok s ∧ instant.parse s = .ok (some behind) ∧
      behind.nanos = 1483228701500000000) ∧
    ∃ bytes, instant.encode .v4 leap = .ok bytes ∧ instant.decode .v4 bytes = .ok (some next) ∧
      instant.format (some leap) = .ok "'2016-12-31T23:59:60Z'".toList ∧
      instant.parse "'2016-12-31T23:59:60Z'".toList =
        .error ⟨.native .timestamp, .unparsable "'2016-12-31T23:59:60Z'".toList .notTimestamp⟩ := by
  intro t i inside leap next
  obtain ⟨htimes, hinstants⟩ := leap_seconds_stored_and_written .v4
  refine ⟨?_, ?_, ?_, ?_⟩
  · obtain ⟨bytes, hencode, -⟩ := localTime_carried (t := t) ⟨by decide, rfl⟩ .v4
    obtain ⟨s, stored, hformat, hdecode, -, hparse, hsame⟩ := htimes t bytes hencode
    have hregular : t.regular = t := TimeOfDay.regular_of_lt (by decide)
    rw [hsame.2 (by decide), hregular] at hdecode
    rw [hregular] at hparse
    exact ⟨s, bytes, hencode, hformat, hdecode, hparse⟩
  · obtain ⟨s, _, hformat, -, -, hregular, -⟩ := hinstants i
    exact ⟨s, hformat, (hregular (by decide)).1⟩
  · obtain ⟨s, _, hformat, -, -, -, hinside, -⟩ := hinstants inside
    obtain ⟨behind, -, hnanos, hparse, -⟩ := hinside (by decide) (by decide)
    have hsum : inside.nanos = 1483228701500000000 := by decide
    exact ⟨s, behind, hformat, hparse, hnanos.trans hsum⟩
  · obtain ⟨s, bytes, hformat, hencode, hdecode, -, -, hleap⟩ := hinstants leap
    have hwritten : instant.format (some leap) = .ok "'2016-12-31T23:59:60Z'".toList := by decide +kernel
    cases hwritten.symm.trans hformat
    have hat : next.At (leap.nanos / 1000000) := by
      rw [Instant.At]
      decide
    exact ⟨bytes, hencode, (hdecode next).2 hat, hwritten, hleap (by decide) (by decide)⟩

/-- Half a second into a leap second after noon, bytes and literal of a time of day are a second apart. -/
theorem leap_second_apart :
    let t : TimeOfDay := ⟨45299, 1500000000, by decide, by decide⟩
    let behind : TimeOfDay := ⟨45300, 500000000, by decide, by decide⟩
    let before : TimeOfDay := ⟨45299, 500000000, by decide, by decide⟩
    ∃ bytes, localTime.encode .v4 t = .ok bytes ∧ localTime.decode .v4 bytes = .ok (some behind) ∧
      localTime.format (some t) = .ok "'12:34:59.500'".toList ∧
      localTime.parse "'12:34:59.500'".toList = .ok (some before) := by
  intro t behind before
  have hnanos : behind.nanos = t.nanos := by decide
  have hbehind : behind.At t.nanos := ⟨by decide, congrArg Nat.cast hnanos⟩
  obtain ⟨bytes, hencode, hdecode⟩ := localTime_carried hbehind .v4
  have hwritten : Quoted.quote t.print = "'12:34:59.500'".toList := by decide +kernel
  have hregular : t.regular = before := by decide
  have hparse := localTime_parse_print t
  rw [hwritten, hregular] at hparse
  exact ⟨bytes, hencode, hdecode, congrArg Except.ok hwritten, hparse⟩

end Codec

end Cql
