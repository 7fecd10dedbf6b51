import Cql.Codec.OfType
import Cql.Proofs.ScalarLiterals

/-!
Codecs of one type read each other's literals: instants, milliseconds and timestamps as values; days of the
calendar and dates as values; times of day and times as values. What is finer than the reader can hold is
cut off, and what lies beyond the calendar is left to those that have no calendar.
-/

namespace Cql

/-! ## What is stored of days, instants and times of day -/

theorem Date.ofStored_toStored (d : Date) : Date.ofStored d.toStored = .ok d := by
  have hlow := d.firstDay_le
  have hhigh := d.le_lastDay
  rw [firstDay] at hlow
  rw [lastDay] at hhigh
  have hday : (daysSinceEpoch d.toStored).toInt = d.day := by
    rw [toInt_daysSinceEpoch, toStored, toInt_storedEpoch, UInt32.toNat_ofNat']
    omega
  rw [Date.ofStored, hday, ofDay?, dif_pos ⟨d.firstDay_le, d.le_lastDay⟩, orOverflow]

namespace Instant

/-- Nanoseconds since the epoch. -/
def nanos (i : Instant) : Int := i.second * 1000000000 + i.nano

theorem millis_eq (i : Instant) : i.millis = i.nanos / 1000000 := by
  rw [millis, nanos]
  omega

/-- The milliseconds of every instant can be stored. -/
theorem toInt_toStored (i : Instant) : i.toStored.toInt = i.nanos / 1000000 := by
  have hlow := i.first_le
  have hhigh := i.lt_end
  have hnano := i.nano_lt
  rw [Date.firstDay] at hlow
  rw [Date.lastDay] at hhigh
  have hbounds : -2 ^ 63 ≤ i.millis ∧ i.millis < 2 ^ 63 := by
    rw [millis]
    omega
  rw [toStored, Int64.toInt_ofInt_of_le hbounds.1 hbounds.2, millis_eq]

/-- The instant that so many milliseconds after the epoch stand for. -/
def At (i : Instant) (millis : Int) : Prop := i.nano < 1000000000 ∧ i.nanos = millis * 1000000

theorem ofMillis?_eq_some {millis : Int} {i : Instant} : ofMillis? millis = some i ↔ i.At millis := by
  rw [ofMillis?, of?_eq_some, At, nanos]
  omega

theorem ofStored_eq {stored : Int64} {i : Instant} (h : i.At stored.toInt) : ofStored stored = .ok i := by
  rw [ofStored, ofMillis?_eq_some.2 h, orOverflow]

end Instant

namespace TimeOfDay

/-- The time of day that so many nanoseconds after midnight stand for. -/
def At (t : TimeOfDay) (nanos : Int) : Prop := t.nano < 1000000000 ∧ (t.nanos : Int) = nanos

theorem toInt_div_nanosPerSecond (a : Int64) :
    (a / nanosPerSecond).toInt = a.toInt.tdiv 1000000000 := by
  have hlow := a.le_toInt
  have hhigh := a.toInt_lt
  have hparts := Word.tdiv_tmod_cases a.toInt 1000000000
  have hsecond : nanosPerSecond.toInt = 1000000000 := by decide
  rw [Int64.toInt_div, hsecond]
  refine Word.bmod_word ?_
  rw [Word.InWord]
  omega

theorem toInt_mod_nanosPerSecond (a : Int64) :
    (a % nanosPerSecond).toInt = a.toInt.tmod 1000000000 := Int64.toInt_mod a nanosPerSecond

/-- Of a number below zero the seconds or the nanoseconds are below zero, too. -/
theorem ofStored_eq_ok {stored : Int64} {t : TimeOfDay} : ofStored stored = .ok t ↔ t.At stored.toInt := by
  have hlt := t.second_lt
  have hparts := Word.tdiv_tmod_cases stored.toInt 1000000000
  have hseconds := toInt_div_nanosPerSecond stored
  have hnanos := toInt_mod_nanosPerSecond stored
  simp only [ofStored, bind_ok_iff, orOverflow_ok_iff, Word.narrow?_eq_some, of?_eq_some, At, nanos]
  constructor
  · rintro ⟨seconds, hnarrow, nano, hnano, -, htime⟩
    omega
  · intro ht
    obtain ⟨seconds, hnarrow⟩ := Word.exists_toNat (show t.second < 2 ^ 32 by omega)
    obtain ⟨nano, hnano⟩ := Word.exists_toNat (show t.nano < 2 ^ 32 by omega)
    exact ⟨seconds, by omega, nano, by omega, by omega, hnarrow.symm, hnano.symm⟩

theorem exists_toStored {t : TimeOfDay} (hnano : t.nano < 1000000000) :
    ∃ stored : Int64, t.toStored = .ok stored ∧ t.At stored.toInt := by
  have hlt := t.second_lt
  have hday : (t.nanos : Int) ≤ lastNano := by
    rw [nanos, lastNano]
    omega
  have hstored : (Int64.ofInt t.nanos).toInt = t.nanos := by
    rw [lastNano] at hday
    exact Int64.toInt_ofInt_of_le (by omega) (by omega)
  exact ⟨Int64.ofInt t.nanos, if_pos hday, hnano, hstored.symm⟩

end TimeOfDay

namespace Codec

open Literal (Token)

variable {α β : Type} {codec : Codec α}

/-! ## Literals without blanks around them -/

theorem parse_token {t : Text} (htoken : Token t) (hnull : Quoted.isNull t = false) :
    codec.parse t = (codec.read t).map some := by
  simp only [parse, htoken.scanned.trim_eq_self, hnull, Bool.false_eq_true, if_false]

theorem orFail_ok_iff {type : ColumnType} {cause : Cause} {answer : Option α} {a : α} :
    orFail type cause answer = .ok a ↔ answer = some a := by
  cases answer <;> simp [orFail]

theorem parse_some_iff {t : Text} {a : α} :
    codec.parse t = .ok (some a) ↔
      Quoted.isNull (Text.trim t) = false ∧ codec.read (Text.trim t) = .ok a := by
  rw [parse]
  cases Quoted.isNull (Text.trim t) with
  | true => simp
  | false => cases codec.read (Text.trim t) <;> simp [Except.map]

/-- A literal has the same regular values for a simple type as for the codec of these values. -/
theorem scalar_parse_iff {type : NativeType} {make : α → Value} {get? : Value → Option α}
    (hempty : codec.RefusesEmpty) (hmake : ∀ a b, make a = make b → a = b)
    (hregular : ∀ a, make a ≠ .empty) {t : Text} {a : α} :
    (scalar type codec make get?).parse t = .ok (some (make a)) ↔ codec.parse t = .ok (some a) := by
  rw [parse_some_iff, parse_some_iff]
  constructor
  · rintro ⟨hnull, hread⟩
    simp only [scalar] at hread
    split at hread
    · exact absurd (Except.ok.inj hread).symm (hregular a)
    · obtain ⟨b, hb, heq⟩ := map_ok_iff.1 hread
      exact ⟨hnull, hmake b a heq ▸ hb⟩
  · rintro ⟨hnull, hread⟩
    exact ⟨hnull, scalar_read (fun _ => hempty) hread⟩

theorem timestamp_parse_iff {t : Text} {millis : Int64} :
    (ofNative .timestamp).parse t = .ok (some (.timestamp millis)) ↔
      timestampMillis.parse t = .ok (some millis) :=
  scalar_parse_iff timestampMillis_refusesEmpty (fun _ _ => Value.timestamp.inj) nofun

theorem date_parse_iff {t : Text} {stored : UInt32} :
    (ofNative .date).parse t = .ok (some (.date stored)) ↔ storedDate.parse t = .ok (some stored) :=
  scalar_parse_iff storedDate_refusesEmpty (fun _ _ => Value.date.inj) nofun

theorem time_parse_iff {t : Text} {nanos : Int64} :
    (ofNative .time).parse t = .ok (some (.time nanos)) ↔ storedTime.parse t = .ok (some nanos) :=
  scalar_parse_iff storedTime_refusesEmpty (fun _ _ => Value.time.inj) nofun

/-! ## The same literal -/

theorem timestampMillis_parse {t : Text} {i : Instant} (h : instant.parse t = .ok (some i)) :
    timestampMillis.parse t = .ok (some i.toStored) := by
  obtain ⟨hnull, hread⟩ := parse_some_iff.1 h
  refine parse_some_iff.2 ⟨hnull, ?_⟩
  simp only [instant, timestampMillis, readTimestamp] at hread ⊢
  split
  · next hliteral =>
    rw [if_pos hliteral, orFail_ok_iff] at hread
    obtain ⟨millis, hnumber, hinstant⟩ := Option.bind_eq_some_iff.1 hread
    obtain ⟨-, hnanos⟩ := Instant.ofMillis?_eq_some.1 hinstant
    have hmillis : i.millis = millis := by
      rw [Instant.millis_eq, hnanos]
      exact Int.mul_ediv_cancel _ (by decide)
    rw [orFail_ok_iff, hnumber, Instant.toStored, hmillis]
    rfl
  · next hliteral =>
    rw [if_neg hliteral, orFail_ok_iff, Option.map_id, id_eq] at hread
    rw [orFail_ok_iff, hread]
    rfl

theorem localDate_parse_iff {t : Text} {d : Date} :
    localDate.parse t = .ok (some d) ↔ storedDate.parse t = .ok (some d.toStored) := by
  rw [parse_some_iff, parse_some_iff]
  refine and_congr_right fun _ => ?_
  simp only [localDate, storedDate, bind_ok_iff, orFail_ok_iff]
  constructor
  · rintro ⟨stored, hread, hdate⟩
    simp only [calendarDate] at hdate
    split at hdate
    · next date hstored =>
      cases hdate
      rw [hread, toStored_ofStored hstored]
    · cases hdate
  · intro hread
    exact ⟨d.toStored, hread, by rw [calendarDate, d.ofStored_toStored]⟩

theorem timeOfDay_ok_iff {nanos : Int64} {time : TimeOfDay} :
    timeOfDay nanos = .ok time ↔ time.At nanos.toInt := by
  rw [← TimeOfDay.ofStored_eq_ok, timeOfDay]
  cases TimeOfDay.ofStored nanos <;> simp [fail]

theorem localTime_parse_iff {t : Text} {time : TimeOfDay} :
    localTime.parse t = .ok (some time) ↔
      ∃ nanos : Int64, time.At nanos.toInt ∧ storedTime.parse t = .ok (some nanos) := by
  simp only [parse_some_iff, localTime, storedTime, bind_ok_iff, timeOfDay_ok_iff]
  constructor
  · rintro ⟨hnull, nanos, hread, htime⟩
    exact ⟨nanos, htime, hnull, hread⟩
  · rintro ⟨nanos, htime, hnull, hread⟩
    exact ⟨hnull, nanos, hread, htime⟩

/-! ## Literals that another codec has written -/

/-- The literals that one codec writes of certain values are read by another one as values that are
related to them. -/
def Reads (reader : Codec β) (writer : Codec α) (within : α → Prop) (related : α → β → Prop) : Prop :=
  ∀ a, within a → ∃ t b, writer.format (some a) = .ok t ∧ reader.parse t = .ok (some b) ∧ related a b

theorem parse_quote {t : Text} {a : α} (h : codec.read (Quoted.quote t) = .ok a) :
    codec.parse (Quoted.quote t) = .ok (some a) := by
  rw [parse_token (.inr ⟨t, rfl⟩) (Quoted.isNull_quote t), h]
  rfl

theorem parse_number {i : Int} {a : α} (h : codec.read (Integer.print i) = .ok a) :
    codec.parse (Integer.print i) = .ok (some a) := by
  rw [parse_token (Integer.print_isNumeral i).token (Integer.print_isNumeral i).isNull, h]
  rfl

/-! ### Timestamps -/

theorem timestampMillis_reads_instant :
    timestampMillis.Reads instant (fun i => i.nano < 1000000000)
      (fun i millis => millis.toInt = i.nanos / 1000000) := by
  intro i hnano
  have hread : timestampMillis.read (Quoted.quote i.print) = .ok i.toStored := by
    simp only [timestampMillis, readTimestamp_quote _ _ hnano]
  exact ⟨_, i.toStored, rfl, parse_quote hread, i.toInt_toStored⟩

theorem instant_reads_timestampMillis :
    instant.Reads timestampMillis (fun millis => ∃ i : Instant, i.At millis.toInt)
      (fun millis i => i.At millis.toInt) := by
  rintro millis ⟨i, hi⟩
  have hread : instant.read (Integer.print millis.toInt) = .ok i :=
    readTimestamp_number _ (Instant.ofMillis?_eq_some.2 hi)
  exact ⟨_, i, rfl, parse_number hread, hi⟩

theorem timestamp_reads_instant :
    (ofNative .timestamp).Reads instant (fun i => i.nano < 1000000000)
      (fun i v => ∃ millis : Int64, v = .timestamp millis ∧ millis.toInt = i.nanos / 1000000) := by
  intro i hnano
  obtain ⟨t, millis, hformat, hparse, hfloor⟩ := timestampMillis_reads_instant i hnano
  exact ⟨t, .timestamp millis, hformat, timestamp_parse_iff.2 hparse, millis, rfl, hfloor⟩

theorem instant_reads_timestamp :
    instant.Reads (ofNative .timestamp)
      (fun v => ∃ (millis : Int64) (i : Instant), v = .timestamp millis ∧ i.At millis.toInt)
      (fun v i => ∃ millis : Int64, v = .timestamp millis ∧ i.At millis.toInt) := by
  rintro _ ⟨millis, i, rfl, hi⟩
  have hdisplay : Value.displayTimestamp millis = Quoted.quote i.print := by
    rw [Value.displayTimestamp, Instant.ofStored_eq hi]
  have hformat : (ofNative .timestamp).format (some (.timestamp millis)) =
      .ok (Value.displayTimestamp millis) := rfl
  have hread : instant.read (Quoted.quote i.print) = .ok i := by
    simp only [instant, readTimestamp_quote _ _ hi.1, id_eq]
  refine ⟨_, i, hformat, ?_, millis, rfl, hi⟩
  rw [hdisplay, parse_quote hread]

theorem timestamp_reads_timestampMillis :
    (ofNative .timestamp).Reads timestampMillis (fun _ => True) (fun millis v => v = .timestamp millis) := by
  intro millis _
  have hread : timestampMillis.read (Integer.print millis.toInt) = .ok millis :=
    readTimestamp_number _ (congrArg some (Int64.ofInt_toInt millis))
  exact ⟨_, .timestamp millis, rfl, timestamp_parse_iff.2 (parse_number hread), rfl⟩

theorem timestampMillis_reads_timestamp :
    timestampMillis.Reads (ofNative .timestamp) (fun v => ∃ millis, v = .timestamp millis)
      (fun v millis => v = .timestamp millis) := by
  rintro _ ⟨millis, rfl⟩
  have hprinted := timestamp_printed millis
  have hread : timestampMillis.read (Value.timestamp millis).display = .ok millis :=
    readTimestamp_displayTimestamp millis
  refine ⟨_, millis, rfl, ?_, rfl⟩
  rw [parse_token hprinted.token hprinted.isNull, hread]
  rfl

/-! ### Dates -/

theorem date_reads_localDate :
    (ofNative .date).Reads localDate (fun _ => True) (fun d v => v = .date d.toStored) := by
  intro d _
  have hread : storedDate.read (Quoted.quote d.print) = .ok d.toStored := by
    simp only [storedDate, storedDate?_quote, orFail]
  exact ⟨_, .date d.toStored, rfl, date_parse_iff.2 (parse_quote hread), rfl⟩

theorem localDate_reads_date :
    localDate.Reads (ofNative .date) (fun v => ∃ d : Date, v = .date d.toStored)
      (fun v d => v = .date d.toStored) := by
  rintro _ ⟨d, rfl⟩
  have hprinted := date_printed d.toStored
  have hread : storedDate.read (Value.date d.toStored).display = .ok d.toStored :=
    storedDate_read_displayDate d.toStored
  refine ⟨_, d, rfl, localDate_parse_iff.2 ?_, rfl⟩
  rw [parse_token hprinted.token hprinted.isNull, hread]
  rfl

/-! ### Times -/

theorem isLiteral_time (t : TimeOfDay) : Integer.isLiteral t.print = false := by
  have hminutes : ∃ rest, t.print = Date.twoDigits (t.second / 3600) ++ ':' :: rest := by
    simp only [TimeOfDay.print, List.append_assoc, List.cons_append]
    repeat' split
    all_goals exact ⟨_, rfl⟩
  obtain ⟨rest, hprint⟩ := hminutes
  rw [hprint]
  exact isLiteral_hour _ rest

theorem storedTime_parse_print {t : TimeOfDay} (hnano : t.nano < 1000000000) :
    ∃ nanos : Int64, t.At nanos.toInt ∧
      storedTime.parse (Quoted.quote t.print) = .ok (some nanos) := by
  obtain ⟨nanos, hstored, ht⟩ := TimeOfDay.exists_toStored hnano
  have hread : storedTime.read (Quoted.quote t.print) = .ok nanos :=
    readTime_of_take (Quoted.unquote_quote _) t.print_isBlank (isLiteral_time t)
      (TimeOfDay.take_print hnano) hstored
  exact ⟨nanos, ht, parse_quote hread⟩

theorem time_reads_localTime :
    (ofNative .time).Reads localTime (fun t => t.nano < 1000000000)
      (fun t v => ∃ nanos : Int64, v = .time nanos ∧ t.At nanos.toInt) := by
  intro t hnano
  obtain ⟨nanos, ht, hparse⟩ := storedTime_parse_print hnano
  exact ⟨_, .time nanos, rfl, time_parse_iff.2 hparse, nanos, rfl, ht⟩

theorem localTime_reads_time :
    localTime.Reads (ofNative .time)
      (fun v => ∃ (nanos : Int64) (t : TimeOfDay), v = .time nanos ∧ t.At nanos.toInt)
      (fun v t => ∃ nanos : Int64, v = .time nanos ∧ t.At nanos.toInt) := by
  rintro _ ⟨nanos, t, rfl, ht⟩
  have hday : isWithinDay nanos.toInt = true := by
    have hlt := t.second_lt
    rw [TimeOfDay.At, TimeOfDay.nanos] at ht
    simp only [isWithinDay, Bool.and_eq_true, decide_eq_true_eq]
    rw [lastNano]
    omega
  have hread : storedTime.read (Value.displayTime nanos) = .ok nanos := readTime_displayTime hday
  refine ⟨_, t, rfl, localTime_parse_iff.2 ⟨nanos, ht, ?_⟩, nanos, rfl, ht⟩
  exact parse_quote hread

/-! ## All pairs -/

/-- A literal that is read as an instant is read as its milliseconds, rounded down, by the codecs that have
nothing finer; literals of dates and of times are the same for all their codecs. Every codec reads what
another one writes: an instant as its milliseconds, and everything else as it is, as far as the calendar
and the day reach. No literal stands for a leap second. -/
theorem temporal_codecs_share_literals :
    (∀ t i, instant.parse t = .ok (some i) → ∃ millis : Int64, millis.toInt = i.nanos / 1000000 ∧
      timestampMillis.parse t = .ok (some millis) ∧
      (ofNative .timestamp).parse t = .ok (some (.timestamp millis))) ∧
    (∀ t d, localDate.parse t = .ok (some d) ↔
      (ofNative .date).parse t = .ok (some (.date d.toStored))) ∧
    (∀ t time, localTime.parse t = .ok (some time) ↔
      ∃ nanos : Int64, time.At nanos.toInt ∧ (ofNative .time).parse t = .ok (some (.time nanos))) ∧
    timestampMillis.Reads instant (fun i => i.nano < 1000000000)
      (fun i millis => millis.toInt = i.nanos / 1000000) ∧
    instant.Reads timestampMillis (fun millis => ∃ i : Instant, i.At millis.toInt)
      (fun millis i => i.At millis.toInt) ∧
    (ofNative .timestamp).Reads instant (fun i => i.nano < 1000000000)
      (fun i v => ∃ millis : Int64, v = .timestamp millis ∧ millis.toInt = i.nanos / 1000000) ∧
    instant.Reads (ofNative .timestamp)
      (fun v => ∃ (millis : Int64) (i : Instant), v = .timestamp millis ∧ i.At millis.toInt)
      (fun v i => ∃ millis : Int64, v = .timestamp millis ∧ i.At millis.toInt) ∧
    (ofNative .timestamp).Reads timestampMillis (fun _ => True)
      (fun millis v => v = .timestamp millis) ∧
    timestampMillis.Reads (ofNative .timestamp) (fun v => ∃ millis, v = .timestamp millis)
      (fun v millis => v = .timestamp millis) ∧
    (ofNative .date).Reads localDate (fun _ => True) (fun d v => v = .date d.toStored) ∧
    localDate.Reads (ofNative .date) (fun v => ∃ d : Date, v = .date d.toStored)
      (fun v d => v = .date d.toStored) ∧
    (ofNative .time).Reads localTime (fun time => time.nano < 1000000000)
      (fun time v => ∃ nanos : Int64, v = .time nanos ∧ time.At nanos.toInt) ∧
    localTime.Reads (ofNative .time)
      (fun v => ∃ (nanos : Int64) (time : TimeOfDay), v = .time nanos ∧ time.At nanos.toInt)
      (fun v time => ∃ nanos : Int64, v = .time nanos ∧ time.At nanos.toInt) := by
  refine ⟨fun t i h => ?_, fun t d => ?_, fun t time => ?_, timestampMillis_reads_instant,
    instant_reads_timestampMillis, timestamp_reads_instant, instant_reads_timestamp,
    timestamp_reads_timestampMillis, timestampMillis_reads_timestamp, date_reads_localDate,
    localDate_reads_date, time_reads_localTime, localTime_reads_time⟩
  · have hmillis := timestampMillis_parse h
    exact ⟨i.toStored, i.toInt_toStored, hmillis, timestamp_parse_iff.2 hmillis⟩
  · exact localDate_parse_iff.trans date_parse_iff.symm
  · rw [localTime_parse_iff]
    refine exists_congr fun nanos => and_congr_right fun _ => ?_
    exact time_parse_iff.symm

/-- One and a half milliseconds before the epoch, a time without seconds, and a day as a number. -/
theorem temporal_codecs_share_literals_rounded :
    let text := "'1969-12-31T23:59:59.9985Z'".toList
    let i : Instant := ⟨-1, 998500000, by decide, by decide, by decide⟩
    let time : TimeOfDay := ⟨48300, 0, by decide, by decide⟩
    let day : Date := ⟨-1, by decide, by decide⟩
    instant.parse text = .ok (some i) ∧
      (∃ millis : Int64, millis.toInt = -2 ∧ timestampMillis.parse text = .ok (some millis)) ∧
      localTime.format (some time) = .ok "'13:25'".toList ∧
      (∃ nanos : Int64, nanos.toInt = 48300000000000 ∧
        (ofNative .time).parse "'13:25'".toList = .ok (some (.time nanos))) ∧
      localDate.parse "2147483647".toList = .ok (some day) ∧
      (ofNative .date).parse "2147483647".toList = .ok (some (.date day.toStored)) := by
  intro text i time day
  obtain ⟨hinstants, hdates, -, -, -, -, -, -, -, -, -, htimes, -⟩ := temporal_codecs_share_literals
  have hinstant : instant.parse text = .ok (some i) := by rfl
  have hformat : localTime.format (some time) = .ok "'13:25'".toList := by decide +kernel
  have hdate : localDate.parse "2147483647".toList = .ok (some day) := by rfl
  obtain ⟨millis, hfloor, hmillis, -⟩ := hinstants text i hinstant
  obtain ⟨t, v, hwritten, hread, nanos, rfl, htime⟩ := htimes time (by decide)
  have hnanos : nanos.toInt = 48300000000000 := by
    rw [← htime.2]
    decide
  cases hformat.symm.trans hwritten
  exact ⟨hinstant, ⟨millis, hfloor, hmillis⟩, hformat, ⟨nanos, hnanos, hread⟩, hdate,
    (hdates _ day).1 hdate⟩

end Codec

end Cql
