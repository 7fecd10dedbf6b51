import Cql.Proofs.Integers
import Cql.Time.Instant

/-!
The literals of timestamps, spelled out without a reader: a date, a time of day that may be left out,
blanks, and a zone that may be left out. Instants are read of these texts and of no others.
-/

namespace Cql

/-! ## The grammar -/

namespace Timestamp

/-- Two digits and their number. -/
structure TwoDigits (t : Text) (n : Nat) : Prop where
  digits : Integer.IsDigits t
  length : t.length = 2
  value : Integer.ofDigits 0 t = n

/-- The sign of a year, if it has one, and whether the year is negative. -/
inductive YearSign : Text → Bool → Prop
  | absent : YearSign [] false
  | plus : YearSign ['+'] false
  | minus : YearSign ['-'] true

def yearNumber (negative : Bool) (year : Text) : Int :=
  if negative then -(Integer.ofDigits 0 year : Int) else Integer.ofDigits 0 year

/-- A day of the calendar. The year has four digits or more. -/
inductive DateText : Text → Date → Prop
  | day {sign year month day : Text} {negative : Bool} {m d : Nat} {date : Date}
      (hsign : YearSign sign negative) (hyear : Integer.IsDigits year) (hlong : 4 ≤ year.length)
      (hmonth : TwoDigits month m) (hday : TwoDigits day d)
      (hexists : Date.exists? (yearNumber negative year) m d = true)
      (hnumber : date.day = Date.dayNumber (yearNumber negative year) m d) :
      DateText (sign ++ (year ++ '-' :: (month ++ '-' :: day))) date

/-- A time of day, as seconds since midnight and nanoseconds. Seconds may be left out, and behind them a
fraction of nine digits at most. -/
inductive TimeText : Text → Nat → Nat → Prop
  | minutes {hour minute : Text} {h m : Nat} (hhour : TwoDigits hour h) (hminute : TwoDigits minute m)
      (hh : h < 24) (hm : m < 60) :
      TimeText (hour ++ ':' :: minute) (h * 3600 + m * 60) 0
  | seconds {hour minute second : Text} {h m s : Nat} (hhour : TwoDigits hour h)
      (hminute : TwoDigits minute m) (hsecond : TwoDigits second s)
      (hh : h < 24) (hm : m < 60) (hs : s < 60) :
      TimeText (hour ++ ':' :: (minute ++ ':' :: second)) (h * 3600 + m * 60 + s) 0
  | fraction {hour minute second fraction : Text} {h m s : Nat} (hhour : TwoDigits hour h)
      (hminute : TwoDigits minute m) (hsecond : TwoDigits second s)
      (hfraction : Integer.IsDigits fraction) (hshort : fraction.length ≤ 9)
      (hh : h < 24) (hm : m < 60) (hs : s < 60) :
      TimeText (hour ++ ':' :: (minute ++ ':' :: (second ++ '.' :: fraction)))
        (h * 3600 + m * 60 + s) (Integer.ofDigits 0 fraction * 10 ^ (9 - fraction.length))

/-- What may stand behind the hours of an offset: minutes and seconds, with colons in front of both or of
none. -/
inductive MinutesText : Text → Nat → Nat → Prop
  | absent : MinutesText [] 0 0
  | colon {minute : Text} {m : Nat} (hminute : TwoDigits minute m) : MinutesText (':' :: minute) m 0
  | colons {minute second : Text} {m s : Nat} (hminute : TwoDigits minute m)
      (hsecond : TwoDigits second s) : MinutesText (':' :: (minute ++ ':' :: second)) m s
  | joined {minute : Text} {m : Nat} (hminute : TwoDigits minute m) : MinutesText minute m 0
  | allJoined {minute second : Text} {m s : Nat} (hminute : TwoDigits minute m)
      (hsecond : TwoDigits second s) : MinutesText (minute ++ second) m s

/-- An offset of less than a day, as seconds east of UTC. -/
inductive OffsetText : Text → Int → Prop
  | east {hour minutes : Text} {h m s : Nat} (hhour : TwoDigits hour h)
      (hminutes : MinutesText minutes m s) (hh : h < 24) (hm : m < 60) (hs : s < 60) :
      OffsetText ('+' :: (hour ++ minutes)) (h * 3600 + m * 60 + s : Nat)
  | west {hour minutes : Text} {h m s : Nat} (hhour : TwoDigits hour h)
      (hminutes : MinutesText minutes m s) (hh : h < 24) (hm : m < 60) (hs : s < 60) :
      OffsetText ('-' :: (hour ++ minutes)) (-(h * 3600 + m * 60 + s : Nat))

/-- A zone, as seconds east of UTC. -/
inductive ZoneText : Text → Int → Prop
  | zulu : ZoneText ['Z'] 0
  | name {name : String} (hname : name ∈ ["UTC", "GMT", "UT"]) : ZoneText name.toList 0
  | named {name : String} {t : Text} {seconds : Int} (hname : name ∈ ["UTC", "GMT", "UT"])
      (hoffset : OffsetText t seconds) : ZoneText (name.toList ++ t) seconds
  | offset {t : Text} {seconds : Int} (hoffset : OffsetText t seconds) : ZoneText t seconds

/-- Nothing that announces a time of day stands in front. -/
def Unmarked (t : Text) : Prop := ∀ c, t.head? = some c → c ≠ 'T' ∧ c ≠ ' '

/-- The time of day with the mark in front of it, or neither. -/
inductive ClockText : Text → Nat → Nat → Prop
  | absent : ClockText [] 0 0
  | present {mark : Char} {t : Text} {second nano : Nat} (hmark : mark = 'T' ∨ mark = ' ')
      (htime : TimeText t second nano) : ClockText (mark :: t) second nano

/-- The zone, or none; the clock is that of UTC then. -/
inductive PlaceText : Text → Int → Prop
  | absent : PlaceText [] 0
  | present {t : Text} {seconds : Int} (hzone : ZoneText t seconds) : PlaceText t seconds

/-- A timestamp: its day, the seconds and nanoseconds of its time of day, and its offset. The time of day may
be left out only where nothing announces one. -/
inductive Written : Text → Date → Nat → Nat → Int → Prop
  | timestamp {dateText clock gap zone : Text} {date : Date} {second nano : Nat} {offset : Int}
      (hdate : DateText dateText date) (hclock : ClockText clock second nano) (hgap : Text.Blank gap)
      (hzone : PlaceText zone offset)
      (hleft : clock = [] → Unmarked (gap ++ zone)) :
      Written (dateText ++ (clock ++ (gap ++ zone))) date second nano offset

end Timestamp

open Timestamp

/-! ## Dates -/

namespace Date

variable {t rest : Text}

/-- Exactly so many digits are taken. -/
theorem takeDigits_append {t : Text} (h : Integer.IsDigits t) (rest : Text) :
    takeDigits t.length (t ++ rest) = some (Integer.ofDigits 0 t, rest) := by
  have hall : t.all Char.isDigit = true := List.all_eq_true.2 h.all
  simp [takeDigits, hall]

theorem takeDigits_written {digits : Text} {n : Nat} (h : TwoDigits digits n) (rest : Text) :
    takeDigits 2 (digits ++ rest) = some (n, rest) := by
  have htake := takeDigits_append h.digits rest
  rwa [h.length, h.value] at htake

theorem takeDigits_eq_some {n : Nat} :
    takeDigits 2 t = some (n, rest) ↔ ∃ digits, TwoDigits digits n ∧ t = digits ++ rest := by
  constructor
  · intro h
    rw [takeDigits] at h
    split at h
    · next htwo =>
      cases h
      simp only [Bool.and_eq_true, decide_eq_true_eq, List.all_eq_true] at htwo
      have hne : t.take 2 ≠ [] := List.ne_nil_of_length_eq_add_one htwo.1
      exact ⟨t.take 2, ⟨⟨hne, htwo.2⟩, htwo.1, rfl⟩, (List.take_append_drop 2 t).symm⟩
    · cases h
  · rintro ⟨digits, htwo, rfl⟩
    exact takeDigits_written htwo rest

theorem skip_cons (c : Char) (t : Text) : skip c (c :: t) = some t := by simp [skip]

theorem skip_eq_some {c : Char} : skip c t = some rest ↔ t = c :: rest := by
  constructor
  · intro h
    cases t with
    | nil => cases h
    | cons d t =>
      rw [skip] at h
      split at h
      · next hd =>
        cases h
        rw [hd]
      · cases h
  · rintro rfl
    exact skip_cons c rest

theorem splitSign_written (t : Text) :
    ∃ sign, YearSign sign (Integer.splitSign t).1 ∧ t = sign ++ (Integer.splitSign t).2 := by
  rw [Integer.splitSign.eq_def]
  split
  · exact ⟨_, .minus, rfl⟩
  · exact ⟨_, .plus, rfl⟩
  · exact ⟨_, .absent, rfl⟩

/-- Digits behind a sign, if there is one, are no part of it. -/
theorem splitSign_year {sign year : Text} {negative : Bool} (hsign : YearSign sign negative)
    (hyear : Integer.IsDigits year) (rest : Text) :
    Integer.splitSign (sign ++ (year ++ rest)) = (negative, year ++ rest) := by
  obtain ⟨c, digits, rfl, hc⟩ := hyear.head
  cases hsign with
  | absent => exact Integer.splitSign_cons hc (digits ++ rest)
  | plus => rfl
  | minus => rfl

theorem ofCalendar?_eq_some {year : Int} {month day : Nat} {date : Date} :
    ofCalendar? year month day = some date ↔
      exists? year month day = true ∧ date.day = dayNumber year month day := by
  rw [ofCalendar?, ofDay?]
  constructor
  · intro h
    split at h
    · next hexists =>
      split at h
      · cases h
        exact ⟨hexists, rfl⟩
      · cases h
    · cases h
  · rintro ⟨hexists, hday⟩
    rw [if_pos hexists, dif_pos (hday ▸ ⟨date.firstDay_le, date.le_lastDay⟩)]
    obtain ⟨number, _, _⟩ := date
    cases hday
    rfl

theorem take_sound {date : Date} (h : take t = some (date, rest)) :
    ∃ front, DateText front date ∧ t = front ++ rest := by
  obtain ⟨sign, hsign, ht⟩ := splitSign_written t
  simp only [take, Text.spanWhile] at h
  generalize Integer.splitSign t = parts at h hsign ht
  obtain ⟨negative, t⟩ := parts
  dsimp only at h hsign ht
  obtain ⟨hlong, hparts⟩ := Option.ite_none_left_eq_some.1 h
  simp only [Option.bind_eq_bind, Option.bind_eq_some_iff, Prod.exists, skip_eq_some,
    takeDigits_eq_some, ofCalendar?_eq_some, Option.some.injEq, Prod.mk.injEq] at hparts
  obtain ⟨_, hyear, m, _, ⟨month, hmonth, rfl⟩, _, rfl, d, _, ⟨day, hday, rfl⟩, _,
    ⟨hexists, hnumber⟩, rfl, rfl⟩ := hparts
  have hdigits : Integer.IsDigits (t.takeWhile Char.isDigit) :=
    ⟨List.ne_nil_of_length_pos (by omega), List.all_eq_true.1 List.all_takeWhile⟩
  -- behind the sign stand the digits of the year, and behind them what was taken apart
  have hwhole := List.takeWhile_append_dropWhile (p := Char.isDigit) (l := t)
  rw [hyear] at hwhole
  refine ⟨_, .day hsign hdigits (Nat.le_of_not_lt hlong) hmonth hday hexists hnumber, ?_⟩
  generalize t.takeWhile Char.isDigit = year at hwhole
  simp [ht, ← hwhole]

/-- The digits of a year end where a hyphen stands, so that dates are taken in front of any rest. -/
theorem take_written {date : Date} {front : Text} (h : DateText front date) (rest : Text) :
    take (front ++ rest) = some (date, rest) := by
  cases h with
  | @day sign year month day negative m d _ hsign hyear hlong hmonth hday hexists hnumber =>
    have hspan : Text.spanWhile Char.isDigit (year ++ '-' :: (month ++ '-' :: (day ++ rest))) =
        (year, '-' :: (month ++ '-' :: (day ++ rest))) :=
      Text.spanWhile_append hyear.all fun c hc => by
        cases hc
        rfl
    have hdate := ofCalendar?_eq_some.2 ⟨hexists, hnumber⟩
    have htext : sign ++ (year ++ '-' :: (month ++ '-' :: day)) ++ rest =
        sign ++ (year ++ '-' :: (month ++ '-' :: (day ++ rest))) := by simp
    rw [htext, take, splitSign_year hsign hyear]
    dsimp only
    rw [hspan]
    dsimp only
    rw [if_neg (Nat.not_lt.2 hlong), ← yearNumber]
    simp only [Option.bind_eq_bind, Option.bind_some, skip_cons, takeDigits_written hmonth,
      takeDigits_written hday, hdate]

theorem take_eq_some {date : Date} :
    take t = some (date, rest) ↔ ∃ front, DateText front date ∧ t = front ++ rest := by
  refine ⟨take_sound, ?_⟩
  rintro ⟨front, hfront, rfl⟩
  exact take_written hfront rest

end Date

/-! ## Times of day -/

namespace TimeOfDay

variable {t rest : Text}

theorem of?_eq_some {time : TimeOfDay} {second nano : Nat} :
    of? second nano = some time ↔
      (nano < 1000000000 ∨ second % 60 = 59) ∧ time.second = second ∧ time.nano = nano := by
  constructor
  · intro h
    rw [of?] at h
    split at h
    · next hparts =>
      cases h
      exact ⟨hparts.2.2, rfl, rfl⟩
    · cases h
  · rintro ⟨hleap, rfl, rfl⟩
    exact dif_pos ⟨time.second_lt, time.nano_lt, hleap⟩

theorem ofClock?_eq_some {hour minute second nano : Nat} {time : TimeOfDay} :
    ofClock? hour minute second nano = some time ↔
      (hour < 24 ∧ minute < 60 ∧ second < 60 ∧ (nano < 1000000000 ∨ second = 59)) ∧
      time.second = hour * 3600 + minute * 60 + second ∧ time.nano = nano := by
  rw [ofClock?, Option.ite_none_right_eq_some, of?_eq_some]
  simp only [Bool.and_eq_true, decide_eq_true_eq]
  omega

/-- The last step of every time of day. -/
theorem ofClock?_bind_eq_some {hour minute second nano : Nat} {time : TimeOfDay} :
    ((ofClock? hour minute second nano).bind fun time => some (time, t)) = some (time, rest) ↔
      (hour < 24 ∧ minute < 60 ∧ second < 60 ∧ (nano < 1000000000 ∨ second = 59)) ∧
        (time.second = hour * 3600 + minute * 60 + second ∧ time.nano = nano) ∧ t = rest := by
  simp only [Option.bind_eq_some_iff, ofClock?_eq_some, Option.some.injEq, Prod.mk.injEq]
  constructor
  · rintro ⟨_, ⟨hbounds, htime⟩, rfl, rfl⟩
    exact ⟨hbounds, htime, rfl⟩
  · rintro ⟨hbounds, htime, rfl⟩
    exact ⟨time, ⟨hbounds, htime⟩, rfl, rfl⟩

theorem takeFraction_eq_some {nano : Nat} (h : takeFraction t = some (nano, rest)) :
    ∃ digits, Integer.IsDigits digits ∧ digits.length ≤ 9 ∧
      nano = Integer.ofDigits 0 digits * 10 ^ (9 - digits.length) ∧ t = digits ++ rest := by
  simp only [takeFraction, Text.spanWhile] at h
  obtain ⟨hbounds, hparts⟩ := Option.ite_none_left_eq_some.1 h
  cases hparts
  rw [Bool.or_eq_true, not_or, List.isEmpty_iff] at hbounds
  have hshort : ¬ 9 < (t.takeWhile Char.isDigit).length := fun hlong =>
    hbounds.2 (decide_eq_true hlong)
  exact ⟨_, ⟨hbounds.1, List.all_eq_true.1 List.all_takeWhile⟩, Nat.le_of_not_lt hshort, rfl,
    List.takeWhile_append_dropWhile.symm⟩

/-- Digits of a fraction, up to nine. -/
theorem takeFraction_append {t rest : Text} (h : Integer.IsDigits t) (hlength : t.length ≤ 9)
    (hrest : ∀ c, rest.head? = some c → c.isDigit = false) :
    takeFraction (t ++ rest) = some (Integer.ofDigits 0 t * 10 ^ (9 - t.length), rest) := by
  have hempty : t.isEmpty = false := by simp [h.ne_nil]
  rw [takeFraction, Text.spanWhile_append h.all hrest]
  simp [hempty, Nat.not_lt.2 hlength]

/-- What is taken as a time of day is one. -/
theorem take_sound {time : TimeOfDay} (h : take t = some (time, rest)) :
    ∃ front, TimeText front time.second time.nano ∧ t = front ++ rest := by
  simp only [take, Option.bind_eq_bind, Option.bind_eq_some_iff, Prod.exists, Date.skip_eq_some,
    Date.takeDigits_eq_some] at h
  obtain ⟨h, _, ⟨hour, hhour, rfl⟩, _, rfl, m, _, ⟨minute, hminute, rfl⟩, hlater⟩ := h
  split at hlater
  · next later =>
    obtain ⟨⟨s, t⟩, htwo, hlast⟩ := Option.bind_eq_some_iff.1 hlater
    obtain ⟨second, hsecond, rfl⟩ := Date.takeDigits_eq_some.1 htwo
    dsimp only at hlast
    split at hlast
    · obtain ⟨⟨nano, t⟩, hfraction, htime⟩ := Option.bind_eq_some_iff.1 hlast
      obtain ⟨fraction, hdigits, hshort, rfl, rfl⟩ := takeFraction_eq_some hfraction
      obtain ⟨⟨hh, hm, hs, -⟩, ⟨hseconds, hnano⟩, rfl⟩ := ofClock?_bind_eq_some.1 htime
      rw [hseconds, hnano]
      exact ⟨_, .fraction hhour hminute hsecond hdigits hshort hh hm hs, by simp⟩
    · obtain ⟨⟨hh, hm, hs, -⟩, ⟨hseconds, hnano⟩, rfl⟩ := ofClock?_bind_eq_some.1 hlast
      rw [hseconds, hnano]
      exact ⟨_, .seconds hhour hminute hsecond hh hm hs, by simp⟩
  · obtain ⟨⟨hh, hm, -⟩, ⟨hseconds, hnano⟩, rfl⟩ := ofClock?_bind_eq_some.1 hlater
    rw [hseconds, hnano, Nat.add_zero]
    exact ⟨_, .minutes hhour hminute hh hm, by simp⟩

/-- What does not go on with a time of day. -/
def Ends (rest : Text) : Prop :=
  ∀ c, rest.head? = some c → c ≠ ':' ∧ c ≠ '.' ∧ c.isDigit = false

theorem exists_of_clock {hour minute second nano : Nat} (hh : hour < 24) (hm : minute < 60)
    (hs : second < 60) (hnano : nano < 1000000000) (rest : Text) :
    ∃ time : TimeOfDay, ((ofClock? hour minute second nano).bind fun time => some (time, rest)) =
        some (time, rest) ∧
      time.second = hour * 3600 + minute * 60 + second ∧ time.nano = nano := by
  refine ⟨⟨hour * 3600 + minute * 60 + second, nano, by omega, by omega⟩, ?_, rfl, rfl⟩
  exact ofClock?_bind_eq_some.2 ⟨⟨hh, hm, hs, .inl hnano⟩, ⟨rfl, rfl⟩, rfl⟩

theorem fraction_lt {fraction : Text} (h : Integer.IsDigits fraction) (hshort : fraction.length ≤ 9) :
    Integer.ofDigits 0 fraction * 10 ^ (9 - fraction.length) < 1000000000 := by
  have hlt := Integer.ofDigits_lt h.all 0
  rw [Nat.zero_add, Nat.one_mul] at hlt
  calc Integer.ofDigits 0 fraction * 10 ^ (9 - fraction.length)
      < 10 ^ fraction.length * 10 ^ (9 - fraction.length) :=
        Nat.mul_lt_mul_of_pos_right hlt (Nat.pow_pos (by decide))
    _ = 1000000000 := by
      rw [← Nat.pow_add, Nat.add_sub_cancel' hshort]

/-- A time of day is taken as a whole, if what follows it does not go on with it. -/
theorem take_written {front : Text} {second nano : Nat} (h : TimeText front second nano)
    (hrest : Ends rest) : ∃ time : TimeOfDay, take (front ++ rest) = some (time, rest) ∧
      time.second = second ∧ time.nano = nano := by
  cases h with
  | @minutes hour minute h m hhour hminute hh hm =>
    have htext : hour ++ ':' :: minute ++ rest = hour ++ ':' :: (minute ++ rest) := by simp
    simp only [htext, take, Option.bind_eq_bind, Option.bind_some, Date.takeDigits_written hhour,
      Date.skip_cons, Date.takeDigits_written hminute]
    split
    · exact absurd rfl (hrest ':' rfl).1
    · obtain ⟨time, htake, hseconds, hnano⟩ :=
        exists_of_clock hh hm (show 0 < 60 by decide) (show 0 < 1000000000 by decide) rest
      exact ⟨time, htake, hseconds.trans (Nat.add_zero _), hnano⟩
  | @seconds hour minute second h m s hhour hminute hsecond hh hm hs =>
    have htext : hour ++ ':' :: (minute ++ ':' :: second) ++ rest =
        hour ++ ':' :: (minute ++ ':' :: (second ++ rest)) := by simp
    simp only [htext, take, Option.bind_eq_bind, Option.bind_some, Date.takeDigits_written hhour,
      Date.skip_cons, Date.takeDigits_written hminute, Date.takeDigits_written hsecond]
    split
    · exact absurd rfl (hrest '.' rfl).2.1
    · exact exists_of_clock hh hm hs (by decide) rest
  | @fraction hour minute second fraction h m s hhour hminute hsecond hfraction hshort hh hm hs =>
    have htext : hour ++ ':' :: (minute ++ ':' :: (second ++ '.' :: fraction)) ++ rest =
        hour ++ ':' :: (minute ++ ':' :: (second ++ '.' :: (fraction ++ rest))) := by simp
    simp only [htext, take, Option.bind_eq_bind, Option.bind_some, Date.takeDigits_written hhour,
      Date.skip_cons, Date.takeDigits_written hminute, Date.takeDigits_written hsecond,
      takeFraction_append hfraction hshort fun c hc => (hrest c hc).2.2]
    exact exists_of_clock hh hm hs (fraction_lt hfraction hshort) rest

/-- A time of day that is the whole text. -/
theorem take_whole {second nano : Nat} (h : TimeText t second nano) :
    ∃ time : TimeOfDay, take t = some (time, []) ∧ time.second = second ∧ time.nano = nano := by
  have hend : Ends [] := fun c hc => by cases hc
  have htake := take_written h hend
  rwa [List.append_nil] at htake

end TimeOfDay

/-! ## Offsets and zones -/

namespace Offset

variable {t rest : Text}

theorem of?_eq_some {o : Offset} {seconds : Int} : of? seconds = some o ↔ o.seconds = seconds := by
  constructor
  · intro h
    rw [of?] at h
    split at h
    · cases h
      rfl
    · cases h
  · rintro rfl
    exact dif_pos ⟨o.lower, o.upper⟩

theorem takeMinutes_sound {m s : Nat} (h : takeMinutes t = some (m, s, [])) : MinutesText t m s := by
  rw [takeMinutes.eq_def] at h
  split at h
  · next later =>
    obtain ⟨⟨m, t⟩, htwo, hlast⟩ := Option.bind_eq_some_iff.1 h
    obtain ⟨minute, hminute, rfl⟩ := Date.takeDigits_eq_some.1 htwo
    dsimp only at hlast
    split at hlast
    · obtain ⟨⟨s, t⟩, htwo, hsame⟩ := Option.bind_eq_some_iff.1 hlast
      obtain ⟨second, hsecond, rfl⟩ := Date.takeDigits_eq_some.1 htwo
      cases hsame
      rw [List.append_nil]
      exact .colons hminute hsecond
    · cases hlast
      rw [List.append_nil]
      exact .colon hminute
  · split at h
    · cases h
      exact .absent
    · next m t htwo =>
      obtain ⟨minute, hminute, rfl⟩ := Date.takeDigits_eq_some.1 htwo
      rw [takeTwo] at h
      cases hsecond : Date.takeDigits 2 t with
      | none =>
        rw [hsecond] at h
        cases h
        rw [List.append_nil]
        exact .joined hminute
      | some taken =>
        obtain ⟨s, later⟩ := taken
        rw [hsecond] at h
        cases h
        obtain ⟨second, hsecond, hlater⟩ := Date.takeDigits_eq_some.1 hsecond
        rw [hlater, List.append_nil]
        exact .allJoined hminute hsecond

/-- Digits go on with an offset as hours do with minutes. -/
theorem takeMinutes_digits {c : Char} (hc : c.isDigit = true) (t : Text) :
    takeMinutes (c :: t) = match Date.takeDigits 2 (c :: t) with
      | none => some (0, 0, c :: t)
      | some (m, t) => some (m, (takeTwo t).1, (takeTwo t).2) := by
  rw [takeMinutes.eq_def]
  split
  · next heq =>
    rw [(List.cons.inj heq).1] at hc
    exact absurd hc (by decide)
  · rfl

theorem takeMinutes_written {m s : Nat} (h : MinutesText t m s) : takeMinutes t = some (m, s, []) := by
  have hend : ∀ {digits : Text} {n : Nat}, TwoDigits digits n →
      Date.takeDigits 2 digits = some (n, []) := by
    intro digits n htwo
    have htake := Date.takeDigits_written htwo []
    rwa [List.append_nil] at htake
  cases h with
  | absent => rfl
  | colon hminute => simp only [takeMinutes, hend hminute, Option.bind_eq_bind, Option.bind_some]
  | colons hminute hsecond =>
    simp only [takeMinutes, Date.takeDigits_written hminute, hend hsecond, Option.bind_eq_bind,
      Option.bind_some]
  | joined hminute =>
    have htake := hend hminute
    obtain ⟨c, digits, rfl, hc⟩ := hminute.digits.head
    rw [takeMinutes_digits hc, htake]
    rfl
  | allJoined hminute hsecond =>
    have htake := Date.takeDigits_written hminute
    obtain ⟨c, digits, rfl, hc⟩ := hminute.digits.head
    rw [List.cons_append, takeMinutes_digits hc, ← List.cons_append, htake]
    simp only [takeTwo, hend hsecond, Option.getD_some]

theorem take_signed {sign : Char} (hsign : sign = '+' ∨ sign = '-') {hour minutes : Text} {h m s : Nat}
    (hhour : TwoDigits hour h) (hminutes : MinutesText minutes m s) (hh : h < 24) (hm : m < 60)
    (hs : s < 60) {o : Offset} (ho : o.seconds = if sign = '-'
      then -((h * 3600 + m * 60 + s : Nat) : Int) else (h * 3600 + m * 60 + s : Nat)) :
    take (sign :: (hour ++ minutes)) = some (o, []) := by
  have hmark : (sign = '+' || sign = '-') = true := by simpa using hsign
  have hbounds : ¬ (23 < h || 59 < m || 59 < s) = true := by
    simp only [Bool.or_eq_true, decide_eq_true_eq]
    omega
  rw [take, if_pos hmark]
  simp only [Option.bind_eq_bind, Option.bind_some, Date.takeDigits_written hhour,
    takeMinutes_written hminutes, if_neg hbounds, of?_eq_some.2 ho]

/-- An offset at the end of a text. -/
theorem take_end {o : Offset} : take t = some (o, []) ↔ OffsetText t o.seconds := by
  constructor
  · intro h
    rw [take.eq_def] at h
    split at h
    · cases h
    · next sign later =>
      obtain ⟨hsign, hparts⟩ := Option.ite_none_right_eq_some.1 h
      simp only [Option.bind_eq_bind, Option.bind_eq_some_iff, Prod.exists, Date.takeDigits_eq_some]
        at hparts
      obtain ⟨h, _, ⟨hour, hhour, rfl⟩, m, s, _, hminutes, hlast⟩ := hparts
      obtain ⟨hbounds, htotal⟩ := Option.ite_none_left_eq_some.1 hlast
      simp only [Option.bind_eq_some_iff, of?_eq_some, Option.some.injEq, Prod.mk.injEq] at htotal
      obtain ⟨_, hseconds, rfl, rfl⟩ := htotal
      simp only [Bool.or_eq_true, decide_eq_true_eq, not_or, Nat.not_lt] at hbounds hsign
      have hwritten := takeMinutes_sound hminutes
      obtain rfl | rfl := hsign
      · rw [hseconds, if_neg (by decide)]
        exact .east hhour hwritten (by omega) (by omega) (by omega)
      · rw [hseconds, if_pos rfl]
        exact .west hhour hwritten (by omega) (by omega) (by omega)
  · intro h
    generalize hseconds : o.seconds = seconds at h
    cases h with
    | east hhour hminutes hh hm hs => exact take_signed (.inl rfl) hhour hminutes hh hm hs hseconds
    | west hhour hminutes hh hm hs => exact take_signed (.inr rfl) hhour hminutes hh hm hs hseconds

theorem afterWord_eq_some {word : String} : afterWord word t = some rest ↔ t = word.toList ++ rest := by
  rw [afterWord, Option.ite_none_right_eq_some, Option.some.injEq, List.isPrefixOf_iff_prefix]
  constructor
  · rintro ⟨⟨later, rfl⟩, rfl⟩
    rw [List.drop_left]
  · rintro rfl
    exact ⟨List.prefix_append .., List.drop_left⟩

theorem eq_utc {o : Offset} (h : o.seconds = 0) : o = utc := by
  cases o
  cases h
  rfl

theorem offset_head {seconds : Int} (h : OffsetText t seconds) :
    ∃ sign later, t = sign :: later ∧ (sign = '+' ∨ sign = '-') := by
  cases h with
  | east => exact ⟨_, _, rfl, .inl rfl⟩
  | west => exact ⟨_, _, rfl, .inr rfl⟩

/-- A text that starts with a sign is no name of UTC. -/
theorem takeZone_sign {sign : Char} (h : sign = '+' ∨ sign = '-') (rest : Text) :
    takeZone (sign :: rest) = take (sign :: rest) := by
  rcases h with rfl | rfl <;> rfl

/-- The sign of an offset does not go on with a name of UTC. -/
theorem takeZone_named {name : String} (hname : name ∈ ["UTC", "GMT", "UT"]) {seconds : Int}
    (h : OffsetText t seconds) : takeZone (name.toList ++ t) = take t := by
  obtain ⟨sign, later, rfl, hsign⟩ := offset_head h
  simp only [List.mem_cons, List.not_mem_nil, or_false] at hname
  obtain rfl | rfl | rfl := hname
  all_goals
    obtain rfl | rfl := hsign
    all_goals rfl

/-- A zone at the end of a text. -/
theorem takeZone_end {o : Offset} : takeZone t = some (o, []) ↔ ZoneText t o.seconds := by
  constructor
  · intro h
    rw [takeZone.eq_def] at h
    split at h
    · cases h
      exact .zulu
    · split at h
      · next hname =>
        obtain ⟨name, hmem, hword⟩ := List.exists_of_findSome?_eq_some hname
        cases h
        rw [afterWord_eq_some.1 hword, List.append_nil]
        exact .name hmem
      · next hname =>
        obtain ⟨name, hmem, hword⟩ := List.exists_of_findSome?_eq_some hname
        rw [afterWord_eq_some.1 hword]
        exact .named hmem (take_end.1 h)
      · exact .offset (take_end.1 h)
  · intro h
    generalize hseconds : o.seconds = seconds at h
    cases h with
    | zulu =>
      rw [eq_utc hseconds]
      rfl
    | name hname =>
      rw [eq_utc hseconds]
      simp only [List.mem_cons, List.not_mem_nil, or_false] at hname
      obtain rfl | rfl | rfl := hname
      all_goals rfl
    | named hname hoffset =>
      rw [takeZone_named hname hoffset]
      exact take_end.2 (hseconds ▸ hoffset)
    | offset hoffset =>
      obtain ⟨sign, later, rfl, hsign⟩ := offset_head hoffset
      rw [takeZone_sign hsign]
      exact take_end.2 (hseconds ▸ hoffset)

end Offset

/-! ## Timestamps -/

namespace Instant

variable {t rest : Text}

theorem of?_eq_some {i : Instant} {second : Int} {nano : Nat} :
    of? second nano = some i ↔
      (nano < 1000000000 ∨ second % 60 = 59) ∧ i.second = second ∧ i.nano = nano := by
  constructor
  · intro h
    rw [of?] at h
    split at h
    · next hparts =>
      cases h
      exact ⟨hparts.2.2, rfl, rfl⟩
    · cases h
  · rintro ⟨hleap, rfl, rfl⟩
    exact dif_pos ⟨⟨i.first_le, i.lt_end⟩, i.nano_lt, hleap⟩

/-- The time of day behind a date. -/
def takeClock : Text → Option (TimeOfDay × Text)
  | 'T' :: t => TimeOfDay.take t
  | ' ' :: t => TimeOfDay.take t
  | t => some (.midnight, t)

/-- What stands behind the time of day. -/
def takePlace (date : Date) (time : TimeOfDay) (t : Text) : Option Instant := do
  match Text.trimStart t with
  | [] => ofLocal? date time .utc
  | t =>
    match ← Offset.takeZone t with
    | (offset, []) => ofLocal? date time offset
    | _ => none

theorem takeClock_unmarked (h : Unmarked t) : takeClock t = some (.midnight, t) := by
  rw [takeClock]
  · rintro later rfl
    exact (h 'T' rfl).1 rfl
  · rintro later rfl
    exact (h ' ' rfl).2 rfl

theorem read_eq (t : Text) : read t = (Date.take t).bind fun (date, t) =>
    (takeClock t).bind fun (time, t) => takePlace date time t := by
  rw [read, Option.bind_eq_bind]
  refine Option.bind_congr fun (date, t) _ => ?_
  dsimp only
  split
  · rfl
  · rfl
  · next hletter hspace =>
    rw [takeClock_unmarked]
    · rfl
    · intro c hc
      obtain ⟨later, rfl⟩ := List.head?_eq_some_iff.1 hc
      exact ⟨fun h => hletter later (by rw [h]), fun h => hspace later (by rw [h])⟩

theorem takeClock_sound {time : TimeOfDay} (h : takeClock t = some (time, rest)) :
    ∃ clock, ClockText clock time.second time.nano ∧ t = clock ++ rest ∧
      (clock = [] → Unmarked rest) := by
  rw [takeClock.eq_def] at h
  split at h
  · obtain ⟨front, hfront, rfl⟩ := TimeOfDay.take_sound h
    exact ⟨'T' :: front, .present (.inl rfl) hfront, rfl, fun hnil => by cases hnil⟩
  · obtain ⟨front, hfront, rfl⟩ := TimeOfDay.take_sound h
    exact ⟨' ' :: front, .present (.inr rfl) hfront, rfl, fun hnil => by cases hnil⟩
  · next hletter hspace =>
    cases h
    refine ⟨[], .absent, rfl, fun _ c hc => ?_⟩
    obtain ⟨later, rfl⟩ := List.head?_eq_some_iff.1 hc
    exact ⟨fun h => hletter later (by rw [h]), fun h => hspace later (by rw [h])⟩

theorem takeClock_written {clock : Text} {second nano : Nat} (h : ClockText clock second nano)
    (hrest : TimeOfDay.Ends rest) (hleft : clock = [] → Unmarked rest) :
    ∃ time : TimeOfDay, takeClock (clock ++ rest) = some (time, rest) ∧ time.second = second ∧
      time.nano = nano := by
  cases h with
  | absent => exact ⟨.midnight, takeClock_unmarked (hleft rfl), rfl, rfl⟩
  | present hmark htime =>
    obtain rfl | rfl := hmark
    · exact TimeOfDay.take_written htime hrest
    · exact TimeOfDay.take_written htime hrest

theorem ofLocal?_eq_some {date : Date} {time : TimeOfDay} {offset : Offset} {i : Instant} :
    ofLocal? date time offset = some i ↔
      i.second = date.day * 86400 + time.second - offset.seconds ∧ i.nano = time.nano := by
  constructor
  · intro h
    rw [ofLocal?] at h
    split at h
    · cases h
      exact ⟨rfl, rfl⟩
    · cases h
  · rintro ⟨hsecond, hnano⟩
    have hfirst := i.first_le
    have hend := i.lt_end
    rw [hsecond] at hfirst hend
    rw [ofLocal?, dif_pos ⟨hfirst, hend⟩, Option.some.injEq]
    exact Instant.ext hsecond.symm hnano.symm

theorem zone_head {seconds : Int} (h : ZoneText t seconds) :
    ∃ c later, t = c :: later ∧ c ∈ ['Z', 'U', 'G', '+', '-'] := by
  have hword : ∀ {name : String}, name ∈ ["UTC", "GMT", "UT"] →
      ∃ c later, name.toList = c :: later ∧ c ∈ ['Z', 'U', 'G', '+', '-'] := by
    intro name hname
    simp only [List.mem_cons, List.not_mem_nil, or_false] at hname
    obtain rfl | rfl | rfl := hname
    all_goals exact ⟨_, _, rfl, by decide⟩
  cases h with
  | zulu => exact ⟨'Z', [], rfl, by decide⟩
  | name hname => exact hword hname
  | named hname =>
    obtain ⟨c, later, heq, hc⟩ := hword hname
    exact ⟨c, later ++ _, by rw [heq]; rfl, hc⟩
  | offset hoffset =>
    obtain ⟨sign, later, rfl, rfl | rfl⟩ := Offset.offset_head hoffset
    all_goals exact ⟨_, later, rfl, by decide⟩

/-- The first character of a zone is no blank, and does not go on with a time of day. -/
theorem zone_mark {c : Char} (hc : c ∈ ['Z', 'U', 'G', '+', '-']) :
    Text.isBlank c = false ∧ c ≠ ':' ∧ c ≠ '.' ∧ c.isDigit = false := by
  simp only [List.mem_cons, List.not_mem_nil, or_false] at hc
  obtain rfl | rfl | rfl | rfl | rfl := hc
  all_goals decide

theorem offset_bounds {seconds : Int} (h : OffsetText t seconds) : -86400 < seconds ∧ seconds < 86400 := by
  cases h with
  | east hhour hminutes hh hm hs => constructor <;> omega
  | west hhour hminutes hh hm hs => constructor <;> omega

theorem exists_of_zone {seconds : Int} (h : ZoneText t seconds) : ∃ o : Offset, o.seconds = seconds := by
  have hsigned : ∀ {t seconds}, OffsetText t seconds → ∃ o : Offset, o.seconds = seconds :=
    fun h => ⟨⟨_, (offset_bounds h).1, (offset_bounds h).2⟩, rfl⟩
  cases h with
  | zulu => exact ⟨.utc, rfl⟩
  | name => exact ⟨.utc, rfl⟩
  | named _ hoffset => exact hsigned hoffset
  | offset hoffset => exact hsigned hoffset

theorem takePlace_eq_some {date : Date} {time : TimeOfDay} {i : Instant} :
    takePlace date time t = some i ↔ ∃ gap zone offset, Text.Blank gap ∧ PlaceText zone offset ∧
      t = gap ++ zone ∧ i.second = date.day * 86400 + time.second - offset ∧ i.nano = time.nano := by
  constructor
  · intro h
    obtain ⟨gap, hgap, ht⟩ := Text.exists_blank_append t
    rw [takePlace] at h
    generalize Text.trimStart t = zone at h ht
    split at h
    · exact ⟨gap, [], 0, hgap, .absent, ht, ofLocal?_eq_some.1 h⟩
    · obtain ⟨⟨offset, later⟩, hzone, hlast⟩ := Option.bind_eq_some_iff.1 h
      split at hlast
      · next heq =>
        cases heq
        exact ⟨gap, zone, offset.seconds, hgap, .present (Offset.takeZone_end.1 hzone), ht,
          ofLocal?_eq_some.1 hlast⟩
      · cases hlast
  · rintro ⟨gap, zone, offset, hgap, hzone, rfl, hinstant⟩
    rw [takePlace, Text.trimStart_append hgap]
    cases hzone with
    | absent => exact ofLocal?_eq_some.2 hinstant
    | present hzone =>
      obtain ⟨o, rfl⟩ := exists_of_zone hzone
      obtain ⟨c, later, rfl, hc⟩ := zone_head hzone
      rw [Text.trimStart_cons (zone_mark hc).1]
      dsimp only
      rw [Offset.takeZone_end.2 hzone]
      exact ofLocal?_eq_some.2 hinstant

/-- Neither blanks nor a zone go on with a time of day. -/
theorem ends_place {gap zone : Text} {offset : Int} (hgap : Text.Blank gap)
    (hzone : PlaceText zone offset) : TimeOfDay.Ends (gap ++ zone) := by
  intro c hc
  cases gap with
  | cons d gap =>
    cases hc
    have hblank := (hgap.of_cons).1
    have hother : ∀ mark, Text.isBlank mark = false → c ≠ mark := by
      rintro mark hmark rfl
      rw [hmark] at hblank
      cases hblank
    refine ⟨hother ':' rfl, hother '.' rfl, Bool.eq_false_iff.2 fun hdigit => ?_⟩
    exact hother c (Identifier.isBlank_of_isNameChar (Integer.isNameChar_of_isDigit hdigit)) rfl
  | nil =>
    cases hzone with
    | absent => cases hc
    | present hzone =>
      obtain ⟨d, later, rfl, hd⟩ := zone_head hzone
      cases hc
      exact (zone_mark hd).2

/-- What is read of a text is written in it. -/
theorem read_sound {i : Instant} (h : read t = some i) :
    ∃ date second nano offset, Written t date second nano offset ∧
      i.second = date.day * 86400 + second - offset ∧ i.nano = nano := by
  rw [read_eq] at h
  obtain ⟨⟨date, t⟩, hfirst, hlater⟩ := Option.bind_eq_some_iff.1 h
  obtain ⟨⟨time, t⟩, hsecond, hplace⟩ := Option.bind_eq_some_iff.1 hlater
  obtain ⟨dateText, hdate, rfl⟩ := Date.take_eq_some.1 hfirst
  obtain ⟨clock, hclock, rfl, hleft⟩ := takeClock_sound hsecond
  obtain ⟨gap, zone, offset, hgap, hzone, rfl, hinstant⟩ := takePlace_eq_some.1 hplace
  exact ⟨date, time.second, time.nano, offset, .timestamp hdate hclock hgap hzone hleft, hinstant⟩

theorem read_of_written {date : Date} {second nano : Nat} {offset : Int} {i : Instant}
    (h : Written t date second nano offset)
    (hinstant : i.second = date.day * 86400 + second - offset ∧ i.nano = nano) : read t = some i := by
  cases h with
  | @timestamp dateText clock gap zone _ _ _ _ hdate hclock hgap hzone hleft =>
    obtain ⟨time, htake, rfl, rfl⟩ := takeClock_written hclock (ends_place hgap hzone) hleft
    rw [read_eq, Date.take_eq_some.2 ⟨dateText, hdate, rfl⟩, Option.bind_some]
    dsimp only
    rw [htake, Option.bind_some]
    exact takePlace_eq_some.2 ⟨gap, zone, offset, hgap, hzone, rfl, hinstant⟩

/-- Timestamps are read of the texts of the grammar and of no others: the instant is the date and the time
of day as they are written, less the offset, if there is such an instant. -/
theorem read_iff_written (t : Text) (i : Instant) : read t = some i ↔
    ∃ date second nano offset, Written t date second nano offset ∧
      i.second = date.day * 86400 + second - offset ∧ i.nano = nano := by
  constructor
  · exact read_sound
  · rintro ⟨date, second, nano, offset, hwritten, hinstant⟩
    exact read_of_written hwritten hinstant

example : (read "2010-06-30 02:20:47.5 UTC+0100".toList).map (fun i => (i.second, i.nano)) =
    some (1277860847, 500000000) := by decide +kernel

end Instant

end Cql
