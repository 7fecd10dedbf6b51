import Cql.Time.Zone

/-!
Some regions whose clocks agree, with the offset they keep from 1970 on. In a season of daylight saving
time the clocks are an hour ahead; seasons start and end on Sundays.
-/

namespace Cql

/-- The first Sunday from a day of the month on, and a second of that day in UTC. -/
structure Change where
  month : Nat
  day : Nat
  second : Int
  deriving DecidableEq, Repr

/-- Daylight saving time from one change to another in each of some years. -/
structure Season where
  firstYear : Int
  lastYear : Option Int
  start : Change
  finish : Change
  deriving DecidableEq, Repr

structure Region where
  name : String
  standard : Offset
  summer : Offset
  seasons : List Season
  deriving DecidableEq, Repr

namespace Change

/-- The second since the epoch at which the change happens in a year; day number 3 is a Sunday. -/
def inYear (c : Change) (year : Int) : Int :=
  let day := Date.dayNumber year c.month c.day
  (day + (3 - day) % 7) * 86400 + c.second

end Change

namespace Season

def contains (s : Season) (second year : Int) : Bool :=
  s.firstYear ≤ year && s.lastYear.all (year ≤ ·) &&
    s.start.inYear year ≤ second && second < s.finish.inYear year

end Season

namespace Region

/-- The offset at a second since the epoch. -/
def offsetAt (r : Region) (second : Int) : Offset :=
  let year := (Date.calendarDay (second / 86400)).1
  if r.seasons.any (·.contains second year) then r.summer else r.standard

/-- A region without seasons. -/
def fixed (name : String) (offset : Offset) : Region := ⟨name, offset, offset, []⟩

def paris : Region where
  name := "Europe/Paris"
  standard := ⟨3600, by decide, by decide⟩
  summer := ⟨7200, by decide, by decide⟩
  seasons :=
    [⟨1976, some 1976, ⟨3, 28, 0⟩, ⟨9, 26, -3600⟩⟩,
     ⟨1977, some 1977, ⟨4, 1, 3600⟩, ⟨9, 24, 3600⟩⟩,
     ⟨1978, some 1978, ⟨4, 1, 3600⟩, ⟨10, 1, 3600⟩⟩,
     ⟨1979, some 1980, ⟨4, 1, 3600⟩, ⟨9, 24, 3600⟩⟩,
     ⟨1981, some 1995, ⟨3, 25, 3600⟩, ⟨9, 24, 3600⟩⟩,
     ⟨1996, none, ⟨3, 25, 3600⟩, ⟨10, 25, 3600⟩⟩]

def newYork : Region where
  name := "America/New_York"
  standard := ⟨-18000, by decide, by decide⟩
  summer := ⟨-14400, by decide, by decide⟩
  seasons :=
    [⟨1970, some 1973, ⟨4, 24, 25200⟩, ⟨10, 25, 21600⟩⟩,
     ⟨1974, some 1974, ⟨1, 6, 25200⟩, ⟨10, 25, 21600⟩⟩,
     ⟨1975, some 1975, ⟨2, 22, 25200⟩, ⟨10, 25, 21600⟩⟩,
     ⟨1976, some 1986, ⟨4, 24, 25200⟩, ⟨10, 25, 21600⟩⟩,
     ⟨1987, some 2006, ⟨4, 1, 25200⟩, ⟨10, 25, 21600⟩⟩,
     ⟨2007, none, ⟨3, 8, 25200⟩, ⟨11, 1, 21600⟩⟩]

/-- The regions of this table. -/
def all : List Region :=
  [paris, newYork, fixed "Asia/Kolkata" ⟨19800, by decide, by decide⟩,
   fixed "Asia/Tokyo" ⟨32400, by decide, by decide⟩, fixed "Etc/UTC" .utc, fixed "GMT0" .utc,
   fixed "Zulu" .utc]

/-- Names are case-sensitive. -/
def ofName? (name : Text) : Option Region := all.find? (·.name.toList == name)

/-- What the table knows of regions. -/
def table : Regions Region where
  ofName? := ofName?
  name r := r.name.toList
  offsetAt r instant := r.offsetAt instant.second

end Region

end Cql
