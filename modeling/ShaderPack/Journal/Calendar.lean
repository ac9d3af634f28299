import ShaderPack.Text.Basic

namespace ShaderPack.Journal

/-!
# Dates and times of entries

Times are seconds since the beginning of 1970 and nanoseconds on top; days are those of the
Gregorian calendar, extended to the years from -262143 to 262142.  A time outside of them has
no text.  Years are counted from March, so that the day that leap years add is the last one
of a year.

Only the lines of entries on the console tell the time; entries themselves have none.
-/

/-- A point in time. -/
structure Instant where
  /-- Whole seconds since the beginning of 1970; negative before it. -/
  seconds : Int
  nanoseconds : Nat := 0
  deriving DecidableEq, Repr

/-- A day of the calendar. -/
structure Date where
  year : Int
  month : Nat
  day : Nat
  deriving DecidableEq, Repr

/-- Days in four hundred years, after which the calendar repeats. -/
def daysInCycle : Nat := 146097

/-- Days from the first of March of the year 0 to the beginning of 1970. -/
def daysBeforeEpoch : Nat := 719468

/-- The day that is a number of days after the beginning of 1970. -/
def Date.ofDays (days : Int) : Date :=
  let sinceMarch := days + daysBeforeEpoch
  let cycle := Int.fdiv sinceMarch daysInCycle
  let dayOfCycle := (Int.fmod sinceMarch daysInCycle).toNat
  -- a leap day every 4 years, but none every 100 years, and one again every 400
  let yearOfCycle :=
    (dayOfCycle - dayOfCycle / 1460 + dayOfCycle / 36524 - dayOfCycle / 146096) / 365
  let dayOfYear := dayOfCycle - (365 * yearOfCycle + yearOfCycle / 4 - yearOfCycle / 100)
  -- from March on, months of 31, 30, 31, 30, 31 days repeat, which makes 153 days
  let monthFromMarch := (5 * dayOfYear + 2) / 153
  let year : Int := cycle * 400 + yearOfCycle
  -- January and February belong to the next year of the calendar
  { year := if monthFromMarch < 10 then year else year + 1
    month := if monthFromMarch < 10 then monthFromMarch + 3 else monthFromMarch - 9
    day := dayOfYear - (153 * monthFromMarch + 2) / 5 + 1 }

/-- The first year of the calendar. -/
def firstYear : Int := -262143

/-- The last year of the calendar. -/
def lastYear : Int := 262142

/-- Whether a day belongs to a year of the calendar. -/
def Date.isCovered (d : Date) : Bool := firstYear ≤ d.year && d.year ≤ lastYear

/-- A number with zeros in front of it, if it has fewer than `size` digits. -/
def padZeros (size n : Nat) : String :=
  String.ofList (List.replicate (size - (toString n).length) '0') ++ toString n

/-- A year of four digits; outside 0 to 9999 it has a sign and may have more digits. -/
def yearText (year : Int) : String :=
  if year < 0 then "-" ++ padZeros 4 year.natAbs
  else if 9999 < year then "+" ++ padZeros 4 year.natAbs
  else padZeros 4 year.natAbs

/-- Seconds in a day. -/
def secondsInDay : Nat := 86400

/-- Nanoseconds in a second. -/
def nanosecondsInSecond : Nat := 1000000000

/-- A day as year, month and day. -/
def Date.text (d : Date) : String :=
  yearText d.year ++ "-" ++ padZeros 2 d.month ++ "-" ++ padZeros 2 d.day

/-- The seconds of a day as hours, minutes and seconds. -/
def clockText (second : Nat) : String :=
  padZeros 2 (second / 3600) ++ ":" ++ padZeros 2 (second / 60 % 60) ++ ":" ++
    padZeros 2 (second % 60)

/-- Date and time, the seconds with three places that are cut and not rounded; a time outside
    the calendar has no text. -/
def Instant.text? (t : Instant) : Option String :=
  -- nanoseconds may make up whole seconds
  let seconds := t.seconds + t.nanoseconds / nanosecondsInSecond
  let date := Date.ofDays (Int.fdiv seconds secondsInDay)
  let clock := clockText (Int.fmod seconds secondsInDay).toNat
  let milliseconds := t.nanoseconds % nanosecondsInSecond / 1000000
  if date.isCovered then some (date.text ++ " " ++ clock ++ "." ++ padZeros 3 milliseconds)
  else none

end ShaderPack.Journal
