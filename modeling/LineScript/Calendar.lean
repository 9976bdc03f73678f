/-!
# Instants and dates

  * `Instant` is a point in time, counted from the beginning of 1970 in universal time.
  * `Instant.ofUnix?` admits the instants that have a date: within the range of years that dates
    cover, and with a fraction below one second, except that the last second of a minute may be
    followed by a leap second.
  * `Date.ofDays` is the date of a day in the Gregorian calendar, which is used for all times.
  * `Instant.render` writes date and time of day.
-/

namespace LineScript

/-- A point in time. -/
structure Instant where
  /-- Whole seconds since the beginning of 1970. -/
  seconds : Int
  /-- Billionths of a second after that; a billion or more within a leap second. -/
  nanos : Nat
  deriving DecidableEq

/-- Day, month and year. -/
structure Date where
  /-- Year; the year before year 1 is year 0. -/
  year : Int
  /-- Month, from 1. -/
  month : Nat
  /-- Day of the month, from 1. -/
  day : Nat
  deriving DecidableEq

/-- The date so many days after the first day of 1970. Years are counted here from March on, so that
a leap day is the last day of its year; 400 such years always have 146097 days. -/
def Date.ofDays (days : Int) : Date :=
  let shifted := days + 719468
  let era := shifted.fdiv 146097
  let dayOfEra := (shifted.fmod 146097).toNat
  let yearOfEra := (dayOfEra - dayOfEra / 1460 + dayOfEra / 36524 - dayOfEra / 146096) / 365
  let dayOfYear := dayOfEra - (365 * yearOfEra + yearOfEra / 4 - yearOfEra / 100)
  let monthFromMarch := (5 * dayOfYear + 2) / 153
  let day := dayOfYear - (153 * monthFromMarch + 2) / 5 + 1
  let month := if monthFromMarch < 10 then monthFromMarch + 3 else monthFromMarch - 9
  let year := era * 400 + yearOfEra
  ⟨if month ≤ 2 then year + 1 else year, month, day⟩

/-- A number in decimal, with zeros in front up to a width. -/
def padded (width n : Nat) : String :=
  let digits := Nat.toDigits 10 n
  String.ofList (List.replicate (width - digits.length) '0' ++ digits)

/-- Text of a year: four digits; years after 9999 have a plus, years before 0 a minus. -/
def Date.renderYear (year : Int) : String :=
  if year < 0 then "-" ++ padded 4 year.natAbs
  else if year ≤ 9999 then padded 4 year.natAbs
  else "+" ++ padded 4 year.natAbs

namespace Instant

/-- The instant so many seconds and billionths after the beginning of 1970, if it has a date. -/
def ofUnix? (seconds : Int) (nanos : Nat) : Option Instant :=
  if seconds < -8334601228800 ∨ 8210266876799 < seconds then none
  else if nanos < 1000000000 then some ⟨seconds, nanos⟩
  else if nanos < 2000000000 ∧ seconds.emod 60 = 59 then some ⟨seconds, nanos⟩
  else none

/-- Text of an instant, `year-month-day hour:minute:second`. A leap second is the sixtieth. -/
def render (t : Instant) : String :=
  let date := Date.ofDays (t.seconds.fdiv 86400)
  let secondOfDay := (t.seconds.fmod 86400).toNat
  let leap := if t.nanos < 1000000000 then 0 else 1
  Date.renderYear date.year ++ "-" ++ padded 2 date.month ++ "-" ++ padded 2 date.day ++ " " ++
    padded 2 (secondOfDay / 3600) ++ ":" ++ padded 2 (secondOfDay / 60 % 60) ++ ":" ++
    padded 2 (secondOfDay % 60 + leap)

end Instant

end LineScript
