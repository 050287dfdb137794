import SqlStatement.Text.Word

/-!
# Points in time

A point in time is a date of the Gregorian calendar, extended to all years, and
a time of day. A leap second is written as second 59 with a thousand million
nanoseconds or more, so that the time of day stays below one day.
-/
namespace SqlStatement

/-- A date and a time of day without a time zone. -/
structure DateTime where
  year : Int
  month : Nat
  day : Nat
  hour : Nat := 0
  minute : Nat := 0
  second : Nat := 0
  nanosecond : Nat := 0
  deriving DecidableEq, Repr

namespace DateTime

/-- The days from the first of March of year zero to a date. Years are counted from March, so that
a leap day is the last day of its year. -/
def dayNumber (year : Int) (month day : Nat) : Int :=
  let y := if month ≤ 2 then year - 1 else year
  let m : Int := if month ≤ 2 then month + 9 else month - 3
  365 * y + y / 4 - y / 100 + y / 400 + (153 * m + 2) / 5 + (day - 1)

/-- The date with a day number: its year, month and day. -/
def ofDayNumber (n : Int) : Int × Nat × Nat :=
  let era := n / 146097
  let inEra := n % 146097
  let yearOfEra := (inEra - inEra / 1460 + inEra / 36524 - inEra / 146096) / 365
  let inYear := inEra - (365 * yearOfEra + yearOfEra / 4 - yearOfEra / 100)
  let m := (5 * inYear + 2) / 153
  let day := inYear - (153 * m + 2) / 5 + 1
  let month := if m < 10 then m + 3 else m - 9
  (yearOfEra + era * 400 + (if month ≤ 2 then 1 else 0), month.toNat, day.toNat)

/-- The same wall clock moved by a number of seconds. The nanoseconds stay. -/
def addSeconds (t : DateTime) (seconds : Int) : DateTime :=
  let total : Int := (t.hour * 3600 + t.minute * 60 + t.second : Nat) + seconds
  let date := ofDayNumber (dayNumber t.year t.month t.day + total / 86400)
  let rest := (total % 86400).toNat
  { year := date.1, month := date.2.1, day := date.2.2
    hour := rest / 3600, minute := rest / 60 % 60, second := rest % 60
    nanosecond := t.nanosecond }

/-- The time in UTC of a wall clock that is ahead of UTC by the given seconds. -/
def ofZoned (wallClock : DateTime) (offset : Int) : DateTime := wallClock.addSeconds (-offset)

/-- The year with four digits, and with a sign if four digits do not hold it. -/
def yearText (year : Int) : Text :=
  if 0 ≤ year ∧ year ≤ 9999 then Text.ofNatPadded 4 year.toNat
  else (if year < 0 then '-' else '+') :: Text.ofNatPadded 4 year.natAbs

/-- Date and time as `YYYY-MM-DD HH:MM:SS`; a leap second is second 60. -/
def text (t : DateTime) : Text :=
  let two := Text.ofNatPadded 2
  let second := if 1000000000 ≤ t.nanosecond then t.second + 1 else t.second
  yearText t.year ++ '-' :: (two t.month ++ '-' :: (two t.day ++ ' ' :: (two t.hour ++
    ':' :: (two t.minute ++ ':' :: two second))))

end DateTime
end SqlStatement
