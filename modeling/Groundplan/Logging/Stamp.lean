/-!
# Time stamps

The date and time of a count of seconds since the first of January 1970, in universal time and
without leap seconds. Years are counted from the first of March, so that a leap day is the last of
its year; the calendar then repeats every four hundred years.
-/

namespace Groundplan.Logging.Stamp

/-- The seconds of a day. -/
def daySeconds : Nat := 86400

/-- The days of four hundred years. -/
def cycleDays : Nat := 146097

/-- The days from the first of March of the year 0 to the first of January 1970. -/
def epochDays : Nat := 719468

/-- The year within four hundred to which a day belongs. -/
def yearOfCycle (day : Nat) : Nat := (day - day / 1460 + day / 36524 - day / 146096) / 365

/-- The day on which a year within four hundred starts. -/
def startOfYear (year : Nat) : Nat := 365 * year + year / 4 - year / 100

/-- The month that a day of the year belongs to, counted from March. -/
def monthOfDay (day : Nat) : Nat := (5 * day + 2) / 153

/-- The day of the year on which a month starts, counted from March. -/
def startOfMonth (month : Nat) : Nat := (153 * month + 2) / 5

/-- A number in decimal digits, with zeros in front up to a width. -/
def padded (width n : Nat) : String :=
  let digits := Nat.toDigits 10 n
  String.ofList (List.replicate (width - digits.length) '0' ++ digits)

/-- The date of a day since the first of January 1970. -/
def date (days : Nat) : String :=
  let day := days + epochDays
  let dayOfCycle := day % cycleDays
  let year := yearOfCycle dayOfCycle
  let dayOfYear := dayOfCycle - startOfYear year
  let month := monthOfDay dayOfYear
  let isNext := 10 ≤ month
  let yearNumber := 400 * (day / cycleDays) + year + (if isNext then 1 else 0)
  let monthNumber := if isNext then month - 9 else month + 3
  padded 4 yearNumber ++ "-" ++ padded 2 monthNumber ++ "-" ++
    padded 2 (dayOfYear - startOfMonth month + 1)

/-- The time of a second of a day. -/
def time (second : Nat) : String :=
  padded 2 (second / 3600) ++ ":" ++ padded 2 (second / 60 % 60) ++ ":" ++ padded 2 (second % 60)

/-- The date and the time of a second since the first of January 1970. -/
def ofSeconds (seconds : Nat) : String :=
  date (seconds / daySeconds) ++ "T" ++ time (seconds % daySeconds)

end Groundplan.Logging.Stamp
