/-!
Points of time as texts: date and time of day in UTC, to the second, as in `2024-03-01T12:00:00Z`.

Days are counted from the first of March of a year 0 in the Gregorian calendar, so that a leap day
is the last day of its year, and years are taken apart in cycles of 400.
-/

set_option autoImplicit false

namespace Saturation.Text

structure Date where
  year : Int
  month : Nat
  day : Nat
  deriving DecidableEq, Repr

/-- Days from the first of March of the year 0 to the first day of 1970. -/
def epochDay : Int := 719468

def daysOfCycle : Nat := 146097

/-- The year of a cycle that a day of the cycle is in. -/
def yearOfCycle (day : Nat) : Nat := (day - day / 1460 + day / 36524 - day / 146096) / 365

/-- The date of a day, counted from the first day of 1970. -/
def Date.ofDay (day : Int) : Date :=
  let cycle := (day + epochDay).fdiv daysOfCycle
  let rest := ((day + epochDay).fmod daysOfCycle).toNat
  let year := yearOfCycle rest
  let dayOfYear := rest - (365 * year + year / 4 - year / 100)
  let month := (5 * dayOfYear + 2) / 153
  { year := cycle * 400 + year + if month < 10 then 0 else 1
    month := if month < 10 then month + 3 else month - 9
    day := dayOfYear - (153 * month + 2) / 5 + 1 }

/-- A number with at least the given count of digits. -/
def padded (places n : Nat) : String := "".pushn '0' (places - (toString n).length) ++ toString n

/-- Years of other than four digits have a sign. -/
def yearText (year : Int) : String :=
  if 0 ≤ year ∧ year ≤ 9999 then padded 4 year.toNat
  else (if year < 0 then "-" else "+") ++ padded 4 year.natAbs

def Date.text (d : Date) : String := s!"{yearText d.year}-{padded 2 d.month}-{padded 2 d.day}"

/-- A point of time, in seconds since the beginning of 1970. -/
def timestamp (seconds : Int) : String :=
  let date := Date.ofDay (seconds.fdiv 86400)
  let s := (seconds.fmod 86400).toNat
  s!"{date.text}T{padded 2 (s / 3600)}:{padded 2 (s / 60 % 60)}:{padded 2 (s % 60)}Z"

end Saturation.Text
