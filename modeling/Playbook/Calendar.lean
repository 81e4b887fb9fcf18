import Playbook.Value

/-!
# Dates

The date and the time of day of a moment, which is given by the time since the beginning of 1970.
-/

namespace Playbook.Calendar

/-- The number of days in 400 years. -/
def daysOfCycle : Nat := 146097

/-- The year, the month and the day, each counted from one, of a day counted from the beginning of
1970. Years are taken to begin in March, so that a leap day is the last day of its year. -/
def date (day : Nat) : Nat × Nat × Nat :=
  let shifted := day + 719468
  let cycle := shifted / daysOfCycle
  let inCycle := shifted % daysOfCycle
  let year := (inCycle - inCycle / 1460 + inCycle / 36524 - inCycle / 146096) / 365
  let inYear := inCycle - (365 * year + year / 4 - year / 100)
  let month := (5 * inYear + 2) / 153
  let dayOfMonth := inYear - (153 * month + 2) / 5 + 1
  let monthOfYear := if month < 10 then month + 3 else month - 9
  (cycle * 400 + year + (if monthOfYear ≤ 2 then 1 else 0), monthOfYear, dayOfMonth)

/-- A number with zeros in front of it up to a given width. -/
def padded (width n : Nat) : String :=
  let digits := toString n
  String.ofList (List.replicate (width - digits.length) '0') ++ digits

/-- A moment in nanoseconds as a date and a time of day. -/
def timestamp (nanoseconds : Nat) : String :=
  let seconds := nanoseconds / tenTo 9
  let (year, month, day) := date (seconds / 86400)
  let time := seconds % 86400
  padded 4 year ++ "-" ++ padded 2 month ++ "-" ++ padded 2 day ++ "T"
    ++ padded 2 (time / 3600) ++ ":" ++ padded 2 (time / 60 % 60) ++ ":" ++ padded 2 (time % 60)
    ++ "." ++ padded 9 (nanoseconds % tenTo 9) ++ "+00:00"

end Playbook.Calendar
