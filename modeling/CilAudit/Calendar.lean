/-!
# Calendar

Dates of the Gregorian calendar, continued in both directions, and their distance in days from
the first day of 1970. Years are counted from March here, so that the day a leap year adds is
the last one of a year, and every 400 years take the same number of days.
-/

set_option autoImplicit false

namespace CilAudit

structure Date where
  year : Int
  month : Nat
  day : Nat
  deriving DecidableEq, Repr

namespace Date

/-- How many days a month has. -/
def daysIn (year month : Nat) : Nat :=
  if month = 2 then
    if year % 4 = 0 ∧ (year % 100 ≠ 0 ∨ year % 400 = 0) then 29 else 28
  else if [4, 6, 9, 11].contains month then 30 else 31

/-- The days of 400 years. -/
def daysOfCycle : Int := 146097

/-- The days from the first of March of the year 0 to the first day of 1970. -/
def daysBefore1970 : Int := 719468

/-- The days from the first day of 1970 to a date. -/
def dayNumber (d : Date) : Int :=
  let year := if d.month ≤ 2 then d.year - 1 else d.year
  let month := (d.month + 9) % 12
  let dayOfYear := (153 * month + 2) / 5 + d.day - 1
  let cycle := year / 400
  let yearOfCycle := (year % 400).toNat
  let dayOfCycle := 365 * yearOfCycle + yearOfCycle / 4 - yearOfCycle / 100 + dayOfYear
  cycle * daysOfCycle + dayOfCycle - daysBefore1970

/-- The date that comes `n` days after the first day of 1970. -/
def ofDayNumber (n : Int) : Date :=
  let days := n + daysBefore1970
  let cycle := days / daysOfCycle
  let dayOfCycle := (days % daysOfCycle).toNat
  let yearOfCycle :=
    (dayOfCycle - dayOfCycle / 1460 + dayOfCycle / 36524 - dayOfCycle / 146096) / 365
  let dayOfYear := dayOfCycle - (365 * yearOfCycle + yearOfCycle / 4 - yearOfCycle / 100)
  let month := (5 * dayOfYear + 2) / 153
  let day := dayOfYear - (153 * month + 2) / 5 + 1
  let year := cycle * 400 + yearOfCycle
  if month < 10 then ⟨year, month + 3, day⟩ else ⟨year + 1, month - 9, day⟩

end Date

end CilAudit
