import CilAudit.Binary.Arithmetic
import CilAudit.Calendar
import CilAudit.Text.Numeral

/-!
# Instants

Points in time, read from date and time texts or from a count of seconds, and shown on the
calendar with the distance from universal time they were given with.
-/

set_option autoImplicit false

namespace CilAudit

structure Instant where
  /-- Seconds since the start of 1970 in universal time: a signed integer of 64 bits. -/
  seconds : Int
  nanoseconds : Nat := 0
  /-- How many seconds the clock it is shown by is ahead of universal time. -/
  offset : Int := 0
  /-- Is it shown in universal time as such, and not by a clock that agrees with it? -/
  isUniversal : Bool := false
  deriving DecidableEq, Repr

/-- Why an instant has no form in a document. -/
inductive InstantFault where
  | year
  | zone
  deriving DecidableEq, Repr

def InstantFault.message : InstantFault → Text
  | year => "year outside of range [0,9999]"
  | zone => "timezone hour outside of range [0,23]"

namespace Instant

/-- The start of the year 1, which stands for no time at all. -/
def zero : Instant := { seconds := -62135596800, isUniversal := true }

def isZero (i : Instant) : Bool := i.seconds = zero.seconds && i.nanoseconds = 0

/-- The instant some seconds and nanoseconds after the start of 1970. -/
def ofSeconds (seconds nanoseconds : Int) : Instant :=
  { seconds := Int.bmod (seconds + nanoseconds / 1000000000) 0x10000000000000000
    nanoseconds := (nanoseconds % 1000000000).toNat }

/-- The instant some seconds after the start of 1970. Seconds beyond 64 bits count as the least
integer there is, and what is no number as no time at all. -/
def ofDouble (x : Double) : Instant :=
  if x.isFinite then
    let whole := x.truncated
    let fraction := (x - Double.ofInt whole) * Double.ofInt 1000000000
    if -0x8000000000000000 ≤ whole ∧ whole < 0x8000000000000000 then
      ofSeconds whole fraction.truncated
    else ofSeconds (-0x8000000000000000) 0
  else zero

/-- A number of `count` digits, and what follows it. -/
def digits? (count : Nat) (t : Text) : Option (Nat × Text) :=
  if count ≤ t.length then (Text.toNat? (t.take count)).map fun n => (n, t.drop count) else none

/-- One or two digits. -/
def oneOrTwo? (t : Text) : Option (Nat × Text) :=
  if (t.drop 1).head?.any Text.isDigit then digits? 2 t else digits? 1 t

def skip? (b : UInt8) : Text → Option Text
  | c :: rest => if c = b then some rest else none
  | [] => none

/-- Nanoseconds after a point or comma, and what follows them; later digits are dropped. -/
def fraction : Text → Nat × Text
  | b :: rest =>
    let digits := rest.takeWhile Text.isDigit
    if (b = 0x2E ∨ b = 0x2C) ∧ !digits.isEmpty then
      let nine := (digits ++ Text.replicate 9 0x30).take 9
      ((Text.toNat? nine).getD 0, rest.drop digits.length)
    else (0, b :: rest)
  | [] => (0, [])

/-- The distance from universal time in seconds; nothing follows it. -/
def zone? : Text → Option Int
  | [0x5A] => some 0
  | sign :: rest => do
    let (hours, rest) ← digits? 2 rest
    let rest ← skip? 0x3A rest
    let (minutes, rest) ← digits? 2 rest
    if !rest.isEmpty ∨ 24 < hours ∨ 60 < minutes then none
    let distance : Int := (hours * 60 + minutes) * 60
    if sign = 0x2B then some distance else if sign = 0x2D then some (-distance) else none
  | [] => none

/-- Reads a date, the letter `T`, a time of day and a zone. -/
def read? (t : Text) : Option Instant := do
  let (year, t) ← digits? 4 t
  let (month, t) ← digits? 2 (← skip? 0x2D t)
  let (day, t) ← digits? 2 (← skip? 0x2D t)
  let (hour, t) ← oneOrTwo? (← skip? 0x54 t)
  let (minute, t) ← digits? 2 (← skip? 0x3A t)
  let (second, t) ← digits? 2 (← skip? 0x3A t)
  let (nanoseconds, t) := fraction t
  let offset ← zone? t
  if month = 0 ∨ 12 < month ∨ day = 0 ∨ Date.daysIn year month < day then none
  if 24 ≤ hour ∨ 60 ≤ minute ∨ 60 ≤ second then none
  let day := (Date.mk year month day).dayNumber
  let seconds : Int := day * 86400 + ((hour * 60 + minute) * 60 + second : Nat) - offset
  some { seconds, nanoseconds, offset, isUniversal := t = "Z" }

/-- The seconds that the calendar is read at. The years that 64 bits reach begin a little after
the least integer, and seconds before these go on from the other end. -/
def calendarSeconds (i : Instant) : Int :=
  (i.seconds + i.offset + 9223372028741760000) % 0x10000000000000000 - 9223372028741760000

def date (i : Instant) : Date := Date.ofDayNumber (i.calendarSeconds / 86400)

/-- The time of day without a fraction. -/
def clock (i : Instant) : Text :=
  let second := (i.calendarSeconds % 86400).toNat
  let two (n : Nat) : Text := Text.padZeros 2 (Text.ofNat n)
  two (second / 3600) ++ ":" ++ two (second / 60 % 60) ++ ":" ++ two (second % 60)

/-- A point and the digits of a second up to the last one that is not 0. -/
def fractionText (i : Instant) : Text :=
  let digits := Text.padZeros 9 (Text.ofNat i.nanoseconds)
  Text.ledBy "." (digits.reverse.dropWhile (· = 0x30)).reverse

def dateText (i : Instant) : Text :=
  let two (n : Nat) : Text := Text.padZeros 2 (Text.ofNat n)
  let year := Text.padZeros 4 (Text.ofNat i.date.year.natAbs)
  (if i.date.year < 0 then "-" ++ year else year) ++ "-" ++ two i.date.month ++ "-" ++
    two i.date.day

/-- Hours and minutes from universal time, with a sign in front and a text between them. -/
def zoneText (separator : Text) (i : Instant) : Text :=
  let minutes := i.offset.natAbs / 60
  let two (n : Nat) : Text := Text.padZeros 2 (Text.ofNat n)
  (if i.offset < 0 then "-" else "+") ++ two (minutes / 60) ++ separator ++ two (minutes % 60)

/-- The instant as messages show it. -/
def toText (i : Instant) : Text :=
  let zone : Text := if i.offset = 0 then "UTC" else i.zoneText []
  i.dateText ++ " " ++ i.clock ++ i.fractionText ++ " " ++ i.zoneText [] ++ " " ++ zone

/-- The instant as documents hold it, which takes a year of four digits. -/
def toDocument (i : Instant) : Except InstantFault Text :=
  if i.date.year < 0 ∨ 9999 < i.date.year then .error .year
  else if 86400 ≤ i.offset.natAbs then .error .zone
  else
    let zone : Text := if i.offset = 0 then "Z" else i.zoneText ":"
    .ok (i.dateText ++ "T" ++ i.clock ++ i.fractionText ++ zone)

/-- The order of instants that are keys: by the fraction of a second, then by the second, and
those in universal time first. -/
def keyLe (a b : Instant) : Bool :=
  a.nanoseconds < b.nanoseconds || (a.nanoseconds = b.nanoseconds &&
    (a.seconds < b.seconds || (a.seconds = b.seconds && (a.isUniversal || !b.isUniversal))))

/-- Are the instants one key? The same clock shows them, and clocks that are not ahead by whole
hours, from half a day behind to 14 hours ahead, are all different. -/
def isSameKey (a b : Instant) : Bool :=
  a = b && a.offset % 3600 = 0 && -43200 ≤ a.offset && a.offset ≤ 50400

end Instant

end CilAudit
