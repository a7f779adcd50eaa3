import CilAudit.Binary
import CilAudit.Text.Numeral

/-!
# Durations

A span of time in nanoseconds, as 64 signed bits hold it, written as amounts with units:
`1h2m3.5s`. Amounts may have a fraction; the span is what they add up to.
-/

set_option autoImplicit false

namespace CilAudit

/-- A span of time. -/
structure Duration where
  nanoseconds : Int
  deriving DecidableEq, Repr

/-- Why a text is no duration; the text itself comes last. -/
inductive DurationError where
  | invalid (text : Text)
  | missingUnit (text : Text)
  | unknownUnit (unit text : Text)
  deriving DecidableEq, Repr

namespace DurationError

/-- A text between quotes, each byte outside printable ASCII by its number. -/
def quoted (t : Text) : Text :=
  let byte (b : UInt8) : Text :=
    if b < 0x20 ∨ 0x80 ≤ b then "\\x" ++ Text.hex 2 b.toNat
    else if b = 0x22 ∨ b = 0x5C then [0x5C, b]
    else [b]
  "\"" ++ t.escapeWith byte ++ "\""

def message : DurationError → Text
  | invalid t => "time: invalid duration " ++ quoted t
  | missingUnit t => "time: missing unit in duration " ++ quoted t
  | unknownUnit u t => "time: unknown unit " ++ quoted u ++ " in duration " ++ quoted t

end DurationError

namespace Duration

def second : Nat := 1000000000
def minute : Nat := 60 * second
def hour : Nat := 60 * minute

def ofSeconds (n : Nat) : Duration := ⟨n * second⟩

/-- The nanoseconds of each unit. Microseconds may be spelled with either of the letters that
look like a Greek mu. -/
def units : List (Text × Nat) :=
  [("ns", 1), ("us", 1000), ("µs", 1000), ("μs", 1000), ("ms", 1000000), ("s", second),
    ("m", minute), ("h", hour)]

/-- One past the largest magnitude of a positive span; the magnitude of the least span. -/
def limit : Nat := 0x8000000000000000

/-- The digits after a point: their value and the power of ten below it. Digits that would
bring the value past `limit` are left out. The power is kept in double precision. -/
structure Fraction where
  value : Nat := 0
  scale : Nat := 1
  isFull : Bool := false

/-- The double nearest to a ratio, again as a ratio. What is out of range stays as it is. -/
def nearest (num den : Nat) : Nat × Nat :=
  match BinaryFormat.double.value (BinaryFormat.double.roundRatio num den) with
  | .finite _ m q => (m <<< q.toNat, 1 <<< (-q).toNat)
  | _ => (num, den)

namespace Fraction

def push (f : Fraction) (b : UInt8) : Fraction :=
  let value := f.value * 10 + (b.toNat - 0x30)
  if f.isFull ∨ (limit - 1) / 10 < f.value ∨ limit < value then { f with isFull := true }
  else
    let scale := nearest (f.scale * 10) 1
    ⟨value, scale.1 / scale.2, false⟩

/-- The whole nanoseconds of the fraction of a unit: a product of doubles, rounded down. -/
def nanoseconds (f : Fraction) (unit : Nat) : Nat :=
  let share := nearest unit f.scale
  let value := nearest f.value 1
  let product := nearest (value.1 * share.1) (value.2 * share.2)
  product.1 / product.2

end Fraction

/-- Does the byte belong to a number? -/
def isNumeric (b : UInt8) : Bool := b = 0x2E || Text.isDigit b

/-- A number at the start of a text: the digits before the point, those after it, and what
follows them. -/
def digitsAt (t : Text) : Text × Text × Text :=
  match t.dropWhile Text.isDigit with
  | 0x2E :: tail =>
    (t.takeWhile Text.isDigit, tail.takeWhile Text.isDigit, tail.dropWhile Text.isDigit)
  | rest => (t.takeWhile Text.isDigit, [], rest)

/-- The number and unit at the start of a text that is not empty, in nanoseconds, and what
follows them. Errors are about the text `source`. -/
def amount (source t : Text) : Except DurationError (Nat × Text) :=
  match digitsAt t with
  | (before, after, rest) =>
    let count := (Text.toNat? before).getD 0
    let unit := rest.takeWhile (!isNumeric ·)
    if limit < count ∨ (before.isEmpty ∧ after.isEmpty) then .error (.invalid source)
    else if unit.isEmpty then .error (.missingUnit source)
    else
      match units.lookup unit with
      | none => .error (.unknownUnit unit source)
      | some size =>
        let span := count * size + (after.foldl Fraction.push {}).nanoseconds size
        if limit / size < count ∨ limit < span then .error (.invalid source)
        else .ok (span, rest.dropWhile (!isNumeric ·))

theorem length_dropWhile_le {α : Type} (p : α → Bool) (l : List α) :
    (l.dropWhile p).length ≤ l.length :=
  (List.dropWhile_sublist p).length_le

theorem length_dropWhile_lt {α : Type} (p : α → Bool) (l : List α)
    (taken : ¬(l.takeWhile p).isEmpty) : (l.dropWhile p).length < l.length := by
  have whole := congrArg List.length (List.takeWhile_append_dropWhile (p := p) (l := l))
  rw [List.length_append] at whole
  have : 0 < (l.takeWhile p).length := by
    simpa [List.length_pos_iff] using taken
  omega

theorem length_digitsAt (t : Text) : (digitsAt t).2.2.length ≤ t.length := by
  have := length_dropWhile_le Text.isDigit t
  unfold digitsAt
  split
  · rename_i tail point
    have := length_dropWhile_le Text.isDigit tail
    simp only [point, List.length_cons] at *
    omega
  · exact this

/-- What follows an amount is shorter than the text with it: the unit is not empty. -/
theorem length_of_amount {source t rest : Text} {n : Nat} (h : amount source t = .ok (n, rest)) :
    rest.length < t.length := by
  have digits := length_digitsAt t
  simp only [amount] at h
  split at h
  · simp at h
  · split at h
    · simp at h
    · rename_i unit
      split at h
      · simp at h
      · split at h
        · simp at h
        · simp only [Except.ok.injEq, Prod.mk.injEq] at h
          rw [← h.2]
          exact Nat.lt_of_lt_of_le (length_dropWhile_lt _ _ unit) digits

/-- The amounts of a text, added to `sum`. The sum is kept in 64 bits. -/
def total (source : Text) (sum : Nat) (t : Text) : Except DurationError Nat :=
  if t.isEmpty then .ok sum
  else
    match h : amount source t with
    | .error e => .error e
    | .ok (n, rest) =>
      have := length_of_amount h
      let sum := (sum + n) % 0x10000000000000000
      if limit < sum then .error (.invalid source) else total source sum rest
termination_by t.length

/-- Reads a duration: an optional sign, then amounts. Zero needs no unit. -/
def read (t : Text) : Except DurationError Duration :=
  let isNegative := t.head? = some 0x2D
  let body := if isNegative ∨ t.head? = some 0x2B then t.drop 1 else t
  if body = "0" then .ok ⟨0⟩
  else if body.isEmpty then .error (.invalid t)
  else do
    let sum ← total t 0 body
    if isNegative then return ⟨-sum⟩
    if sum = limit then throw (.invalid t)
    return ⟨sum⟩

/-- A number of units of `10 ^ places` each, with the fraction that `n` leaves, zeros at its
end left out. -/
def fixedPoint (places n : Nat) : Text :=
  let digits := Text.padZeros places (Text.ofNat (n % tenTo places))
  let kept := if places = 0 then [] else (digits.reverse.dropWhile (· = 0x30)).reverse
  Text.ofNat (n / tenTo places) ++ Text.ledBy "." kept

/-- A magnitude: in one unit below a second, in seconds, minutes and hours from there on. -/
def magnitudeText (n : Nat) : Text :=
  if n = 0 then "0s"
  else if n < 1000 then Text.ofNat n ++ "ns"
  else if n < 1000000 then fixedPoint 3 n ++ "µs"
  else if n < second then fixedPoint 6 n ++ "ms"
  else
    let hours : Text := if n < hour then [] else Text.ofNat (n / hour) ++ "h"
    let minutes : Text := if n < minute then [] else Text.ofNat (n / minute % 60) ++ "m"
    hours ++ minutes ++ fixedPoint 9 (n % minute) ++ "s"

def toText (d : Duration) : Text :=
  if d.nanoseconds < 0 then "-" ++ magnitudeText d.nanoseconds.natAbs
  else magnitudeText d.nanoseconds.natAbs

end Duration

end CilAudit
