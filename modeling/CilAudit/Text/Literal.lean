import CilAudit.Text.Numeral

/-!
# Integer literals

Integers of 64 signed bits with an optional sign. `0x`, `0o` and `0b` introduce a base, a
leading zero alone the octal one, and an underscore may stand between two digits.
-/

set_option autoImplicit false

namespace CilAudit.Text

/-- Why a text is no integer. -/
inductive IntegerFault where
  | malformed
  | outOfRange
  deriving DecidableEq, Repr

/-- The base of a literal without its sign, and its digits. -/
def literalBase : Text → Nat × Text
  | 0x30 :: b :: d :: rest =>
    match lowerAscii [b] with
    | [0x78] => (16, d :: rest)
    | [0x6F] => (8, d :: rest)
    | [0x62] => (2, d :: rest)
    | _ => (8, b :: d :: rest)
  | 0x30 :: rest => (8, rest)
  | t => (10, t)

/-- Does every underscore stand between two digits? The base counts as a digit before the
first one. -/
def areSeparators (afterDigit : Bool) : Text → Bool
  | [] => true
  | 0x5F :: rest => afterDigit && rest.head?.any (· ≠ 0x5F) && areSeparators false rest
  | _ :: rest => areSeparators true rest

/-- The number with the digits, underscores left out, as far as 64 bits hold it. -/
def magnitude (base : Nat) (n : Nat) : Text → Except IntegerFault Nat
  | [] => .ok n
  | 0x5F :: rest => magnitude base n rest
  | b :: rest =>
    match hexDigit? b with
    | some d =>
      if base ≤ d then .error .malformed
      else if 0x10000000000000000 ≤ n * base + d then .error .outOfRange
      else magnitude base (n * base + d) rest
    | none => .error .malformed

/-- Reads an integer literal. -/
def readInteger (t : Text) : Except IntegerFault Int := do
  let isNegative := t.head? = some 0x2D
  let body := if isNegative ∨ t.head? = some 0x2B then t.drop 1 else t
  if body.isEmpty then throw .malformed
  let (base, digits) := literalBase body
  let n ← magnitude base 0 digits
  if !areSeparators (base ≠ 10) digits then throw .malformed
  if isNegative then
    if 0x8000000000000000 < n then throw .outOfRange
    return -n
  if 0x8000000000000000 ≤ n then throw .outOfRange
  return n

end CilAudit.Text
