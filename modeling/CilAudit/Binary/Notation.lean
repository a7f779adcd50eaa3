import CilAudit.Binary.Shortest
import CilAudit.Text.Numeral

/-!
# Number notation

How a binary value is laid out as text: its shortest digits, written positionally while the
exponent of the leading digit stays within bounds, and otherwise with an exponent.
-/

set_option autoImplicit false

namespace CilAudit

/-- The decisions of a number format. Leading-digit exponents from `plainFrom` up to but not
including `plainBelow` are written positionally; an exponent has at least `exponentWidth`
digits and always a sign. -/
structure NumberNotation where
  plainFrom : Int
  plainBelow : Int
  exponentWidth : Nat

namespace NumberNotation

/-- Numbers in listings and messages. -/
def listing : NumberNotation := ⟨-4, 6, 2⟩

/-- Numbers in JSON documents. -/
def document : NumberNotation := ⟨-6, 21, 1⟩

/-- Digits without trailing zeros; the number of zeros removed is added to the exponent. -/
def stripZeros (d : Decimal) : Decimal :=
  if h : d.digits ≠ 0 ∧ d.digits % 10 = 0 then
    have : d.digits / 10 < d.digits := by omega
    stripZeros ⟨d.digits / 10, d.exponent + 1⟩
  else d
termination_by d.digits

/-- The layout of a positive decimal. -/
def layout (n : NumberNotation) (d : Decimal) : Text :=
  let d := stripZeros d
  let digits := Text.ofNat d.digits
  let lead : Int := d.exponent + digits.length - 1
  if n.plainFrom ≤ lead ∧ lead < n.plainBelow then
    if 0 ≤ d.exponent then digits ++ Text.replicate d.exponent.toNat 0x30
    else if 0 ≤ lead then digits.take (lead.toNat + 1) ++ "." ++ digits.drop (lead.toNat + 1)
    else "0." ++ Text.replicate ((-lead).toNat - 1) 0x30 ++ digits
  else
    let point : Text := if digits.length = 1 then [] else [0x2E]
    let sign : Text := if lead < 0 then [0x2D] else [0x2B]
    digits.take 1 ++ point ++ digits.drop 1 ++ "e" ++ sign ++
      Text.padZeros n.exponentWidth (Text.ofNat lead.natAbs)

/-- The text of a value of format `f`. -/
def render (n : NumberNotation) (f : BinaryFormat) : Binary → Text
  | .nan => "NaN"
  | .infinite negative => if negative then "-Inf" else "+Inf"
  | .finite negative m q =>
    let magnitude : Text := if m = 0 then "0" else n.layout (f.shortest m q)
    if negative then 0x2D :: magnitude else magnitude

end NumberNotation

def Single.toText (x : Single) : Text := NumberNotation.listing.render .single x.value

def Double.toText (x : Double) : Text := NumberNotation.listing.render .double x.value

/-- `num / den` with a set number of decimal places, rounded to nearest, a tie to even. -/
def fixedPlaces (places : Nat) (num den : Nat) : Text :=
  let digits := Text.padZeros (places + 1) (Text.ofNat (roundHalfEven (num * tenTo places) den))
  digits.take (digits.length - places) ++ "." ++ digits.drop (digits.length - places)

end CilAudit
