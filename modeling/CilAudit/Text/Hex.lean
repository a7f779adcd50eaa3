import CilAudit.Text.Numeral
import CilAudit.Text.Printable

/-!
# Hexadecimal byte strings

Two digits stand for one byte. The first byte that is no digit is reported, and an odd
number of digits only if all of them are digits.
-/

set_option autoImplicit false

namespace CilAudit

inductive HexError where
  | invalidByte (b : UInt8)
  | oddLength
  deriving DecidableEq, Repr

namespace HexError

/-- A byte as the character with its number: the code point, and the character between
apostrophes if it is printable. -/
def codePointText (b : UInt8) : Text :=
  let c := Char.ofNat b.toNat
  let shown : Text :=
    if Text.isPrintable c then " '" ++ Text.Piece.bytes (.char c) ++ "'" else []
  "U+" ++ Text.hexUpper 4 b.toNat ++ shown

def message : HexError → Text
  | invalidByte b => "encoding/hex: invalid byte: " ++ codePointText b
  | oddLength => "encoding/hex: odd length hex string"

end HexError

namespace Text

/-- The bytes that the digits stand for. -/
def ofHex : Text → Except HexError Text
  | [] => .ok []
  | [a] => if (hexDigit? a).isSome then .error .oddLength else .error (.invalidByte a)
  | a :: b :: rest =>
    match hexDigit? a, hexDigit? b with
    | some x, some y => (ofHex rest).map ((x * 16 + y).toUInt8 :: ·)
    | none, _ => .error (.invalidByte a)
    | some _, none => .error (.invalidByte b)

end Text

end CilAudit
