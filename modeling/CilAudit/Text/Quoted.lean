import CilAudit.Text.Numeral
import CilAudit.Text.Printable

/-!
# Quoted text

A text between double quotes, with escapes for what is not printable. Stray bytes are
written `\xNN`, so no two texts are quoted alike.
-/

set_option autoImplicit false

namespace CilAudit.Text

/-- The one-letter escape of a code point, if it has one. -/
def letterEscape? (n : Nat) : Option UInt8 :=
  match n with
  | 0x07 => some 0x61
  | 0x08 => some 0x62
  | 0x0C => some 0x66
  | 0x0A => some 0x6E
  | 0x0D => some 0x72
  | 0x09 => some 0x74
  | 0x0B => some 0x76
  | 0x5C => some 0x5C
  | 0x22 => some 0x22
  | _ => none

/-- One piece as it stands between the quotes. -/
def quotedPiece : Piece → Text
  | .stray b => "\\x" ++ hex 2 b.toNat
  | .char c =>
    let n := c.toNat
    match letterEscape? n with
    | some l => [0x5C, l]
    | none =>
      if isPrintable c then Piece.bytes (.char c)
      else if n < 0x80 then "\\x" ++ hex 2 n
      else if n < 0x10000 then "\\u" ++ hex 4 n
      else "\\U" ++ hex 8 n

/-- The text between double quotes. -/
def quoted (t : Text) : Text := 0x22 :: (t.pieces.flatMap quotedPiece ++ [0x22])

end CilAudit.Text
