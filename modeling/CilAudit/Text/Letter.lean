import CilAudit.Text.Utf8

/-!
# Letters and blanks

Case maps and folding as far as they touch ASCII, and the blank characters. Four letters
outside ASCII have an ASCII partner: the Kelvin sign U+212A folds to `k`, the long s
U+017F to `s`, and the dotted capital U+0130 has the lower case `i`, the dotless U+0131
the upper case `I`. A lower case that takes another number of bytes is also given, so that the
lengths of lower-case texts are right.
-/

set_option autoImplicit false

namespace CilAudit.Text

/-- The letters whose lower case takes another number of bytes, with that lower case. -/
def resized : List (Nat × Nat) :=
  [(0x130, 0x69), (0x23A, 0x2C65), (0x23E, 0x2C66), (0x1E9E, 0xDF), (0x2126, 0x3C9),
   (0x212A, 0x6B), (0x212B, 0xE5), (0x2C62, 0x26B), (0x2C64, 0x27D), (0x2C6D, 0x251),
   (0x2C6E, 0x271), (0x2C6F, 0x250), (0x2C70, 0x252), (0x2C7E, 0x23F), (0x2C7F, 0x240),
   (0xA78D, 0x265), (0xA7AA, 0x266), (0xA7AB, 0x25C), (0xA7AC, 0x261), (0xA7AD, 0x26C),
   (0xA7AE, 0x26A), (0xA7B0, 0x29E), (0xA7B1, 0x287), (0xA7B2, 0x29D), (0xA7C5, 0x282),
   (0xA7CB, 0x264), (0xA7DC, 0x19B)]

/-- The lower case of a character, where it is an ASCII letter or takes another number of
bytes. -/
def lowerChar (c : Char) : Char :=
  if c.toNat < 0x80 then c.toLower else ((resized.lookup c.toNat).map Char.ofNat).getD c

/-- The upper case of a character, where it is an ASCII letter. -/
def upperChar (c : Char) : Char :=
  if c.toNat = 0x17F then 'S' else if c.toNat = 0x131 then 'I' else c.toUpper

/-- The representative of a character's case variants, where one of them is an ASCII letter. -/
def foldChar (c : Char) : Char :=
  if c.toNat = 0x212A then 'k' else if c.toNat = 0x17F then 's' else c.toLower

def lower (t : Text) : Text := ofChars (t.chars.map lowerChar)

def upper (t : Text) : Text := ofChars (t.chars.map upperChar)

/-- Do the texts agree up to case? One of them is meant to be ASCII. -/
def equalFold (a b : Text) : Bool := a.pieces.map fold = b.pieces.map fold
where
  fold : Piece → Piece
    | .char c => .char (foldChar c)
    | .stray b => .stray b

/-- The characters that are white space. -/
def isBlank (c : Char) : Bool :=
  let n := c.toNat
  (0x09 ≤ n && n ≤ 0x0D) || n == 0x20 || n == 0x85 || n == 0xA0 || n == 0x1680 ||
    (0x2000 ≤ n && n ≤ 0x200A) || n == 0x2028 || n == 0x2029 || n == 0x202F || n == 0x205F ||
    n == 0x3000

def isBlankPiece : Piece → Bool
  | .char c => isBlank c
  | .stray _ => false

/-- The text without blanks at either end. -/
def trim (t : Text) : Text :=
  let kept := (t.pieces.dropWhile isBlankPiece).reverse.dropWhile isBlankPiece
  kept.reverse.flatMap Piece.bytes

/-- The maximal runs without blanks. -/
def words (t : Text) : List Text :=
  let step (p : Piece) (acc : List Text) : List Text :=
    match isBlankPiece p, acc with
    | true, _ => [] :: acc
    | false, [] => [p.bytes]
    | false, w :: ws => (p.bytes ++ w) :: ws
  (t.pieces.foldr step []).filter (! ·.isEmpty)

end CilAudit.Text
