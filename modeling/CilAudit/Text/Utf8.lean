import CilAudit.Text

/-!
# UTF-8

A text splits into pieces: characters, and bytes that belong to none. Overlong forms,
surrogates and code points past U+10FFFF are no characters, and a byte that starts no
character is a piece of its own, so every text splits in exactly one way.
-/

set_option autoImplicit false

namespace CilAudit.Text

/-- A character of a text, or a byte that belongs to none. -/
inductive Piece where
  | char (c : Char)
  | stray (b : UInt8)
  deriving DecidableEq, Repr

namespace Piece

/-- The bytes of a piece. -/
def bytes : Piece → Text
  | char c => String.utf8EncodeChar c
  | stray b => [b]

/-- The code point that a reader sees: a stray byte reads as U+FFFD. -/
def codePoint : Piece → Nat
  | char c => c.toNat
  | stray _ => 0xFFFD

end Piece

/-- The low six bits of a continuation byte. -/
def continuation? (b : UInt8) : Option Nat :=
  if 0x80 ≤ b ∧ b ≤ 0xBF then some (b.toNat - 0x80) else none

/-- The code point whose UTF-8 form starts with `b` and goes on in `rest`, with the number
of bytes taken from `rest`. -/
def codePointAt? (b : UInt8) (rest : Text) : Option (Nat × Nat) :=
  if b < 0x80 then some (b.toNat, 0)
  else if b < 0xC2 then none
  else if b < 0xE0 then
    match rest with
    | b₁ :: _ => do
      let x ← continuation? b₁
      return ((b.toNat - 0xC0) * 64 + x, 1)
    | _ => none
  else if b < 0xF0 then
    match rest with
    | b₁ :: b₂ :: _ => do
      let x ← continuation? b₁
      let y ← continuation? b₂
      let n := ((b.toNat - 0xE0) * 64 + x) * 64 + y
      if n < 0x800 ∨ (0xD800 ≤ n ∧ n ≤ 0xDFFF) then none else return (n, 2)
    | _ => none
  else if b < 0xF5 then
    match rest with
    | b₁ :: b₂ :: b₃ :: _ => do
      let x ← continuation? b₁
      let y ← continuation? b₂
      let z ← continuation? b₃
      let n := (((b.toNat - 0xF0) * 64 + x) * 64 + y) * 64 + z
      if n < 0x10000 ∨ 0x10FFFF < n then none else return (n, 3)
    | _ => none
  else none

/-- The pieces of a text, in order. -/
def pieces : Text → List Piece
  | [] => []
  | b :: rest =>
    match codePointAt? b rest with
    | some (n, taken) => .char (Char.ofNat n) :: pieces (rest.drop taken)
    | none => .stray b :: pieces rest
termination_by t => t.length
decreasing_by
  all_goals simp only [List.length_drop, List.length_cons]; omega

/-- Is the text UTF-8 throughout? -/
def isUtf8 (t : Text) : Bool := (pieces t).all fun
  | .char _ => true
  | .stray _ => false

/-- The characters of a text, stray bytes read as U+FFFD. -/
def chars (t : Text) : List Char := (pieces t).map fun
  | .char c => c
  | .stray _ => Char.ofNat 0xFFFD

def ofChars (cs : List Char) : Text := cs.flatMap String.utf8EncodeChar

/-- The text with each stray byte replaced by U+FFFD. -/
def repaired (t : Text) : Text := ofChars t.chars

end CilAudit.Text
