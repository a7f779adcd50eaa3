import CilAudit.Text.Numeral

/-!
# Separated fields

The fields of the first record in a text, with commas between them. A field may stand in quotes,
and then hold commas, line breaks and, doubled, quotes. Blank lines before the record are passed
over, and what follows its line is left alone.
-/

set_option autoImplicit false

namespace CilAudit

/-- A place in a text. Lines and the bytes of a line are counted from 1. -/
structure TextPlace where
  line : Nat
  column : Nat
  deriving DecidableEq, Repr

/-- Why a text has no first record. Where a record starts is given by its line. -/
inductive FieldFault where
  | noRecord
  /-- A quote within a field that does not start with one. -/
  | bareQuote (start : Nat) (place : TextPlace)
  /-- A quoted field that does not end with its quote. -/
  | openQuote (start : Nat) (place : TextPlace)
  deriving DecidableEq, Repr

namespace FieldFault

def placeText (start : Nat) (p : TextPlace) : Text :=
  let record : Text := if start = p.line then [] else "record on line " ++ Text.ofNat start ++ "; "
  record ++ "parse error on line " ++ Text.ofNat p.line ++ ", column " ++ Text.ofNat p.column

def message : FieldFault → Text
  | noRecord => "EOF"
  | bareQuote start p => placeText start p ++ ": bare \" in non-quoted-field"
  | openQuote start p => placeText start p ++ ": extraneous or missing \" in quoted-field"

end FieldFault

namespace Text

/-- Line breaks of one byte only. A carriage return at the very end is no part of the text. -/
def normalBreaks : Text → Text
  | 0x0D :: 0x0A :: rest => 0x0A :: normalBreaks rest
  | [0x0D] => []
  | b :: rest => b :: normalBreaks rest
  | [] => []

/-- The rest of a quoted field after its opening quote, with the place that follows it, and what
stands there. A line break at the end of the text starts no line. -/
def takeQuoted (start : Nat) (p : TextPlace) : Text → Except FieldFault (Text × TextPlace × Text)
  | [] => .error (.openQuote start p)
  | 0x22 :: 0x22 :: rest =>
    (takeQuoted start ⟨p.line, p.column + 2⟩ rest).map fun (t, r) => (0x22 :: t, r)
  | 0x22 :: rest => .ok ([], ⟨p.line, p.column + 1⟩, rest)
  | b :: rest =>
    let next : TextPlace :=
      if b = 0x0A ∧ !rest.isEmpty then ⟨p.line + 1, 1⟩ else ⟨p.line, p.column + 1⟩
    (takeQuoted start next rest).map fun (t, r) => (b :: t, r)

/-- The fields from a place on, of which there are at most `fuel`. -/
def takeFields (start : Nat) : (fuel : Nat) → TextPlace → Text → Except FieldFault (List Text)
  | 0, _, _ => .ok []
  | fuel + 1, p, 0x22 :: rest => do
    let (field, p, rest) ← takeQuoted start ⟨p.line, p.column + 1⟩ rest
    match rest with
    | [] | 0x0A :: _ => return [field]
    | 0x2C :: rest => return field :: (← takeFields start fuel ⟨p.line, p.column + 1⟩ rest)
    | _ => throw (.openQuote start ⟨p.line, p.column - 1⟩)
  | fuel + 1, p, t => do
    let field := t.takeWhile fun b => b ≠ 0x2C && b ≠ 0x0A
    let quote := field.findIdx (· = 0x22)
    if quote < field.length then throw (.bareQuote start ⟨p.line, p.column + quote⟩)
    match t.drop field.length with
    | 0x2C :: rest =>
      return field :: (← takeFields start fuel ⟨p.line, p.column + field.length + 1⟩ rest)
    | _ => return [field]

/-- The fields of the first record. -/
def firstRecord (t : Text) : Except FieldFault (List Text) :=
  let t := normalBreaks t
  let blankLines := (t.takeWhile (· = 0x0A)).length
  match t.drop blankLines with
  | [] => .error .noRecord
  | t => takeFields (blankLines + 1) (t.length + 1) ⟨blankLines + 1, 1⟩ t

end Text

end CilAudit
