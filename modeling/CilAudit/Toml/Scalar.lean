import CilAudit.Calendar
import CilAudit.Text.Literal
import CilAudit.Toml

/-!
# Numbers, dates and words

The values that are written without brackets or quotes.
-/

set_option autoImplicit false

namespace CilAudit.Toml

/-- Underscores follow a digit, and a digit ends the literal. Hexadecimal digits pass here;
the base is checked with the value. -/
def hasSeparators (afterDigit : Bool) : Text → Bool
  | [] => afterDigit
  | b :: rest => (b ≠ 0x5F || afterDigit) && hasSeparators (Text.hexDigit? b).isSome rest

/-- The literal without a sign. -/
def unsigned (t : Text) : Text :=
  if t.head? = some 0x2D ∨ t.head? = some 0x2B then t.drop 1 else t

/-- Is there a zero in front of other digits? -/
def hasLeadingZero (t : Text) : Bool :=
  match unsigned t with
  | 0x30 :: b :: _ => Text.isDigit b || b = 0x5F
  | _ => false

def integer? (t : Text) : Option Value :=
  if hasSeparators false t ∧ !hasLeadingZero t then
    (Text.readInteger t).toOption.map .integer
  else none

/-- Is every point followed by a digit? -/
def pointsAreFollowed : Text → Bool
  | [] => true
  | 0x2E :: rest => rest.head?.any Text.isDigit && pointsAreFollowed rest
  | _ :: rest => pointsAreFollowed rest

/-- The pieces between points and exponent letters. -/
def numberParts (t : Text) : List Text :=
  (t.splitBy fun a b => !(isMark a || isMark b)).filter fun part => !part.all isMark
where
  isMark (b : UInt8) : Bool := b = 0x2E || b = 0x65 || b = 0x45

/-- The value of a decimal number with a fraction or an exponent, underscores removed. -/
def decimal? (t : Text) : Option Double := do
  let isNegative := t.head? = some 0x2D
  let body := unsigned t
  let (mantissa, exponent) : Text × Text :=
    match Text.cutAt 0x65 (Text.lowerAscii body) with
    | some (m, e) => (m, e)
    | none => (body, "0")
  let (whole, fraction) := (Text.cutAt 0x2E mantissa).getD (mantissa, [])
  let digits ← Text.toNat? (whole ++ fraction)
  let e ← Text.toInt? exponent
  if whole.isEmpty then none
  let x := Double.ofDecimal isNegative digits (e - fraction.length)
  if x.isFinite then some x else none

def float? (t : Text) : Option Value :=
  let parts := numberParts t
  if parts.all (hasSeparators false) ∧ !hasLeadingZero (parts.headD []) ∧ pointsAreFollowed t then
    (decimal? (t.filter (· ≠ 0x5F))).map .float
  else none

def nanValue : Double := ⟨BinaryFormat.double.nanBits.toUInt64⟩

def infinity (isNegative : Bool) : Double :=
  ⟨(BinaryFormat.double.ofBinary (.infinite isNegative)).toUInt64⟩

/-- Two digits below a bound, and what follows them. -/
def twoDigits? (low high : Nat) : Text → Option (Nat × Text)
  | a :: b :: rest => do
    let n ← Text.toNat? [a, b]
    if low ≤ n ∧ n ≤ high then some (n, rest) else none
  | _ => none

/-- What follows a date. -/
def afterDate? : Text → Option Text
  | a :: b :: c :: d :: 0x2D :: rest => do
    let year ← Text.toNat? [a, b, c, d]
    let (month, rest) ← twoDigits? 1 12 rest
    match rest with
    | 0x2D :: rest =>
      let (_, rest) ← twoDigits? 1 (Date.daysIn year month) rest
      some rest
    | _ => none
  | _ => none

/-- What follows the seconds of a time, if it has any: a fraction is part of them. -/
def afterSeconds? : Text → Option Text
  | 0x3A :: rest => do
    let (_, rest) ← twoDigits? 0 59 rest
    match rest with
    | 0x2E :: b :: rest =>
      if Text.isDigit b then some (rest.dropWhile Text.isDigit) else none
    | rest => some rest
  | rest => some rest

/-- What follows a time. -/
def afterTime? (t : Text) : Option Text := do
  let (_, rest) ← twoDigits? 0 23 t
  match rest with
  | 0x3A :: rest =>
    let (_, rest) ← twoDigits? 0 59 rest
    afterSeconds? rest
  | _ => none

/-- Is the text a distance from universal time, or empty? -/
def isOffset : Text → Bool
  | [] => true
  | [0x5A] => true
  | sign :: rest =>
    (sign = 0x2B || sign = 0x2D) &&
      match twoDigits? 0 24 rest with
      | some (_, 0x3A :: rest) => (twoDigits? 0 60 rest).any (·.2.isEmpty)
      | _ => false

/-- Is the text a date, a time, or both? Only both together may have an offset. -/
def isDateTime (t : Text) : Bool :=
  match afterDate? t with
  | some [] => true
  | some (0x54 :: rest) => (afterTime? rest).any isOffset
  | some _ => false
  | none => (afterTime? t).any (·.isEmpty)

def isDateByte (b : UInt8) : Bool := Text.isDigit b || (Text.ofString "-:Tt .Zz+").elem b

def isFloatByte (b : UInt8) : Bool := Text.isDigit b || (Text.ofString "_.-+eE").elem b

/-- A date or time at the start of a text; one blank may stand between the two. -/
def takeDateTime (t : Text) : Option (Value × Text) :=
  let literal : Text := ((t.takeWhile isDateByte).reverse.dropWhile (· = 0x20)).reverse
  let normal := literal.map fun b =>
    if b = 0x20 ∨ b = 0x74 then 0x54 else if b = 0x7A then 0x5A else b
  if isDateTime normal then some (.dateTime literal, t.dropWhile isDateByte) else none

/-- A decimal number at the start of a text, after an optional sign. -/
def takeDecimal (t : Text) : Option (Value × Text) :=
  let sign := t.take (t.length - (unsigned t).length)
  let isPart (b : UInt8) : Bool := Text.isDigit b || b = 0x5F
  let whole := (unsigned t).takeWhile isPart
  let rest := (unsigned t).dropWhile isPart
  if rest.head?.any (Text.ofString ".eE").elem then
    (float? (sign ++ whole ++ rest.takeWhile isFloatByte)).map fun v => (v, rest.dropWhile isFloatByte)
  else (integer? (sign ++ whole)).map fun v => (v, rest)

/-- Digits of a base after its mark, the first of them no underscore. -/
def takeBased (base : Nat) (mark rest : Text) : Option (Value × Text) :=
  let isDigit (b : UInt8) : Bool := (Text.hexDigit? b).any (· < base)
  let isPart (b : UInt8) : Bool := isDigit b || b = 0x5F
  if rest.head?.any isDigit then
    (integer? (mark ++ rest.takeWhile isPart)).map fun v => (v, rest.dropWhile isPart)
  else none

/-- A number, date or time that starts with a digit. -/
def takeNumber (t : Text) : Option (Value × Text) :=
  match t with
  | 0x30 :: 0x78 :: rest => takeBased 16 "0x" rest
  | 0x30 :: 0x6F :: rest => takeBased 8 "0o" rest
  | 0x30 :: 0x62 :: rest => takeBased 2 "0b" rest
  | _ =>
    if (t.dropWhile Text.isDigit).head?.any (fun b => b = 0x2D || b = 0x3A) then takeDateTime t
    else takeDecimal t

/-- The value of a word that starts the text. -/
def takeWord? (t : Text) : Option (Value × Text) :=
  let words : List (Text × Value) :=
    [("true", .bool true), ("false", .bool false), ("nan", .float nanValue),
      ("+nan", .float nanValue), ("-nan", .float nanValue), ("inf", .float (infinity false)),
      ("+inf", .float (infinity false)), ("-inf", .float (infinity true))]
  words.findSome? fun (word, v) => if t.startsWith word then some (v, t.drop word.length) else none

/-- The value without brackets or quotes at the start of a text, and what follows it. -/
def takeScalar (t : Text) : Option (Value × Text) :=
  (takeWord? t).or <|
    match t with
    | b :: rest =>
      if Text.isDigit b then takeNumber t
      else if (b = 0x2B ∨ b = 0x2D) ∧ rest.head?.any Text.isDigit then takeDecimal t
      else none
    | [] => none

end CilAudit.Toml
