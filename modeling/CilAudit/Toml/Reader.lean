import CilAudit.Text.Utf8
import CilAudit.Toml.Scalar

/-!
# Reading settings documents

A text into statements. Controls and stray bytes are refused anywhere, also in comments, so
the readers below meet UTF-8 without controls, in which a carriage return stands only before
a line feed.
-/

set_option autoImplicit false

namespace CilAudit.Toml

/-- Blanks within a line. -/
def isSpace (b : UInt8) : Bool := b = 0x20 || b = 0x09

def isBreak (b : UInt8) : Bool := b = 0x0A || b = 0x0D

def skipSpace (t : Text) : Text := t.dropWhile isSpace

/-- The text after blanks, line breaks and comments. -/
def skipGap (inComment : Bool) : Text → Text
  | [] => []
  | b :: rest =>
    if inComment then skipGap (!isBreak b) rest
    else if isSpace b || isBreak b then skipGap false rest
    else if b = 0x23 then skipGap true rest
    else b :: rest

/-- The UTF-8 bytes of the character with a number in hexadecimal digits. -/
def characterOf? (digits : Text) : Option Text := do
  let n ← Text.toNatHex? digits
  if n.isValidChar then some (String.utf8EncodeChar (Char.ofNat n)) else none

/-- What an escape stands for after its backslash, and how many bytes it takes. -/
def escape? : Text → Option (Text × Nat)
  | 0x62 :: _ => some ([0x08], 1)
  | 0x74 :: _ => some ([0x09], 1)
  | 0x6E :: _ => some ([0x0A], 1)
  | 0x66 :: _ => some ([0x0C], 1)
  | 0x72 :: _ => some ([0x0D], 1)
  | 0x65 :: _ => some ([0x1B], 1)
  | 0x22 :: _ => some ([0x22], 1)
  | 0x5C :: _ => some ([0x5C], 1)
  | 0x78 :: rest => numbered 2 rest
  | 0x75 :: rest => numbered 4 rest
  | 0x55 :: rest => numbered 8 rest
  | _ => none
where
  numbered (width : Nat) (rest : Text) : Option (Text × Nat) :=
    if width ≤ rest.length then (characterOf? (rest.take width)).map fun c => (c, width + 1)
    else none

/-- A string on one line after its opening quote, and what follows its closing one. -/
def takeBasic (t : Text) : Option (Text × Text) :=
  match t with
  | [] => none
  | 0x22 :: rest => some ([], rest)
  | 0x5C :: rest =>
    match escape? rest with
    | some (c, taken) => (takeBasic (rest.drop taken)).map fun (s, r) => (c ++ s, r)
    | none => none
  | b :: rest => if isBreak b then none else (takeBasic rest).map fun (s, r) => (b :: s, r)
termination_by t.length
decreasing_by all_goals simp only [List.length_drop, List.length_cons]; omega

/-- A string on one line in which a backslash is nothing special. -/
def takeLiteral (t : Text) : Option (Text × Text) :=
  match Text.cutAt 0x27 t with
  | some (s, rest) => if s.any isBreak then none else some (s, rest)
  | none => none

/-- A string over several lines, after its opening quotes. It ends at three quotes; one or two
more may stand before these, and a third one right after an escaped backslash. Where `escapes`
holds, a backslash at the end of a line takes away all blanks up to the next text. -/
def takeMultiline (quote : UInt8) (escapes afterBackslash : Bool) (t : Text) :
    Option (Text × Text) :=
  match t with
  | [] => none
  | b :: rest =>
    if b = quote then
      let more := (rest.takeWhile (· = quote)).length
      if more < 2 then
        (takeMultiline quote escapes false (rest.drop more)).map
          fun (s, r) => (Text.replicate (more + 1) quote ++ s, r)
      else if more < 5 ∨ (afterBackslash ∧ more = 5) then
        some (Text.replicate (more - 2) quote, rest.drop more)
      else none
    else if escapes ∧ b = 0x5C then
      let blanks := rest.takeWhile fun c => isSpace c || isBreak c
      if blanks.contains 0x0A then takeMultiline quote escapes false (rest.drop blanks.length)
      else
        match escape? rest with
        | some (c, taken) =>
          (takeMultiline quote escapes (rest.head? = some 0x5C) (rest.drop taken)).map
            fun (s, r) => (c ++ s, r)
        | none => none
    else (takeMultiline quote escapes false rest).map fun (s, r) => (b :: s, r)
termination_by t.length
decreasing_by all_goals simp only [List.length_drop, List.length_cons]; omega

/-- The text without a line break at its start. -/
def skipBreak : Text → Text
  | 0x0A :: rest => rest
  | 0x0D :: 0x0A :: rest => rest
  | t => t

/-- A quoted or scalar value. -/
def takePlain : Text → Option (Value × Text)
  | 0x22 :: 0x22 :: 0x22 :: rest => (takeMultiline 0x22 true false (skipBreak rest)).map fun (s, r) => (.string s, r)
  | 0x27 :: 0x27 :: 0x27 :: rest => (takeMultiline 0x27 false false (skipBreak rest)).map fun (s, r) => (.string s, r)
  | 0x22 :: rest => (takeBasic rest).map fun (s, r) => (.string s, r)
  | 0x27 :: rest => (takeLiteral rest).map fun (s, r) => (.string s, r)
  | t => takeScalar t

/-- The bytes of names without quotes. -/
def isBare (b : UInt8) : Bool :=
  Text.isDigit b || (0x61 ≤ b && b ≤ 0x7A) || (0x41 ≤ b && b ≤ 0x5A) || b = 0x2D || b = 0x5F

/-- One part of a key. -/
def takeName : Text → Option (Text × Text)
  | 0x22 :: rest => takeBasic rest
  | 0x27 :: rest => takeLiteral rest
  | t => if t.head?.any isBare then some (t.takeWhile isBare, t.dropWhile isBare) else none

/-- A key of at most `parts` parts, with the blanks around them. -/
def takeParts : Nat → Text → Option (Key × Text)
  | 0, _ => none
  | parts + 1, t => do
    let (name, rest) ← takeName (skipSpace t)
    match skipSpace rest with
    | 0x2E :: rest =>
      let (names, rest) ← takeParts parts rest
      some (name :: names, rest)
    | rest => some ([name], rest)

/-- A key, with the blanks around its parts. A part takes a byte at least. -/
def takeKey (t : Text) : Option (Key × Text) := takeParts t.length t

/-- A key and the sign that gives it a value; also the blanks after that. -/
def takeAssigned (t : Text) : Option (Key × Text) := do
  let (key, rest) ← takeKey t
  match rest with
  | 0x3D :: rest => some (key, skipSpace rest)
  | _ => none

mutual

/-- A value, read in at most `fuel` steps. -/
def takeValue : Nat → Text → Option (Value × Text)
  | 0, _ => none
  | fuel + 1, t =>
    match t with
    | 0x5B :: rest => (takeItems fuel (skipGap false rest)).map fun (vs, r) => (.array vs, r)
    | 0x7B :: rest => (takeEntries fuel (skipGap false rest)).map fun (es, r) => (.table es, r)
    | t => takePlain t

/-- The items of an array up to its bracket. -/
def takeItems : Nat → Text → Option (List Value × Text)
  | 0, _ => none
  | fuel + 1, t =>
    match t with
    | 0x5D :: rest => some ([], rest)
    | t => do
      let (v, rest) ← takeValue fuel t
      match skipGap false rest with
      | 0x2C :: rest =>
        let (vs, rest) ← takeItems fuel (skipGap false rest)
        some (v :: vs, rest)
      | 0x5D :: rest => some ([v], rest)
      | _ => none

/-- The entries of an inline table up to its brace. -/
def takeEntries : Nat → Text → Option (List (Key × Value) × Text)
  | 0, _ => none
  | fuel + 1, t =>
    match t with
    | 0x7D :: rest => some ([], rest)
    | t => do
      let (key, rest) ← takeAssigned t
      let (v, rest) ← takeValue fuel rest
      match skipGap false rest with
      | 0x2C :: rest =>
        let (es, rest) ← takeEntries fuel (skipGap false rest)
        some ((key, v) :: es, rest)
      | 0x7D :: rest => some ([(key, v)], rest)
      | _ => none

end

/-- The heading of a table, after its first bracket. -/
def takeHeading (t : Text) : Option (Statement × Text) := do
  match t with
  | 0x5B :: rest =>
    let (key, rest) ← takeKey rest
    match rest with
    | 0x5D :: 0x5D :: rest => some (.tableItem key, rest)
    | _ => none
  | t =>
    let (key, rest) ← takeKey t
    match rest with
    | 0x5D :: rest => some (.table key, rest)
    | _ => none

/-- A statement. A value takes at most two steps for each of its bytes. -/
def takeStatement (t : Text) : Option (Statement × Text) :=
  match t with
  | 0x5B :: rest => takeHeading rest
  | t => do
    let (key, rest) ← takeAssigned t
    let (v, rest) ← takeValue (2 * rest.length + 2) rest
    some (.assign key v, rest)

/-- At most `fuel` statements, each on a line of its own. -/
def takeStatements : Nat → Text → Option (List Statement)
  | fuel, t =>
    match skipGap false t with
    | [] => some []
    | t =>
      match fuel with
      | 0 => none
      | fuel + 1 => do
        let (s, rest) ← takeStatement t
        match skipSpace rest with
        | [] => some [s]
        | b :: rest =>
          if isBreak b || b = 0x23 then (takeStatements fuel (b :: rest)).map (s :: ·) else none

/-- Is a text free of controls, a tab and the two forms of a line break apart? -/
def isFreeOfControls : Text → Bool
  | [] => true
  | 0x0D :: rest => rest.head? = some 0x0A && isFreeOfControls rest
  | b :: rest => (0x20 ≤ b || b = 0x09 || b = 0x0A) && b ≠ 0x7F && isFreeOfControls rest

/-- The text after a byte order mark. -/
def skipMark : Text → Text
  | 0xEF :: 0xBB :: 0xBF :: rest => rest
  | 0xFF :: 0xFE :: rest => rest
  | 0xFE :: 0xFF :: rest => rest
  | t => t

/-- The statements of a document. -/
def statements? (document : Text) : Option (List Statement) :=
  let t := skipMark document
  if t.isUtf8 ∧ isFreeOfControls t then takeStatements t.length t else none

end CilAudit.Toml
