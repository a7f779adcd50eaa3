/-!
# Text

Names, literals, documents and messages are byte strings. They are usually UTF-8, but a
literal may be cut between the bytes of a character, so the type admits every byte.
String literals stand for their UTF-8 bytes.
-/

set_option autoImplicit false

namespace CilAudit

/-- A text: any sequence of bytes. -/
abbrev Text := List UInt8

namespace Text

/-- The UTF-8 bytes of a string. -/
def ofString (s : String) : Text := s.toUTF8.data.toList

instance : Coe String Text := ⟨ofString⟩

/-- Equality byte by byte. Texts are compared all the time, and this form of the test is
compiled to a plain loop. -/
def decideEq : (a b : Text) → Decidable (a = b)
  | [], [] => isTrue rfl
  | [], _ :: _ => isFalse nofun
  | _ :: _, [] => isFalse nofun
  | x :: xs, y :: ys =>
    if head : x = y then
      match decideEq xs ys with
      | isTrue tail => isTrue (by rw [head, tail])
      | isFalse tail => isFalse fun e => tail (List.cons.inj e).2
    else isFalse fun e => head (List.cons.inj e).1

instance : DecidableEq Text := decideEq

/-- The texts one after another. -/
def concat (parts : List Text) : Text := parts.flatten

/-- The texts one after another, with `separator` between neighbours. -/
def joinWith (separator : Text) : List Text → Text
  | [] => []
  | [part] => part
  | part :: rest => part ++ separator ++ joinWith separator rest

/-- `lead` in front of a text that is not empty; an empty one stays so. -/
def ledBy (lead t : Text) : Text := if t.isEmpty then [] else lead ++ t

/-- Every line followed by a line feed. -/
def lines (parts : List Text) : Text := parts.flatMap (· ++ [0x0A])

def startsWith (t start : Text) : Bool := start.isPrefixOf t

def endsWith (t tail : Text) : Bool := tail.isSuffixOf t

/-- Does `part` occur in the text, at any place? -/
def contains (t part : Text) : Bool :=
  match t with
  | [] => part.isEmpty
  | b :: rest => part.isPrefixOf (b :: rest) || contains rest part

/-- The text before the first `b` and the text after it. -/
def cutAt (b : UInt8) : Text → Option (Text × Text)
  | [] => none
  | c :: rest => if c = b then some ([], rest) else (cutAt b rest).map fun (l, r) => (c :: l, r)

/-- The text before the last byte that satisfies `p` and the text after it. -/
def cutAtLast (p : UInt8 → Bool) : Text → Option (Text × Text)
  | [] => none
  | c :: rest =>
    match cutAtLast p rest with
    | some (l, r) => some (c :: l, r)
    | none => if p c then some ([], rest) else none

/-- The text before the first occurrence of `part` and the text after it. -/
def cutOn (part : Text) : Text → Option (Text × Text)
  | [] => if part.isEmpty then some ([], []) else none
  | c :: rest =>
    if part.isPrefixOf (c :: rest) then some ([], (c :: rest).drop part.length)
    else (cutOn part rest).map fun (l, r) => (c :: l, r)

/-- The text without `tail` at its end, if it ends so. -/
def trimEnd (t tail : Text) : Text :=
  if t.endsWith tail then t.take (t.length - tail.length) else t

/-- The pieces between the occurrences of `b`: always at least one. -/
def splitAt (b : UInt8) : Text → List Text
  | [] => [[]]
  | c :: rest =>
    match splitAt b rest with
    | [] => [[c]]
    | part :: parts => if c = b then [] :: part :: parts else (c :: part) :: parts

/-- Each byte replaced by the text that `f` gives for it. -/
def escapeWith (f : UInt8 → Text) (t : Text) : Text := t.flatMap f

/-- The text with `other` in the place of every `b`. -/
def replaceByte (t : Text) (b : UInt8) (other : Text) : Text :=
  t.flatMap fun c => if c = b then other else [c]

/-- `b` written `n` times. -/
def replicate (n : Nat) (b : UInt8) : Text := List.replicate n b

/-- Byte-wise lexicographic order. -/
def le (a b : Text) : Bool :=
  match a, b with
  | [], _ => true
  | _ :: _, [] => false
  | x :: xs, y :: ys => if x < y then true else if y < x then false else le xs ys

/-- The texts in byte-wise order; equal ones keep their places. -/
def sort (ts : List Text) : List Text := ts.mergeSort le

end Text

end CilAudit
