import CilAudit.Json

/-!
# Reading JSON

The first value of a text is read and what follows an array or object is left alone. Stray
bytes in strings and unpaired surrogates become U+FFFD; a raw control character is an error.
The text is cut into tokens, and open arrays and objects wait on a stack.
-/

set_option autoImplicit false

namespace CilAudit.Json

/-- A token: punctuation, or a value without parts. -/
inductive Token where
  | beginArray
  | endArray
  | beginObject
  | endObject
  | colon
  | comma
  | scalar (value : Json)
  deriving Repr

/-- The blanks between tokens. -/
def isBlank (b : UInt8) : Bool := b = 0x20 || b = 0x09 || b = 0x0A || b = 0x0D

/-- The value of four hexadecimal digits. -/
def unit? (a b c d : UInt8) : Option Nat := Text.toNatHex? [a, b, c, d]

def isSurrogate (n : Nat) : Bool := 0xD800 ≤ n && n < 0xE000

/-- The code point of a surrogate pair. -/
def pair? (high low : Nat) : Option Nat :=
  if 0xD800 ≤ high ∧ high < 0xDC00 ∧ 0xDC00 ≤ low ∧ low < 0xE000 then
    some (0x10000 + (high - 0xD800) * 0x400 + (low - 0xDC00))
  else none

/-- The byte that a one-letter escape stands for. -/
def escape? (b : UInt8) : Option UInt8 :=
  match b with
  | 0x22 => some 0x22
  | 0x5C => some 0x5C
  | 0x2F => some 0x2F
  | 0x62 => some 0x08
  | 0x66 => some 0x0C
  | 0x6E => some 0x0A
  | 0x72 => some 0x0D
  | 0x74 => some 0x09
  | _ => none

/-- UTF-8 of a code point that is no surrogate. -/
def utf8 (n : Nat) : Text := String.utf8EncodeChar (Char.ofNat n)

/-- The contents of a string whose opening quote has been read, and what follows it. -/
def takeString (s : Text) : Option (Text × Text) :=
  match s with
  | [] => none
  | 0x22 :: rest => some ([], rest)
  | 0x5C :: 0x75 :: a :: b :: c :: d :: rest =>
    match unit? a b c d with
    | none => none
    | some n =>
      if isSurrogate n then
        match rest with
        | 0x5C :: 0x75 :: e :: f :: g :: h :: after =>
          match (unit? e f g h).bind (pair? n) with
          | some m => (takeString after).map fun (t, r) => (utf8 m ++ t, r)
          | none =>
            (takeString (0x5C :: 0x75 :: e :: f :: g :: h :: after)).map
              fun (t, r) => (utf8 0xFFFD ++ t, r)
        | rest => (takeString rest).map fun (t, r) => (utf8 0xFFFD ++ t, r)
      else (takeString rest).map fun (t, r) => (utf8 n ++ t, r)
  | 0x5C :: b :: rest =>
    match escape? b with
    | some c => (takeString rest).map fun (t, r) => (c :: t, r)
    | none => none
  | b :: rest => if b < 0x20 then none else (takeString rest).map fun (t, r) => (b :: t, r)
termination_by s.length

/-- A run of digits, at least one, and what follows it. -/
def takeDigits (s : Text) : Option (Text × Text) :=
  let digits := s.takeWhile Text.isDigit
  if digits.isEmpty then none else some (digits, s.dropWhile Text.isDigit)

/-- The part of a number before the point, without its sign. -/
def takeWhole : Text → Option (Text × Text)
  | 0x30 :: rest => some ([0x30], rest)
  | s => takeDigits s

/-- The fraction of a number, empty if it has none. -/
def takeFraction : Text → Option (Text × Text)
  | 0x2E :: rest => (takeDigits rest).map fun (t, r) => (0x2E :: t, r)
  | s => some ([], s)

/-- The exponent of a number, empty if it has none. -/
def takeExponent : Text → Option (Text × Text)
  | b :: rest =>
    if b = 0x65 ∨ b = 0x45 then
      match rest with
      | 0x2B :: rest => (takeDigits rest).map fun (t, r) => (b :: 0x2B :: t, r)
      | 0x2D :: rest => (takeDigits rest).map fun (t, r) => (b :: 0x2D :: t, r)
      | rest => (takeDigits rest).map fun (t, r) => (b :: t, r)
    else some ([], b :: rest)
  | [] => some ([], [])

/-- The literal of a number without its sign, and what follows it. -/
def takeMagnitude (s : Text) : Option (Text × Text) := do
  let (whole, s) ← takeWhole s
  let (fraction, s) ← takeFraction s
  let (exponent, s) ← takeExponent s
  return (whole ++ fraction ++ exponent, s)

/-- What follows `word`, if the text starts with it. -/
def takeWord (word : Text) (value : Json) (s : Text) : Option (Token × Text) :=
  if word.isPrefixOf s then some (.scalar value, s.drop word.length) else none

/-- The token that starts with `b`, which is no blank. -/
def tokenAt (b : UInt8) (rest : Text) : Option (Token × Text) :=
  match b with
  | 0x5B => some (.beginArray, rest)
  | 0x5D => some (.endArray, rest)
  | 0x7B => some (.beginObject, rest)
  | 0x7D => some (.endObject, rest)
  | 0x3A => some (.colon, rest)
  | 0x2C => some (.comma, rest)
  | 0x22 => (takeString rest).map fun (t, r) => (.scalar (.string t.repaired), r)
  | 0x6E => takeWord "ull" .null rest
  | 0x74 => takeWord "rue" (.bool true) rest
  | 0x66 => takeWord "alse" (.bool false) rest
  | 0x2D => (takeMagnitude rest).map fun (t, r) => (.scalar (.number (0x2D :: t)), r)
  | _ =>
    if Text.isDigit b then
      (takeMagnitude (b :: rest)).map fun (t, r) => (.scalar (.number t), r)
    else none

/-- The next token and what follows it. -/
def nextToken (s : Text) : Option (Token × Text) :=
  match s with
  | [] => none
  | b :: rest => if isBlank b then nextToken rest else tokenAt b rest

theorem takeString_length {s t r : Text} (h : takeString s = some (t, r)) : r.length < s.length := by
  fun_induction takeString s generalizing t r <;> simp_all [Option.map_eq_some_iff]
  all_goals grind

theorem takeDigits_length {s t r : Text} (h : takeDigits s = some (t, r)) : r.length < s.length := by
  unfold takeDigits at h
  simp only at h
  split at h
  · cases h
  · rename_i nonempty
    cases h
    match s with
    | [] => simp at nonempty
    | b :: rest =>
      by_cases digit : Text.isDigit b
      · have := (List.dropWhile_sublist Text.isDigit (l := rest)).length_le
        simp only [List.dropWhile_cons, digit, if_true, List.length_cons]
        omega
      · simp [digit] at nonempty

theorem takeWhole_length {s t r : Text} (h : takeWhole s = some (t, r)) : r.length < s.length := by
  unfold takeWhole at h
  split at h
  · cases h; simp
  · exact takeDigits_length h

theorem takeFraction_length {s t r : Text} (h : takeFraction s = some (t, r)) :
    r.length ≤ s.length := by
  unfold takeFraction at h
  split at h
  · obtain ⟨⟨_, _⟩, digits, same⟩ := Option.map_eq_some_iff.1 h
    have := takeDigits_length digits
    cases same
    simp only [List.length_cons]; omega
  · cases h; simp

theorem takeExponent_length {s t r : Text} (h : takeExponent s = some (t, r)) :
    r.length ≤ s.length := by
  unfold takeExponent at h
  split at h
  · split at h
    · split at h <;>
      · obtain ⟨⟨_, _⟩, digits, same⟩ := Option.map_eq_some_iff.1 h
        have := takeDigits_length digits
        cases same
        simp only [List.length_cons] at *; omega
    · cases h; simp
  · cases h; simp

theorem takeMagnitude_length {s t r : Text} (h : takeMagnitude s = some (t, r)) :
    r.length < s.length := by
  unfold takeMagnitude at h
  cases hw : takeWhole s with
  | none => simp [hw] at h
  | some w =>
    have whole := takeWhole_length hw
    cases hf : takeFraction w.2 with
    | none => simp [hw, hf] at h
    | some f =>
      have fraction := takeFraction_length hf
      cases he : takeExponent f.2 with
      | none => simp [hw, hf, he] at h
      | some e =>
        have exponent := takeExponent_length he
        simp only [hw, hf, he, bind, Option.bind, pure, Option.some.injEq, Prod.mk.injEq] at h
        rw [← h.2]
        omega

theorem takeWord_length {word s r : Text} {v : Json} {t : Token}
    (h : takeWord word v s = some (t, r)) : r.length ≤ s.length := by
  unfold takeWord at h
  split at h
  · cases h; simp
  · cases h

theorem tokenAt_length {b : UInt8} {s r : Text} {t : Token} (h : tokenAt b s = some (t, r)) :
    r.length ≤ s.length := by
  unfold tokenAt at h
  split at h
  case h_7 =>
    obtain ⟨⟨_, _⟩, found, same⟩ := Option.map_eq_some_iff.1 h
    have := takeString_length found
    cases same
    omega
  case h_11 =>
    obtain ⟨⟨_, _⟩, found, same⟩ := Option.map_eq_some_iff.1 h
    have := takeMagnitude_length found
    cases same
    omega
  case h_12 =>
    split at h
    · obtain ⟨⟨_, _⟩, found, same⟩ := Option.map_eq_some_iff.1 h
      have := takeMagnitude_length found
      cases same
      simp only [List.length_cons] at this
      omega
    · cases h
  all_goals first | exact takeWord_length h | (cases h; exact Nat.le_refl _)

theorem nextToken_length {s r : Text} {t : Token} (h : nextToken s = some (t, r)) :
    r.length < s.length := by
  induction s with
  | nil => cases h
  | cons b rest ih =>
    unfold nextToken at h
    split at h
    · have := ih h
      simp only [List.length_cons]; omega
    · have := tokenAt_length h
      simp only [List.length_cons]; omega

/-- An array or object that is still open, its parts in reverse. -/
inductive Frame where
  | array (items : List Json)
  | object (members : List (Text × Json))
  /-- An object with a key that has no value yet. -/
  | member (members : List (Text × Json)) (key : Text)

/-- What may come next inside the innermost open frame. -/
inductive Expected where
  | value
  | firstItem
  | firstKey
  | key
  | colon
  | separator
  deriving DecidableEq

/-- The deepest nesting that is read. -/
def maxDepth : Nat := 10000

/-- The stack after a value is complete, or the value itself when nothing is open. -/
def place (v : Json) : List Frame → Json ⊕ List Frame
  | [] => .inl v
  | .array items :: frames => .inr (.array (v :: items) :: frames)
  | .member members key :: frames => .inr (.object ((key, v) :: members) :: frames)
  | .object members :: frames => .inr (.object members :: frames)

/-- Reads on until the outermost value is complete. -/
def readOn (frames : List Frame) (expected : Expected) (s : Text) : Option (Json × Text) :=
  match h : nextToken s with
  | none => none
  | some (token, rest) =>
    have : rest.length < s.length := nextToken_length h
    let finish (v : Json) (frames : List Frame) : Option (Json × Text) :=
      match place v frames with
      | .inl v => some (v, rest)
      | .inr frames => readOn frames .separator rest
    match expected, token, frames with
    | .separator, .comma, .array _ :: _ => readOn frames .value rest
    | .separator, .comma, .object _ :: _ => readOn frames .key rest
    | .separator, .endArray, .array items :: outer => finish (.array items.reverse) outer
    | .separator, .endObject, .object members :: outer => finish (.object members.reverse) outer
    | .firstItem, .endArray, .array items :: outer => finish (.array items.reverse) outer
    | .firstKey, .endObject, .object members :: outer => finish (.object members.reverse) outer
    | .firstKey, .scalar (.string key), .object members :: outer =>
      readOn (.member members key :: outer) .colon rest
    | .key, .scalar (.string key), .object members :: outer =>
      readOn (.member members key :: outer) .colon rest
    | .colon, .colon, _ => readOn frames .value rest
    | .value, .scalar v, _ | .firstItem, .scalar v, _ => finish v frames
    | .value, .beginArray, _ | .firstItem, .beginArray, _ =>
      if maxDepth ≤ frames.length then none else readOn (.array [] :: frames) .firstItem rest
    | .value, .beginObject, _ | .firstItem, .beginObject, _ =>
      if maxDepth ≤ frames.length then none else readOn (.object [] :: frames) .firstKey rest
    | _, _, _ => none
termination_by s.length

/-- The first value of a text and what follows it. A value without parts has to be followed
by a blank or nothing. -/
def readFirst (s : Text) : Option (Json × Text) :=
  match readOn [] .value s with
  | some (.array items, rest) => some (.array items, rest)
  | some (.object members, rest) => some (.object members, rest)
  | some (v, rest) => if (rest.head?.map isBlank).getD true then some (v, rest) else none
  | none => none

/-- The first value of a text; what follows it is ignored. -/
def read? (s : Text) : Option Json := (readFirst s).map (·.1)

end CilAudit.Json
