import CilAudit.Proofs.DocumentText

/-!
# Written documents are read back

A value whose texts are UTF-8 and whose number literals are as the grammar has them, written over
several lines, is read as the same value, if it is nested no deeper than the reader goes. Each token
of the text is found with what follows it, and the reader, wherever it stands in the open arrays and
objects, comes out behind the value with the value in its place.
-/

set_option autoImplicit false

namespace CilAudit

namespace Text

/-! ## Bytes of pieces -/

theorem of_continuation? {b : UInt8} {x : Nat} (read : continuation? b = some x) :
    x < 64 ∧ b = UInt8.ofNat (x + 128) := by
  simp only [continuation?, UInt8.le_iff_toNat_le, UInt8.reduceToNat] at read
  split at read
  case isTrue within =>
    obtain rfl := Option.some.inj read
    refine ⟨by omega, ?_⟩
    rw [Nat.sub_add_cancel within.1, UInt8.ofNat_toNat]
  case isFalse => cases read

/-- A byte by what it is more than another. -/
theorem eq_ofNat_of_ge {b : UInt8} {k : Nat} (least : k ≤ b.toNat) : b = UInt8.ofNat (b.toNat - k + k) := by
  rw [Nat.sub_add_cancel least, UInt8.ofNat_toNat]

theorem val_ofNat {n : Nat} (valid : n.isValidChar) : (Char.ofNat n).val.toNat = n := by
  rw [Char.ofNat, dif_pos valid]
  rfl

section Widths

variable {lead x y z : Nat}

theorem encode_one (low : x < 128) : String.utf8EncodeChar (Char.ofNat x) = [UInt8.ofNat x] := by
  unfold String.utf8EncodeChar
  simp only [val_ofNat (show x.isValidChar from .inl (by omega))]
  rw [if_pos (by omega)]

theorem encode_two (least : 2 ≤ lead) (most : lead < 32) (hx : x < 64) :
    String.utf8EncodeChar (Char.ofNat (lead * 64 + x)) = [UInt8.ofNat (lead + 192), UInt8.ofNat (x + 128)] := by
  unfold String.utf8EncodeChar
  simp only [val_ofNat (show (lead * 64 + x).isValidChar from .inl (by omega))]
  rw [if_neg (by omega), if_pos (by omega), show (lead * 64 + x) / 64 % 32 = lead by omega,
    show (lead * 64 + x) % 64 = x by omega]

theorem encode_three (most : lead < 16) (hx : x < 64) (hy : y < 64) (least : 0x800 ≤ (lead * 64 + x) * 64 + y)
    (whole : (lead * 64 + x) * 64 + y < 0xD800 ∨ 0xDFFF < (lead * 64 + x) * 64 + y) :
    String.utf8EncodeChar (Char.ofNat ((lead * 64 + x) * 64 + y)) =
      [UInt8.ofNat (lead + 224), UInt8.ofNat (x + 128), UInt8.ofNat (y + 128)] := by
  have valid : ((lead * 64 + x) * 64 + y).isValidChar := whole.imp_right fun high => ⟨high, by omega⟩
  unfold String.utf8EncodeChar
  simp only [val_ofNat valid]
  rw [if_neg (by omega), if_neg (by omega), if_pos (by omega),
    show ((lead * 64 + x) * 64 + y) / 4096 % 16 = lead by omega,
    show ((lead * 64 + x) * 64 + y) / 64 % 64 = x by omega, show ((lead * 64 + x) * 64 + y) % 64 = y by omega]

theorem encode_four (hx : x < 64) (hy : y < 64) (hz : z < 64)
    (least : 0x10000 ≤ ((lead * 64 + x) * 64 + y) * 64 + z)
    (most : ((lead * 64 + x) * 64 + y) * 64 + z < 0x110000) :
    String.utf8EncodeChar (Char.ofNat (((lead * 64 + x) * 64 + y) * 64 + z)) =
      [UInt8.ofNat (lead + 240), UInt8.ofNat (x + 128), UInt8.ofNat (y + 128), UInt8.ofNat (z + 128)] := by
  unfold String.utf8EncodeChar
  simp only [val_ofNat (show (((lead * 64 + x) * 64 + y) * 64 + z).isValidChar from .inr (by omega))]
  rw [if_neg (by omega), if_neg (by omega), if_neg (by omega),
    show (((lead * 64 + x) * 64 + y) * 64 + z) / 262144 % 8 = lead by omega,
    show (((lead * 64 + x) * 64 + y) * 64 + z) / 4096 % 64 = x by omega,
    show (((lead * 64 + x) * 64 + y) * 64 + z) / 64 % 64 = y by omega,
    show (((lead * 64 + x) * 64 + y) * 64 + z) % 64 = z by omega]

end Widths

/-- The bytes of a code point are those it was read from. -/
theorem encode_of_codePointAt? {b : UInt8} {rest : Text} {n k : Nat} (read : codePointAt? b rest = some (n, k)) :
    String.utf8EncodeChar (Char.ofNat n) = b :: rest.take k := by
  unfold codePointAt? at read
  simp only [UInt8.lt_iff_toNat_lt, UInt8.reduceToNat] at read
  split at read
  case isTrue one =>
    cases read
    rw [encode_one one, UInt8.ofNat_toNat, List.take_zero]
  case isFalse notOne =>
    split at read
    case isTrue => cases read
    case isFalse notStray =>
      split at read
      case isTrue two =>
        split at read
        case h_1 b₁ tail =>
          obtain ⟨x, hx, point⟩ := Option.bind_eq_some_iff.1 read
          obtain ⟨small, rfl⟩ := of_continuation? hx
          cases point
          rw [encode_two (by omega) (by omega) small, ← eq_ofNat_of_ge (by omega)]
          rfl
        case h_2 => cases read
      case isFalse notTwo =>
        split at read
        case isTrue three =>
          split at read
          case h_1 b₁ b₂ tail =>
            obtain ⟨x, hx, later⟩ := Option.bind_eq_some_iff.1 read
            obtain ⟨y, hy, point⟩ := Option.bind_eq_some_iff.1 later
            obtain ⟨smallX, rfl⟩ := of_continuation? hx
            obtain ⟨smallY, rfl⟩ := of_continuation? hy
            split at point
            case isTrue => cases point
            case isFalse whole =>
              cases point
              rw [encode_three (by omega) smallX smallY (by omega) (by omega), ← eq_ofNat_of_ge (by omega)]
              rfl
          case h_2 => cases read
        case isFalse notThree =>
          split at read
          case isTrue four =>
            split at read
            case h_1 b₁ b₂ b₃ tail =>
              obtain ⟨x, hx, later⟩ := Option.bind_eq_some_iff.1 read
              obtain ⟨y, hy, last⟩ := Option.bind_eq_some_iff.1 later
              obtain ⟨z, hz, point⟩ := Option.bind_eq_some_iff.1 last
              obtain ⟨smallX, rfl⟩ := of_continuation? hx
              obtain ⟨smallY, rfl⟩ := of_continuation? hy
              obtain ⟨smallZ, rfl⟩ := of_continuation? hz
              split at point
              case isTrue => cases point
              case isFalse whole =>
                cases point
                rw [encode_four smallX smallY smallZ (by omega) (by omega), ← eq_ofNat_of_ge (by omega)]
                rfl
            case h_2 => cases read
          case isFalse => cases read

/-- A text is the bytes of its pieces. -/
theorem flatMap_pieces (t : Text) : (pieces t).flatMap Piece.bytes = t := by
  fun_induction pieces t with
  | case1 => rfl
  | case2 b rest n taken read ih =>
    rw [List.flatMap_cons, ih, Piece.bytes, encode_of_codePointAt? read, List.cons_append, List.take_append_drop]
  | case3 b rest _ ih => rw [List.flatMap_cons, ih, Piece.bytes, List.singleton_append]

/-- A text that is UTF-8 is its characters. -/
theorem pieces_of_utf8 {t : Text} (utf8 : t.isUtf8 = true) : t.pieces = t.chars.map .char := by
  rw [chars, List.map_map]
  refine (List.map_id _).symm.trans (List.map_congr_left fun p mem => ?_)
  have char := List.all_eq_true.1 utf8 p mem
  cases p with
  | char c => rfl
  | stray b => cases char

theorem repaired_of_utf8 {t : Text} (utf8 : t.isUtf8 = true) : t.repaired = t := by
  rw [repaired, ofChars]
  conv => rhs; rw [← flatMap_pieces t, pieces_of_utf8 utf8, List.flatMap_map]
  rfl

end Text

namespace Json

open Text

/-! ## Strings -/

/-- What is found in a string that goes on with more in front. -/
def ahead (front : Text) (found : Option (Text × Text)) : Option (Text × Text) :=
  found.map fun (t, r) => (front ++ t, r)

theorem takeString_byte {b : UInt8} (high : ¬b < 0x20) (quote : b ≠ 0x22) (escape : b ≠ 0x5C) (s : Text) :
    takeString (b :: s) = ahead [b] (takeString s) := by
  rw [takeString.eq_def]
  split
  case h_1 same => cases same
  case h_2 same =>
    cases same
    exact absurd rfl quote
  case h_3 same | h_4 same =>
    cases same
    exact absurd rfl escape
  case h_5 same =>
    cases same
    rw [if_neg high]
    rfl

theorem takeString_bytes {bs : Text} (plain : ∀ b ∈ bs, ¬b < 0x20 ∧ b ≠ 0x22 ∧ b ≠ 0x5C) (s : Text) :
    takeString (bs ++ s) = ahead bs (takeString s) := by
  induction bs with
  | nil => simp [ahead]
  | cons b bs ih =>
    obtain ⟨⟨high, quote, escape⟩, others⟩ := List.forall_mem_cons.1 plain
    rw [List.cons_append, takeString_byte high quote escape, ih others, ahead, ahead, ahead, Option.map_map]
    rfl

theorem takeString_escape {b c : UInt8} (short : escape? b = some c) (s : Text) :
    takeString (0x5C :: b :: s) = ahead [c] (takeString s) := by
  rw [takeString.eq_def]
  split
  case h_1 same => cases same
  case h_2 same => cases same
  case h_3 same =>
    cases same
    cases short
  case h_4 same =>
    cases same
    rw [short]
    rfl
  case h_5 other same =>
    cases same
    exact absurd rfl (other b s rfl)

theorem takeString_unit {a b c d : UInt8} {n : Nat} (unit : unit? a b c d = some n) (whole : isSurrogate n = false)
    (s : Text) : takeString (0x5C :: 0x75 :: a :: b :: c :: d :: s) = ahead (utf8 n) (takeString s) := by
  rw [takeString.eq_def]
  simp only [unit, whole]
  rfl

/-- A character that is written by its code point. -/
theorem takeString_point {n : Nat} (written : n < 0x20 ∨ n = 0x3C ∨ n = 0x3E ∨ n = 0x26 ∨ n = 0x2028 ∨ n = 0x2029)
    (s : Text) : takeString ("\\u" ++ Text.hex 4 n ++ s) = ahead (utf8 n) (takeString s) := by
  have digits : ∀ n ∈ List.range 0x40 ++ [0x2028, 0x2029], (Text.hex 4 (n : Nat)).length = 4 ∧
      Text.toNatHex? (Text.hex 4 (n : Nat)) = some n ∧ isSurrogate n = false := by
    decide +kernel
  obtain ⟨four, value, whole⟩ := digits n (by
    rcases written with low | rfl | rfl | rfl | rfl | rfl
    · exact List.mem_append_left _ (List.mem_range.2 (by omega))
    all_goals decide)
  match shape : Text.hex 4 n, four with
  | [a, b, c, d], _ =>
    rw [shape] at value
    exact takeString_unit value whole s

theorem takeString_ascii {n : Nat} (low : n < 0x80) (s : Text) :
    takeString (escapedAscii n ++ s) = ahead [UInt8.ofNat n] (takeString s) := by
  unfold escapedAscii
  split
  case h_1 => exact takeString_escape (b := 0x22) rfl s
  case h_2 => exact takeString_escape (b := 0x5C) rfl s
  case h_3 => exact takeString_escape (b := 0x62) rfl s
  case h_4 => exact takeString_escape (b := 0x66) rfl s
  case h_5 => exact takeString_escape (b := 0x6E) rfl s
  case h_6 => exact takeString_escape (b := 0x72) rfl s
  case h_7 => exact takeString_escape (b := 0x74) rfl s
  case h_8 quote backslash _ _ _ _ _ =>
    split
    case isTrue written =>
      rw [takeString_point (by omega), utf8, encode_one low]
    case isFalse plain =>
      have byte : (UInt8.ofNat n).toNat = n := toNat_ofNat_of_lt (by omega)
      have other : ∀ k : UInt8, n ≠ k.toNat → UInt8.ofNat n ≠ k := by
        rintro k differ rfl
        exact differ byte.symm
      refine takeString_byte ?_ (other 0x22 quote) (other 0x5C backslash) s
      rw [UInt8.lt_iff_toNat_lt, byte]
      exact fun less => plain (.inl less)

/-- The bytes of a character past ASCII are none of ASCII. -/
theorem high_of_mem_encode {c : Char} (high : ¬c.toNat < 0x80) : ∀ b ∈ String.utf8EncodeChar c, 0x80 ≤ b.toNat := by
  have above : ∀ k, 128 ≤ k → k < 256 → 128 ≤ (UInt8.ofNat k).toNat := by
    intro k least most
    rwa [toNat_ofNat_of_lt most]
  change ¬c.val.toNat < 0x80 at high
  unfold String.utf8EncodeChar
  simp only
  rw [if_neg (by omega)]
  split
  · simp only [List.forall_mem_cons]
    exact ⟨above _ (by omega) (by omega), above _ (by omega) (by omega), List.forall_mem_nil _⟩
  · split
    · simp only [List.forall_mem_cons]
      exact ⟨above _ (by omega) (by omega), above _ (by omega) (by omega), above _ (by omega) (by omega),
        List.forall_mem_nil _⟩
    · simp only [List.forall_mem_cons]
      exact ⟨above _ (by omega) (by omega), above _ (by omega) (by omega), above _ (by omega) (by omega),
        above _ (by omega) (by omega), List.forall_mem_nil _⟩

/-- A character in a string is read as its bytes. -/
theorem takeString_char (c : Char) (s : Text) :
    takeString (escapedPiece (.char c) ++ s) = ahead (String.utf8EncodeChar c) (takeString s) := by
  unfold escapedPiece
  simp only
  split
  case isTrue low =>
    have bytes := encode_one low
    rw [Char.ofNat_toNat] at bytes
    rw [takeString_ascii low, bytes]
  case isFalse high =>
    split
    case isTrue separator =>
      rw [takeString_point (by omega), utf8, Char.ofNat_toNat]
    case isFalse =>
      refine takeString_bytes (fun b mem => ?_) s
      have least := high_of_mem_encode high b mem
      refine ⟨fun less => ?_, ?_, ?_⟩
      · rw [UInt8.lt_iff_toNat_lt] at less
        exact absurd less (by simp only [UInt8.reduceToNat]; omega)
      · rintro rfl
        exact absurd least (by decide)
      · rintro rfl
        exact absurd least (by decide)

theorem takeString_chars (cs : List Char) (rest : Text) :
    takeString ((cs.map Piece.char).flatMap escapedPiece ++ 0x22 :: rest) = some (ofChars cs, rest) := by
  induction cs with
  | nil =>
    rw [List.map_nil, List.flatMap_nil, List.nil_append, takeString]
    rfl
  | cons c cs ih =>
    rw [List.map_cons, List.flatMap_cons, List.append_assoc, takeString_char, ih]
    rfl

theorem nextToken_quote {t : Text} (utf8 : t.isUtf8 = true) (rest : Text) :
    nextToken (quote t ++ rest) = some (.scalar (.string t), rest) := by
  have contents : takeString (t.pieces.flatMap escapedPiece ++ 0x22 :: rest) = some (t, rest) := by
    rw [pieces_of_utf8 utf8, takeString_chars]
    exact congrArg (fun u => some (u, rest)) (repaired_of_utf8 utf8)
  have start : nextToken (quote t ++ rest) = tokenAt 0x22 (t.pieces.flatMap escapedPiece ++ 0x22 :: rest) := by
    rw [quote, List.cons_append, List.append_assoc, List.singleton_append]
    rfl
  rw [start, tokenAt, contents, Option.map_some]
  simp only [repaired_of_utf8 utf8]

/-! ## Numbers -/

/-- A number in front of the text ends there. -/
def Ends (rest : Text) : Prop := ∀ b ∈ rest.head?, isDigit b = false ∧ b ≠ 0x2E ∧ b ≠ 0x65 ∧ b ≠ 0x45

theorem takeDigits_append {t rest : Text} (digits : Digits t) (stop : ∀ b ∈ rest.head?, isDigit b = false) :
    takeDigits (t ++ rest) = some (t, rest) := by
  have none : rest.takeWhile isDigit = [] ∧ rest.dropWhile isDigit = rest := by
    cases rest with
    | nil => exact ⟨rfl, rfl⟩
    | cons b rest => simp [stop b rfl]
  rw [takeDigits, List.takeWhile_append_of_pos digits.all, List.dropWhile_append_of_pos digits.all, none.1, none.2,
    List.append_nil]
  exact if_neg (by simpa using digits.nonempty)

theorem takeWhole_append {t rest : Text} (whole : Whole t) (stop : ∀ b ∈ rest.head?, isDigit b = false) :
    takeWhole (t ++ rest) = some (t, rest) := by
  cases whole with
  | zero => rfl
  | digits digits lead =>
    unfold takeWhole
    split
    case h_1 tail same =>
      obtain ⟨b, t, rfl⟩ := List.exists_cons_of_ne_nil digits.nonempty
      cases same
      exact absurd rfl lead
    case h_2 => exact takeDigits_append digits stop

theorem takeFraction_append {t rest : Text} (fraction : Fraction t)
    (stop : ∀ b ∈ rest.head?, isDigit b = false ∧ b ≠ 0x2E) : takeFraction (t ++ rest) = some (t, rest) := by
  cases fraction with
  | none =>
    rw [List.nil_append]
    unfold takeFraction
    split
    case h_1 => exact absurd rfl (stop 0x2E rfl).2
    case h_2 => rfl
  | digits digits =>
    rw [List.cons_append, takeFraction, takeDigits_append digits fun b mem => (stop b mem).1]
    rfl

theorem takeExponent_append {t rest : Text} (exponent : Exponent t) (ends : Ends rest) :
    takeExponent (t ++ rest) = some (t, rest) := by
  have stop : ∀ b ∈ rest.head?, isDigit b = false := fun b mem => (ends b mem).1
  unfold takeExponent
  cases exponent with
  | none =>
    rw [List.nil_append]
    cases rest with
    | nil => rfl
    | cons b rest =>
      obtain ⟨_, _, lower, upper⟩ := ends b rfl
      exact if_neg (not_or.2 ⟨lower, upper⟩)
  | @digits mark sign t marks signs digits =>
    rw [List.cons_append, List.append_assoc]
    simp only
    rw [if_pos marks]
    have unsigned : ∀ {b : UInt8} {tail : Text}, t ++ rest = b :: tail → isDigit b = true := by
      intro b tail same
      obtain ⟨c, t, rfl⟩ := List.exists_cons_of_ne_nil digits.nonempty
      cases same
      exact digits.all _ List.mem_cons_self
    rcases signs with rfl | rfl | rfl
    · rw [List.nil_append]
      split
      case h_1 same => exact absurd (unsigned same) (by decide)
      case h_2 same => exact absurd (unsigned same) (by decide)
      case h_3 =>
        rw [takeDigits_append digits stop]
        rfl
    · simp only [List.singleton_append]
      rw [takeDigits_append digits stop]
      rfl
    · simp only [List.singleton_append]
      rw [takeDigits_append digits stop]
      rfl

theorem takeMagnitude_append {t rest : Text} (magnitude : Magnitude t) (ends : Ends rest) :
    takeMagnitude (t ++ rest) = some (t, rest) := by
  cases magnitude with
  | @intro w f e whole fraction exponent =>
    have afterFraction : ∀ b ∈ (e ++ rest).head?, isDigit b = false ∧ b ≠ 0x2E := by
      cases exponent with
      | none => exact fun b mem => ⟨(ends b mem).1, (ends b mem).2.1⟩
      | digits marks =>
        rintro b ⟨⟩
        rcases marks with rfl | rfl <;> decide
    have afterWhole : ∀ b ∈ (f ++ (e ++ rest)).head?, isDigit b = false := by
      cases fraction with
      | none => exact fun b mem => (afterFraction b mem).1
      | digits =>
        rintro b ⟨⟩
        decide
    rw [takeMagnitude, List.append_assoc, List.append_assoc, takeWhole_append whole afterWhole]
    simp [takeFraction_append fraction afterFraction, takeExponent_append exponent ends]

theorem nextToken_numeral {t rest : Text} (numeral : Numeral t) (ends : Ends rest) :
    nextToken (t ++ rest) = some (.scalar (.number t), rest) := by
  cases numeral with
  | @negative t magnitude =>
    have start : nextToken (0x2D :: t ++ rest) = tokenAt 0x2D (t ++ rest) := rfl
    rw [start, tokenAt, takeMagnitude_append magnitude ends]
    rfl
  | unsigned magnitude =>
    have taken := takeMagnitude_append magnitude ends
    obtain ⟨b, tail, rfl, digit⟩ : ∃ b tail, t = b :: tail ∧ isDigit b = true := by
      cases magnitude with
      | @intro w f e whole _ _ =>
        have digits := whole.isDigits
        obtain ⟨b, w, rfl⟩ := List.exists_cons_of_ne_nil digits.nonempty
        exact ⟨b, _, rfl, digits.all b List.mem_cons_self⟩
    have other : ∀ c : UInt8, isDigit c = false → b ≠ c := fun c => ne_of_isDigit digit
    have plain : isBlank b = false := by
      simp [isBlank, other 0x20 rfl, other 0x09 rfl, other 0x0A rfl, other 0x0D rfl]
    rw [List.cons_append] at taken ⊢
    rw [nextToken, if_neg (Bool.not_eq_true _ ▸ plain)]
    unfold tokenAt
    -- All other tokens start with a byte that is no digit.
    split
    case h_12 => simp [digit, taken]
    all_goals exact absurd digit (by decide)

/-! ## One token after another -/

theorem nextToken_newline (depth : Nat) (s : Text) : nextToken (newline depth ++ s) = nextToken s := by
  have blanks : ∀ k, nextToken (List.replicate k 0x20 ++ s) = nextToken s := by
    intro k
    induction k with
    | zero => rfl
    | succ k ih => exact ih
  exact blanks (2 * depth)

/-- What is read once a value is complete. -/
def resume (v : Json) (frames : List Frame) (rest : Text) : Option (Json × Text) :=
  match place v frames with
  | .inl v => some (v, rest)
  | .inr frames => readOn frames .separator rest

/-- What is read when a token has been taken off the text. -/
def readToken (frames : List Frame) (expected : Expected) (token : Token) (rest : Text) : Option (Json × Text) :=
  match expected, token, frames with
  | .separator, .comma, .array _ :: _ => readOn frames .value rest
  | .separator, .comma, .object _ :: _ => readOn frames .key rest
  | .separator, .endArray, .array items :: outer => resume (.array items.reverse) outer rest
  | .separator, .endObject, .object members :: outer => resume (.object members.reverse) outer rest
  | .firstItem, .endArray, .array items :: outer => resume (.array items.reverse) outer rest
  | .firstKey, .endObject, .object members :: outer => resume (.object members.reverse) outer rest
  | .firstKey, .scalar (.string key), .object members :: outer =>
    readOn (.member members key :: outer) .colon rest
  | .key, .scalar (.string key), .object members :: outer =>
    readOn (.member members key :: outer) .colon rest
  | .colon, .colon, _ => readOn frames .value rest
  | .value, .scalar v, _ | .firstItem, .scalar v, _ => resume v frames rest
  | .value, .beginArray, _ | .firstItem, .beginArray, _ =>
    if maxDepth ≤ frames.length then none else readOn (.array [] :: frames) .firstItem rest
  | .value, .beginObject, _ | .firstItem, .beginObject, _ =>
    if maxDepth ≤ frames.length then none else readOn (.object [] :: frames) .firstKey rest
  | _, _, _ => none

theorem readOn_of_token {s rest : Text} {token : Token} (next : nextToken s = some (token, rest))
    (frames : List Frame) (expected : Expected) : readOn frames expected s = readToken frames expected token rest := by
  rw [readOn.eq_def]
  split
  case h_1 none =>
    rw [none] at next
    cases next
  case h_2 found =>
    cases found.symm.trans next
    simp only
    split
    case h_16 =>
      unfold readToken
      split <;> grind
    all_goals rfl

/-- What is read depends on the tokens only. -/
theorem readOn_congr {s s' : Text} (same : nextToken s = nextToken s') (frames : List Frame) (expected : Expected) :
    readOn frames expected s = readOn frames expected s' := by
  have nothing : ∀ {s : Text}, nextToken s = none → readOn frames expected s = none := by
    intro s none
    rw [readOn.eq_def]
    split
    case h_1 => rfl
    case h_2 found =>
      rw [none] at found
      cases found
  cases next : nextToken s' with
  | none => rw [nothing next, nothing (same.trans next)]
  | some found => rw [readOn_of_token next, readOn_of_token (same.trans next)]

/-! ## Values -/

mutual

/-- How deep arrays and objects are nested. -/
def nesting : Json → Nat
  | array items => itemsNesting items + 1
  | object members => membersNesting members + 1
  | _ => 0

def itemsNesting : List Json → Nat
  | [] => 0
  | v :: rest => max v.nesting (itemsNesting rest)

def membersNesting : List (Text × Json) → Nat
  | [] => 0
  | (_, v) :: rest => max v.nesting (membersNesting rest)

end

/-- Written at any depth and read where a value may stand, the value is complete. -/
def Rereads (v : Json) : Prop :=
  ∀ (depth : Nat) (frames : List Frame) (expected : Expected) (rest : Text), expected = .value ∨ expected = .firstItem →
    Ends rest → frames.length + v.nesting ≤ maxDepth →
      readOn frames expected (indentedAt depth v ++ rest) = resume v frames rest

theorem ends_of_head {b : UInt8} (stop : isDigit b = false ∧ b ≠ 0x2E ∧ b ≠ 0x65 ∧ b ≠ 0x45) (rest : Text) :
    Ends (b :: rest) := by
  rintro _ ⟨⟩
  exact stop

/-- A value without parts is a token. -/
theorem rereads_scalar {v : Json} (token : ∀ depth rest, Ends rest →
    nextToken (indentedAt depth v ++ rest) = some (.scalar v, rest)) : Rereads v := by
  intro depth frames expected rest place ends _
  rw [readOn_of_token (token depth rest ends)]
  rcases place with rfl | rfl <;> rfl

theorem readOn_items {items : List Json} (each : ∀ v ∈ items, Rereads v) (nonempty : items ≠ []) (depth : Nat)
    (frames : List Frame) {tail : Text} (ends : Ends tail) (shallow : frames.length + 1 + itemsNesting items ≤ maxDepth)
    (done : List Json) {expected : Expected} (place : expected = .value ∨ expected = .firstItem) :
    readOn (.array done :: frames) expected (indentedItems depth items ++ tail) =
      readOn (.array (items.reverse ++ done) :: frames) .separator tail := by
  induction items generalizing done expected with
  | nil => exact absurd rfl nonempty
  | cons v rest ih =>
    obtain ⟨first, others⟩ := List.forall_mem_cons.1 each
    rw [itemsNesting] at shallow
    have here : ∀ next, Ends next →
        readOn (.array done :: frames) expected (newline depth ++ (indentedAt depth v ++ next)) =
          readOn (.array (v :: done) :: frames) .separator next := by
      intro next stop
      rw [readOn_congr (nextToken_newline depth _)]
      exact first depth _ expected next place stop (by simp only [List.length_cons]; omega)
    cases rest with
    | nil =>
      rw [indentedItems, List.append_assoc, here tail ends]
      rfl
    | cons w more =>
      have comma : ∀ next frames, readOn (.array (v :: done) :: frames) .separator (0x2C :: next) =
          readOn (.array (v :: done) :: frames) .value next := fun next frames =>
        readOn_of_token (show nextToken (0x2C :: next) = some (.comma, next) from rfl) _ _
      rw [indentedItems, List.append_assoc, List.append_assoc, List.cons_append, here _ (ends_of_head (by decide) _),
        comma, ih others (by simp) (by omega) (v :: done) (.inl rfl)]
      · simp
      · exact nofun

theorem readOn_members {members : List (Text × Json)} (keys : ∀ m ∈ members, m.1.isUtf8 = true)
    (each : ∀ m ∈ members, Rereads m.2) (nonempty : members ≠ []) (depth : Nat) (frames : List Frame) {tail : Text}
    (ends : Ends tail) (shallow : frames.length + 1 + membersNesting members ≤ maxDepth) (done : List (Text × Json))
    {expected : Expected} (place : expected = .key ∨ expected = .firstKey) :
    readOn (.object done :: frames) expected (indentedMembers depth members ++ tail) =
      readOn (.object (members.reverse ++ done) :: frames) .separator tail := by
  induction members generalizing done expected with
  | nil => exact absurd rfl nonempty
  | cons m rest ih =>
    obtain ⟨k, v⟩ := m
    obtain ⟨utf8, otherKeys⟩ := List.forall_mem_cons.1 keys
    obtain ⟨first, others⟩ := List.forall_mem_cons.1 each
    rw [membersNesting] at shallow
    have here : ∀ next, Ends next → readOn (.object done :: frames) expected
        (newline depth ++ (quote k ++ (": " ++ (indentedAt depth v ++ next)))) =
          readOn (.object ((k, v) :: done) :: frames) .separator next := by
      intro next stop
      have key : readOn (.object done :: frames) expected (quote k ++ (": " ++ (indentedAt depth v ++ next))) =
          readOn (.member done k :: frames) .colon (": " ++ (indentedAt depth v ++ next)) := by
        rw [readOn_of_token (nextToken_quote utf8 _)]
        rcases place with rfl | rfl <;> rfl
      have colon : readOn (.member done k :: frames) .colon (": " ++ (indentedAt depth v ++ next)) =
          readOn (.member done k :: frames) .value (0x20 :: (indentedAt depth v ++ next)) :=
        readOn_of_token (show nextToken (": " ++ (indentedAt depth v ++ next)) = some (.colon, _) from rfl) _ _
      have blank : nextToken (0x20 :: (indentedAt depth v ++ next)) = nextToken (indentedAt depth v ++ next) := rfl
      rw [readOn_congr (nextToken_newline depth _), key, colon, readOn_congr blank]
      exact first depth _ .value next (.inl rfl) stop (by simp only [List.length_cons]; omega)
    cases rest with
    | nil =>
      rw [indentedMembers, List.append_assoc, List.append_assoc, List.append_assoc, here tail ends]
      rfl
    | cons w more =>
      have comma : ∀ next frames, readOn (.object ((k, v) :: done) :: frames) .separator (0x2C :: next) =
          readOn (.object ((k, v) :: done) :: frames) .key next := fun next frames =>
        readOn_of_token (show nextToken (0x2C :: next) = some (.comma, next) from rfl) _ _
      rw [indentedMembers, List.append_assoc, List.append_assoc, List.append_assoc, List.append_assoc, List.cons_append,
        here _ (ends_of_head (by decide) _), comma,
        ih otherKeys others (by simp) (by omega) ((k, v) :: done) (.inl rfl)]
      · simp
      · exact nofun

theorem rereads_array {items : List Json} (each : ∀ v ∈ items, Rereads v) : Rereads (.array items) := by
  intro depth frames expected rest place ends shallow
  rw [nesting] at shallow
  have opened : ∀ next, readOn frames expected (0x5B :: next) = readOn (.array [] :: frames) .firstItem next := by
    intro next
    have below : ¬maxDepth ≤ frames.length := by omega
    rw [readOn_of_token (show nextToken (0x5B :: next) = some (.beginArray, next) from rfl)]
    rcases place with rfl | rfl <;> exact if_neg below
  have closed : ∀ done expected, expected = .separator ∨ expected = .firstItem →
      readOn (.array done :: frames) expected (0x5D :: rest) = resume (.array done.reverse) frames rest := by
    intro done expected place
    rw [readOn_of_token (show nextToken (0x5D :: rest) = some (.endArray, rest) from rfl)]
    rcases place with rfl | rfl <;> rfl
  cases items with
  | nil => exact (opened _).trans (closed [] _ (.inr rfl))
  | cons v more =>
    have behind : Ends (newline depth ++ 0x5D :: rest) := ends_of_head (by decide) _
    rw [indentedAt, List.cons_append, opened, List.append_assoc, List.append_assoc, List.singleton_append,
      readOn_items each (by simp) (depth + 1) frames behind (by omega) [] (.inr rfl),
      readOn_congr (nextToken_newline depth _), closed _ _ (.inl rfl)]
    simp

theorem rereads_object {members : List (Text × Json)} (keys : ∀ m ∈ members, m.1.isUtf8 = true)
    (each : ∀ m ∈ members, Rereads m.2) : Rereads (.object members) := by
  intro depth frames expected rest place ends shallow
  rw [nesting] at shallow
  have opened : ∀ next, readOn frames expected (0x7B :: next) = readOn (.object [] :: frames) .firstKey next := by
    intro next
    have below : ¬maxDepth ≤ frames.length := by omega
    rw [readOn_of_token (show nextToken (0x7B :: next) = some (.beginObject, next) from rfl)]
    rcases place with rfl | rfl <;> exact if_neg below
  have closed : ∀ done expected, expected = .separator ∨ expected = .firstKey →
      readOn (.object done :: frames) expected (0x7D :: rest) = resume (.object done.reverse) frames rest := by
    intro done expected place
    rw [readOn_of_token (show nextToken (0x7D :: rest) = some (.endObject, rest) from rfl)]
    rcases place with rfl | rfl <;> rfl
  cases members with
  | nil => exact (opened _).trans (closed [] _ (.inr rfl))
  | cons m more =>
    have behind : Ends (newline depth ++ 0x7D :: rest) := ends_of_head (by decide) _
    rw [indentedAt, List.cons_append, opened, List.append_assoc, List.append_assoc, List.singleton_append,
      readOn_members keys each (by simp) (depth + 1) frames behind (by omega) [] (.inr rfl),
      readOn_congr (nextToken_newline depth _), closed _ _ (.inl rfl)]
    simp

theorem Clean.rereads {v : Json} (clean : v.Clean) : Rereads v := by
  induction clean with
  | null => exact rereads_scalar fun _ _ _ => rfl
  | bool b => exact rereads_scalar fun _ _ _ => by cases b <;> rfl
  | number numeral => exact rereads_scalar fun _ _ ends => by rw [indentedAt]; exact nextToken_numeral numeral ends
  | string utf8 => exact rereads_scalar fun _ rest _ => by rw [indentedAt]; exact nextToken_quote utf8 rest
  | array values ih => exact rereads_array ih
  | object keys values ih => exact rereads_object keys ih

/-- A clean value that is nested no deeper than the reader goes is read back. -/
theorem read?_indented {v : Json} (clean : v.Clean) (shallow : v.nesting ≤ maxDepth) : read? v.indented = some v := by
  have whole : readOn [] .value (indentedAt 0 v ++ []) = some (v, []) :=
    clean.rereads 0 [] .value [] (.inl rfl) nofun (by simpa using shallow)
  rw [List.append_nil] at whole
  rw [read?, readFirst, indented, whole]
  cases v <;> rfl

end Json

end CilAudit
