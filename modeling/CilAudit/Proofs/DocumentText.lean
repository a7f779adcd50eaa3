import CilAudit.Json.Reader

/-!
# Texts of documents are UTF-8

Characters written one after another split into the same characters again, so what the reader of
JSON makes of a string, with all stray bytes replaced, is UTF-8. Its number literals are as the
grammar has them, and so ASCII.
-/

set_option autoImplicit false

namespace CilAudit

namespace Text

/-! ## Characters and their bytes -/

theorem toNat_ofNat_of_lt {k : Nat} (small : k < 256) : (UInt8.ofNat k).toNat = k := by
  rw [UInt8.toNat_ofNat']
  omega

theorem ofNat_lt_iff {k : Nat} (small : k < 256) (b : UInt8) : UInt8.ofNat k < b ↔ k < b.toNat := by
  rw [UInt8.lt_iff_toNat_lt, toNat_ofNat_of_lt small]

theorem continuation?_ofNat {k : Nat} (small : k < 64) :
    continuation? (UInt8.ofNat (k + 128)) = some k := by
  have value : (UInt8.ofNat (k + 128)).toNat = k + 128 := toNat_ofNat_of_lt (by omega)
  have within : (0x80 : UInt8) ≤ UInt8.ofNat (k + 128) ∧ UInt8.ofNat (k + 128) ≤ 0xBF := by
    rw [UInt8.le_iff_toNat_le, UInt8.le_iff_toNat_le, value]
    constructor
    · exact Nat.le_add_left 128 k
    · exact Nat.add_le_add_right (Nat.le_of_lt_succ small) 128
  rw [continuation?, if_pos within, value, Nat.add_sub_cancel]

section Widths

variable {lead x y z : Nat} (rest : Text)

theorem codePointAt?_of_lt {b : UInt8} (low : b < 0x80) : codePointAt? b rest = some (b.toNat, 0) := by
  unfold codePointAt?
  exact if_pos low

theorem codePointAt?_one (low : x < 128) : codePointAt? (UInt8.ofNat x) rest = some (x, 0) := by
  have first : UInt8.ofNat x < 0x80 := (ofNat_lt_iff (by omega) _).2 low
  rw [codePointAt?_of_lt rest first, toNat_ofNat_of_lt (by omega)]

theorem codePointAt?_two (least : 2 ≤ lead) (most : lead < 32) (hx : x < 64) :
    codePointAt? (UInt8.ofNat (lead + 192)) (UInt8.ofNat (x + 128) :: rest) =
      some (lead * 64 + x, 1) := by
  have small : lead + 192 < 256 := by omega
  simp only [codePointAt?, ofNat_lt_iff small, UInt8.reduceToNat, toNat_ofNat_of_lt small,
    continuation?_ofNat hx]
  rw [if_neg (by omega), if_neg (by omega), if_pos (by omega)]
  simp only [Nat.add_sub_cancel, bind, Option.bind, pure]

theorem codePointAt?_three (most : lead < 16) (hx : x < 64) (hy : y < 64)
    (least : 0x800 ≤ (lead * 64 + x) * 64 + y)
    (whole : (lead * 64 + x) * 64 + y < 0xD800 ∨ 0xDFFF < (lead * 64 + x) * 64 + y) :
    codePointAt? (UInt8.ofNat (lead + 224)) (UInt8.ofNat (x + 128) :: UInt8.ofNat (y + 128) :: rest) =
      some ((lead * 64 + x) * 64 + y, 2) := by
  have small : lead + 224 < 256 := by omega
  simp only [codePointAt?, ofNat_lt_iff small, UInt8.reduceToNat, toNat_ofNat_of_lt small,
    continuation?_ofNat hx, continuation?_ofNat hy]
  rw [if_neg (by omega), if_neg (by omega), if_neg (by omega), if_pos (by omega)]
  simp only [Nat.add_sub_cancel, bind, Option.bind]
  rw [if_neg (by omega)]
  rfl

theorem codePointAt?_four (hx : x < 64) (hy : y < 64) (hz : z < 64)
    (least : 0x10000 ≤ ((lead * 64 + x) * 64 + y) * 64 + z)
    (most : ((lead * 64 + x) * 64 + y) * 64 + z < 0x110000) :
    codePointAt? (UInt8.ofNat (lead + 240))
        (UInt8.ofNat (x + 128) :: UInt8.ofNat (y + 128) :: UInt8.ofNat (z + 128) :: rest) =
      some (((lead * 64 + x) * 64 + y) * 64 + z, 3) := by
  have small : lead + 240 < 256 := by omega
  simp only [codePointAt?, ofNat_lt_iff small, UInt8.reduceToNat, toNat_ofNat_of_lt small,
    continuation?_ofNat hx, continuation?_ofNat hy, continuation?_ofNat hz]
  rw [if_neg (by omega), if_neg (by omega), if_neg (by omega), if_neg (by omega),
    if_pos (by omega)]
  simp only [Nat.add_sub_cancel, bind, Option.bind]
  rw [if_neg (by omega)]
  rfl

end Widths

/-- The bytes of a character are read as its code point. -/
theorem codePointAt?_encode (c : Char) (rest : Text) :
    ∃ b more, String.utf8EncodeChar c = b :: more ∧
      codePointAt? b (more ++ rest) = some (c.toNat, more.length) := by
  have valid : c.val.toNat < 0xD800 ∨ (0xDFFF < c.val.toNat ∧ c.val.toNat < 0x110000) := c.valid
  change ∃ b more, String.utf8EncodeChar c = b :: more ∧
    codePointAt? b (more ++ rest) = some (c.val.toNat, more.length)
  unfold String.utf8EncodeChar
  generalize c.val.toNat = n at valid
  simp only
  split
  case isTrue one => exact ⟨_, _, rfl, codePointAt?_one _ (by omega)⟩
  case isFalse notOne =>
    split
    case isTrue two =>
      refine ⟨_, _, rfl, ?_⟩
      have whole : n / 64 % 32 * 64 + n % 64 = n := by omega
      have read := codePointAt?_two rest (show 2 ≤ n / 64 % 32 by omega) (by omega)
        (show n % 64 < 64 by omega)
      rw [whole] at read
      exact read
    case isFalse notTwo =>
      split
      case isTrue three =>
        refine ⟨_, _, rfl, ?_⟩
        have whole : (n / 4096 % 16 * 64 + n / 64 % 64) * 64 + n % 64 = n := by omega
        have read := codePointAt?_three rest (show n / 4096 % 16 < 16 by omega)
          (show n / 64 % 64 < 64 by omega) (show n % 64 < 64 by omega) (by omega) (by omega)
        rw [whole] at read
        exact read
      case isFalse notThree =>
        refine ⟨_, _, rfl, ?_⟩
        have whole : ((n / 262144 % 8 * 64 + n / 4096 % 64) * 64 + n / 64 % 64) * 64 + n % 64 = n := by
          omega
        have read := codePointAt?_four rest (show n / 4096 % 64 < 64 by omega)
          (show n / 64 % 64 < 64 by omega) (show n % 64 < 64 by omega)
          (show 0x10000 ≤ ((n / 262144 % 8 * 64 + n / 4096 % 64) * 64 + n / 64 % 64) * 64 + n % 64
            by omega) (by omega)
        rw [whole] at read
        exact read

theorem pieces_encode_append (c : Char) (rest : Text) :
    pieces (String.utf8EncodeChar c ++ rest) = .char c :: pieces rest := by
  obtain ⟨b, more, shape, read⟩ := codePointAt?_encode c rest
  rw [shape, List.cons_append, pieces, read]
  simp

/-- Characters written one after another split into the same characters. -/
theorem pieces_ofChars (cs : List Char) : pieces (ofChars cs) = cs.map .char := by
  induction cs with
  | nil => rw [ofChars, List.flatMap_nil, pieces, List.map_nil]
  | cons c cs ih =>
    rw [ofChars, List.flatMap_cons, pieces_encode_append, List.map_cons]
    exact congrArg _ ih

theorem isUtf8_ofChars (cs : List Char) : (ofChars cs).isUtf8 = true := by
  simp [isUtf8, pieces_ofChars]

theorem isUtf8_repaired (t : Text) : t.repaired.isUtf8 = true :=
  isUtf8_ofChars t.chars

/-- Is every byte of the text ASCII? -/
def Ascii (t : Text) : Prop := ∀ b ∈ t, b < 0x80

theorem Ascii.cons {b : UInt8} {t : Text} (low : b < 0x80) (ascii : Ascii t) : Ascii (b :: t) :=
  List.forall_mem_cons.2 ⟨low, ascii⟩

theorem Ascii.append {s t : Text} (first : Ascii s) (second : Ascii t) : Ascii (s ++ t) :=
  List.forall_mem_append.2 ⟨first, second⟩

theorem isUtf8_of_ascii {t : Text} (ascii : Ascii t) : t.isUtf8 = true := by
  induction t with
  | nil => rw [isUtf8, pieces, List.all_nil]
  | cons b rest ih =>
    obtain ⟨low, tail⟩ := List.forall_mem_cons.1 ascii
    rw [isUtf8, pieces, codePointAt?_of_lt rest low]
    simpa [isUtf8] using ih tail

theorem isUtf8_nil : isUtf8 [] = true := isUtf8_of_ascii (List.forall_mem_nil _)

theorem ofString_eq_ofChars (s : String) : ofString s = ofChars s.toList := by
  rw [ofString, String.toUTF8, ← String.utf8Encode_toList]
  exact List.toList_data_toByteArray

theorem isUtf8_ofString (s : String) : (ofString s).isUtf8 = true := by
  rw [ofString_eq_ofChars]
  exact isUtf8_ofChars s.toList

end Text

namespace Text

/-! ## Runs of digits -/

/-- At least one byte, and nothing but decimal digits. -/
structure Digits (t : Text) : Prop where
  nonempty : t ≠ []
  all : ∀ b ∈ t, isDigit b = true

theorem Digits.append {s t : Text} (first : Digits s) (second : ∀ b ∈ t, isDigit b = true) : Digits (s ++ t) :=
  ⟨by simp [first.nonempty], List.forall_mem_append.2 ⟨first.all, second⟩⟩

/-- A digit is no sign, point or mark of an exponent. -/
theorem ne_of_isDigit {b c : UInt8} (digit : isDigit b = true) (other : isDigit c = false) : b ≠ c := by
  rintro rfl
  rw [digit] at other
  cases other

theorem Digits.ascii {t : Text} (digits : Digits t) : t.Ascii := by
  intro b mem
  have digit := digits.all b mem
  rw [isDigit, Bool.and_eq_true] at digit
  exact UInt8.lt_of_le_of_lt (of_decide_eq_true digit.2) (by decide)

end Text

namespace Json

open Text

/-! ## Literals -/

/-- The part of a number before the point: no zero leads but one alone. -/
inductive Whole : Text → Prop
  | zero : Whole [0x30]
  | digits {t : Text} (digits : Digits t) (lead : t.head? ≠ some 0x30) : Whole t

/-- The part of a number from the point on. -/
inductive Fraction : Text → Prop
  | none : Fraction []
  | digits {t : Text} (digits : Digits t) : Fraction (0x2E :: t)

/-- The exponent of a number with its mark and sign. -/
inductive Exponent : Text → Prop
  | none : Exponent []
  | digits {mark : UInt8} {sign t : Text} (marks : mark = 0x65 ∨ mark = 0x45)
      (signs : sign = [] ∨ sign = [0x2B] ∨ sign = [0x2D]) (digits : Digits t) : Exponent (mark :: (sign ++ t))

/-- The literal of a number without its sign. -/
inductive Magnitude : Text → Prop
  | intro {w f e : Text} (whole : Whole w) (fraction : Fraction f) (exponent : Exponent e) : Magnitude (w ++ f ++ e)

/-- The literal of a number. -/
inductive Numeral : Text → Prop
  | unsigned {t : Text} (magnitude : Magnitude t) : Numeral t
  | negative {t : Text} (magnitude : Magnitude t) : Numeral (0x2D :: t)

theorem Whole.isDigits {t : Text} (whole : Whole t) : Digits t := by
  cases whole with
  | zero => exact ⟨by simp, List.forall_mem_singleton.2 rfl⟩
  | digits digits => exact digits

theorem Magnitude.ascii {t : Text} (magnitude : Magnitude t) : t.Ascii := by
  cases magnitude with
  | intro whole fraction exponent =>
    refine (whole.isDigits.ascii.append ?_).append ?_
    · cases fraction with
      | none => exact List.forall_mem_nil _
      | digits digits => exact .cons (by decide) digits.ascii
    · cases exponent with
      | none => exact List.forall_mem_nil _
      | digits marks signs digits =>
        refine .cons ?_ (.append ?_ digits.ascii)
        · rcases marks with rfl | rfl <;> decide
        · rcases signs with rfl | rfl | rfl <;> simp [Ascii]

theorem Numeral.isUtf8 {t : Text} (numeral : Numeral t) : t.isUtf8 = true := by
  cases numeral with
  | unsigned magnitude => exact isUtf8_of_ascii magnitude.ascii
  | negative magnitude => exact isUtf8_of_ascii (.cons (by decide) magnitude.ascii)

theorem takeDigits_digits {s t r : Text} (taken : takeDigits s = some (t, r)) : Digits t ∧ t.head? = s.head? := by
  unfold takeDigits at taken
  simp only at taken
  split at taken
  case isTrue => cases taken
  case isFalse nonempty =>
    cases taken
    refine ⟨⟨by simpa using nonempty, List.all_eq_true.1 List.all_takeWhile⟩, ?_⟩
    cases s with
    | nil => rfl
    | cons b rest =>
      cases digit : isDigit b with
      | true => simp [digit]
      | false => simp [digit] at nonempty

theorem takeWhole_whole {s t r : Text} (taken : takeWhole s = some (t, r)) : Whole t := by
  unfold takeWhole at taken
  split at taken
  case h_1 =>
    cases taken
    exact .zero
  case h_2 other =>
    obtain ⟨digits, lead⟩ := takeDigits_digits taken
    refine .digits digits ?_
    rw [lead]
    intro zero
    obtain ⟨rest, rfl⟩ := List.head?_eq_some_iff.1 zero
    exact other rest rfl

theorem takeFraction_fraction {s t r : Text} (taken : takeFraction s = some (t, r)) : Fraction t := by
  unfold takeFraction at taken
  split at taken
  · obtain ⟨_, digits, same⟩ := Option.map_eq_some_iff.1 taken
    cases same
    exact .digits (takeDigits_digits digits).1
  · cases taken
    exact .none

theorem takeExponent_exponent {s t r : Text} (taken : takeExponent s = some (t, r)) : Exponent t := by
  unfold takeExponent at taken
  split at taken
  case h_1 b rest =>
    split at taken
    case isTrue mark =>
      split at taken <;> obtain ⟨_, digits, same⟩ := Option.map_eq_some_iff.1 taken <;> cases same
      · exact @Exponent.digits b [0x2B] _ mark (by simp) (takeDigits_digits digits).1
      · exact @Exponent.digits b [0x2D] _ mark (by simp) (takeDigits_digits digits).1
      · exact @Exponent.digits b [] _ mark (by simp) (takeDigits_digits digits).1
    case isFalse =>
      cases taken
      exact .none
  case h_2 =>
    cases taken
    exact .none

theorem takeMagnitude_magnitude {s t r : Text} (taken : takeMagnitude s = some (t, r)) : Magnitude t := by
  unfold takeMagnitude at taken
  obtain ⟨⟨whole, s₁⟩, hw, taken⟩ := Option.bind_eq_some_iff.1 taken
  obtain ⟨⟨fraction, s₂⟩, hf, taken⟩ := Option.bind_eq_some_iff.1 taken
  obtain ⟨⟨exponent, s₃⟩, he, taken⟩ := Option.bind_eq_some_iff.1 taken
  cases taken
  exact .intro (takeWhole_whole hw) (takeFraction_fraction hf) (takeExponent_exponent he)

/-! ## Strings and numbers of a document -/

/-- Are all strings and keys of the value UTF-8, and all number literals as the grammar has them? -/
inductive Clean : Json → Prop
  | null : Clean .null
  | bool (b : Bool) : Clean (.bool b)
  | number {t : Text} (numeral : Numeral t) : Clean (.number t)
  | string {t : Text} (utf8 : t.isUtf8 = true) : Clean (.string t)
  | array {items : List Json} (values : ∀ v ∈ items, Clean v) : Clean (.array items)
  | object {members : List (Text × Json)} (keys : ∀ m ∈ members, m.1.isUtf8 = true)
      (values : ∀ m ∈ members, Clean m.2) : Clean (.object members)

/-- A token that is a value holds clean text only. -/
def Token.Clean : Token → Prop
  | .scalar v => v.Clean
  | _ => True

theorem takeWord_clean {word s r : Text} {v : Json} {token : Token} (clean : v.Clean)
    (next : takeWord word v s = some (token, r)) : token.Clean := by
  unfold takeWord at next
  split at next
  · cases next
    exact clean
  · cases next

theorem tokenAt_clean {b : UInt8} {s r : Text} {token : Token}
    (next : tokenAt b s = some (token, r)) : token.Clean := by
  unfold tokenAt at next
  split at next
  case h_7 =>
    obtain ⟨_, _, same⟩ := Option.map_eq_some_iff.1 next
    cases same
    exact .string (Text.isUtf8_repaired _)
  case h_8 => exact takeWord_clean .null next
  case h_9 => exact takeWord_clean (.bool true) next
  case h_10 => exact takeWord_clean (.bool false) next
  case h_11 =>
    obtain ⟨_, digits, same⟩ := Option.map_eq_some_iff.1 next
    cases same
    exact .number (.negative (takeMagnitude_magnitude digits))
  case h_12 =>
    split at next
    · obtain ⟨_, digits, same⟩ := Option.map_eq_some_iff.1 next
      cases same
      exact .number (.unsigned (takeMagnitude_magnitude digits))
    · cases next
  all_goals
    -- The rest is punctuation.
    cases next
    trivial

theorem nextToken_clean {s r : Text} {token : Token} (next : nextToken s = some (token, r)) :
    token.Clean := by
  induction s with
  | nil => cases next
  | cons b rest ih =>
    unfold nextToken at next
    split at next
    · exact ih next
    · exact tokenAt_clean next

/-- The parts that an open frame has so far are clean. -/
def Frame.Clean : Frame → Prop
  | .array items => (Json.array items).Clean
  | .object members => (Json.object members).Clean
  | .member members key => key.isUtf8 = true ∧ (Json.object members).Clean

theorem Clean.reverseItems {items : List Json} (clean : (Json.array items).Clean) :
    (Json.array items.reverse).Clean := by
  cases clean with
  | array values => exact .array fun v mem => values v (List.mem_reverse.1 mem)

theorem Clean.reverseMembers {members : List (Text × Json)}
    (clean : (Json.object members).Clean) : (Json.object members.reverse).Clean := by
  cases clean with
  | object keys values =>
    exact .object (fun m mem => keys m (List.mem_reverse.1 mem))
      fun m mem => values m (List.mem_reverse.1 mem)

/-- A clean value goes into its frame, or is the whole document. -/
theorem place_clean {v : Json} {frames : List Frame} (value : v.Clean)
    (around : ∀ f ∈ frames, f.Clean) :
    (∀ w, place v frames = .inl w → w.Clean) ∧
      ∀ placed, place v frames = .inr placed → ∀ f ∈ placed, f.Clean := by
  match frames, around with
  | [], _ =>
    constructor
    · intro w same
      cases same
      exact value
    · intro placed same
      cases same
  | .array items :: outer, around =>
    obtain ⟨inner, outer⟩ := List.forall_mem_cons.1 around
    refine ⟨nofun, fun placed same => ?_⟩
    cases same
    cases inner with
    | array values =>
      exact List.forall_mem_cons.2 ⟨.array (List.forall_mem_cons.2 ⟨value, values⟩), outer⟩
  | .member members key :: outer, around =>
    obtain ⟨⟨utf8, inner⟩, outer⟩ := List.forall_mem_cons.1 around
    refine ⟨nofun, fun placed same => ?_⟩
    cases same
    cases inner with
    | object keys values =>
      refine List.forall_mem_cons.2 ⟨.object ?_ ?_, outer⟩
      · exact List.forall_mem_cons.2 ⟨utf8, keys⟩
      · exact List.forall_mem_cons.2 ⟨value, values⟩
  | .object members :: outer, around =>
    refine ⟨nofun, fun placed same => ?_⟩
    cases same
    exact around

/-- A finished value is the document, or goes into its frame and reading goes on. -/
theorem clean_of_placed {w v : Json} {frames : List Frame} {rest r : Text} {result : Option (Json × Text)}
    (value : w.Clean) (around : ∀ f ∈ frames, f.Clean)
    (next : ∀ inner : List Frame, (∀ f ∈ inner, f.Clean) → readOn inner .separator rest = some (v, r) → v.Clean)
    (whole : ∀ x, place w frames = .inl x → result = some (x, rest))
    (inside : ∀ inner, place w frames = .inr inner → result = readOn inner .separator rest)
    (read : result = some (v, r)) : v.Clean := by
  obtain ⟨document, frame⟩ := place_clean value around
  cases placed : place w frames with
  | inl x =>
    rw [whole x placed] at read
    cases read
    exact document _ placed
  | inr inner =>
    rw [inside inner placed] at read
    exact next inner (frame inner placed) read

/-- What is read next keeps the open frames clean, so the document is. -/
theorem readOn_clean {frames : List Frame} {expected : Expected} {s r : Text} {v : Json}
    (around : ∀ f ∈ frames, f.Clean) (read : readOn frames expected s = some (v, r)) :
    v.Clean := by
  fun_induction readOn frames expected s with
  | case1 => cases read
  | case2 s rest _ outer _ _ _ _ ih | case3 s rest _ outer _ _ _ _ ih => exact ih around read
  | case4 s rest finish items outer _ _ _ ih | case6 s rest finish items outer _ _ _ ih =>
    obtain ⟨inner, outer⟩ := List.forall_mem_cons.1 around
    exact clean_of_placed inner.reverseItems outer ih (fun _ placed => by simp only [finish, placed])
      (fun _ placed => by simp only [finish, placed]) read
  | case5 s rest finish members outer _ _ _ ih | case7 s rest finish members outer _ _ _ ih =>
    obtain ⟨inner, outer⟩ := List.forall_mem_cons.1 around
    exact clean_of_placed inner.reverseMembers outer ih (fun _ placed => by simp only [finish, placed])
      (fun _ placed => by simp only [finish, placed]) read
  | case8 s rest key members outer _ next _ _ ih | case9 s rest key members outer _ next _ _ ih =>
    obtain ⟨inner, outer⟩ := List.forall_mem_cons.1 around
    have utf8 : key.isUtf8 = true := by
      cases nextToken_clean next with
      | string utf8 => exact utf8
    exact ih (List.forall_mem_cons.2 ⟨⟨utf8, inner⟩, outer⟩) read
  | case10 frames s rest _ _ _ _ ih => exact ih around read
  | case11 frames s rest finish w _ next _ ih | case12 frames s rest finish w _ next _ ih =>
    exact clean_of_placed (nextToken_clean next) around ih (fun _ placed => by simp only [finish, placed])
      (fun _ placed => by simp only [finish, placed]) read
  | case13 | case15 | case17 | case19 =>
    rw [if_pos ‹_›] at read
    cases read
  | case14 frames s rest _ shallow _ _ _ ih | case16 frames s rest _ shallow _ _ _ ih =>
    rw [if_neg shallow] at read
    exact ih (List.forall_mem_cons.2 ⟨.array (List.forall_mem_nil _), around⟩) read
  | case18 frames s rest _ shallow _ _ _ ih | case20 frames s rest _ shallow _ _ _ ih =>
    rw [if_neg shallow] at read
    exact ih (List.forall_mem_cons.2
      ⟨.object (List.forall_mem_nil _) (List.forall_mem_nil _), around⟩) read
  | case21 => cases read

/-- Every text of a document that was read is UTF-8. -/
theorem read?_clean {s : Text} {v : Json} (read : read? s = some v) : v.Clean := by
  obtain ⟨⟨w, rest⟩, first, same⟩ := Option.map_eq_some_iff.1 read
  cases same
  have whole : readOn [] .value s = some (w, rest) := by
    unfold readFirst at first
    split at first
    case h_1 | h_2 =>
      rename_i found
      rw [found, first]
    case h_3 found =>
      split at first
      · rw [found, first]
      · cases first
    case h_4 => cases first
  exact readOn_clean (List.forall_mem_nil _) whole

end Json

end CilAudit
