import CilAudit.Diagram.SignalPaths
import CilAudit.Proofs.BodyForms
import CilAudit.Proofs.WrittenDocuments
import CilAudit.Proofs.WrittenNumbers

/-!
# Which methods share a node

The name of a node spells out the name of its method: a letter, a digit or an underscore stands for itself,
and any other character is an underscore and the digits of its number. The underscore is not told apart from
the one that announces a number, and numbers have four digits or more, so a spelling does not say where a
character ends. Two methods share a node just if they can be read from the same spelling, one character of
the one being the beginning of a character of the other.
-/

set_option autoImplicit false

namespace CilAudit

namespace Text

/-! ## Characters of ASCII texts -/

theorem chars_ofChars (cs : List Char) : (ofChars cs).chars = cs := by
  rw [chars, pieces_ofChars, List.map_map]
  exact List.map_id cs

theorem ofChars_injective : Function.Injective ofChars :=
  Function.LeftInverse.injective chars_ofChars

theorem chars_of_ascii {t : Text} (ascii : Ascii t) : t.chars = t.map fun b => Char.ofNat b.toNat := by
  induction t with
  | nil => rw [chars, pieces, List.map_nil, List.map_nil]
  | cons b rest ih =>
    obtain ⟨low, tail⟩ := List.forall_mem_cons.1 ascii
    rw [List.map_cons, ← ih tail, chars, pieces, codePointAt?_of_lt rest low]
    rfl

theorem ofChars_flatMap (f : Char → List Char) (cs : List Char) :
    ofChars (cs.flatMap f) = cs.flatMap fun c => ofChars (f c) := by
  simp only [ofChars, List.flatMap_assoc]

/-! ## Hexadecimal numerals -/

theorem hex_ofNat (width n : Nat) : hex width (n : Int) = padZeros width (digitsIn 16 n) := by
  rw [hex, if_neg (by omega), Int.toNat_natCast]

theorem digitsIn_of_ge {n : Nat} (large : 16 ≤ n) : digitsIn 16 n = digitsIn 16 (n / 16) ++ [digit (n % 16)] := by
  rw [digitsIn, digitsAnd, dif_pos ⟨by decide, large⟩]
  exact digitsAnd_eq_append 16 (n / 16) _

theorem digitsIn_of_lt {n : Nat} (small : n < 16) : digitsIn 16 n = [digit n] := by
  rw [digitsIn, digitsAnd, dif_neg (by omega), Nat.mod_eq_of_lt small]

theorem hexNumeral_digitsIn (n : Nat) : HexNumeral n (digitsIn 16 n) := by
  induction n using Nat.strongRecOn with
  | ind n ih =>
    rcases Nat.lt_or_ge n 16 with small | large
    · rw [digitsIn_of_lt small]
      exact .one (hexDigit_digit small)
    · have whole := (ih (n / 16) (by omega)).more (hexDigit_digit (Nat.mod_lt n (by decide)))
      rw [Nat.div_add_mod' n 16, ← digitsIn_of_ge large] at whole
      exact whole

theorem hexNumeral_zero {n : Nat} {t : Text} (numeral : HexNumeral n t) : HexNumeral n (0x30 :: t) := by
  induction numeral with
  | @one d b digit =>
    have front : HexNumeral 0 [0x30] := .one (hexDigit_digit (by decide))
    simpa using front.more digit
  | more _ digit ih => exact ih.more digit

theorem hexNumeral_hex (width n : Nat) : HexNumeral n (hex width n) := by
  rw [hex_ofNat, padZeros]
  induction width - (digitsIn 16 n).length with
  | zero => exact hexNumeral_digitsIn n
  | succ k ih => exact hexNumeral_zero ih

/-- A number is told by its numeral. -/
theorem hex_inj {width m n : Nat} (same : hex width (m : Int) = hex width n) : m = n := by
  have first := hexNumeral_iff.1 (hexNumeral_hex width m)
  rw [same, hexNumeral_iff.1 (hexNumeral_hex width n)] at first
  exact (Option.some.inj first).symm

theorem length_digitsIn_le (k : Nat) : ∀ {n : Nat}, n < 16 ^ (k + 1) → (digitsIn 16 n).length ≤ k + 1 := by
  induction k with
  | zero =>
    intro n small
    rw [digitsIn_of_lt (by simpa using small)]
    exact Nat.le_refl 1
  | succ k ih =>
    intro n small
    rcases Nat.lt_or_ge n 16 with one | large
    · rw [digitsIn_of_lt one]
      exact Nat.succ_le_succ (Nat.zero_le _)
    · have shorter := ih (n := n / 16) (by rw [Nat.pow_succ] at small; omega)
      rw [digitsIn_of_ge large, List.length_append, List.length_singleton]
      omega

theorem length_hex_ge (width n : Nat) : width ≤ (hex width (n : Int)).length := by
  rw [hex_ofNat, padZeros, List.length_append, List.length_replicate]
  omega

theorem length_hex {k n : Nat} (small : n < 16 ^ (k + 1)) : (hex (k + 1) (n : Int)).length = k + 1 := by
  have short := length_digitsIn_le k small
  rw [hex_ofNat, padZeros, List.length_append, List.length_replicate]
  omega

end Text

theorem exists_of_mem_hexNumeral {n : Nat} {t : Text} (numeral : HexNumeral n t) : ∀ b ∈ t, ∃ d, HexDigit d b := by
  induction numeral with
  | one digit => exact List.forall_mem_singleton.2 ⟨_, digit⟩
  | more _ digit ih => exact List.forall_mem_append.2 ⟨ih, List.forall_mem_singleton.2 ⟨_, digit⟩⟩

namespace Diagram

/-! ## Spellings -/

/-- The digits of the number of a character. -/
def numeral (c : Char) : List Char := (Text.hex 4 c.toNat).chars

/-- What a character is written as in the name of a node. -/
def spelling (c : Char) : List Char := if isIdChar c then [c] else '_' :: numeral c

/-- The characters that only stand for themselves in the name of a node. -/
def IsPlain (c : Char) : Prop := isIdChar c = true ∧ c ≠ '_'

variable {c d : Char} {more v w : List Char}

theorem digit_of_mem_hex {b : UInt8} (member : b ∈ Text.hex 4 c.toNat) :
    b < 0x80 ∧ IsPlain (Char.ofNat b.toNat) := by
  have digits : ∀ d < 16, ∀ b ∈ Text.digit d :: Text.upperAscii [Text.digit d],
      b < 0x80 ∧ isIdChar (Char.ofNat b.toNat) = true ∧ Char.ofNat b.toNat ≠ '_' := by decide +kernel
  obtain ⟨d, small, spelled⟩ := exists_of_mem_hexNumeral (Text.hexNumeral_hex 4 c.toNat) b member
  exact digits d small b spelled

theorem ascii_hex (c : Char) : Text.Ascii (Text.hex 4 c.toNat) := fun _ member => (digit_of_mem_hex member).1

theorem isPlain_of_mem_numeral {x : Char} (member : x ∈ numeral c) : IsPlain x := by
  rw [numeral, Text.chars_of_ascii (ascii_hex c)] at member
  obtain ⟨b, digit, rfl⟩ := List.mem_map.1 member
  exact (digit_of_mem_hex digit).2

theorem ofChars_numeral (c : Char) : Text.ofChars (numeral c) = Text.hex 4 c.toNat :=
  Text.repaired_of_utf8 (Text.isUtf8_of_ascii (ascii_hex c))

theorem length_numeral (c : Char) : (numeral c).length = (Text.hex 4 c.toNat).length := by
  rw [numeral, Text.chars_of_ascii (ascii_hex c), List.length_map]

theorem numeral_ne_nil (c : Char) : numeral c ≠ [] := by
  intro empty
  have long := Text.length_hex_ge 4 c.toNat
  rw [← length_numeral, empty, List.length_nil] at long
  omega

theorem numeral_injective : Function.Injective numeral := by
  intro c d same
  have texts : Text.hex 4 c.toNat = Text.hex 4 d.toNat := by rw [← ofChars_numeral, same, ofChars_numeral]
  exact Char.toNat_inj.1 (Text.hex_inj texts)

theorem idChar_eq (c : Char) : idChar c = Text.ofChars (spelling c) := by
  rw [idChar, spelling]
  split
  case isTrue => rfl
  case isFalse =>
    have underscore : Text.ofString "_" = String.utf8EncodeChar '_' := by decide +kernel
    rw [underscore, ← ofChars_numeral, Text.ofChars, Text.ofChars, List.flatMap_cons]

theorem nodeId_eq (name : Text) : nodeId name = "n_" ++ Text.ofChars (name.chars.flatMap spelling) := by
  rw [nodeId, Text.ofChars_flatMap, funext idChar_eq]

theorem nodeId_eq_iff {a b : Text} :
    nodeId a = nodeId b ↔ a.chars.flatMap spelling = b.chars.flatMap spelling := by
  rw [nodeId_eq, nodeId_eq, List.append_cancel_left_eq]
  exact Text.ofChars_injective.eq_iff

theorem spelling_of_plain (plain : IsPlain c) : spelling c = [c] := if_pos plain.1

theorem flatMap_spelling_of_plain (plain : ∀ x ∈ more, IsPlain x) : more.flatMap spelling = more := by
  induction more with
  | nil => rfl
  | cons x more ih =>
    obtain ⟨head, tail⟩ := List.forall_mem_cons.1 plain
    rw [List.flatMap_cons, spelling_of_plain head, ih tail, List.singleton_append]

/-- A spelling starts with its character or with an underscore. -/
theorem spelling_cases (c : Char) : spelling c = [c] ∨ isIdChar c = false ∧ spelling c = '_' :: numeral c := by
  rw [spelling]
  split
  case isTrue => exact .inl rfl
  case isFalse other => exact .inr ⟨Bool.eq_false_iff.2 other, rfl⟩

theorem spelling_ne_nil (c : Char) : spelling c ≠ [] := by
  rcases spelling_cases c with same | ⟨-, same⟩ <;> simp [same]

/-- Plain characters at the beginning of a spelling are those of the name. -/
theorem exists_of_flatMap_spelling (plain : ∀ x ∈ more, IsPlain x) {t : List Char}
    (same : v.flatMap spelling = more ++ t) : ∃ v', v = more ++ v' ∧ v'.flatMap spelling = t := by
  induction more generalizing v with
  | nil => exact ⟨v, rfl, same⟩
  | cons x more ih =>
    obtain ⟨head, tail⟩ := List.forall_mem_cons.1 plain
    cases v with
    | nil => cases same
    | cons c v =>
      rw [List.flatMap_cons] at same
      rcases spelling_cases c with itself | ⟨-, escape⟩
      · rw [itself] at same
        obtain ⟨rfl, rest⟩ := List.cons.inj same
        obtain ⟨v', rfl, found⟩ := ih tail rest
        exact ⟨v', rfl, found⟩
      · rw [escape] at same
        exact absurd (List.cons.inj same).1.symm head.2

/-! ## Names that share a spelling -/

/-- The spelling of one character begins that of another: an underscore stands before the digits of a number, or the
digits of a number are the first digits of a longer one. What is left of the longer spelling is in the middle. -/
inductive Opens : Char → List Char → Char → Prop where
  | underscore {d : Char} (escape : isIdChar d = false) : Opens '_' (numeral d) d
  | number {c d : Char} {more : List Char} (short : isIdChar c = false) (long : isIdChar d = false) (some : more ≠ [])
      (digits : numeral d = numeral c ++ more) : Opens c more d

/-- Two names are read from one spelling. They go on with the same character, or one of them with the first part of
what a character of the other is written as, and then with the rest of it. -/
inductive Merged : List Char → List Char → Prop where
  | nil : Merged [] []
  | same (c : Char) {v w : List Char} (rest : Merged v w) : Merged (c :: v) (c :: w)
  | left {c d : Char} {more v w : List Char} (opens : Opens c more d) (rest : Merged v w) :
      Merged (c :: (more ++ v)) (d :: w)
  | right {c d : Char} {more v w : List Char} (opens : Opens c more d) (rest : Merged v w) :
      Merged (d :: v) (c :: (more ++ w))

theorem opens_iff : Opens c more d ↔ more ≠ [] ∧ spelling d = spelling c ++ more := by
  constructor
  · rintro (⟨escape⟩ | ⟨short, long, some, digits⟩)
    · have itself : spelling '_' = ['_'] := rfl
      exact ⟨numeral_ne_nil d, by rw [itself]; simp [spelling, escape]⟩
    · exact ⟨some, by simp [spelling, short, long, digits]⟩
  · rintro ⟨some, longer⟩
    rcases spelling_cases d with itself | ⟨escape, written⟩
    · rw [itself] at longer
      obtain ⟨x, rest, begins⟩ := List.exists_cons_of_ne_nil (spelling_ne_nil c)
      rw [begins] at longer
      exact absurd (List.append_eq_nil_iff.1 (List.cons.inj longer).2.symm).2 some
    · rw [written] at longer
      rcases spelling_cases c with itself | ⟨short, begins⟩
      · rw [itself] at longer
        obtain ⟨rfl, rfl⟩ := List.cons.inj longer
        exact .underscore escape
      · rw [begins] at longer
        exact .number short escape some (List.cons.inj longer).2

theorem Opens.plain (opens : Opens c more d) : ∀ x ∈ more, IsPlain x := by
  cases opens with
  | underscore => exact fun x member => isPlain_of_mem_numeral member
  | number _ _ _ digits =>
    intro x member
    exact isPlain_of_mem_numeral (digits ▸ List.mem_append_right _ member)

theorem spelling_injective : Function.Injective spelling := by
  intro c d same
  rcases spelling_cases c with first | ⟨-, first⟩ <;> rcases spelling_cases d with second | ⟨-, second⟩ <;>
    rw [first, second] at same
  · exact (List.cons.inj same).1
  · exact absurd (List.cons.inj same).2.symm (numeral_ne_nil d)
  · exact absurd (List.cons.inj same).2 (numeral_ne_nil c)
  · exact numeral_injective (List.cons.inj same).2

/-- Where two spellings begin the same text, the characters are the same or one opens the other. -/
theorem eq_or_opens {s t : List Char} (same : spelling c ++ s = spelling d ++ t) :
    c = d ∨ ∃ more, Opens c more d ∧ s = more ++ t ∨ Opens d more c ∧ t = more ++ s := by
  rcases List.append_eq_append_iff.1 same with ⟨more, longer, rest⟩ | ⟨more, longer, rest⟩
  · by_cases none : more = []
    · subst none
      rw [List.append_nil] at longer
      exact .inl (spelling_injective longer.symm)
    · exact .inr ⟨more, .inl ⟨opens_iff.2 ⟨none, longer⟩, rest⟩⟩
  · by_cases none : more = []
    · subst none
      rw [List.append_nil] at longer
      exact .inl (spelling_injective longer)
    · exact .inr ⟨more, .inr ⟨opens_iff.2 ⟨none, longer⟩, rest⟩⟩

theorem Merged.flatMap_eq (merged : Merged v w) : v.flatMap spelling = w.flatMap spelling := by
  induction merged with
  | nil => rfl
  | same c _ ih => rw [List.flatMap_cons, List.flatMap_cons, ih]
  | left opens _ ih =>
    rw [List.flatMap_cons, List.flatMap_cons, List.flatMap_append, flatMap_spelling_of_plain opens.plain, ih,
      (opens_iff.1 opens).2, List.append_assoc]
  | right opens _ ih =>
    rw [List.flatMap_cons, List.flatMap_cons, List.flatMap_append, flatMap_spelling_of_plain opens.plain, ← ih,
      (opens_iff.1 opens).2, List.append_assoc]

/-- The names are compared from the front; what one character of the longer spelling leaves over is plain, so that it
is part of the other name. -/
theorem merged_of_flatMap_eq : (v w : List Char) → v.flatMap spelling = w.flatMap spelling → Merged v w
  | [], [], _ => .nil
  | [], d :: _, same => absurd (List.append_eq_nil_iff.1 same.symm).1 (spelling_ne_nil d)
  | c :: _, [], same => absurd (List.append_eq_nil_iff.1 same).1 (spelling_ne_nil c)
  | c :: v, d :: w, same => by
    rw [List.flatMap_cons, List.flatMap_cons] at same
    rcases eq_or_opens same with rfl | ⟨more, ⟨opens, rest⟩ | ⟨opens, rest⟩⟩
    · exact .same c (merged_of_flatMap_eq v w (List.append_cancel_left same))
    · obtain ⟨v', split, found⟩ := exists_of_flatMap_spelling opens.plain rest
      have shorter : v'.length ≤ v.length := by simp [split]
      rw [split]
      exact .left opens (merged_of_flatMap_eq v' w found)
    · obtain ⟨w', split, found⟩ := exists_of_flatMap_spelling opens.plain rest
      have shorter : w'.length ≤ w.length := by simp [split]
      rw [split]
      exact .right opens (merged_of_flatMap_eq v w' found.symm)
termination_by v w => v.length + w.length
decreasing_by all_goals simp only [List.length_cons]; omega

/-- The character is no underscore, and four digits are enough for its number. -/
def IsNarrow (c : Char) : Prop := c ≠ '_' ∧ c.toNat ≤ 0xFFFF

theorem Opens.not_narrow (opens : Opens c more d) (first : IsNarrow c) (second : IsNarrow d) : False := by
  cases opens with
  | underscore => exact first.1 rfl
  | number _ _ some digits =>
    have long := congrArg List.length digits
    have four : (Text.hex 4 d.toNat).length = 4 := Text.length_hex (k := 3) (by have := second.2; omega)
    have least := Text.length_hex_ge 4 c.toNat
    have positive := List.length_pos_iff.2 some
    rw [List.length_append, length_numeral, length_numeral] at long
    omega

theorem Merged.eq_of_narrow (merged : Merged v w) (first : ∀ c ∈ v, IsNarrow c) (second : ∀ c ∈ w, IsNarrow c) :
    v = w := by
  induction merged with
  | nil => rfl
  | same c _ ih =>
    rw [ih (List.forall_mem_cons.1 first).2 (List.forall_mem_cons.1 second).2]
  | left opens =>
    exact (opens.not_narrow (List.forall_mem_cons.1 first).1 (List.forall_mem_cons.1 second).1).elim
  | right opens =>
    exact (opens.not_narrow (List.forall_mem_cons.1 second).1 (List.forall_mem_cons.1 first).1).elim

theorem eq_of_chars_eq {a b : Text} (first : a.isUtf8 = true) (second : b.isUtf8 = true) (same : a.chars = b.chars) :
    a = b := by
  rw [← Text.repaired_of_utf8 first, ← Text.repaired_of_utf8 second, Text.repaired, Text.repaired, same]

theorem nodeId_ne_leafId (name : Text) (n : Nat) : nodeId name ≠ leafId n := by
  have first : (Text.ofString "n_").head? = some 0x6E := by decide +kernel
  have second : (Text.ofString "str_").head? = some 0x73 := by decide +kernel
  intro same
  have heads := congrArg List.head? same
  rw [nodeId, leafId, List.head?_append, List.head?_append, first, second] at heads
  cases heads

/-- **Methods share a node just if their names are read from one spelling.** For names in UTF-8 without an underscore
and without a character beyond four digits this means that they are equal. No method has the node of a literal. -/
theorem nodeId_eq_iff_merged {a b : Text} (first : a.isUtf8 = true) (second : b.isUtf8 = true) :
    (nodeId a = nodeId b ↔ Merged a.chars b.chars) ∧
    ((∀ c ∈ a.chars ++ b.chars, IsNarrow c) → (nodeId a = nodeId b ↔ a = b)) ∧
    ∀ n, nodeId a ≠ leafId n := by
  have merged : nodeId a = nodeId b ↔ Merged a.chars b.chars :=
    nodeId_eq_iff.trans ⟨merged_of_flatMap_eq _ _, Merged.flatMap_eq⟩
  refine ⟨merged, fun narrow => ⟨fun same => ?_, congrArg nodeId⟩, nodeId_ne_leafId a⟩
  obtain ⟨left, right⟩ := List.forall_mem_append.1 narrow
  exact eq_of_chars_eq first second ((merged.1 same).eq_of_narrow left right)

/-- A character with four digits and a digit, and a character with five digits. -/
theorem nodeId_eq_iff_merged_wide :
    (Text.ofChars ['ሴ', '5']).isUtf8 = true ∧ (Text.ofChars ['𒍅']).isUtf8 = true ∧
      nodeId (Text.ofChars ['ሴ', '5']) = nodeId (Text.ofChars ['𒍅']) := by
  have first := Text.isUtf8_ofChars ['ሴ', '5']
  have second := Text.isUtf8_ofChars ['𒍅']
  refine ⟨first, second, (nodeId_eq_iff_merged first second).1.2 ?_⟩
  rw [Text.chars_ofChars, Text.chars_ofChars]
  have opens : Opens 'ሴ' ['5'] '𒍅' := opens_iff.2 (by decide +kernel)
  exact .left opens .nil

/-- A point between two letters, and the same letters with the number of the point between them. -/
theorem nodeId_collides :
    (Text.ofString "a.b").isUtf8 = true ∧ (Text.ofString "a_002eb").isUtf8 = true ∧
      Text.ofString "a.b" ≠ Text.ofString "a_002eb" ∧ nodeId "a.b" = nodeId "a_002eb" := by
  refine ⟨Text.isUtf8_ofString _, Text.isUtf8_ofString _, by decide +kernel, ?_⟩
  rw [nodeId_eq_iff, Text.ofString_eq_ofChars, Text.ofString_eq_ofChars, Text.chars_ofChars, Text.chars_ofChars]
  decide +kernel

end Diagram

end CilAudit
