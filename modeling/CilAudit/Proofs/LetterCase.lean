import CilAudit.Signal.Category
import Mathlib.Data.List.Forall2

/-!
# Letter case in the classification of literals

To write some ASCII letters of a literal in the other case changes neither where its characters begin
nor what they are, that case apart. Most tests see the literal with case folded away, and so see no
change at all. The search for addresses looks at the characters as they are; it asks for digits, points
and the boundaries of words, and none of these has a case.
-/

set_option autoImplicit false

namespace CilAudit

theorem map_eq_of_forall₂ {α β : Type} {R : α → α → Prop} {f : α → β} {l l' : List α} (related : List.Forall₂ R l l')
    (same : ∀ a b, R a b → f b = f a) : l'.map f = l.map f := by
  induction related with
  | nil => rfl
  | cons first _ ih => rw [List.map_cons, List.map_cons, same _ _ first, ih]

theorem isEmpty_eq_of_forall₂ {α : Type} {R : α → α → Prop} {l l' : List α} (related : List.Forall₂ R l l') :
    l'.isEmpty = l.isEmpty := by
  cases related <;> rfl

namespace Text

/-! ## Bytes and characters -/

/-- A letter of ASCII in the other case; every other byte as it is. -/
def otherCase (b : UInt8) : UInt8 :=
  if 0x41 ≤ b ∧ b ≤ 0x5A then b + 0x20 else if 0x61 ≤ b ∧ b ≤ 0x7A then b - 0x20 else b

/-- The texts differ in nothing but the case of ASCII letters. -/
def Recased : Text → Text → Prop := List.Forall₂ fun b c => c = b ∨ c = otherCase b

instance (s t : Text) : Decidable (Recased s t) := inferInstanceAs (Decidable (List.Forall₂ _ s t))

/-- The same character, or the same letter of ASCII. -/
def SameLetter (c d : Char) : Prop := d = c ∨ (c.isAlpha = true ∧ d.isAlpha = true ∧ d.toLower = c.toLower)

instance (c d : Char) : Decidable (SameLetter c d) := inferInstanceAs (Decidable (_ ∨ _))

section Bytes

variable {b c : UInt8}

theorem otherCase_of_high (high : ¬ b < 0x80) : otherCase b = b := by
  unfold otherCase
  rw [if_neg, if_neg] <;> (rintro ⟨-, most⟩; grind)

theorem eq_of_high (high : ¬ b < 0x80) (recased : c = b ∨ c = otherCase b) : c = b := by
  rcases recased with same | other
  · exact same
  · rw [other, otherCase_of_high high]

/-- Below 128 a byte is a character, and in the other case the same letter. -/
theorem sameLetter_of_low (low : b < 0x80) (recased : c = b ∨ c = otherCase b) :
    c < 0x80 ∧ SameLetter (Char.ofNat b.toNat) (Char.ofNat c.toNat) := by
  have all : ∀ n < 128, otherCase (UInt8.ofNat n) < 0x80 ∧
      SameLetter (Char.ofNat n) (Char.ofNat (otherCase (UInt8.ofNat n)).toNat) := by
    decide +kernel
  rcases recased with rfl | rfl
  · exact ⟨low, .inl rfl⟩
  · have here := all b.toNat (UInt8.lt_iff_toNat_lt.1 low)
    rwa [UInt8.ofNat_toNat] at here

/-- No letter continues a character. -/
theorem continuation?_recased (recased : c = b ∨ c = otherCase b) : continuation? c = continuation? b := by
  by_cases low : b < 0x80
  · have low' := (sameLetter_of_low low recased).1
    unfold continuation?
    rw [if_neg, if_neg] <;> (rintro ⟨least, -⟩; grind)
  · rw [eq_of_high low recased]

end Bytes

/-- What a byte starts is settled by it and by what continues it. -/
theorem codePointAt?_recased {rest rest' : Text} (recased : Recased rest rest') (b : UInt8) :
    codePointAt? b rest' = codePointAt? b rest := by
  unfold codePointAt?
  -- Up to three bytes are looked at, and of each only whether and how it continues a character.
  cases recased with
  | nil => rfl
  | cons first recased =>
    cases recased with
    | nil => simp only [continuation?_recased first]
    | cons second recased =>
      cases recased with
      | nil => simp only [continuation?_recased first, continuation?_recased second]
      | cons third recased =>
        simp only [continuation?_recased first, continuation?_recased second, continuation?_recased third]

theorem chars_cons_of_some {b : UInt8} {rest : Text} {n taken : Nat} (starts : codePointAt? b rest = some (n, taken)) :
    chars (b :: rest) = Char.ofNat n :: chars (rest.drop taken) := by
  rw [chars, pieces]
  simp only [starts]
  rfl

theorem chars_cons_of_none {b : UInt8} {rest : Text} (stray : codePointAt? b rest = none) :
    chars (b :: rest) = Char.ofNat 0xFFFD :: chars rest := by
  rw [chars, pieces]
  simp only [stray]
  rfl

/-- **Characters of recased texts.** They correspond one to one, and only letters of ASCII differ. -/
theorem Recased.chars {s t : Text} (recased : s.Recased t) : List.Forall₂ SameLetter s.chars t.chars := by
  induction length : s.length using Nat.strongRecOn generalizing s t with
  | _ n ih =>
    cases recased with
    | nil => simp [Text.chars, pieces]
    | @cons b c rest rest' first later =>
      by_cases low : b < 0x80
      · obtain ⟨low', letter⟩ := sameLetter_of_low low first
        have starts (b : UInt8) (rest : Text) (low : b < 0x80) : codePointAt? b rest = some (b.toNat, 0) := by
          simp [codePointAt?, low]
        rw [chars_cons_of_some (starts b rest low), chars_cons_of_some (starts c rest' low')]
        exact .cons letter (ih _ (by simp [← length]) later rfl)
      · obtain rfl : c = b := eq_of_high low first
        have same := codePointAt?_recased later c
        cases starts : codePointAt? c rest with
        | none =>
          rw [chars_cons_of_none starts, chars_cons_of_none (same.trans starts)]
          exact .cons (.inl rfl) (ih _ (by simp [← length]) later rfl)
        | some found =>
          obtain ⟨n, taken⟩ := found
          rw [chars_cons_of_some starts, chars_cons_of_some (same.trans starts)]
          refine .cons (.inl rfl) (ih _ ?_ (List.forall₂_drop taken later) rfl)
          simp only [← length, List.length_drop, List.length_cons]
          omega

/-! ## Case folded away -/

section Letters

variable {c d : Char}

theorem toNat_of_isAlpha (alpha : c.isAlpha = true) : 0x41 ≤ c.toNat ∧ c.toNat < 0x80 := by
  rcases Bool.or_eq_true_iff.1 alpha with upper | lower
  · have range : 0x41 ≤ c.toNat ∧ c.toNat ≤ 0x5A := of_decide_eq_true upper
    omega
  · have least : 0x61 ≤ c.toNat := of_decide_eq_true (Bool.and_eq_true_iff.1 lower).1
    have most : c.toNat ≤ 0x7A := of_decide_eq_true (Bool.and_eq_true_iff.1 lower).2
    omega

theorem SameLetter.foldChar_eq (same : SameLetter c d) : foldChar d = foldChar c := by
  rcases same with rfl | ⟨alpha, alpha', lower⟩
  · rfl
  · have low := toNat_of_isAlpha alpha
    have low' := toNat_of_isAlpha alpha'
    simp only [foldChar]
    rw [if_neg (by omega), if_neg (by omega), if_neg (by omega), if_neg (by omega), lower]

theorem SameLetter.lowerChar_eq (same : SameLetter c d) : lowerChar d = lowerChar c := by
  rcases same with rfl | ⟨alpha, alpha', lower⟩
  · rfl
  · rw [lowerChar, lowerChar, if_pos (toNat_of_isAlpha alpha).2, if_pos (toNat_of_isAlpha alpha').2, lower]

end Letters

variable {s t : Text}

theorem Recased.folded_eq (recased : s.Recased t) : t.chars.map foldChar = s.chars.map foldChar :=
  map_eq_of_forall₂ recased.chars fun _ _ same => same.foldChar_eq

theorem Recased.lower_eq (recased : s.Recased t) : t.lower = s.lower := by
  rw [lower, lower, map_eq_of_forall₂ recased.chars fun _ _ same => same.lowerChar_eq]

end Text

/-! ## Patterns that cannot tell characters apart -/

/-- The same place in two literals whose characters correspond. -/
structure Cursor.Corresponds (R : Char → Char → Prop) (x y : Cursor) : Prop where
  before : Option.Rel R x.before y.before
  rest : List.Forall₂ R x.rest y.rest

namespace Cursor.Corresponds

variable {R : Char → Char → Prop} {x y : Cursor}

theorem step? (h : x.Corresponds R y) {p : Char → Bool} (blind : ∀ c d, R c d → p d = p c) :
    List.Forall₂ (Corresponds R) (x.step? p).toList (y.step? p).toList := by
  obtain ⟨before, rest⟩ := x
  obtain ⟨before', rest'⟩ := y
  cases h.rest with
  | nil => exact .nil
  | @cons c d rest rest' first later =>
    simp only [Cursor.step?, blind c d first]
    split
    · exact .cons ⟨.some first, later⟩ .nil
    · exact .nil

theorem skip? (h : x.Corresponds R y) {word : List Char}
    (blind : ∀ letter ∈ word, ∀ c d, R c d → (d = letter ↔ c = letter)) :
    List.Forall₂ (Corresponds R) (x.skip? word).toList (y.skip? word).toList := by
  induction word generalizing x y with
  | nil => exact .cons h .nil
  | cons letter more ih =>
    have next := h.step? (p := (· = letter)) fun c d related => by
      simp only [blind letter List.mem_cons_self c d related]
    simp only [Cursor.skip?]
    cases first : x.step? (· = letter) <;> cases second : y.step? (· = letter) <;>
      rw [first, second] at next
    case none.none => exact .nil
    case none.some => cases next
    case some.none => cases next
    case some.some =>
      apply ih
      · cases next with
        | cons here _ => exact here
      · intro a member
        exact blind a (List.mem_cons_of_mem _ member)

theorem runs {p : Char → Bool} (blind : ∀ c d, R c d → p d = p c) {l l' : List Char} (h : List.Forall₂ R l l') :
    List.Forall₂ (Corresponds R) (Cursor.runs p l) (Cursor.runs p l') := by
  induction h with
  | nil => exact .nil
  | @cons c d rest rest' first later ih =>
    simp only [Cursor.runs, blind c d first]
    split
    · exact .cons ⟨.some first, later⟩ ih
    · exact .nil

theorem allFrom {before before' : Option Char} (first : Option.Rel R before before') {l l' : List Char}
    (h : List.Forall₂ R l l') : List.Forall₂ (Corresponds R) (Cursor.allFrom before l) (Cursor.allFrom before' l') := by
  induction h generalizing before before' with
  | nil => exact .cons ⟨first, .nil⟩ .nil
  | cons next later ih => exact .cons ⟨first, .cons next later⟩ (ih (.some next))

/-- A test that gives one answer at both places keeps them or drops them. -/
theorem keep {b b' : Bool} (h : x.Corresponds R y) (same : b' = b) :
    List.Forall₂ (Corresponds R) (if b then [x] else []) (if b' then [y] else []) := by
  rw [same]
  cases b
  · exact .nil
  · exact .cons h .nil

theorem isNone_before (h : x.Corresponds R y) : y.before.isNone = x.before.isNone := by
  obtain ⟨before, rest⟩ := x
  obtain ⟨before', rest'⟩ := y
  cases h.before <;> rfl

theorem boundary (h : x.Corresponds R y) {p : Char → Bool} (blind : ∀ c d, R c d → p d = p c) :
    (y.before.any p != y.rest.head?.any p) = (x.before.any p != x.rest.head?.any p) := by
  obtain ⟨before, rest⟩ := x
  obtain ⟨before', rest'⟩ := y
  have left : before'.any p = before.any p := by
    cases h.before with
    | none => rfl
    | some related => exact blind _ _ related
  have right : rest'.head?.any p = rest.head?.any p := by
    cases h.rest with
    | nil => rfl
    | cons related _ => exact blind _ _ related
  simp only [left, right]

end Cursor.Corresponds

namespace Pattern

/-- The pattern makes no difference between related characters. -/
def Blind (R : Char → Char → Prop) : Pattern → Prop
  | word text => ∀ letter ∈ text.toList, ∀ c d, R c d → (d = letter ↔ c = letter)
  | one allowed | run allowed => ∀ c d, R c d → allowed d = allowed c
  | optional p => p.Blind R
  | seq first second | either first second => first.Blind R ∧ second.Blind R
  | start | finish => True
  | boundary => ∀ c d, R c d → isWordChar d = isWordChar c

variable {R : Char → Char → Prop} {p : Pattern}

theorem ends_corresponds (blind : p.Blind R) {x y : Cursor} (h : x.Corresponds R y) :
    List.Forall₂ (Cursor.Corresponds R) (p.ends x) (p.ends y) := by
  induction p generalizing x y with
  | word text => exact h.skip? blind
  | one allowed => exact h.step? blind
  | run allowed => exact Cursor.Corresponds.runs blind h.rest
  | optional p ih => exact .cons h (ih blind h)
  | seq first second ih ih' =>
    exact List.rel_flatMap (ih blind.1 h) fun _ _ next => ih' blind.2 next
  | either first second ih ih' => exact List.rel_append (ih blind.1 h) (ih' blind.2 h)
  | start => exact h.keep h.isNone_before
  | finish => exact h.keep (isEmpty_eq_of_forall₂ h.rest)
  | boundary => exact h.keep (h.boundary blind)

/-- **Blind patterns.** What a pattern makes no difference between does not decide whether it occurs. -/
theorem Blind.occursIn_eq (blind : p.Blind R) {l l' : List Char} (h : List.Forall₂ R l l') :
    p.occursIn l' = p.occursIn l := by
  have places : List.Forall₂ (Cursor.Corresponds R) (Cursor.all l) (Cursor.all l') := Cursor.Corresponds.allFrom .none h
  have found := map_eq_of_forall₂ (f := fun c => !(p.ends c).isEmpty) places fun x y here => by
    rw [isEmpty_eq_of_forall₂ (ends_corresponds blind here)]
  rw [occursIn, occursIn, ← Function.id_comp fun c => !(p.ends c).isEmpty, ← List.any_map, found, List.any_map]

end Pattern

/-! ## Categories -/

namespace Signal

open Text (Recased SameLetter)

section Letters

variable {c d : Char}

theorem isDigit_of_isAlpha (alpha : c.isAlpha = true) : c.isDigit = false := by
  have least := (Text.toNat_of_isAlpha alpha).1
  simp only [Char.isDigit, Bool.and_eq_false_iff, decide_eq_false_iff_not, UInt32.le_iff_toNat_le]
  right
  change ¬ c.toNat ≤ 0x39
  omega

theorem isDigit_of_sameLetter (same : SameLetter c d) : d.isDigit = c.isDigit := by
  rcases same with rfl | ⟨alpha, alpha', -⟩
  · rfl
  · rw [isDigit_of_isAlpha alpha, isDigit_of_isAlpha alpha']

theorem isWordChar_of_sameLetter (same : SameLetter c d) : isWordChar d = isWordChar c := by
  rcases same with rfl | ⟨alpha, alpha', -⟩
  · rfl
  · simp only [isWordChar, Char.isAlphanum, alpha, alpha', Bool.true_or]

theorem eq_point_of_sameLetter (same : SameLetter c d) : d = '.' ↔ c = '.' := by
  rcases same with rfl | ⟨alpha, alpha', -⟩
  · rfl
  · constructor
    · rintro rfl
      exact absurd alpha' (by decide)
    · rintro rfl
      exact absurd alpha (by decide)

end Letters

theorem blind_octet : octet.Blind SameLetter :=
  ⟨fun _ _ => isDigit_of_sameLetter, fun _ _ => isDigit_of_sameLetter, fun _ _ => isDigit_of_sameLetter⟩

/-- Neither digits nor points nor the ends of words are a matter of case. -/
theorem blind_dottedQuad : dottedQuad.Blind SameLetter := by
  have point : (Pattern.word ".").Blind SameLetter := by
    intro letter member c d same
    obtain rfl : letter = '.' := by simpa using member
    exact eq_point_of_sameLetter same
  have edge : Pattern.boundary.Blind SameLetter := fun _ _ => isWordChar_of_sameLetter
  exact ⟨edge, blind_octet, point, blind_octet, point, blind_octet, point, blind_octet, edge⟩

variable {s t : Text}

/-- The categories whose tests see no letter case. -/
def caseless : List Category := [.url, .host, .encryption, .auth, .file, .registry, .process]

theorem occursFolded_recased (p : Pattern) (recased : s.Recased t) : occursFolded p t = occursFolded p s := by
  rw [occursFolded, occursFolded, recased.folded_eq]

theorem squash_recased (recased : s.Recased t) : squash t = squash s := by
  rw [squash, squash, recased.lower_eq]

theorem namesFile_recased (recased : s.Recased t) : namesFile t = namesFile s := by
  simp only [namesFile, recased.lower_eq]

theorem belongs_recased (recased : s.Recased t) {c : Category} (among : c ∈ caseless) : belongs t c = belongs s c := by
  cases c with
  | url => exact occursFolded_recased _ recased
  | host => exact blind_dottedQuad.occursIn_eq recased.chars
  | encryption => simp only [belongs, squash_recased recased, occursFolded_recased _ recased]
  | auth => exact occursFolded_recased _ recased
  | net => exact absurd among (by decide)
  | file => exact namesFile_recased recased
  | registry => exact occursFolded_recased _ recased
  | process => exact occursFolded_recased _ recased
  | base64 => exact absurd among (by decide)

/-- **Case hides no literal.** Two literals that differ in the case of ASCII letters are sorted into the same
categories, in the same order, those apart that are meant to see case. -/
theorem classify_recased (s t : Text) (recased : s.Recased t) :
    (classify t).filter (· ∈ caseless) = (classify s).filter (· ∈ caseless) := by
  have length : t.length = s.length := (List.Forall₂.length_eq recased).symm
  unfold classify
  rw [length]
  split
  · rfl
  · rw [List.filter_filter, List.filter_filter]
    apply List.filter_congr
    intro c _
    by_cases among : c ∈ caseless
    · rw [belongs_recased recased among]
    · simp only [among, decide_false, Bool.false_and]

theorem classify_recased_download :
    (classify "HTTPS://10.0.0.1/Login.DLL").filter (· ∈ caseless) = [.url, .host, .auth, .file] ∧
      (classify "https://10.0.0.1/LOGIN.dll").filter (· ∈ caseless) = [.url, .host, .auth, .file] := by
  have known : (classify "HTTPS://10.0.0.1/Login.DLL").filter (· ∈ caseless) = [.url, .host, .auth, .file] := by
    decide +kernel
  have same := classify_recased "HTTPS://10.0.0.1/Login.DLL" "https://10.0.0.1/LOGIN.dll" (by decide +kernel)
  exact ⟨known, same.trans known⟩

/-- A method of requests is one in capitals only. -/
example : classify "GET" = [.net] ∧ classify "get" = [] := by decide +kernel

end Signal
end CilAudit
