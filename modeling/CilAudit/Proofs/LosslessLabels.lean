import CilAudit.Diagram

/-!
# Labels can be read back

Labels are escaped by replacing one character after another in the whole text, and later replacements run
over what earlier ones have written. Each replacement goes byte by byte, so the label of a text is made of
the labels of its bytes, and reading a label from left to right undoes it. No text can end its label early.
-/

set_option autoImplicit false

namespace CilAudit

namespace Text

variable {b c : UInt8} {other s t : Text}

@[simp]
theorem replaceByte_nil : replaceByte [] b other = [] := rfl

@[simp]
theorem replaceByte_append : replaceByte (s ++ t) b other = replaceByte s b other ++ replaceByte t b other := by
  simp [replaceByte]

theorem replaceByte_of_ne (different : c ≠ b) : replaceByte [c] b other = [c] := by
  simp [replaceByte, different]

end Text

/-- Where a byte cannot stand, no suffix starts with it. -/
theorem suffix_append_of_notMem {α : Type} {x : α} {v l t : List α} (absent : x ∉ l) :
    x :: v <:+ l ++ t ↔ x :: v <:+ t := by
  induction l with
  | nil => rfl
  | cons y l ih =>
    obtain ⟨head, tail⟩ := not_or.1 (mt List.mem_cons.2 absent)
    rw [List.cons_append, List.suffix_cons_iff, ih tail]
    exact or_iff_right fun same => head (List.cons.inj same).1

namespace Diagram

/-! ## Labels with markup -/

/-- The characters that have an entity, each with it. -/
def entities : List (UInt8 × Text) := [(0x26, "&amp;"), (0x3C, "&lt;"), (0x3E, "&gt;"), (0x22, "&quot;")]

/-- The entity that a text starts with. -/
def entity? (t : Text) : Option (UInt8 × Text) := entities.find? fun e => t.startsWith e.2

/-- A label with its entities replaced by their characters, from left to right. -/
def unescaped : Text → Text
  | [] => []
  | b :: rest =>
    match entity? (b :: rest) with
    | some e => e.1 :: unescaped (rest.drop (e.2.length - 1))
    | none => b :: unescaped rest
termination_by t => t.length
decreasing_by all_goals simp only [List.length_drop, List.length_cons]; omega

/-- What a label with markup promises: nothing in it starts or ends markup, and it stands for a text. -/
structure MarkupOf (t label : Text) : Prop where
  plain : ∀ b ∈ label, b ≠ 0x3C ∧ b ≠ 0x3E ∧ b ≠ 0x22
  /-- Every ampersand starts an entity. -/
  entity : ∀ v, 0x26 :: v <:+ label → ∃ e ∈ entities, e.2 <+: 0x26 :: v
  reads : unescaped label = t

variable {b : UInt8} {s t : Text}

theorem escaped_append (s t : Text) : escaped (s ++ t) = escaped s ++ escaped t := by
  simp [escaped]

theorem escaped_of_mem {e : UInt8 × Text} (known : e ∈ entities) : escaped [e.1] = e.2 := by
  have all : ∀ e ∈ entities, escaped [e.1] = e.2 := by decide +kernel
  exact all e known

theorem escaped_of_notMem (plain : b ∉ entities.map (·.1)) : escaped [b] = [b] := by
  simp only [entities, List.map_cons, List.map_nil, List.mem_cons, List.not_mem_nil, or_false, not_or] at plain
  obtain ⟨ampersand, less, greater, quote⟩ := plain
  rw [escaped, Text.replaceByte_of_ne ampersand, Text.replaceByte_of_ne less, Text.replaceByte_of_ne greater,
    Text.replaceByte_of_ne quote]

/-- A byte is written as its entity or as itself. -/
theorem escaped_cases (b : UInt8) :
    (∃ e ∈ entities, e.1 = b ∧ escaped [b] = e.2) ∨ b ∉ entities.map (·.1) ∧ escaped [b] = [b] := by
  by_cases special : b ∈ entities.map (·.1)
  · obtain ⟨e, known, rfl⟩ := List.mem_map.1 special
    exact .inl ⟨e, known, rfl, escaped_of_mem known⟩
  · exact .inr ⟨special, escaped_of_notMem special⟩

/-- An entity starts with an ampersand and goes on without a character that is escaped. -/
theorem exists_of_mem_entities {e : UInt8 × Text} (known : e ∈ entities) :
    ∃ tail, e.2 = 0x26 :: tail ∧ ∀ b ∈ tail, b ∉ entities.map (·.1) := by
  have all : ∀ e ∈ entities, e.2 = 0x26 :: e.2.tail ∧ ∀ b ∈ e.2.tail, b ∉ entities.map (·.1) := by decide +kernel
  exact ⟨_, all e known⟩

theorem entity?_of_mem {e : UInt8 × Text} (known : e ∈ entities) (rest : Text) : entity? (e.2 ++ rest) = some e := by
  simp only [entities, List.mem_cons, List.not_mem_nil, or_false] at known
  rcases known with rfl | rfl | rfl | rfl <;> rfl

theorem entity?_of_ne (other : b ≠ 0x26) (rest : Text) : entity? (b :: rest) = none := by
  refine List.find?_eq_none.2 fun e known starts => ?_
  obtain ⟨tail, shape, -⟩ := exists_of_mem_entities known
  rw [shape, Text.startsWith, List.isPrefixOf_iff_prefix] at starts
  exact other (List.cons_prefix_cons.1 starts).1.symm

theorem unescaped_entity {e : UInt8 × Text} (known : e ∈ entities) (rest : Text) :
    unescaped (e.2 ++ rest) = e.1 :: unescaped rest := by
  have found := entity?_of_mem known rest
  obtain ⟨tail, shape, -⟩ := exists_of_mem_entities known
  rw [shape, List.cons_append] at found ⊢
  rw [unescaped, found]
  simp [shape]

theorem unescaped_plain (other : b ≠ 0x26) (rest : Text) : unescaped (b :: rest) = b :: unescaped rest := by
  rw [unescaped, entity?_of_ne other]

/-- **One byte more** in front of a text keeps what its label promises. -/
theorem MarkupOf.cons {label : Text} (h : MarkupOf t label) (b : UInt8) : MarkupOf (b :: t) (escaped [b] ++ label) := by
  have special (c : UInt8) (plain : c ∉ entities.map (·.1)) : c ≠ 0x26 ∧ c ≠ 0x3C ∧ c ≠ 0x3E ∧ c ≠ 0x22 := by
    simpa [entities] using plain
  rcases escaped_cases b with ⟨e, known, rfl, written⟩ | ⟨plain, written⟩
  · obtain ⟨tail, shape, clean⟩ := exists_of_mem_entities known
    rw [written]
    refine ⟨fun c member => ?_, fun v starts => ?_, ?_⟩
    · rcases List.mem_append.1 member with new | old
      · rw [shape] at new
        rcases List.mem_cons.1 new with rfl | later
        · decide
        · exact (special c (clean c later)).2
      · exact h.plain c old
    · rw [shape, List.cons_append, List.suffix_cons_iff] at starts
      rcases starts with whole | later
      · exact ⟨e, known, whole ▸ shape ▸ List.prefix_append _ _⟩
      · exact h.entity v ((suffix_append_of_notMem fun inside => (special _ (clean _ inside)).1 rfl).1 later)
    · rw [unescaped_entity known, h.reads]
  · rw [written]
    refine ⟨List.forall_mem_cons.2 ⟨(special b plain).2, h.plain⟩, fun v starts => ?_, ?_⟩
    · refine h.entity v ((suffix_append_of_notMem fun inside => ?_).1 starts)
      exact (special b plain).1 (List.mem_singleton.1 inside).symm
    · rw [List.singleton_append, unescaped_plain (special b plain).1, h.reads]

theorem markupOf_escaped (t : Text) : MarkupOf t (escaped t) := by
  induction t with
  | nil =>
    refine ⟨List.forall_mem_nil _, fun v starts => ?_, ?_⟩
    · cases List.suffix_nil.1 starts
    · rw [escaped]
      simp [unescaped]
  | cons b t ih =>
    rw [← List.singleton_append, escaped_append]
    exact ih.cons b

/-! ## Plain labels -/

/-- The lines that the inside of a plain label stands for, read from left to right. A backslash or a quote that
belongs to no escape of two characters cannot be read. -/
def unquoted : Text → Option (List Text)
  | [] => some [[]]
  | b :: rest =>
    if b = 0x22 then none
    else if b = 0x5C then
      match rest with
      | [] => none
      | c :: rest =>
        if c = 0x6E then (unquoted rest).map ([] :: ·)
        else if c = 0x5C ∨ c = 0x22 then (unquoted rest).map (List.modifyHead (c :: ·))
        else none
    else (unquoted rest).map (List.modifyHead (b :: ·))

theorem quotedLine_append (s t : Text) : quotedLine (s ++ t) = quotedLine s ++ quotedLine t := by
  simp [quotedLine]

theorem unquoted_byte (b : UInt8) (rest : Text) :
    unquoted (quotedLine [b] ++ rest) = (unquoted rest).map (List.modifyHead (b :: ·)) := by
  by_cases backslash : b = 0x5C
  · subst backslash
    have written : quotedLine [0x5C] = [0x5C, 0x5C] := by decide +kernel
    simp [written, unquoted]
  · by_cases quote : b = 0x22
    · subst quote
      have written : quotedLine [0x22] = [0x5C, 0x22] := by decide +kernel
      simp [written, unquoted]
    · rw [quotedLine, Text.replaceByte_of_ne backslash, Text.replaceByte_of_ne quote, List.singleton_append]
      rw [unquoted.eq_def]
      exact (if_neg quote).trans (if_neg backslash)

theorem unquoted_newline (rest : Text) : unquoted ("\\n" ++ rest) = (unquoted rest).map ([] :: ·) := by
  have bytes : Text.ofString "\\n" = [0x5C, 0x6E] := by decide +kernel
  simp [bytes, unquoted]

/-- A line in front of a label becomes the beginning of its first line. -/
theorem unquoted_line (l rest : Text) :
    unquoted (quotedLine l ++ rest) = (unquoted rest).map (List.modifyHead (l ++ ·)) := by
  induction l with
  | nil =>
    have same : (List.modifyHead fun t : Text => [] ++ t) = id := by
      funext ls
      cases ls <;> rfl
    rw [same, Option.map_id]
    rfl
  | cons b l ih =>
    rw [← List.singleton_append, quotedLine_append, List.append_assoc, unquoted_byte, ih, Option.map_map]
    congr 1
    funext ls
    cases ls <;> rfl

theorem unquoted_join {lines : List Text} (some : lines ≠ []) :
    unquoted (Text.joinWith "\\n" (lines.map quotedLine)) = .some lines := by
  induction lines with
  | nil => exact absurd rfl some
  | cons l rest ih =>
    cases rest with
    | nil =>
      rw [List.map_cons, List.map_nil, Text.joinWith, ← List.append_nil (quotedLine l), unquoted_line]
      simp [unquoted]
    | cons next rest =>
      have more := ih (List.cons_ne_nil next rest)
      rw [List.map_cons] at more
      rw [List.map_cons, List.map_cons, Text.joinWith, List.append_assoc, unquoted_line, unquoted_newline, more]
      · simp
      · simp

/-- **Labels are lossless.** For every text the label with markup holds no character that starts or ends markup,
every ampersand in it starts an entity, and it is read back as the text. For every line or more, the plain label is a
quote, an inside in which each quote and each backslash belongs to an escape, and a quote; and the inside is read back
as exactly these lines. -/
theorem labels_lossless (t : Text) {lines : List Text} (some : lines ≠ []) :
    MarkupOf t (escaped t) ∧
      ∃ inside, quotedLines lines = 0x22 :: inside ++ [0x22] ∧ unquoted inside = .some lines := by
  refine ⟨markupOf_escaped t, Text.joinWith "\\n" (lines.map quotedLine), ?_, unquoted_join some⟩
  rfl

/-- A line that ends as a line break is written, one of a quote and a backslash, and an empty one. -/
def thicket : List Text := ["a\\n", "\"\\", ""]

theorem labels_lossless_thicket :
    thicket ≠ [] ∧ MarkupOf "<a href=\"&lt;\">&amp;amp;" (escaped "<a href=\"&lt;\">&amp;amp;") ∧
      ∃ inside, quotedLines thicket = 0x22 :: inside ++ [0x22] ∧ unquoted inside = some thicket :=
  ⟨by decide, labels_lossless _ (by decide)⟩

end Diagram

end CilAudit
