import CilAudit.Proofs.LoadedBodies

/-!
# Integers on their way into a body

A line gives an integer in 64 bits, signed or not, and the integer ends up in a slot, in a target or
in a constant of one of two widths. On the way it is narrowed before it is looked at. What decoding
looks at again is slots and targets: those are kept or refused. A constant is never refused, and kept
only if it fits.
-/

set_option autoImplicit false

namespace CilAudit

/-- Where an integer operand goes. -/
inductive Place where
  /-- To the number of a local variable or of an argument. -/
  | slot
  /-- To a constant of 32 bits. -/
  | int32
  /-- To a constant of 64 bits. -/
  | int64
  /-- To the offset a branch leads to. -/
  | target
  deriving DecidableEq, Repr

namespace Place

/-- The integers that fit. -/
def Fits : Place → Int → Prop
  | slot, v => 0 ≤ v ∧ v ≤ 0xFFFF
  | int32, v => FitsSigned 4 v
  | int64, v => FitsSigned 8 v
  | target, v => 0 ≤ v ∧ FitsSigned 8 v

/-- Does decoding refuse what does not fit? -/
def isChecked : Place → Bool
  | slot | target => true
  | int32 | int64 => false

/-- What arrives there, if anything does. -/
def kept : Place → Int → Int
  | int32, v => Int.bmod v 0x100000000
  | int64, v => Int.bmod v 0x10000000000000000
  | slot, v | target, v => v

/-- The operand that a line with the integer `v` is given. -/
def operand : Place → Int → Operand
  | slot, v | target, v => .int .int (Int.bmod v 0x10000000000000000)
  | int32, v => .int .int32 (Int.bmod v 0x100000000)
  | int64, v => .int .int64 (Int.bmod v 0x10000000000000000)

instance : (p : Place) → (v : Int) → Decidable (p.Fits v)
  | slot, _ => inferInstanceAs (Decidable (_ ∧ _))
  | int32, v => inferInstanceAs (Decidable (FitsSigned 4 v))
  | int64, v => inferInstanceAs (Decidable (FitsSigned 8 v))
  | target, _ => inferInstanceAs (Decidable (_ ∧ _))

end Place

/-- The place of the integer that a form takes as its operand, if it takes one. -/
def Form.place? : Form → Option Place
  | loadLocal none | loadLocalAddress | storeLocal none => some .slot
  | loadArg none | loadArgAddress | storeArg => some .slot
  | loadInt32 none => some .int32
  | loadInt64 => some .int64
  | branch _ | branchIf .. => some .target
  | _ => none

/-- The place that an operand of a kind is converted for, if it is an integer. -/
def OperandKind.place? : OperandKind → Option Place
  | shortVar | var => some .slot
  | shortInt | int32 => some .int32
  | int64 => some .int64
  | shortTarget | target => some .target
  | _ => Option.none

/-- The integer that an action carries: its slot, its constant or its target. -/
def Action.carried? : Action → Option Int
  | loadLocal n _ | storeLocal n | loadArg n _ | storeArg n => some n
  | loadConst c => c.integer?
  | branch t _ | branchIf t _ _ => some t
  | _ => none

/-- A row converts its operand for the place that its form puts it. -/
theorem Opcode.place?_operand : ∀ o ∈ Opcode.all, ∀ p ∈ o.form.place?, o.operand.place? = some p := by
  decide +kernel

/-- The integers of 64 bits, with a sign or without. -/
def InWord (v : Int) : Prop := -0x8000000000000000 ≤ v ∧ v < 0x10000000000000000

/-- The datum is the integer `v` of 64 bits. -/
inductive WordForm (v : Int) : Datum → Prop where
  | signed {d : Datum} (form : IntegerForm v d) (range : FitsSigned 8 v) : WordForm v d
  | unsigned {n : Nat} (range : FitsUnsigned 8 n) (same : (n : Int) = v) : WordForm v (.nat n)
  | literal {t : Text} (read : Text.toInt? t = some v) (range : InWord v) : WordForm v (.literal t)

theorem WordForm.inWord {v : Int} {d : Datum} (word : WordForm v d) : InWord v := by
  cases word with
  | signed form range =>
    have bounds : -0x10000000000000000 ≤ 2 * v ∧ 2 * v < 0x10000000000000000 := range
    exact ⟨by omega, by omega⟩
  | unsigned range same =>
    have bounds : 0 ≤ v ∧ v < 0x10000000000000000 := same ▸ range
    exact ⟨by omega, by omega⟩
  | literal read range => exact range

/-- The upper half of the integers of 64 bits turns negative. -/
theorem InWord.bmod_cases {v : Int} (range : InWord v) :
    v < 0x8000000000000000 ∧ Int.bmod v 0x10000000000000000 = v ∨
      0x8000000000000000 ≤ v ∧ Int.bmod v 0x10000000000000000 < 0 := by
  obtain ⟨least, most⟩ := range
  by_cases small : v < 0x8000000000000000
  · exact .inl ⟨small, Int.bmod_eq_of_le (by omega) (by omega)⟩
  · refine .inr ⟨by omega, ?_⟩
    rw [Int.bmod_def]
    omega

theorem bmod_eq_self_iff {v : Int} {width : Nat} (even : capacity width % 2 = 0) :
    Int.bmod v (capacity width) = v ↔ FitsSigned width v := by
  have least := @Int.le_bmod v _ (capacity_pos width)
  have most := @Int.bmod_lt v _ (capacity_pos width)
  constructor
  · intro same
    exact ⟨by omega, by omega⟩
  · rintro ⟨low, high⟩
    exact Int.bmod_eq_of_le (by omega) (by omega)

theorem map_eq_ok_iff {ε α β : Type} {x : Except ε α} {f : α → β} {b : β} :
    x.map f = .ok b ↔ ∃ a, x = .ok a ∧ f a = b := by
  cases x <;> simp [Except.map]

/-! ## From the line -/

namespace WordForm

variable {v : Int} {d : Datum}

/-- Whatever the sign, the bits are kept. -/
theorem integer_eq (word : WordForm v d) {n : Int} (read : Dump.integer d = .ok n) :
    n = Int.bmod v 0x10000000000000000 := by
  cases word with
  | signed form range =>
    rw [Dump.integer_of_form form] at read
    cases read
    exact ((bmod_eq_self_iff (by decide)).2 range).symm
  | unsigned range same =>
    rw [Dump.integer, Except.ok.injEq, same] at read
    exact read.symm
  | literal written range =>
    -- A literal in the upper half is out of range.
    obtain ⟨small, kept⟩ | ⟨large, -⟩ := range.bmod_cases
    · have value : v = n := by simpa [Dump.integer, Datum.int64?, written, range.1, small] using read
      rw [kept, value]
    · simp [Dump.integer, Datum.int64?, written, Int.not_lt.2 large] at read

theorem target_eq (word : WordForm v d) {n : Int} (read : Dump.target d = .ok n) :
    n = Int.bmod v 0x10000000000000000 := by
  refine word.integer_eq ?_
  -- Only a text is taken for a label.
  cases word with
  | signed form => cases form <;> exact read
  | unsigned | literal => exact read

/-- The line is given the operand of the place, whether the integer fits or not. -/
theorem operand_eq (word : WordForm v d) {table : TokenTable} {p : Place} {kind : OperandKind}
    (goes : kind.place? = some p) {x : Operand} (converted : Dump.convert table d kind = .ok x) :
    x = p.operand v := by
  cases kind with
  | shortVar | var | int64 =>
    cases goes
    obtain ⟨n, read, rfl⟩ := map_eq_ok_iff.1 converted
    rw [word.integer_eq read]
    rfl
  | shortInt | int32 =>
    cases goes
    obtain ⟨n, read, rfl⟩ := map_eq_ok_iff.1 converted
    rw [word.integer_eq read, Int.bmod_bmod_of_dvd (by decide)]
    rfl
  | shortTarget | target =>
    cases goes
    obtain ⟨n, read, rfl⟩ := map_eq_ok_iff.1 converted
    rw [word.target_eq read]
    rfl
  | _ => cases goes

end WordForm

namespace Dump

variable {table : TokenTable}

/-- Lines are converted one by one. -/
theorem getElem?_convertLines {previous : Option Int} {lines : List Line} {raw : List RawInstruction}
    (converted : convertLines table previous lines = .ok raw) {k : Nat} {l : Line} (line : lines[k]? = some l) :
    ∃ r, raw[k]? = some r ∧ convertLine table l = .ok r := by
  induction lines generalizing previous raw k with
  | nil => simp at line
  | cons first rest ih =>
    obtain ⟨-, -, r, later, here, next, rfl⟩ := convertLines_cons_ok converted
    cases k with
    | zero =>
      obtain rfl : first = l := by simpa using line
      exact ⟨r, rfl, here⟩
    | succ k => exact ih next (by simpa using line)

theorem convertLine_of_word {l : Line} {r : RawInstruction} (converted : convertLine table l = .ok r) {o : Opcode}
    (named : (Code.ofMnemonic? l.op).bind Code.opcode? = some o) {p : Place} (takes : o.form.place? = some p) {v : Int}
    (word : WordForm v l.operand) : r = ⟨l.offset, o.code, p.operand v⟩ := by
  obtain ⟨c, -, found⟩ := Option.bind_eq_some_iff.1 named
  have goes := Opcode.place?_operand o (Code.opcode?_eq_some_iff.1 found).1 p takes
  simp only [convertLine, named] at converted
  split at converted
  case h_1 x made =>
    cases converted
    rw [word.operand_eq goes made]
  case h_2 => cases converted

end Dump

/-! ## To the instruction -/

/-- What a form makes of the integer `v` on its way to `p`: it refuses it only if decoding looks at what
goes there, and an action that it makes carries what is kept. -/
structure Arrives (p : Place) (v : Int) (made : Except Wanted Action) : Prop where
  accepted : (∃ a, made = .ok a) ↔ (p.isChecked = true → p.Fits v)
  carried : ∀ a, made = .ok a → a.carried? = some (p.kept v)

/-- The same of the view that the form has of its operand. -/
structure Shows {α : Type} (p : Place) (v : Int) (view : Option α) (value : α → Int) : Prop where
  accepted : (∃ x, view = some x) ↔ (p.isChecked = true → p.Fits v)
  shown : ∀ x, view = some x → value x = p.kept v

namespace Shows

variable {p : Place} {v : Int}

/-- A view of what is looked at. -/
theorem guarded {c : Prop} [Decidable c] {n : Nat} (looks : p.isChecked = true) (test : c ↔ p.Fits v)
    (kept : p.Fits v → (n : Int) = p.kept v) : Shows p v (if c then some n else none) Int.ofNat where
  accepted := by simp [looks, test]
  shown x seen := by
    obtain ⟨holds, rfl⟩ : c ∧ n = x := by simpa using seen
    exact kept (test.1 holds)

/-- A view of what is not looked at. -/
theorem unguarded (blind : p.isChecked = false) : Shows p v (some (p.kept v)) id where
  accepted := by simp [blind]
  shown x seen := (Option.some.inj seen).symm

theorem slot (range : InWord v) : Shows .slot v (Place.slot.operand v).slot? Int.ofNat := by
  refine guarded rfl ?_ ?_
  · -- What turns negative is refused now, and was too large before.
    show 0 ≤ Int.bmod v 0x10000000000000000 ∧ Int.bmod v 0x10000000000000000 ≤ 0xFFFF ↔ 0 ≤ v ∧ v ≤ 0xFFFF
    rcases range.bmod_cases with same | wrapped <;> omega
  · rintro ⟨least, most⟩
    show ((Int.bmod v 0x10000000000000000).toNat : Int) = v
    rcases range.bmod_cases with same | wrapped <;> omega

theorem target (range : InWord v) : Shows .target v (Place.target.operand v).target? Int.ofNat := by
  have eight : (capacity 8 : Int) = 0x10000000000000000 := rfl
  refine guarded rfl ?_ ?_
  · show 0 ≤ Int.bmod v 0x10000000000000000 ↔ 0 ≤ v ∧ -capacity 8 ≤ 2 * v ∧ 2 * v < capacity 8
    rcases range.bmod_cases with same | wrapped <;> omega
  · rintro ⟨least, -, most⟩
    show ((Int.bmod v 0x10000000000000000).toNat : Int) = v
    rcases range.bmod_cases with same | wrapped <;> omega

theorem int32 (v : Int) : Shows .int32 v (Place.int32.operand v).int32? id := by
  have least := @Int.le_bmod v 0x100000000 (by decide)
  have most := @Int.bmod_lt v 0x100000000 (by decide)
  have seen : (Place.int32.operand v).int32? = some (Place.int32.kept v) := if_pos (by omega)
  rw [seen]
  exact unguarded rfl

theorem int64 (v : Int) : Shows .int64 v (Place.int64.operand v).integer? id := unguarded rfl

theorem arrives {α : Type} {view : Option α} {value : α → Int} (seen : Shows p v view value)
    {make : α → Action} (carries : ∀ x, (make x).carried? = some (value x)) (wanted : Wanted) :
    Arrives p v (view.elim (.error wanted) fun x => .ok (make x)) where
  accepted := by
    rw [← seen.accepted]
    cases view <;> simp
  carried a made := by
    obtain ⟨x, here, rfl⟩ := elim_eq_ok.1 made
    rw [carries, seen.shown x here]

end Shows

theorem arrives_action {f : Form} {p : Place} (takes : f.place? = some p) {v : Int} (range : InWord v) :
    Arrives p v ((p.operand v).action f) := by
  cases f with
  | loadLocal n | storeLocal n | loadArg n =>
    cases n with
    | none =>
      cases takes
      exact (Shows.slot range).arrives (fun _ => rfl) _
    | some => cases takes
  | loadLocalAddress | loadArgAddress | storeArg =>
    cases takes
    exact (Shows.slot range).arrives (fun _ => rfl) _
  | loadInt32 n =>
    cases n with
    | none =>
      cases takes
      rw [Operand.action]
      exact (Shows.int32 v).arrives (fun _ => rfl) _
    | some => cases takes
  | loadInt64 =>
    cases takes
    rw [Operand.action]
    exact (Shows.int64 v).arrives (fun _ => rfl) _
  | branch | branchIf =>
    cases takes
    exact (Shows.target range).arrives (fun _ => rfl) _
  | _ => cases takes

theorem RawInstruction.action_of_place {o : Opcode} (member : o ∈ Opcode.all) {p : Place} (takes : o.form.place? = some p)
    (offset v : Int) :
    (⟨offset, o.code, p.operand v⟩ : RawInstruction).action = (p.operand v).action o.form := by
  have goes := Opcode.place?_operand o member p takes
  have present : o.operand ≠ .none := by
    intro none
    rw [none] at goes
    cases goes
  simp only [RawInstruction.action, Code.opcode?_eq_some_iff.2 ⟨member, rfl⟩]
  exact if_neg fun unasked => present unasked.1

theorem exists_of_decode {raw : List RawInstruction} {insts : List Instruction} (decoded : decode raw = .ok insts)
    {k : Nat} {r : RawInstruction} (here : raw[k]? = some r) : ∃ x, insts[k]? = some x ∧ r.decode k = .ok x := by
  have lengths : insts.length = raw.length := by
    simpa using congrArg List.length (offsets_of_decodeFrom decoded)
  obtain ⟨bound, -⟩ := List.getElem?_eq_some_iff.1 here
  have found : insts[k]? = some insts[k] := List.getElem?_eq_getElem (by omega)
  obtain ⟨r', here', made⟩ := getElem?_decodeFrom decoded found
  cases here.symm.trans here'
  exact ⟨insts[k], found, by simpa using made⟩

/-- What is not refused is kept if it fits, and not otherwise. -/
theorem Place.kept_eq_iff {p : Place} {v : Int} (passes : p.isChecked = true → p.Fits v) : p.kept v = v ↔ p.Fits v := by
  cases p with
  | slot | target => exact ⟨fun _ => passes rfl, fun _ => rfl⟩
  | int32 => exact @bmod_eq_self_iff v 4 (by decide)
  | int64 => exact @bmod_eq_self_iff v 8 (by decide)

namespace Dump

/-- **A loaded integer is the one of its line exactly if it fits.** An opcode that looks for a slot or a target
refuses what does not fit. One that looks for a constant refuses nothing: a constant that does not fit
is cut to its width. -/
theorem carried_of_line {table : TokenTable} {lines : List Line} {raw : List RawInstruction}
    (converted : mnemonicBody table lines = .ok raw) {k : Nat} {l : Line} (line : lines[k]? = some l) {o : Opcode}
    (named : (Code.ofMnemonic? l.op).bind Code.opcode? = some o) {p : Place} (takes : o.form.place? = some p) {v : Int}
    (word : WordForm v l.operand) :
    ∃ r, raw[k]? = some r ∧ ((∃ x, r.decode k = .ok x) ↔ (p.isChecked = true → p.Fits v)) ∧
      ∀ insts, decode raw = .ok insts → ∃ x, insts[k]? = some x ∧ x.kind = o.form.kind ∧
        x.action.carried? = some (p.kept v) ∧ (p.kept v = v ↔ p.Fits v) := by
  obtain ⟨r, here, made⟩ := getElem?_convertLines converted line
  obtain ⟨c, -, found⟩ := Option.bind_eq_some_iff.1 named
  have member := (Code.opcode?_eq_some_iff.1 found).1
  have action : r.action = (p.operand v).action o.form := by
    rw [convertLine_of_word made named takes word]
    exact RawInstruction.action_of_place member takes _ _
  have arrives := action ▸ arrives_action takes word.inWord
  have accepted : (∃ x, r.decode k = .ok x) ↔ (p.isChecked = true → p.Fits v) := by
    rw [← arrives.accepted]
    constructor
    · rintro ⟨x, decoded⟩
      exact ⟨x.action, (RawInstruction.decode_eq_ok.1 decoded).1⟩
    · rintro ⟨a, acts⟩
      exact ⟨⟨k, r.offset, r.code, a⟩, RawInstruction.decode_eq_ok.2 ⟨acts, rfl, rfl, rfl⟩⟩
  refine ⟨r, here, accepted, fun insts decoded => ?_⟩
  obtain ⟨x, there, decodes⟩ := exists_of_decode decoded here
  have acts := (RawInstruction.decode_eq_ok.1 decodes).1
  exact ⟨x, there, Operand.kind_of_action (action ▸ acts), arrives.carried _ acts,
    Place.kept_eq_iff (accepted.1 ⟨x, decodes⟩)⟩

/-- Two constants and a slot that just fit. -/
def limits : List Line :=
  [⟨0, "ldc.i4", .int (-0x80000000)⟩, ⟨5, "ldc.i8", .nat 0x7FFFFFFFFFFFFFFF⟩, ⟨14, "starg", .int 0xFFFF⟩]

def limitsBody : List RawInstruction :=
  [⟨0, ⟨0x20⟩, .int .int32 (-0x80000000)⟩, ⟨5, ⟨0x21⟩, .int .int64 0x7FFFFFFFFFFFFFFF⟩,
   ⟨14, ⟨0xFE0B⟩, .int .int 0xFFFF⟩]

def limitsDecoded : List Instruction :=
  [⟨0, 0, ⟨0x20⟩, .loadConst (.int32 (-0x80000000))⟩, ⟨1, 5, ⟨0x21⟩, .loadConst (.int64 0x7FFFFFFFFFFFFFFF)⟩,
   ⟨2, 14, ⟨0xFE0B⟩, .storeArg 0xFFFF⟩]

theorem carried_of_line_limits :
    mnemonicBody {} limits = .ok limitsBody ∧ decode limitsBody = .ok limitsDecoded ∧
      (∃ x, limitsDecoded[1]? = some x ∧ x.action.carried? = some 0x7FFFFFFFFFFFFFFF) ∧
      ∃ x, limitsDecoded[2]? = some x ∧ x.action.carried? = some 0xFFFF := by
  have converted : mnemonicBody {} limits = .ok limitsBody := by rfl
  have decoded : decode limitsBody = .ok limitsDecoded := by rfl
  refine ⟨converted, decoded, ?_, ?_⟩
  · have word : WordForm 0x7FFFFFFFFFFFFFFF (.nat 0x7FFFFFFFFFFFFFFF) := .unsigned (by decide) rfl
    obtain ⟨-, -, -, loads⟩ := @carried_of_line _ _ _ converted 1 _ rfl _ rfl .int64 rfl _ word
    obtain ⟨x, here, -, carried, kept⟩ := loads _ decoded
    exact ⟨x, here, by rw [carried, kept.2 (by decide)]⟩
  · have word : WordForm 0xFFFF (.int 0xFFFF) := .signed (.signed _) (by decide)
    obtain ⟨-, -, -, loads⟩ := @carried_of_line _ _ _ converted 2 _ rfl _ rfl .slot rfl _ word
    obtain ⟨x, here, -, carried, -⟩ := loads _ decoded
    exact ⟨x, here, carried⟩

/-- The first constants that do not fit: one is cut to nothing, the other changes its sign, and neither is
refused. -/
theorem carried_beyond_limits :
    ∃ raw insts, mnemonicBody {} [⟨0, "ldc.i4", .int 0x100000000⟩, ⟨5, "ldc.i8", .nat 0x8000000000000000⟩] = .ok raw ∧
      decode raw = .ok insts ∧ insts.map (·.action.carried?) = [some 0, some (-0x8000000000000000)] :=
  ⟨[⟨0, ⟨0x20⟩, .int .int32 0⟩, ⟨5, ⟨0x21⟩, .int .int64 (-0x8000000000000000)⟩], _, rfl, rfl, rfl⟩

end Dump

end CilAudit
