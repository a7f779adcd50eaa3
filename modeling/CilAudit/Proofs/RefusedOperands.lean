import CilAudit.Proofs.InstructionSet
import CilAudit.Proofs.SplitBodies

/-!
# Operands that decoding refuses

Whatever is read from bytes is of the type that its opcode asks for, with two exceptions: a token that
the table does not know stays a bare number, and a distance may lead to before the start of the body.
So a body that was read is refused for a string, a method or a field that is not resolved and for a
target below zero, and for nothing else; and it is refused at the first instruction of that kind.
-/

set_option autoImplicit false

namespace CilAudit

/-! ## What forms ask for -/

/-- What a form asks of its operand, if it looks at it. -/
def Form.wanted? : Form → Option Wanted
  | loadLocal none | loadLocalAddress | storeLocal none => some .variableIndex
  | loadArg none | loadArgAddress | storeArg => some .argumentIndex
  | loadInt32 none => some .int32
  | loadInt64 => some .int64
  | loadFloat32 => some .float32
  | loadFloat64 => some .float64
  | loadString => some .string
  | loadField .. | storeField _ => some .field
  | branch _ | branchIf .. => some .target
  | switch => some .targets
  | call _ | newObject => some .method
  | _ => none

namespace Operand

/-- Is the operand what is asked for? -/
def meets (x : Operand) : Wanted → Bool
  | .nothing => x = none
  | .variableIndex | .argumentIndex => x.slot?.isSome
  | .int32 => x.int32?.isSome
  | .int64 => x.integer?.isSome
  | .float32 | .float64 => x.float?.isSome
  | .string => isText x
  | .field => x.field?.isSome
  | .target => x.target?.isSome
  | .targets => isTable x
  | .method => x.method?.isSome
where
  isText : Operand → Bool
    | text _ => true
    | _ => false
  isTable : Operand → Bool
    | offsets _ => true
    | _ => false

theorem elim_eq_error {α : Type} {view : Option α} {wanted w : Wanted} {make : α → Action} :
    view.elim (Except.error wanted) (fun v => Except.ok (make v)) = .error w ↔ wanted = w ∧ view.isSome = false := by
  cases view <;> simp

/-- A form refuses an operand exactly if it asks for something else. -/
theorem action_eq_error_iff {x : Operand} {f : Form} {w : Wanted} :
    x.action f = .error w ↔ f.wanted? = some w ∧ x.meets w = false := by
  cases f with
  | loadLocal n | storeLocal n | loadArg n | loadInt32 n =>
    cases n with
    | some => simp [action, Form.wanted?]
    | none =>
      simp only [action, Form.wanted?, elim_eq_error, Option.some.injEq]
      exact and_congr_right fun same => same ▸ Iff.rfl
  | loadLocalAddress | loadArgAddress | storeArg | loadInt64 | loadFloat32 | loadFloat64 | loadField | storeField
  | branch | branchIf | call | newObject =>
    simp only [action, Form.wanted?, elim_eq_error, Option.some.injEq]
    exact and_congr_right fun same => same ▸ Iff.rfl
  | loadString | switch =>
    cases x <;> simp [action, Form.wanted?]
    all_goals rintro rfl; rfl
  | loadNull | compare | ret | throw | other => simp [action, Form.wanted?]

end Operand

/-! ## What is read -/

/-- The kinds of operand that stand with what is asked for. -/
def Wanted.kinds : Wanted → List OperandKind
  | nothing => [.none]
  | variableIndex | argumentIndex => [.shortVar, .var]
  | int32 => [.shortInt, .int32]
  | int64 => [.int64]
  | float32 => [.float32]
  | float64 => [.float64]
  | string => [.string]
  | field => [.field]
  | target => [.shortTarget, .target]
  | targets => [.targetTable]
  | method => [.method]

theorem Opcode.operand_mem_kinds : ∀ o ∈ Opcode.all, ∀ w ∈ o.form.wanted?, o.operand ∈ w.kinds := by decide +kernel

/-- What of the operands that are read is not what is asked for: members that the table does not know, and
targets below zero. -/
inductive Wanted.Missed (table : TokenTable) (next : Nat) (bytes : Text) : Wanted → Prop where
  | string (unknown : table.string? (littleEndian bytes).toUInt32 = none) : Missed table next bytes string
  | method (unknown : table.method? (littleEndian bytes).toUInt32 = none) : Missed table next bytes method
  | field (unknown : table.field? (littleEndian bytes).toUInt32 = none) : Missed table next bytes field
  | target (negative : (next : Int) + littleEndianSigned bytes < 0) : Missed table next bytes target

/-- Nothing is missed in a table. -/
theorem Wanted.Missed.fixed {table : TokenTable} {next : Nat} {bytes : Text} {w : Wanted}
    (missed : w.Missed table next bytes) : OperandKind.targetTable ∉ w.kinds := by
  cases missed <;> decide

/-- Numbers of one and two bytes are slots. -/
theorem slot?_isSome_of_lt {n : Nat} (small : n < 0x10000) : (Operand.int .int n).slot?.isSome = true := by
  simp only [Operand.slot?, Operand.integer?]
  rw [if_pos (by omega)]
  rfl

theorem int32?_isSome_of_fits {v : Int} (fits : FitsSigned 4 v) : (Operand.int .int32 v).int32?.isSome = true := by
  have four : (capacity 4 : Int) = 0x100000000 := rfl
  obtain ⟨least, most⟩ := fits
  simp only [Operand.int32?, Operand.integer?]
  rw [if_pos (by omega)]
  rfl

theorem target?_isSome_iff {v : Int} : (Operand.int .int v).target?.isSome = false ↔ v < 0 := by
  simp only [Operand.target?, Operand.integer?]
  split
  · simp only [Option.isSome_some, Bool.true_eq_false, false_iff]
    omega
  · simp only [Option.isSome_none, true_iff]
    omega

section

variable {table : TokenTable} {next : Nat} {bytes : Text} {kind : OperandKind} {w : Wanted}

/-- A slot that is read is one. -/
theorem slot_of_read (asked : kind ∈ [OperandKind.shortVar, .var]) (sized : kind.shape.Sized bytes) :
    (readOperand table next bytes kind).slot?.isSome = true := by
  have range := littleEndian_lt bytes
  simp only [List.mem_cons, List.not_mem_nil, or_false] at asked
  rcases asked with rfl | rfl
  · have one : bytes.length = 1 := sized
    rw [one] at range
    exact slot?_isSome_of_lt (Nat.lt_trans range (by decide))
  · have two : bytes.length = 2 := sized
    rw [two] at range
    exact slot?_isSome_of_lt range

/-- A constant of 32 bits that is read is one, from one byte or from four. -/
theorem int32_of_read (asked : kind ∈ [OperandKind.shortInt, .int32]) (sized : kind.shape.Sized bytes) :
    (readOperand table next bytes kind).int32?.isSome = true := by
  obtain ⟨least, most⟩ := fitsSigned_littleEndianSigned bytes
  have one_le_four : (capacity 1 : Int) ≤ capacity 4 := by decide
  simp only [List.mem_cons, List.not_mem_nil, or_false] at asked
  rcases asked with rfl | rfl
  · have one : bytes.length = 1 := sized
    rw [one] at least most
    exact int32?_isSome_of_fits ⟨by omega, by omega⟩
  · have four : bytes.length = 4 := sized
    rw [four] at least most
    exact int32?_isSome_of_fits ⟨least, most⟩

/-- A token is what is asked for exactly if a member is found for it. -/
theorem meets_member {α : Type} {found : Option α} {make : α → Operand} {t : UInt32}
    (member : ∀ a, (make a).meets w = true) (bare : (Operand.token t).meets w = false) :
    ((found.map make).getD (.token t)).meets w = false ↔ found = none := by
  cases found <;> simp [member, bare]

/-- What is read from bytes of the right number is what is asked for, but for what is missed. -/
theorem meets_readOperand (asked : kind ∈ w.kinds) (sized : kind.shape.Sized bytes) :
    (readOperand table next bytes kind).meets w = false ↔ w.Missed table next bytes := by
  have met (yes : (readOperand table next bytes kind).meets w = true) (never : ¬ w.Missed table next bytes) :
      (readOperand table next bytes kind).meets w = false ↔ w.Missed table next bytes := by simp [yes, never]
  cases w with
  | variableIndex | argumentIndex => exact met (slot_of_read asked sized) (by rintro ⟨⟩)
  | int32 => exact met (int32_of_read asked sized) (by rintro ⟨⟩)
  | nothing | int64 | float32 | float64 | targets =>
    obtain rfl := List.mem_singleton.1 asked
    exact met rfl (by rintro ⟨⟩)
  | string =>
    obtain rfl := List.mem_singleton.1 asked
    exact (meets_member (fun _ => rfl) rfl).trans ⟨.string, by rintro ⟨⟩; assumption⟩
  | method =>
    obtain rfl := List.mem_singleton.1 asked
    exact (meets_member (fun _ => rfl) rfl).trans ⟨.method, by rintro ⟨⟩; assumption⟩
  | field =>
    obtain rfl := List.mem_singleton.1 asked
    exact (meets_member (fun _ => rfl) rfl).trans ⟨.field, by rintro ⟨⟩; assumption⟩
  | target =>
    simp only [Wanted.kinds, List.mem_cons, List.not_mem_nil, or_false] at asked
    rcases asked with rfl | rfl
    all_goals exact target?_isSome_iff.trans ⟨.target, by rintro ⟨⟩; assumption⟩

end

/-! ## Instructions in the code -/

namespace Opcode

/-- The bytes of an operand of fixed size, behind the opcode at `start`. -/
def operandAt (o : Opcode) (code : Text) (start : Nat) : Text :=
  (code.drop (start + o.code.bytes.length)).take o.operand.size

/-- The token behind the opcode at `start`. -/
def tokenAt (o : Opcode) (code : Text) (start : Nat) : UInt32 := (littleEndian (o.operandAt code start)).toUInt32

/-- Where the branch at `start` leads: its distance counts from the following instruction. -/
def targetAt (o : Opcode) (code : Text) (start : Nat) : Int :=
  (start + o.code.bytes.length + o.operand.size : Nat) + littleEndianSigned (o.operandAt code start)

/-- The instruction at `start` asks for a string, a method or a field that is not resolved, or it is a branch,
other than a switch, to a target below zero. -/
inductive Unfit (table : TokenTable) (code : Text) (start : Nat) (o : Opcode) : Prop where
  | string (name : o.name = "ldstr") (unresolved : table.string? (o.tokenAt code start) = none)
  | method (name : o.name ∈ ["call", "callvirt", "newobj"])
      (unresolved : table.method? (o.tokenAt code start) = none)
  | field (name : o.name ∈ ["ldfld", "ldflda", "stfld", "ldsfld", "ldsflda", "stsfld"])
      (unresolved : table.field? (o.tokenAt code start) = none)
  | branch (flow : o.flow = .branch ∨ o.flow = .conditional) (single : o.name ≠ "switch")
      (negative : o.targetAt code start < 0)

/-- The rows that ask for a member or for a target, by their mnemonics and by the way control leaves them. -/
theorem wanted?_iff : ∀ o ∈ Opcode.all,
    (o.form.wanted? = some .string ↔ o.name = "ldstr") ∧
    (o.form.wanted? = some .method ↔ o.name ∈ ["call", "callvirt", "newobj"]) ∧
    (o.form.wanted? = some .field ↔ o.name ∈ ["ldfld", "ldflda", "stfld", "ldsfld", "ldsflda", "stsfld"]) ∧
    (o.form.wanted? = some .target ↔ (o.flow = .branch ∨ o.flow = .conditional) ∧ o.name ≠ "switch") := by
  decide +kernel

theorem unfit_iff {o : Opcode} (member : o ∈ Opcode.all) {table : TokenTable} {code : Text} {start : Nat} :
    o.Unfit table code start ↔ ∃ w, o.form.wanted? = some w ∧
      w.Missed table (start + o.code.bytes.length + o.operand.size) (o.operandAt code start) := by
  obtain ⟨string, method, field, target⟩ := wanted?_iff o member
  constructor
  · intro unfit
    cases unfit with
    | string name unresolved => exact ⟨_, string.2 name, .string unresolved⟩
    | method name unresolved => exact ⟨_, method.2 name, .method unresolved⟩
    | field name unresolved => exact ⟨_, field.2 name, .field unresolved⟩
    | branch flow single negative => exact ⟨_, target.2 ⟨flow, single⟩, .target negative⟩
  · rintro ⟨w, asked, missed⟩
    cases missed with
    | string unknown => exact .string (string.1 asked) unknown
    | method unknown => exact .method (method.1 asked) unknown
    | field unknown => exact .field (field.1 asked) unknown
    | target negative => exact .branch (target.1 asked).1 (target.1 asked).2 negative

end Opcode

namespace RawInstruction

/-- The instruction is one that decoding refuses, by the code it was read from. -/
def Unfit (table : TokenTable) (code : Text) (r : RawInstruction) : Prop :=
  ∃ o ∈ Opcode.all, o.code = r.code ∧ o.Unfit table code r.offset.toNat

/-- An opcode without an operand was read without one. -/
theorem action_placed {b : UInt8} {bytes : Text} {c : Cut} (cut : cutInstruction b bytes = .ok c)
    (table : TokenTable) (start : Nat) :
    (c.placed table start).action =
      (readOperand table (start + c.size) c.operand c.opcode.operand).action c.opcode.form := by
  obtain ⟨member, -, -⟩ := cutInstruction_eq_ok_iff.1 cut
  simp only [action, Cut.placed, Code.opcode?_eq_some_iff.2 ⟨member, rfl⟩]
  refine if_neg ?_
  rintro ⟨none, given⟩
  rw [none] at given
  exact given rfl

/-- An instruction that was read is refused exactly if it is unfit. -/
theorem refused_iff_unfit (table : TokenTable) {before bytes : Text} {b : UInt8} {c : Cut}
    (cut : cutInstruction b bytes = .ok c) :
    (∃ w, (c.placed table before.length).action = .error w) ↔
      (c.placed table before.length).Unfit table (before ++ b :: bytes) := by
  obtain ⟨member, sized, whole⟩ := cutInstruction_eq_ok_iff.1 cut
  have own : (c.placed table before.length).Unfit table (before ++ b :: bytes) ↔
      c.opcode.Unfit table (before ++ b :: bytes) before.length := by
    constructor
    · rintro ⟨o, among, code, unfit⟩
      obtain rfl := Opcode.eq_of_code_eq among member code
      exact unfit
    · exact fun unfit => ⟨c.opcode, member, rfl, unfit⟩
  rw [own, Opcode.unfit_iff member, action_placed cut]
  simp only [Operand.action_eq_error_iff]
  refine exists_congr fun w => and_congr_right fun asked => ?_
  have among := Opcode.operand_mem_kinds _ member w asked
  rw [meets_readOperand among sized]
  by_cases switch : c.opcode.operand = .targetTable
  · rw [switch] at among
    exact iff_of_false (fun missed => missed.fixed among) (fun missed => missed.fixed among)
  · -- Behind the opcode lie the bytes of the operand, as many as its kind says.
    have length := OperandKind.length_of_sized sized switch
    have operand : c.opcode.operandAt (before ++ b :: bytes) before.length = c.operand := by
      rw [Opcode.operandAt, ← List.drop_drop, List.drop_left, whole, List.drop_left, ← length, List.take_left]
    rw [operand, ← length, Nat.add_assoc, Cut.size, length_code_bytes]

end RawInstruction

/-! ## The first refusal -/

theorem RawInstruction.decode_eq_error {k : Nat} {r : RawInstruction} {e : DecodeError} (h : r.decode k = .error e) :
    r.action = .error e.wanted ∧ e.index = k ∧ e.instruction = r := by
  simp only [RawInstruction.decode] at h
  cases action : r.action with
  | ok a =>
    rw [action] at h
    cases h
  | error w =>
    rw [action] at h
    cases h
    exact ⟨rfl, rfl, rfl⟩

/-- A body that is refused is refused at one of its instructions, and nothing before it is. -/
theorem split_of_decodeFrom_error {k : Nat} {raw : List RawInstruction} {e : DecodeError}
    (h : decodeFrom k raw = .error e) :
    ∃ before after, raw = before ++ e.instruction :: after ∧ e.index = k + before.length ∧
      e.instruction.action = .error e.wanted ∧ ∀ r ∈ before, ∃ a, r.action = .ok a := by
  induction raw generalizing k with
  | nil => cases h
  | cons r rest ih =>
    simp only [decodeFrom, bind, Except.bind] at h
    cases first : r.decode k with
    | error stop =>
      rw [first] at h
      cases h
      obtain ⟨refused, index, rfl⟩ := RawInstruction.decode_eq_error first
      exact ⟨[], rest, rfl, index, refused, by simp⟩
    | ok x =>
      rw [first] at h
      cases later : decodeFrom (k + 1) rest with
      | ok xs =>
        rw [later] at h
        cases h
      | error stop =>
        rw [later] at h
        cases h
        obtain ⟨before, after, rfl, index, refused, fine⟩ := ih later
        refine ⟨r :: before, after, rfl, ?_, refused, ?_⟩
        · simp only [index, List.length_cons]
          omega
        · obtain ⟨accepted, -⟩ := RawInstruction.decode_eq_ok.1 first
          exact List.forall_mem_cons.2 ⟨⟨_, accepted⟩, fine⟩

/-- A body that is accepted is accepted instruction by instruction, each at its position. -/
theorem decodeFrom_eq_ok {k : Nat} {raw : List RawInstruction} {insts : List Instruction}
    (h : decodeFrom k raw = .ok insts) :
    (∀ r ∈ raw, ∃ a, r.action = .ok a) ∧
      insts.map (fun x => (x.index, x.offset, x.code)) = (raw.zipIdx k).map fun p => (p.2, p.1.offset, p.1.code) := by
  induction raw generalizing k insts with
  | nil =>
    cases h
    exact ⟨by simp, rfl⟩
  | cons r rest ih =>
    obtain ⟨x, xs, rfl, first, later⟩ := decodeFrom_cons_eq_ok.1 h
    obtain ⟨fine, placed⟩ := ih later
    obtain ⟨accepted, index, offset, code⟩ := RawInstruction.decode_eq_ok.1 first
    refine ⟨List.forall_mem_cons.2 ⟨⟨_, accepted⟩, fine⟩, ?_⟩
    rw [List.map_cons, placed, List.zipIdx_cons, List.map_cons, index, offset, code]

/-- In a body that was read, the instructions that decoding refuses are those that are unfit. -/
theorem refused_iff_unfit_of_mem {table : TokenTable} {code : Text} {raw : List RawInstruction}
    (split : read table code = .ok raw) {r : RawInstruction} (member : r ∈ raw) :
    (∃ w, r.action = .error w) ↔ r.Unfit table code := by
  obtain ⟨before, b, bytes, c, rfl, cut, rfl⟩ := exists_piece_of_mem split member
  rw [Nat.zero_add]
  exact RawInstruction.refused_iff_unfit table cut

/-- A body that was read is refused exactly if one of its instructions names a string, a method or a field that
is not resolved, or branches to before the body. The refusal names the first such instruction and its position.
Otherwise there is one decoded instruction for each that was read, with its position, its offset and its code. -/
theorem decode_of_read {table : TokenTable} {code : Text} {raw : List RawInstruction}
    (split : read table code = .ok raw) :
    ((∃ e, decode raw = .error e) ↔ ∃ r ∈ raw, r.Unfit table code) ∧
    (∀ e, decode raw = .error e → ∃ before after, raw = before ++ e.instruction :: after ∧
      e.index = before.length ∧ e.instruction.Unfit table code ∧ ∀ r ∈ before, ¬ r.Unfit table code) ∧
    ∀ insts, decode raw = .ok insts →
      insts.map (fun x => (x.index, x.offset, x.code)) = raw.zipIdx.map fun p => (p.2, p.1.offset, p.1.code) := by
  have refused {r : RawInstruction} (member : r ∈ raw) := refused_iff_unfit_of_mem split member
  have fit {r : RawInstruction} (member : r ∈ raw) (accepted : ∃ a, r.action = .ok a) : ¬ r.Unfit table code := by
    intro unfit
    obtain ⟨w, error⟩ := (refused member).2 unfit
    obtain ⟨a, ok⟩ := accepted
    rw [error] at ok
    cases ok
  have named (e : DecodeError) (stopped : decode raw = .error e) : ∃ before after,
      raw = before ++ e.instruction :: after ∧ e.index = before.length ∧ e.instruction.Unfit table code ∧
        ∀ r ∈ before, ¬ r.Unfit table code := by
    obtain ⟨before, after, whole, index, wrong, fine⟩ := split_of_decodeFrom_error stopped
    refine ⟨before, after, whole, by omega, (refused (by simp [whole])).1 ⟨_, wrong⟩, ?_⟩
    intro r earlier
    exact fit (by simp [whole, earlier]) (fine r earlier)
  refine ⟨⟨?_, ?_⟩, named, fun insts decoded => (decodeFrom_eq_ok decoded).2⟩
  · rintro ⟨e, stopped⟩
    obtain ⟨before, after, whole, -, unfit, -⟩ := named e stopped
    exact ⟨e.instruction, by simp [whole], unfit⟩
  · rintro ⟨r, member, unfit⟩
    cases outcome : decode raw with
    | error e => exact ⟨e, rfl⟩
    | ok insts => exact absurd unfit (fit member ((decodeFrom_eq_ok outcome).1 r member))

/-- A string that the table knows, a branch to the start, a call of a method that it does not know, and a branch
to two bytes before the body. -/
def astray : Text := [0x72, 1, 0, 0, 0x70, 0x2B, 0xF9, 0x28, 9, 0, 0, 0x0A, 0x2B, 0xF0]

/-- A switch to seven bytes before the body, and a cast to a type that no table knows. -/
def tolerated : Text := [0x45, 1, 0, 0, 0, 0xF0, 0xFF, 0xFF, 0xFF, 0x74, 3, 0, 0, 1]

/-- A table with one string. -/
def letters : TokenTable where
  strings := [(0x70000001, "letter")]

def astrayBody : List RawInstruction :=
  [⟨0, ⟨0x72⟩, .text "letter"⟩, ⟨5, ⟨0x2B⟩, .int .int 0⟩, ⟨7, ⟨0x28⟩, .token 0x0A000009⟩, ⟨12, ⟨0x2B⟩, .int .int (-2)⟩]

def toleratedBody : List RawInstruction := [⟨0, ⟨0x45⟩, .offsets [-7]⟩, ⟨9, ⟨0x74⟩, .token 0x01000003⟩]

theorem decode_of_read_astray :
    read letters astray = .ok astrayBody ∧
    decode astrayBody = .error ⟨2, ⟨7, ⟨0x28⟩, .token 0x0A000009⟩, .method⟩ ∧
    (⟨7, ⟨0x28⟩, .token 0x0A000009⟩ : RawInstruction).Unfit letters astray ∧
    read letters tolerated = .ok toleratedBody ∧ (¬ ∃ r ∈ toleratedBody, r.Unfit letters tolerated) ∧
    ∃ insts, decode toleratedBody = .ok insts ∧
      insts.map (fun x => (x.index, x.offset, x.code)) = [(0, 0, ⟨0x45⟩), (1, 9, ⟨0x74⟩)] := by
  have pieces : read letters astray = .ok _ := readFrom_cons_eq_ok rfl <| readFrom_cons_eq_ok rfl <|
    readFrom_cons_eq_ok rfl <| readFrom_cons_eq_ok rfl <| readFrom_nil letters _
  have split : read letters astray = .ok astrayBody := pieces.trans (congrArg Except.ok (by decide +kernel))
  have stopped : decode astrayBody = .error ⟨2, ⟨7, ⟨0x28⟩, .token 0x0A000009⟩, .method⟩ := by rfl
  have pieces : read letters tolerated = .ok _ := readFrom_cons_eq_ok rfl <| readFrom_cons_eq_ok rfl <|
    readFrom_nil letters _
  have whole : read letters tolerated = .ok toleratedBody := pieces.trans (congrArg Except.ok (by decide +kernel))
  obtain ⟨insts, decoded⟩ : ∃ insts, decode toleratedBody = .ok insts := ⟨_, rfl⟩
  obtain ⟨refusals, -, placed⟩ := decode_of_read whole
  obtain ⟨before, after, -, -, unfit, -⟩ := (decode_of_read split).2.1 _ stopped
  refine ⟨split, stopped, unfit, whole, ?_, insts, decoded, placed insts decoded⟩
  intro found
  obtain ⟨e, refused⟩ := refusals.2 found
  rw [refused] at decoded
  cases decoded

end CilAudit
