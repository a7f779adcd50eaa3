import CilAudit.Proofs.Encoding
import Mathlib.Data.List.Infix

/-!
# Bodies split off piece by piece

The reader takes one instruction after the other off the front of a body and looks at nothing behind
it. So what it reads of a body it reads of every longer one, and what follows is read as a body of its
own that is moved to a later offset. The first instruction that it cannot cut off is the place of its
error: the pieces before it are whole, and no front of what is left is.
-/

set_option autoImplicit false

namespace CilAudit

/-- The bytes of one instruction: an opcode of the table and an operand of the size it asks for. -/
def WholeInstruction (bytes : Text) : Prop :=
  ∃ o ∈ Opcode.all, ∃ operand, o.operand.shape.Sized operand ∧ bytes = o.code.bytes ++ operand

/-- All operands but tables have a size that their kind fixes. -/
theorem OperandKind.length_of_sized {kind : OperandKind} {bytes : Text} (sized : kind.shape.Sized bytes)
    (fixed : kind ≠ .targetTable) : bytes.length = kind.size := by
  cases kind with
  | targetTable => exact absurd rfl fixed
  | _ => exact sized

/-! ## Pieces -/

namespace Cut

variable {b : UInt8} {bytes : Text} {c : Cut}

/-- The instruction that is read from a piece at offset `start`. -/
def placed (table : TokenTable) (start : Nat) (c : Cut) : RawInstruction :=
  ⟨start, c.opcode.code, readOperand table (start + c.size) c.operand c.opcode.operand⟩

/-- The bytes of a piece. -/
def front (c : Cut) : Text := c.opcode.code.bytes ++ c.operand

@[simp] theorem length_front (c : Cut) : c.front.length = c.size := by
  rw [front, List.length_append, length_code_bytes, size]

/-- A piece is the front of what it was cut off. -/
theorem front_append_rest (cut : cutInstruction b bytes = .ok c) : b :: bytes = c.front ++ c.rest := by
  obtain ⟨-, -, whole⟩ := cutInstruction_eq_ok_iff.1 cut
  rw [whole, front, List.append_assoc]

/-- Where a piece ends does not depend on what follows. -/
theorem exists_again (cut : cutInstruction b bytes = .ok c) (more : Text) :
    ∃ b' bytes', c.front ++ more = b' :: bytes' ∧ cutInstruction b' bytes' = .ok { c with rest := more } := by
  obtain ⟨member, sized, -⟩ := cutInstruction_eq_ok_iff.1 cut
  obtain ⟨b', tail, first⟩ := c.opcode.code.bytes_eq_cons
  refine ⟨b', tail ++ (c.operand ++ more), by simp [front, first], cutInstruction_eq_ok_iff.2 ⟨member, sized, ?_⟩⟩
  rw [first, List.cons_append]

end Cut

/-- What starts with a whole instruction can be cut. -/
theorem WholeInstruction.exists_cut {bytes more : Text} {b : UInt8} {tail : Text} (whole : WholeInstruction bytes)
    (front : b :: tail = bytes ++ more) : ∃ c, cutInstruction b tail = .ok c := by
  obtain ⟨o, member, operand, sized, rfl⟩ := whole
  exact ⟨⟨o, operand, more⟩, cutInstruction_eq_ok_iff.2 ⟨member, sized, by rw [front, List.append_assoc]⟩⟩

/-- What holds of the empty body, where nothing can be cut off, and in front of what it holds of, holds
of every body at every offset. -/
theorem cut_induction {motive : Nat → Text → Prop} (nil : ∀ start, motive start [])
    (refused : ∀ start b bytes cause, cutInstruction b bytes = .error cause → motive start (b :: bytes))
    (cut : ∀ start b bytes c, cutInstruction b bytes = .ok c → motive (start + c.size) c.rest → motive start (b :: bytes))
    (start : Nat) (code : Text) : motive start code :=
  readFrom.induct {} motive nil refused (fun start b bytes c first _ => cut start b bytes c first) start code

theorem readFrom_nil (table : TokenTable) (start : Nat) : readFrom table start [] = .ok [] := by
  simp [readFrom]

/-- A piece is read in the same way whatever follows. -/
theorem readFrom_front_append (table : TokenTable) {b : UInt8} {bytes : Text} {c : Cut}
    (cut : cutInstruction b bytes = .ok c) (start : Nat) (more : Text) :
    readFrom table start (c.front ++ more) =
      (readFrom table (start + c.size) more).map (c.placed table start :: ·) := by
  obtain ⟨b', bytes', front, again⟩ := Cut.exists_again cut more
  rw [front]
  exact readFrom_cons_of_cut table again start

/-- The first step of a reader that gets through. -/
theorem readFrom_eq_ok_of_cut {table : TokenTable} {start : Nat} {b : UInt8} {bytes : Text} {c : Cut}
    {raw : List RawInstruction} (cut : cutInstruction b bytes = .ok c)
    (read : readFrom table start (b :: bytes) = .ok raw) :
    ∃ later, readFrom table (start + c.size) c.rest = .ok later ∧ raw = c.placed table start :: later := by
  rw [Cut.front_append_rest cut, readFrom_front_append table cut] at read
  cases rest : readFrom table (start + c.size) c.rest with
  | error e => simp [rest, Except.map] at read
  | ok later => exact ⟨later, rfl, by simpa [rest, Except.map] using read.symm⟩

/-- A piece in front of a body that is read. -/
theorem readFrom_cons_eq_ok {table : TokenTable} {start : Nat} {b : UInt8} {bytes : Text} {c : Cut}
    {later : List RawInstruction} (cut : cutInstruction b bytes = .ok c)
    (rest : readFrom table (start + c.size) c.rest = .ok later) :
    readFrom table start (b :: bytes) = .ok (c.placed table start :: later) := by
  rw [Cut.front_append_rest cut, readFrom_front_append table cut, rest]
  rfl

/-- What holds of the empty body, and in front of what it holds of, holds of every body that is read. -/
theorem readFrom_induction {table : TokenTable}
    {motive : ∀ start code raw, readFrom table start code = .ok raw → Prop} {start : Nat} {code : Text}
    {raw : List RawInstruction} (read : readFrom table start code = .ok raw)
    (nil : ∀ start, motive start [] [] (readFrom_nil table start))
    (cut : ∀ start b bytes c later (read : readFrom table start (b :: bytes) = .ok (c.placed table start :: later))
      (rest : readFrom table (start + c.size) c.rest = .ok later),
      cutInstruction b bytes = .ok c → motive _ _ _ rest → motive _ _ _ read) :
    motive start code raw read := by
  induction start, code using cut_induction generalizing raw with
  | nil start =>
    obtain rfl : [] = raw := by simpa [readFrom_nil] using read
    exact nil start
  | refused start b bytes cause refused =>
    rw [readFrom_cons_of_refused table refused] at read
    cases read
  | cut start b bytes c first ih =>
    obtain ⟨later, rest, rfl⟩ := readFrom_eq_ok_of_cut first read
    exact cut start b bytes c later read rest first (ih rest)

/-- Each instruction that is read is a piece, at the offset where the piece stands. -/
theorem exists_piece_of_mem {table : TokenTable} {start : Nat} {code : Text} {raw : List RawInstruction}
    (read : readFrom table start code = .ok raw) {r : RawInstruction} (member : r ∈ raw) :
    ∃ before b bytes c, code = before ++ b :: bytes ∧ cutInstruction b bytes = .ok c ∧
      r = c.placed table (start + before.length) := by
  induction read using readFrom_induction with
  | nil start => cases member
  | cut start b bytes c later read rest cut ih =>
    rcases List.mem_cons.1 member with rfl | later
    · exact ⟨[], b, bytes, c, rfl, cut, rfl⟩
    · obtain ⟨before, b', bytes', c', split, cut', rfl⟩ := ih later
      refine ⟨c.front ++ before, b', bytes', c', ?_, cut', ?_⟩
      · rw [Cut.front_append_rest cut, split, List.append_assoc]
      · rw [List.length_append, Cut.length_front, Nat.add_assoc]

/-! ## One body behind another -/

/-- The reader goes on behind what it has read. -/
theorem readFrom_append {table : TokenTable} {start : Nat} {code : Text} {raw : List RawInstruction}
    (read : readFrom table start code = .ok raw) (more : Text) :
    readFrom table start (code ++ more) = (readFrom table (start + code.length) more).map (raw ++ ·) := by
  induction read using readFrom_induction with
  | nil start =>
    rw [List.nil_append, List.length_nil, Nat.add_zero]
    cases readFrom table start more <;> rfl
  | cut start b bytes c later read rest cut ih =>
    rw [Cut.front_append_rest cut, List.append_assoc, readFrom_front_append table cut, ih, List.length_append,
      Cut.length_front, Nat.add_assoc]
    cases readFrom table (start + (c.size + c.rest.length)) more <;> rfl

/-! ## Moving a body -/

/-- An operand of an instruction that is moved by `d` bytes: offsets move along. -/
def Operand.shift (d : Nat) : OperandKind → Operand → Operand
  | .shortTarget, .int type target => .int type (target + d)
  | .target, .int type target => .int type (target + d)
  | .targetTable, .offsets targets => .offsets (targets.map (· + (d : Int)))
  | _, x => x

/-- The instruction moved by `d` bytes, with the targets of branches and switches. -/
def RawInstruction.shift (d : Nat) (r : RawInstruction) : RawInstruction where
  offset := r.offset + d
  code := r.code
  operand := (r.code.opcode?.map fun o => r.operand.shift d o.operand).getD r.operand

def ReadError.shift (d : Nat) (e : ReadError) : ReadError := { e with offset := e.offset + d }

theorem readOperand_shift (table : TokenTable) (next d : Nat) (bytes : Text) (kind : OperandKind) :
    readOperand table (next + d) bytes kind = (readOperand table next bytes kind).shift d kind := by
  cases kind with
  | shortTarget | target =>
    simp only [readOperand, Operand.shift]
    congr 1
    omega
  | targetTable =>
    simp only [readOperand, Operand.shift, List.map_map]
    congr 2
    funext w
    simp only [Function.comp_apply]
    omega
  | string | method | field | type =>
    simp only [readOperand, Operand.shift]
  | _ => rfl

theorem Cut.placed_shift {b : UInt8} {bytes : Text} {c : Cut} (cut : cutInstruction b bytes = .ok c)
    (table : TokenTable) (start d : Nat) : c.placed table (start + d) = (c.placed table start).shift d := by
  obtain ⟨member, -, -⟩ := cutInstruction_eq_ok_iff.1 cut
  simp only [placed, RawInstruction.shift, Code.opcode?_eq_some_iff.2 ⟨member, rfl⟩, Option.map_some, Option.getD_some,
    ← readOperand_shift]
  congr 2
  omega

/-- A body at a later offset is the same body, moved. -/
theorem readFrom_shift (table : TokenTable) (start d : Nat) (code : Text) :
    readFrom table (start + d) code =
      ((readFrom table start code).mapError (·.shift d)).map (List.map (·.shift d)) := by
  induction start, code using cut_induction with
  | nil start =>
    rw [readFrom_nil, readFrom_nil]
    rfl
  | refused start b bytes cause refused =>
    rw [readFrom_cons_of_refused table refused, readFrom_cons_of_refused table refused]
    rfl
  | cut start b bytes c cut ih =>
    rw [Cut.front_append_rest cut, readFrom_front_append table cut, readFrom_front_append table cut,
      Nat.add_right_comm, ih, Cut.placed_shift cut]
    cases readFrom table (start + c.size) c.rest <;> rfl

/-! ## The place of an error -/

/-- The reader fails at the first instruction that cannot be cut off, behind those that it has read. -/
theorem exists_of_readFrom_error {table : TokenTable} {start : Nat} {code : Text} {e : ReadError}
    (failed : readFrom table start code = .error e) :
    ∃ front b bytes raw, code = front ++ b :: bytes ∧ e.offset = start + front.length ∧
      readFrom table start front = .ok raw ∧ cutInstruction b bytes = .error e.cause := by
  induction start, code using cut_induction with
  | nil start =>
    rw [readFrom_nil] at failed
    cases failed
  | refused start b bytes cause refused =>
    obtain rfl : ⟨start, cause⟩ = e := by simpa [readFrom_cons_of_refused table refused] using failed
    exact ⟨[], b, bytes, [], rfl, rfl, readFrom_nil table start, refused⟩
  | cut start b bytes c cut ih =>
    rw [Cut.front_append_rest cut, readFrom_front_append table cut] at failed
    have later : readFrom table (start + c.size) c.rest = .error e := by
      cases rest : readFrom table (start + c.size) c.rest with
      | error e' => simpa [rest, Except.map] using failed
      | ok raw => simp [rest, Except.map] at failed
    obtain ⟨front, b', bytes', raw, split, offset, read, refused⟩ := ih later
    refine ⟨c.front ++ front, b', bytes', c.placed table start :: raw, ?_, ?_, ?_, refused⟩
    · rw [Cut.front_append_rest cut, split, List.append_assoc]
    · rw [offset, List.length_append, Cut.length_front, Nat.add_assoc]
    · rw [readFrom_front_append table cut, read]
      rfl

/-- Nothing at the place of an error is a whole instruction. -/
theorem not_whole_of_refused {b : UInt8} {bytes front : Text} {cause : ReadCause}
    (refused : cutInstruction b bytes = .error cause) (leads : front <+: b :: bytes) : ¬ WholeInstruction front := by
  intro whole
  obtain ⟨more, split⟩ := leads
  obtain ⟨c, cut⟩ := whole.exists_cut split.symm
  rw [refused] at cut
  cases cut

end CilAudit
