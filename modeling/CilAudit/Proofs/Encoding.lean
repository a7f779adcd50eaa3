import CilAudit.Proofs.InstructionSet
import CilAudit.Proofs.LittleEndian

/-!
# The format of encoded bodies

What an encoded body is, said by a writer: opcodes of the table, each with an operand that fits
its kind. The main statement is that reading without a table of tokens accepts exactly what the
writer writes, and gives back what was written.
-/

set_option autoImplicit false

namespace CilAudit

/-- How an operand is laid out. -/
inductive Shape where
  | empty
  | number (type : IntType) (signed : Bool) (width : Nat)
  | float32
  | float64
  /-- An offset, stored as its distance from the following instruction. -/
  | distance (width : Nat)
  /-- A count and as many distances, four bytes each. -/
  | table
  deriving DecidableEq, Repr

/-- Tokens are written bare. -/
def OperandKind.shape : OperandKind → Shape
  | none => .empty
  | shortVar => .number .int false 1
  | var => .number .int false 2
  | shortInt => .number .int32 true 1
  | int32 => .number .int32 true 4
  | int64 => .number .int64 true 8
  | float32 => .float32
  | float64 => .float64
  | shortTarget => .distance 1
  | target => .distance 4
  | targetTable => .table
  | string | method | field | type | token | signature => .number .uint32 false 4

namespace Shape

/-- The operand can be laid out so, before an instruction at offset `next`. -/
inductive Fits (next : Int) : Shape → Operand → Prop where
  | empty : Fits next empty .none
  | unsigned {type : IntType} {width : Nat} {v : Int} (range : FitsUnsigned width v) :
      Fits next (number type false width) (.int type v)
  | signed {type : IntType} {width : Nat} {v : Int} (range : FitsSigned width v) :
      Fits next (number type true width) (.int type v)
  | float32 (x : Single) : Fits next float32 (.float32 x)
  | float64 (x : Double) : Fits next float64 (.float64 x)
  | distance {width : Nat} {target : Int} (range : FitsSigned width (target - next)) :
      Fits next (distance width) (.int .int target)
  | table {targets : List Int} (count : targets.length < capacity 4)
      (range : ∀ t ∈ targets, FitsSigned 4 (t - next)) : Fits next table (.offsets targets)

/-- The number of bytes the operand takes. -/
def size : Shape → Operand → Nat
  | empty, _ => 0
  | number _ _ width, _ => width
  | float32, _ => 4
  | float64, _ => 8
  | distance width, _ => width
  | table, .offsets targets => 4 + 4 * targets.length
  | table, _ => 0

/-- The bytes of the operand, before an instruction at offset `next`. -/
def encode (next : Int) : Shape → Operand → Text
  | number _ _ width, .int _ v => bytesOf width v
  | float32, .float32 x => bytesOf 4 x.bits.toNat
  | float64, .float64 x => bytesOf 8 x.bits.toNat
  | distance width, .int _ target => bytesOf width (target - next)
  | table, .offsets targets => bytesOf 4 targets.length ++ targets.flatMap fun t => bytesOf 4 (t - next)
  | _, _ => []

end Shape

/-- The bytes of an opcode: its low byte, behind `0xFE` where the code has two. -/
def Code.bytes (c : Code) : Text :=
  if c.value < 0x100 then [c.value.toUInt8] else [0xFE, c.value.toUInt8]

/-- An opcode and its operand, as they are written. -/
structure Written where
  opcode : Opcode
  operand : Operand

namespace Written

/-- The number of bytes an instruction takes. -/
def size (w : Written) : Nat := w.opcode.code.bytes.length + w.opcode.operand.shape.size w.operand

/-- The bytes of an instruction at offset `start`. -/
def encode (start : Nat) (w : Written) : Text :=
  w.opcode.code.bytes ++ w.opcode.operand.shape.encode (start + w.size : Nat) w.operand

/-- The opcode is of the table and the operand fits it, at offset `start`. -/
def Fits (start : Nat) (w : Written) : Prop :=
  w.opcode ∈ Opcode.all ∧ w.opcode.operand.shape.Fits (start + w.size : Nat) w.operand

/-- The instruction that stands at offset `start`. -/
def placed (start : Nat) (w : Written) : RawInstruction := ⟨start, w.opcode.code, w.operand⟩

end Written

/-- The bytes of a body that starts at offset `start`. -/
def encodeFrom (start : Nat) : List Written → Text
  | [] => []
  | w :: rest => w.encode start ++ encodeFrom (start + w.size) rest

/-- The instructions of a body at their offsets, each after the sizes of those before. -/
def placedFrom (start : Nat) : List Written → List RawInstruction
  | [] => []
  | w :: rest => w.placed start :: placedFrom (start + w.size) rest

/-- Every instruction of a body fits where it stands. -/
def FitsFrom (start : Nat) : List Written → Prop
  | [] => True
  | w :: rest => w.Fits start ∧ FitsFrom (start + w.size) rest

/-! ## Operands -/

namespace Shape

/-- The operand that bytes of this shape stand for. -/
def read (next : Int) (bytes : Text) : Shape → Operand
  | empty => .none
  | number type false _ => .int type (littleEndian bytes)
  | number type true _ => .int type (littleEndianSigned bytes)
  | float32 => .float32 ⟨(littleEndian bytes).toUInt32⟩
  | float64 => .float64 ⟨(littleEndian bytes).toUInt64⟩
  | distance _ => .int .int (next + littleEndianSigned bytes)
  | table => .offsets ((words32 (bytes.drop 4)).map fun w => next + littleEndianSigned w)

/-- There are as many bytes as the shape takes; those of a table say so themselves. -/
def Sized (bytes : Text) : Shape → Prop
  | empty => bytes.length = 0
  | number _ _ width => bytes.length = width
  | float32 => bytes.length = 4
  | float64 => bytes.length = 8
  | distance width => bytes.length = width
  | table => 4 ≤ bytes.length ∧ bytes.length = 4 + 4 * littleEndian (bytes.take 4)

variable {shape : Shape} {next : Int} {x : Operand} {bytes : Text}

theorem Fits.length_encode (fits : shape.Fits next x) : (shape.encode next x).length = shape.size x := by
  cases fits with
  | table => simp [encode, size, Nat.mul_comm]
  | _ => simp [encode, size]

/-- What is written has the size of its shape. -/
theorem Fits.sized (fits : shape.Fits next x) : shape.Sized (shape.encode next x) := by
  cases fits with
  | @table targets count range =>
    simp [encode, Sized, littleEndian_of_lt count, Nat.mul_comm]
  | _ => simp [encode, Sized]

theorem Fits.read_encode (fits : shape.Fits next x) : shape.read next (shape.encode next x) = x := by
  cases fits with
  | empty => rfl
  | unsigned range => simp only [encode, read, littleEndian_of_fits range]
  | signed range => simp only [encode, read, littleEndianSigned_of_fits range]
  | float32 x => simp [encode, read, littleEndian_of_lt (show x.bits.toNat < capacity 4 from x.bits.toNat_lt)]
  | float64 x => simp [encode, read, littleEndian_of_lt (show x.bits.toNat < capacity 8 from x.bits.toNat_lt)]
  | distance range =>
    simp only [encode, read, littleEndianSigned_of_fits range]
    congr 1
    omega
  | @table targets count range =>
    have back : ∀ t ∈ targets, next + littleEndianSigned (bytesOf 4 (t - next)) = t := by
      intro t member
      rw [littleEndianSigned_of_fits (range t member)]
      omega
    simp only [encode, read, List.drop_left' (length_bytesOf _ _), words32_flatMap fun _ => length_bytesOf _ _,
      List.map_map, Function.comp_def]
    rw [List.map_congr_left back, List.map_id']

/-- What can be read fits, and is written as the bytes it was read from. -/
theorem Sized.fits_read (sized : shape.Sized bytes) (next : Int) :
    shape.Fits next (shape.read next bytes) ∧ shape.encode next (shape.read next bytes) = bytes := by
  have distance_fits (w : Text) : FitsSigned w.length (next + littleEndianSigned w - next) := by
    rw [show next + littleEndianSigned w - next = littleEndianSigned w by omega]
    exact fitsSigned_littleEndianSigned w
  have distance_bytes (w : Text) : bytesOf w.length (next + littleEndianSigned w - next) = w := by
    rw [show next + littleEndianSigned w - next = littleEndianSigned w by omega]
    exact bytesOf_littleEndianSigned w
  match shape with
  | empty => exact ⟨.empty, (List.length_eq_zero_iff.1 sized).symm⟩
  | number type false width =>
    obtain rfl : bytes.length = width := sized
    exact ⟨.unsigned (fitsUnsigned_littleEndian bytes), bytesOf_littleEndian bytes⟩
  | number type true width =>
    obtain rfl : bytes.length = width := sized
    exact ⟨.signed (fitsSigned_littleEndianSigned bytes), bytesOf_littleEndianSigned bytes⟩
  | float32 =>
    have four : bytes.length = 4 := sized
    refine ⟨.float32 _, ?_⟩
    rw [read, encode, toUInt32_littleEndian four, ← four, bytesOf_littleEndian]
  | float64 =>
    have eight : bytes.length = 8 := sized
    refine ⟨.float64 _, ?_⟩
    rw [read, encode, toUInt64_littleEndian eight, ← eight, bytesOf_littleEndian]
  | distance width =>
    obtain rfl : bytes.length = width := sized
    exact ⟨.distance (distance_fits bytes), distance_bytes bytes⟩
  | table =>
    obtain ⟨least, length⟩ : 4 ≤ bytes.length ∧ bytes.length = 4 + 4 * littleEndian (bytes.take 4) := sized
    have front : (bytes.take 4).length = 4 := List.length_take_of_le least
    have small : littleEndian (bytes.take 4) < capacity 4 := by
      simpa only [front] using littleEndian_lt (bytes.take 4)
    have counted : bytesOf 4 (littleEndian (bytes.take 4)) = bytes.take 4 := by
      simpa only [front] using bytesOf_littleEndian (bytes.take 4)
    have rest : (bytes.drop 4).length = 4 * littleEndian (bytes.take 4) := by
      rw [List.length_drop]
      omega
    obtain ⟨count, flatten, four⟩ := words32_whole _ rest
    refine ⟨.table ?_ ?_, ?_⟩
    · rwa [List.length_map, count]
    · intro t member
      obtain ⟨w, wordOf, rfl⟩ := List.mem_map.1 member
      exact four w wordOf ▸ distance_fits w
    · have same : ∀ w ∈ words32 (bytes.drop 4), bytesOf 4 (next + littleEndianSigned w - next) = w :=
        fun w member => four w member ▸ distance_bytes w
      rw [read, encode, List.length_map, count, counted, List.flatMap_map, List.flatMap_def,
        List.map_congr_left same, List.map_id', flatten, List.take_append_drop]

end Shape

/-- Without a table of tokens, what an operand is depends on its shape alone. -/
theorem readOperand_eq {kind : OperandKind} {bytes : Text} (sized : kind.shape.Sized bytes) (next : Nat) :
    readOperand {} next bytes kind = kind.shape.read next bytes := by
  have bare : bytes.length = 4 → Operand.token (littleEndian bytes).toUInt32 = .int .uint32 (littleEndian bytes) := by
    intro four
    rw [Operand.token, toUInt32_littleEndian four]
  cases kind with
  | string | method | field | type | token | signature => exact bare sized
  | _ => rfl

/-- The size asked for is the one that the shape gives, if the bytes suffice. -/
theorem operandSize_eq_ok_iff {kind : OperandKind} {bytes : Text} {n : Nat} (enough : n ≤ bytes.length) :
    operandSize kind bytes = .ok n ↔ kind.shape.Sized (bytes.take n) := by
  cases kind with
  | targetTable =>
    have front (four : 4 ≤ n) : (bytes.take n).take 4 = bytes.take 4 := by
      rw [List.take_take, Nat.min_eq_left four]
    simp only [operandSize, OperandKind.shape, Shape.Sized, List.length_take_of_le enough, ↓reduceIte]
    by_cases short : bytes.length < 4
    · simp only [short, ↓reduceIte]
      constructor
      · rintro ⟨⟩
      · rintro ⟨four, -⟩
        omega
    · simp only [short, ↓reduceIte]
      by_cases missing : (bytes.length - 4) / 4 < littleEndian (bytes.take 4)
      · simp only [missing, ↓reduceIte]
        constructor
        · rintro ⟨⟩
        · rintro ⟨four, size⟩
          rw [front four] at size
          omega
      · simp only [missing, ↓reduceIte, Except.ok.injEq]
        constructor
        · rintro rfl
          have four : 4 ≤ 4 + 4 * littleEndian (bytes.take 4) := by omega
          exact ⟨four, by rw [front four]⟩
        · rintro ⟨four, size⟩
          rw [front four] at size
          omega
  | _ => simp [operandSize, OperandKind.size, OperandKind.shape, Shape.Sized, enough, eq_comm]

/-! ## Opcodes -/

/-- No opcode is the byte that announces a second one, and every second byte is announced. -/
theorem Opcode.code_form : ∀ o ∈ Opcode.all,
    (o.code.value.toUInt8 ≠ 0xFE ∧ o.code = ⟨o.code.value.toUInt8.toUInt16⟩) ∨
      o.code = ⟨0xFE00 + o.code.value.toUInt8.toUInt16⟩ := by
  decide +kernel

theorem Code.bytes_short (b : UInt8) : Code.bytes ⟨b.toUInt16⟩ = [b] := by
  have small : b.toUInt16 < 0x100 := by
    have byte := b.toNat_lt
    simpa [UInt16.lt_iff_toNat_lt] using byte
  simp [Code.bytes, small]

theorem Code.bytes_long (b : UInt8) : Code.bytes ⟨0xFE00 + b.toUInt16⟩ = [0xFE, b] := by
  have value : (0xFE00 + b.toUInt16).toNat = 0xFE00 + b.toNat := by
    have byte := b.toNat_lt
    rw [UInt16.toNat_add, UInt8.toNat_toUInt16]
    exact Nat.mod_eq_of_lt (by simp only [UInt16.toNat_ofNat]; omega)
  have large : ¬ 0xFE00 + b.toUInt16 < 0x100 := by
    rw [UInt16.lt_iff_toNat_lt, value, show (0x100 : UInt16).toNat = 0x100 from rfl]
    omega
  have low : (0xFE00 + b.toUInt16).toUInt8 = b := by
    apply UInt8.toNat_inj.1
    rw [UInt16.toNat_toUInt8, value]
    have byte := b.toNat_lt
    omega
  simp [Code.bytes, large, low]

theorem cutOpcode_eq_ok_iff {b : UInt8} {bytes rest : Text} {o : Opcode} :
    cutOpcode b bytes = .ok (o, rest) ↔ o ∈ Opcode.all ∧ b :: bytes = o.code.bytes ++ rest := by
  constructor
  · intro cut
    simp only [cutOpcode] at cut
    split at cut
    case isTrue two =>
      split at cut
      · cases cut
      · split at cut
        case h_1 found =>
          obtain ⟨rfl, rfl⟩ : _ = o ∧ _ = rest := by simpa using cut
          obtain ⟨member, code⟩ := Code.opcode?_eq_some_iff.1 found
          exact ⟨member, by rw [code, Code.bytes_long, two]; rfl⟩
        case h_2 => cases cut
    case isFalse one =>
      split at cut
      case h_1 found =>
        obtain ⟨rfl, rfl⟩ : _ = o ∧ _ = rest := by simpa using cut
        obtain ⟨member, code⟩ := Code.opcode?_eq_some_iff.1 found
        exact ⟨member, by rw [code, Code.bytes_short]; rfl⟩
      case h_2 => cases cut
  · rintro ⟨member, split⟩
    rcases Opcode.code_form o member with ⟨one, code⟩ | code
    · rw [code, Code.bytes_short] at split
      obtain ⟨rfl, rfl⟩ := List.cons.inj split
      simp only [cutOpcode, if_neg one, Code.opcode?_eq_some_iff.2 ⟨member, code⟩]
    · rw [code, Code.bytes_long, List.cons_append, List.cons_append, List.nil_append] at split
      obtain ⟨rfl, rfl⟩ := List.cons.inj split
      simp only [cutOpcode, ↓reduceIte, Code.opcode?_eq_some_iff.2 ⟨member, code⟩]

/-! ## Instructions -/

theorem cutInstruction_eq_ok_iff {b : UInt8} {bytes : Text} {c : Cut} :
    cutInstruction b bytes = .ok c ↔
      c.opcode ∈ Opcode.all ∧ c.opcode.operand.shape.Sized c.operand ∧
        b :: bytes = c.opcode.code.bytes ++ (c.operand ++ c.rest) := by
  constructor
  · intro cut
    unfold cutInstruction at cut
    cases opcode : cutOpcode b bytes with
    | error cause => simp [opcode, bind, Except.bind] at cut
    | ok p =>
      obtain ⟨o, rest⟩ := p
      simp only [opcode, bind, Except.bind] at cut
      split at cut
      case h_1 => cases cut
      case h_2 n sized =>
        split at cut
        case isTrue => cases cut
        case isFalse enough =>
          obtain rfl := Except.ok.inj cut
          obtain ⟨member, front⟩ := cutOpcode_eq_ok_iff.1 opcode
          refine ⟨member, (operandSize_eq_ok_iff (Nat.le_of_not_lt enough)).1 sized, ?_⟩
          rw [List.take_append_drop, front]
  · rintro ⟨member, sized, front⟩
    have opcode := cutOpcode_eq_ok_iff.2 ⟨member, front⟩
    have size : operandSize c.opcode.operand (c.operand ++ c.rest) = .ok c.operand.length :=
      (operandSize_eq_ok_iff (by simp)).2 (by simpa using sized)
    simp [cutInstruction, opcode, size, bind, Except.bind]

theorem Code.bytes_eq_cons (c : Code) : ∃ b rest, c.bytes = b :: rest := by
  unfold Code.bytes
  split <;> exact ⟨_, _, rfl⟩

theorem length_code_bytes (o : Opcode) : o.code.bytes.length = Cut.opcodeSize o := by
  unfold Code.bytes Cut.opcodeSize
  split <;> rfl

theorem Cut.size_pos (c : Cut) : 0 < c.size := by
  unfold Cut.size Cut.opcodeSize
  split <;> omega

/-- One step of the reader. -/
theorem readFrom_cons_of_cut (table : TokenTable) {b : UInt8} {bytes : Text} {c : Cut}
    (cut : cutInstruction b bytes = .ok c) (start : Nat) :
    readFrom table start (b :: bytes) =
      (readFrom table (start + c.size) c.rest).map
        (⟨start, c.opcode.code, readOperand table (start + c.size) c.operand c.opcode.operand⟩ :: ·) := by
  rw [readFrom]
  split
  case h_1 cause refused =>
    rw [cut] at refused
    cases refused
  case h_2 c' cut' =>
    obtain rfl : c = c' := Except.ok.inj (cut.symm.trans cut')
    rfl

theorem readFrom_cons_of_refused (table : TokenTable) {b : UInt8} {bytes : Text} {cause : ReadCause}
    (refused : cutInstruction b bytes = .error cause) (start : Nat) :
    readFrom table start (b :: bytes) = .error ⟨start, cause⟩ := by
  rw [readFrom]
  split
  case h_1 cause' refused' =>
    obtain rfl : cause = cause' := Except.error.inj (refused.symm.trans refused')
    rfl
  case h_2 c cut =>
    rw [refused] at cut
    cases cut

/-- Without a table of tokens, a step goes by the shape of the operand. -/
theorem readFrom_of_cut {b : UInt8} {bytes : Text} {c : Cut} (cut : cutInstruction b bytes = .ok c) (start : Nat) :
    readFrom {} start (b :: bytes) =
      (readFrom {} (start + c.size) c.rest).map
        (⟨start, c.opcode.code, c.opcode.operand.shape.read (start + c.size : Nat) c.operand⟩ :: ·) := by
  obtain ⟨-, sized, -⟩ := cutInstruction_eq_ok_iff.1 cut
  rw [readFrom_cons_of_cut {} cut, readOperand_eq sized]

/-- **Reading back.** What is written is read, at its offsets. -/
theorem readFrom_encodeFrom {l : List Written} {start : Nat} (fits : FitsFrom start l) :
    readFrom {} start (encodeFrom start l) = .ok (placedFrom start l) := by
  induction l generalizing start with
  | nil => simp [encodeFrom, placedFrom, readFrom]
  | cons w rest ih =>
    obtain ⟨⟨member, operand⟩, later⟩ := fits
    let cut : Cut := ⟨w.opcode, w.opcode.operand.shape.encode (start + w.size : Nat) w.operand,
      encodeFrom (start + w.size) rest⟩
    have size : cut.size = w.size := by
      rw [Cut.size, ← length_code_bytes, Written.size, operand.length_encode]
    obtain ⟨b, tail, first⟩ := w.opcode.code.bytes_eq_cons
    have whole : encodeFrom start (w :: rest) = b :: (tail ++ (cut.operand ++ cut.rest)) := by
      rw [encodeFrom, Written.encode, List.append_assoc, first, List.cons_append]
    have taken : cutInstruction b (tail ++ (cut.operand ++ cut.rest)) = .ok cut :=
      cutInstruction_eq_ok_iff.2 ⟨member, operand.sized, by rw [first, List.cons_append]⟩
    rw [whole, readFrom_of_cut taken, size, ih later, operand.read_encode]
    rfl

/-- **Writing back.** What can be read was written so. -/
theorem exists_of_readFrom {code : Text} {start : Nat} {raw : List RawInstruction}
    (read : readFrom {} start code = .ok raw) :
    ∃ l, FitsFrom start l ∧ encodeFrom start l = code ∧ placedFrom start l = raw := by
  match code with
  | [] =>
    obtain rfl : [] = raw := by simpa [readFrom] using read
    exact ⟨[], trivial, rfl, rfl⟩
  | b :: bytes =>
    cases cut : cutInstruction b bytes with
    | error cause =>
      rw [readFrom_cons_of_refused {} cut] at read
      cases read
    | ok c =>
      have shorter := cutInstruction_length cut
      obtain ⟨member, sized, whole⟩ := cutInstruction_eq_ok_iff.1 cut
      rw [readFrom_of_cut cut] at read
      cases rest : readFrom {} (start + c.size) c.rest with
      | error e => simp [rest, Except.map] at read
      | ok later =>
        obtain rfl : _ :: later = raw := by simpa [rest, Except.map] using read
        obtain ⟨l, fits, written, placed⟩ := exists_of_readFrom rest
        obtain ⟨operandFits, operandBytes⟩ := sized.fits_read (start + c.size : Nat)
        let w : Written := ⟨c.opcode, c.opcode.operand.shape.read (start + c.size : Nat) c.operand⟩
        have size : w.size = c.size := by
          rw [Written.size, ← operandFits.length_encode, operandBytes, Cut.size, length_code_bytes]
        refine ⟨w :: l, ⟨⟨member, by rw [size]; exact operandFits⟩, by rwa [size]⟩, ?_, ?_⟩
        · rw [encodeFrom, Written.encode, size, operandBytes, written, whole, List.append_assoc]
        · rw [placedFrom, size, placed]
          rfl
termination_by code.length

/-! ## Bodies -/

theorem Written.Fits.length_encode {w : Written} {start : Nat} (fits : w.Fits start) :
    (w.encode start).length = w.size := by
  rw [Written.encode, List.length_append, fits.2.length_encode, Written.size]

/-- An instruction stands behind the bytes of those before it. -/
theorem getElem?_placedFrom {l : List Written} {start : Nat} (fits : FitsFrom start l) (k : Nat) :
    (placedFrom start l)[k]? = l[k]?.map (Written.placed (start + (encodeFrom start (l.take k)).length)) := by
  induction l generalizing start k with
  | nil => simp [placedFrom]
  | cons w rest ih =>
    cases k with
    | zero => simp [placedFrom, encodeFrom]
    | succ k =>
      simp only [placedFrom, List.getElem?_cons_succ, ih fits.2 k, List.take_succ_cons, encodeFrom,
        List.length_append, fits.1.length_encode, Nat.add_assoc]

/-- **Reading is the inverse of writing.** What is written is read back, each instruction at the
total size of those before it; what is read was written so; and nothing else is accepted. -/
theorem read_inverse :
    (∀ l, FitsFrom 0 l → read {} (encodeFrom 0 l) = .ok (placedFrom 0 l) ∧
      ∀ k, (placedFrom 0 l)[k]? = l[k]?.map (Written.placed (encodeFrom 0 (l.take k)).length)) ∧
    (∀ code raw, read {} code = .ok raw →
      ∃ l, FitsFrom 0 l ∧ encodeFrom 0 l = code ∧ placedFrom 0 l = raw) ∧
    (∀ code, (∃ raw, read {} code = .ok raw) ↔ ∃ l, FitsFrom 0 l ∧ encodeFrom 0 l = code) := by
  refine ⟨fun l fits => ⟨readFrom_encodeFrom fits, fun k => ?_⟩, fun code raw => exists_of_readFrom, fun code => ?_⟩
  · rw [getElem?_placedFrom fits, Nat.zero_add]
  · constructor
    · rintro ⟨raw, read⟩
      obtain ⟨l, fits, written, -⟩ := exists_of_readFrom read
      exact ⟨l, fits, written⟩
    · rintro ⟨l, fits, rfl⟩
      exact ⟨_, readFrom_encodeFrom fits⟩

/-- A negative constant, a table with a target before and one behind it, an opcode of two bytes, a
token and a branch back. -/
def medley : List Written :=
  [⟨⟨⟨0x1F⟩, "ldc.i4.s", .shortInt, some 0, some 1, .next, .loadInt32 none⟩, .int .int32 (-3)⟩,
   ⟨⟨⟨0x45⟩, "switch", .targetTable, some 1, some 0, .conditional, .switch⟩, .offsets [0, 17]⟩,
   ⟨⟨⟨0xFE01⟩, "ceq", .none, some 2, some 1, .next, .compare .eq false⟩, .none⟩,
   ⟨⟨⟨0x72⟩, "ldstr", .string, some 0, some 1, .next, .loadString⟩, .int .uint32 0x70000001⟩,
   ⟨⟨⟨0x2B⟩, "br.s", .shortTarget, some 0, some 0, .branch, .branch false⟩, .int .int 2⟩]

theorem medley_fits : FitsFrom 0 medley := by
  refine ⟨⟨?_, .signed ?_⟩, ⟨?_, .table ?_ ?_⟩, ⟨?_, .empty⟩, ⟨?_, .unsigned ?_⟩, ⟨?_, .distance ?_⟩, trivial⟩
  all_goals decide +kernel

theorem read_inverse_medley :
    read {} [0x1F, 0xFD, 0x45, 2, 0, 0, 0, 0xF1, 0xFF, 0xFF, 0xFF, 2, 0, 0, 0, 0xFE, 0x01,
        0x72, 1, 0, 0, 0x70, 0x2B, 0xEA] =
      .ok [⟨0, ⟨0x1F⟩, .int .int32 (-3)⟩, ⟨2, ⟨0x45⟩, .offsets [0, 17]⟩, ⟨15, ⟨0xFE01⟩, .none⟩,
        ⟨17, ⟨0x72⟩, .int .uint32 0x70000001⟩, ⟨22, ⟨0x2B⟩, .int .int 2⟩] := by
  have bytes : encodeFrom 0 medley = [0x1F, 0xFD, 0x45, 2, 0, 0, 0, 0xF1, 0xFF, 0xFF, 0xFF, 2, 0, 0, 0,
      0xFE, 0x01, 0x72, 1, 0, 0, 0x70, 0x2B, 0xEA] := by
    decide +kernel
  rw [← bytes, (read_inverse.1 medley medley_fits).1]
  rfl

end CilAudit
