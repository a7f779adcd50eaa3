import CilAudit.Instruction

/-!
# Encoded bodies

A body in its binary form is a sequence of opcodes, one or two bytes each, followed by their
operands in little-endian order. Branches are stored relative to the instruction after them
and read as absolute offsets; tokens are read as the members a table gives for them.
-/

set_option autoImplicit false

namespace CilAudit

/-- The members that tokens stand for. Of two entries for a token the first counts. -/
structure TokenTable where
  strings : List (UInt32 × Text) := []
  methods : List (UInt32 × MethodRef) := []
  fields : List (UInt32 × FieldRef) := []
  types : List (UInt32 × Text) := []
  deriving DecidableEq, Repr

namespace TokenTable

def string? (t : TokenTable) (token : UInt32) : Option Text := t.strings.lookup token
def method? (t : TokenTable) (token : UInt32) : Option MethodRef := t.methods.lookup token
def field? (t : TokenTable) (token : UInt32) : Option FieldRef := t.fields.lookup token
def type? (t : TokenTable) (token : UInt32) : Option Text := t.types.lookup token

end TokenTable

/-- Why no instruction can be read. -/
inductive ReadCause where
  | truncatedOpcode
  | unknownOpcode (code : Code)
  | truncatedSwitch
  | truncatedSwitchTable
  | truncatedOperand (name : String)
  deriving DecidableEq, Repr

def ReadCause.message : ReadCause → Text
  | truncatedOpcode => "truncated two-byte opcode"
  | unknownOpcode code => "unknown opcode " ++ code.mnemonic
  | truncatedSwitch => "truncated switch"
  | truncatedSwitchTable => "truncated switch table"
  | truncatedOperand name => "truncated " ++ Text.ofString name ++ " operand"

/-- The offset of the first instruction that cannot be read, and why. -/
structure ReadError where
  offset : Nat
  cause : ReadCause
  deriving DecidableEq, Repr

def ReadError.message (e : ReadError) : Text :=
  "il: read at 0x" ++ Text.hex 4 e.offset ++ ": " ++ e.cause.message

/-- The value of bytes, least significant first. -/
def littleEndian : Text → Nat
  | [] => 0
  | b :: rest => b.toNat + 256 * littleEndian rest

/-- The value of bytes as a two's complement number. -/
def littleEndianSigned (bytes : Text) : Int := Int.bmod (littleEndian bytes) (1 <<< (8 * bytes.length))

/-- The consecutive groups of four bytes. -/
def words32 : Text → List Text
  | a :: b :: c :: d :: rest => [a, b, c, d] :: words32 rest
  | _ => []

/-- One instruction cut off the front of a body. -/
structure Cut where
  opcode : Opcode
  operand : Text
  rest : Text

namespace Cut

/-- The number of bytes the opcode takes. -/
def opcodeSize (o : Opcode) : Nat := if o.code.value < 0x100 then 1 else 2

/-- The number of bytes the instruction takes. -/
def size (c : Cut) : Nat := opcodeSize c.opcode + c.operand.length

end Cut

/-- The opcode at the front of a body that is not empty, and what follows it. -/
def cutOpcode (b : UInt8) (rest : Text) : Except ReadCause (Opcode × Text) :=
  let find (code : Code) (rest : Text) : Except ReadCause (Opcode × Text) :=
    match code.opcode? with
    | some o => .ok (o, rest)
    | none => .error (.unknownOpcode code)
  if b = 0xFE then
    match rest with
    | [] => .error .truncatedOpcode
    | b₂ :: rest => find ⟨0xFE00 + b₂.toUInt16⟩ rest
  else find ⟨b.toUInt16⟩ rest

/-- The number of bytes the operand at the front of `bytes` takes. -/
def operandSize (kind : OperandKind) (bytes : Text) : Except ReadCause Nat :=
  if kind = .targetTable then
    if bytes.length < 4 then .error .truncatedSwitch
    else
      let count := littleEndian (bytes.take 4)
      if (bytes.length - 4) / 4 < count then .error .truncatedSwitchTable else .ok (4 + 4 * count)
  else .ok kind.size

/-- The instruction at the front of a body that is not empty. -/
def cutInstruction (b : UInt8) (rest : Text) : Except ReadCause Cut := do
  let (opcode, rest) ← cutOpcode b rest
  let size ← operandSize opcode.operand rest
  if rest.length < size then .error (.truncatedOperand opcode.name)
  else .ok ⟨opcode, rest.take size, rest.drop size⟩

/-- The operand with the given bytes. Branches lead from `next`, the offset of the following
instruction. -/
def readOperand (table : TokenTable) (next : Nat) (bytes : Text) : OperandKind → Operand
  | .none => .none
  | .shortVar | .var => .int .int (littleEndian bytes)
  | .shortInt | .int32 => .int .int32 (littleEndianSigned bytes)
  | .int64 => .int .int64 (littleEndianSigned bytes)
  | .float32 => .float32 ⟨(littleEndian bytes).toUInt32⟩
  | .float64 => .float64 ⟨(littleEndian bytes).toUInt64⟩
  | .shortTarget | .target => .int .int (next + littleEndianSigned bytes)
  | .targetTable =>
    .offsets ((words32 (bytes.drop 4)).map fun w => (next : Int) + littleEndianSigned w)
  | .string => ((table.string? token).map .text).getD (.token token)
  | .method => ((table.method? token).map .method).getD (.token token)
  | .field => ((table.field? token).map .field).getD (.token token)
  | .type => ((table.type? token).map .text).getD (.token token)
  | .token | .signature => .token token
where
  token : UInt32 := (littleEndian bytes).toUInt32

theorem cutOpcode_length {b : UInt8} {bytes rest : Text} {o : Opcode}
    (h : cutOpcode b bytes = .ok (o, rest)) : rest.length ≤ bytes.length := by
  unfold cutOpcode at h
  simp only at h
  split at h
  · split at h
    · cases h
    · split at h
      · cases h; simp
      · cases h
  · split at h
    · cases h; simp
    · cases h

theorem cutInstruction_length {b : UInt8} {bytes : Text} {c : Cut}
    (h : cutInstruction b bytes = .ok c) : c.rest.length ≤ bytes.length := by
  unfold cutInstruction at h
  cases ho : cutOpcode b bytes with
  | error e => simp [ho, bind, Except.bind] at h
  | ok p =>
    have first := cutOpcode_length ho
    simp only [ho, bind, Except.bind] at h
    split at h
    · cases h
    · split at h
      · cases h
      · cases h
        simp only [List.length_drop]
        omega

/-- Splits the encoded body that starts at offset `start` into instructions. -/
def readFrom (table : TokenTable) (start : Nat) (code : Text) :
    Except ReadError (List RawInstruction) :=
  match code with
  | [] => .ok []
  | b :: bytes =>
    match h : cutInstruction b bytes with
    | .error cause => .error ⟨start, cause⟩
    | .ok c =>
      have : c.rest.length < (b :: bytes).length := by
        have := cutInstruction_length h
        simp only [List.length_cons]; omega
      let next := start + c.size
      let first := ⟨start, c.opcode.code, readOperand table next c.operand c.opcode.operand⟩
      (readFrom table next c.rest).map (first :: ·)
termination_by code.length
decreasing_by exact this

/-- Splits an encoded body into instructions. -/
def read (table : TokenTable) (code : Text) : Except ReadError (List RawInstruction) :=
  readFrom table 0 code

end CilAudit
