import CilAudit.Instruction

/-!
# Decoding

Each raw instruction becomes one decoded instruction, or the first operand that does not fit
its opcode is reported. An opcode outside the instruction set fits any operand.
-/

set_option autoImplicit false

namespace CilAudit

/-- The operand an opcode asks for. -/
inductive Wanted where
  | nothing
  | variableIndex
  | argumentIndex
  | int32
  | int64
  | float32
  | float64
  | string
  | field
  | target
  | targets
  | method
  deriving DecidableEq, Repr

def Wanted.name : Wanted → String
  | nothing => "no operand"
  | variableIndex => "variable index"
  | argumentIndex => "argument index"
  | int32 => "int32"
  | int64 => "int64"
  | float32 => "float32"
  | float64 => "float64"
  | string => "string"
  | field => "field reference"
  | target => "branch target"
  | targets => "switch targets"
  | method => "method reference"

/-- An instruction whose operand does not fit its opcode. -/
structure DecodeError where
  index : Nat
  instruction : RawInstruction
  wanted : Wanted
  deriving DecidableEq, Repr

namespace DecodeError

def message (e : DecodeError) : Text :=
  let operand := e.instruction.operand
  "il: " ++ offsetLabel e.instruction.offset ++ " " ++ e.instruction.code.mnemonic ++ ": operand " ++
    operand.typeName ++ " (" ++ operand.toText ++ "), want " ++ e.wanted.name

end DecodeError

namespace Operand

/-- What an instruction of the given form does with this operand, or what the form wants
instead. -/
def action (o : Operand) : Form → Except Wanted Action
  | .loadLocal (some n) => .ok (.loadLocal n false)
  | .loadLocal Option.none => o.slot?.elim (.error .variableIndex) fun n => .ok (.loadLocal n false)
  | .loadLocalAddress => o.slot?.elim (.error .variableIndex) fun n => .ok (.loadLocal n true)
  | .storeLocal (some n) => .ok (.storeLocal n)
  | .storeLocal Option.none => o.slot?.elim (.error .variableIndex) fun n => .ok (.storeLocal n)
  | .loadArg (some n) => .ok (.loadArg n false)
  | .loadArg Option.none => o.slot?.elim (.error .argumentIndex) fun n => .ok (.loadArg n false)
  | .loadArgAddress => o.slot?.elim (.error .argumentIndex) fun n => .ok (.loadArg n true)
  | .storeArg => o.slot?.elim (.error .argumentIndex) fun n => .ok (.storeArg n)
  | .loadInt32 (some v) => .ok (.loadConst (.int32 v))
  | .loadInt32 Option.none => o.int32?.elim (.error .int32) fun v => .ok (.loadConst (.int32 v))
  | .loadInt64 => o.integer?.elim (.error .int64) fun v => .ok (.loadConst (.int64 v))
  | .loadFloat32 => o.float?.elim (.error .float32) fun x => .ok (.loadConst (.float32 x.toSingle))
  | .loadFloat64 => o.float?.elim (.error .float64) fun x => .ok (.loadConst (.float64 x))
  | .loadString => match o with
    | text t => .ok (.loadString t)
    | _ => .error .string
  | .loadNull => .ok .loadNull
  | .loadField static address =>
    o.field?.elim (.error .field) fun f => .ok (.loadField f static address)
  | .storeField static => o.field?.elim (.error .field) fun f => .ok (.storeField f static)
  | .branch leave => o.target?.elim (.error .target) fun t => .ok (.branch t leave)
  | .branchIf cond unsigned =>
    o.target?.elim (.error .target) fun t => .ok (.branchIf t cond unsigned)
  | .switch => match o with
    | offsets ts => .ok (.switch ts)
    | _ => .error .targets
  | .compare cond unsigned => .ok (.compare cond unsigned)
  | .call virtual => o.method?.elim (.error .method) fun m => .ok (.call m virtual)
  | .newObject => o.method?.elim (.error .method) fun m => .ok (.newObject m)
  | .ret => .ok .ret
  | .throw rethrow => .ok (.throw rethrow)
  | .other => .ok (.other o)

end Operand

namespace RawInstruction

/-- What the instruction does, or what its opcode wants in place of its operand. -/
def action (r : RawInstruction) : Except Wanted Action :=
  match r.code.opcode? with
  | none => .ok (.other r.operand)
  | some o =>
    if o.operand = .none ∧ r.operand ≠ .none then .error .nothing else r.operand.action o.form

/-- The instruction at position `index` of a body. -/
def decode (index : Nat) (r : RawInstruction) : Except DecodeError Instruction :=
  match r.action with
  | .ok action => .ok ⟨index, r.offset, r.code, action⟩
  | .error wanted => .error ⟨index, r, wanted⟩

end RawInstruction

/-- Decodes a body whose first instruction has position `index`. -/
def decodeFrom (index : Nat) : List RawInstruction → Except DecodeError (List Instruction)
  | [] => .ok []
  | r :: rest => do
    let i ← r.decode index
    let is ← decodeFrom (index + 1) rest
    return i :: is

/-- Decodes a body; the first operand that does not fit is reported. -/
def decode (raw : List RawInstruction) : Except DecodeError (List Instruction) := decodeFrom 0 raw

end CilAudit
