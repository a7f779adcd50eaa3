import CilAudit.Text.Numeral

/-!
# Opcodes

What the instruction set says of an opcode: its mnemonic, the operand that follows it, how
many values it takes from and leaves on the evaluation stack, how control leaves it, and
the form of the instruction it makes.
-/

set_option autoImplicit false

namespace CilAudit

/-- The number of an opcode. A two-byte opcode has `0xFE` in its high byte. -/
structure Code where
  value : UInt16
  deriving DecidableEq, Repr

/-- The inline operand that follows an opcode. -/
inductive OperandKind where
  | none
  | shortVar
  | var
  | shortInt
  | int32
  | int64
  | float32
  | float64
  | string
  | method
  | field
  | type
  | token
  | signature
  | shortTarget
  | target
  | targetTable
  deriving DecidableEq, Repr

/-- How control leaves an instruction. -/
inductive Flow where
  | next
  | branch
  | conditional
  | call
  | exit
  | throw
  | modifier
  deriving DecidableEq, Repr

/-- The relation tested by a conditional branch or a comparison. -/
inductive Condition where
  | isTrue
  | isFalse
  | eq
  | ne
  | ge
  | gt
  | le
  | lt
  deriving DecidableEq, Repr

/-- What an opcode does, as far as the analyses tell opcodes apart. A slot or a constant is
`none` when the operand gives it. -/
inductive Form where
  | loadLocal (slot : Option Nat)
  | loadLocalAddress
  | storeLocal (slot : Option Nat)
  | loadArg (slot : Option Nat)
  | loadArgAddress
  | storeArg
  | loadInt32 (value : Option Int)
  | loadInt64
  | loadFloat32
  | loadFloat64
  | loadString
  | loadNull
  | loadField (static address : Bool)
  | storeField (static : Bool)
  | branch (leave : Bool)
  | branchIf (cond : Condition) (unsigned : Bool)
  | switch
  | compare (cond : Condition) (unsigned : Bool)
  | call (virtual : Bool)
  | newObject
  | ret
  | throw (rethrow : Bool)
  | other
  deriving DecidableEq, Repr

/-- One row of the instruction set. `pop` and `push` are `none` where they depend on the
operand. -/
structure Opcode where
  code : Code
  name : String
  operand : OperandKind
  pop : Option Nat
  push : Option Nat
  flow : Flow
  form : Form
  deriving DecidableEq, Repr

namespace OperandKind

/-- The number of bytes an operand takes; a table of targets has its own length. -/
def size : OperandKind → Nat
  | none | targetTable => 0
  | shortVar | shortInt | shortTarget => 1
  | var => 2
  | int32 | float32 | target | string | method | field | type | token | signature => 4
  | int64 | float64 => 8

end OperandKind

namespace Condition

def name : Condition → String
  | isTrue => "true"
  | isFalse => "false"
  | eq => "eq"
  | ne => "ne"
  | ge => "ge"
  | gt => "gt"
  | le => "le"
  | lt => "lt"

/-- The conditions in the order of their numbers. -/
def all : List Condition := [isTrue, isFalse, eq, ne, ge, gt, le, lt]

/-- The name of the condition with number `n`. -/
def nameOf (n : Nat) : String := (all[n]?.map name).getD "?"

end Condition

end CilAudit
