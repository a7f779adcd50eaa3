import CilAudit.Opcode.Table
import CilAudit.Operand
import CilAudit.Search

/-!
# Instructions

A raw instruction is an opcode with its operand at an offset; a decoded one says what it
does. A method body is a list of instructions in stream order.
-/

set_option autoImplicit false

namespace CilAudit

/-- An instruction before decoding. Branch operands hold absolute offsets, token operands the
member they resolve to, or the token itself. -/
structure RawInstruction where
  offset : Int
  code : Code
  operand : Operand
  deriving DecidableEq, Repr

/-- A literal value. -/
inductive Constant where
  | int32 (value : Int)
  | int64 (value : Int)
  | float32 (value : Single)
  | float64 (value : Double)
  deriving DecidableEq, Repr

/-- What a decoded instruction does. -/
inductive Action where
  | other (operand : Operand)
  | loadLocal (slot : Nat) (address : Bool)
  | loadArg (slot : Nat) (address : Bool)
  | loadConst (value : Constant)
  | loadString (value : Text)
  | loadNull
  | loadField (field : FieldRef) (static address : Bool)
  | storeLocal (slot : Nat)
  | storeArg (slot : Nat)
  | storeField (field : FieldRef) (static : Bool)
  | branch (target : Nat) (leave : Bool)
  | branchIf (target : Nat) (cond : Condition) (unsigned : Bool)
  | switch (targets : List Int)
  | compare (cond : Condition) (unsigned : Bool)
  | call (method : MethodRef) (virtual : Bool)
  | newObject (constructor : MethodRef)
  | ret
  | throw (rethrow : Bool)
  deriving DecidableEq, Repr

/-- A decoded instruction with its position in the body. -/
structure Instruction where
  index : Nat
  offset : Int
  code : Code
  action : Action
  deriving DecidableEq, Repr

/-- The kinds of action. -/
inductive Kind where
  | other
  | loadLocal
  | loadArg
  | loadConst
  | loadString
  | loadNull
  | loadField
  | storeLocal
  | storeArg
  | storeField
  | branch
  | branchIf
  | switch
  | compare
  | call
  | newObject
  | ret
  | throw
  deriving DecidableEq, Repr

namespace Kind

/-- The kinds in the order of their numbers. -/
def all : List Kind :=
  [other, loadLocal, loadArg, loadConst, loadString, loadNull, loadField, storeLocal, storeArg,
   storeField, branch, branchIf, switch, compare, call, newObject, ret, throw]

def name : Kind → String
  | other => "Other"
  | loadLocal => "LoadLocal"
  | loadArg => "LoadArg"
  | loadConst => "LoadConst"
  | loadString => "LoadString"
  | loadNull => "LoadNull"
  | loadField => "LoadField"
  | storeLocal => "StoreLocal"
  | storeArg => "StoreArg"
  | storeField => "StoreField"
  | branch => "Branch"
  | branchIf => "ConditionalBranch"
  | switch => "Switch"
  | compare => "Compare"
  | call => "Call"
  | newObject => "NewObject"
  | ret => "Return"
  | throw => "Throw"

/-- The name of the kind with number `n`. -/
def nameOf (n : Nat) : String := (all[n]?.map name).getD "Kind(?)"

end Kind

namespace Action

def kind : Action → Kind
  | other _ => .other
  | loadLocal .. => .loadLocal
  | loadArg .. => .loadArg
  | loadConst _ => .loadConst
  | loadString _ => .loadString
  | loadNull => .loadNull
  | loadField .. => .loadField
  | storeLocal _ => .storeLocal
  | storeArg _ => .storeArg
  | storeField .. => .storeField
  | branch .. => .branch
  | branchIf .. => .branchIf
  | switch _ => .switch
  | compare .. => .compare
  | call .. => .call
  | newObject _ => .newObject
  | ret => .ret
  | throw _ => .throw

end Action

namespace Constant

/-- The value of an integer constant. -/
def integer? : Constant → Option Int
  | int32 v => some v
  | int64 v => some v
  | _ => none

def toText : Constant → Text
  | int32 v => Text.ofInt v
  | int64 v => Text.ofInt v
  | float32 x => x.toText
  | float64 x => x.toText

end Constant

namespace Instruction

def kind (i : Instruction) : Kind := i.action.kind

/-- The value of an integer literal load. -/
def integer? (i : Instruction) : Option Int :=
  match i.action with
  | .loadConst c => c.integer?
  | _ => none

/-- The method a call or an object creation names. -/
def callee? (i : Instruction) : Option MethodRef :=
  match i.action with
  | .call m _ => some m
  | .newObject m => some m
  | _ => none

end Instruction

/-- Offsets as listings write them. -/
def offsetLabel (offset : Int) : Text := "IL_" ++ Text.hex 4 offset

/-- Does the instruction at an index stand before an offset? -/
def standsBefore (body : Array Instruction) (offset : Int) (i : Nat) : Option Bool :=
  body[i]?.map fun x => x.offset < offset

/-- The index that halving finds for an offset: the first whose instruction does not stand before it,
when the offsets ascend. -/
def lowerBound (body : Array Instruction) (offset : Int) : Nat :=
  halve (standsBefore body offset) 0 body.size

/-- The index of the instruction at a byte offset, by binary search. -/
def indexOf? (body : Array Instruction) (offset : Int) : Option Nat :=
  let i := lowerBound body offset
  match body[i]? with
  | some found => if found.offset = offset then some i else none
  | none => none

end CilAudit
