import CilAudit.Binary.Notation
import CilAudit.Reference

/-!
# Operands

The operand that stands beside an opcode before the instruction is decoded. It is dynamic:
whether it fits its opcode is for decoding to say, so it carries its own type.
-/

set_option autoImplicit false

namespace CilAudit

/-- The integer types an operand can have. -/
inductive IntType where
  | int
  | int8
  | int16
  | int32
  | int64
  | uint8
  | uint16
  | uint32
  | uint64
  deriving DecidableEq, Repr

namespace IntType

def name : IntType → String
  | int => "int"
  | int8 => "int8"
  | int16 => "int16"
  | int32 => "int32"
  | int64 => "int64"
  | uint8 => "uint8"
  | uint16 => "uint16"
  | uint32 => "uint32"
  | uint64 => "uint64"

end IntType

/-- An operand. A handle is a reference that may be missing. -/
inductive Operand where
  | none
  | int (type : IntType) (value : Int)
  | float32 (value : Single)
  | float64 (value : Double)
  | text (value : Text)
  | bool (value : Bool)
  | offsets (values : List Int)
  | method (ref : MethodRef)
  | methodHandle (ref : Option MethodRef)
  | field (ref : FieldRef)
  | fieldHandle (ref : Option FieldRef)
  deriving DecidableEq, Repr

namespace Operand

/-- The name of the operand's type in messages. -/
def typeName : Operand → Text
  | none => "<nil>"
  | int t _ => t.name
  | float32 _ => "float32"
  | float64 _ => "float64"
  | text _ => "string"
  | bool _ => "bool"
  | offsets _ => "[]int"
  | method _ => "il.MethodRef"
  | methodHandle _ => "*il.MethodRef"
  | field _ => "il.FieldRef"
  | fieldHandle _ => "*il.FieldRef"

/-- The operand's value in messages and listings. -/
def toText : Operand → Text
  | none => "<nil>"
  | int _ n => Text.ofInt n
  | float32 x => x.toText
  | float64 x => x.toText
  | text t => t
  | bool b => if b then "true" else "false"
  | offsets l => "[" ++ Text.joinWith " " (l.map Text.ofInt) ++ "]"
  | method m => m.toText
  | methodHandle m => (m.map MethodRef.toText).getD "<nil>"
  | field f => f.toText
  | fieldHandle f => (f.map FieldRef.toText).getD "<nil>"

/-- A token that no table resolves. -/
def token (t : UInt32) : Operand := int .uint32 t.toNat

/-- The value of an integer that fits 64 signed bits by its type. -/
def integer? : Operand → Option Int
  | int .uint64 _ => Option.none
  | int _ n => some n
  | _ => Option.none

/-- The index of a local variable or an argument. -/
def slot? (o : Operand) : Option Nat :=
  match o.integer? with
  | some n => if 0 ≤ n ∧ n ≤ 0xFFFF then some n.toNat else Option.none
  | Option.none => Option.none

/-- The offset a branch leads to. -/
def target? (o : Operand) : Option Nat :=
  match o.integer? with
  | some n => if 0 ≤ n then some n.toNat else Option.none
  | Option.none => Option.none

/-- The value of an integer that fits 32 signed bits. -/
def int32? (o : Operand) : Option Int :=
  match o.integer? with
  | some n => if -0x80000000 ≤ n ∧ n < 0x80000000 then some n else Option.none
  | Option.none => Option.none

def float? : Operand → Option Double
  | float32 x => some x.toDouble
  | float64 x => some x
  | _ => Option.none

def method? : Operand → Option MethodRef
  | method m => some m
  | methodHandle m => m
  | _ => Option.none

def field? : Operand → Option FieldRef
  | field f => some f
  | fieldHandle f => f
  | _ => Option.none

end Operand

end CilAudit
