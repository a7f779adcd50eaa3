import CilAudit.Rule

/-!
# Rules on correctness

Code that does something else than it reads as.
-/

set_option autoImplicit false

namespace CilAudit

namespace MethodRef

/-- Is it the method `type::name`, whatever its signature? -/
def isNamed (r : MethodRef) (type name : Text) : Bool := r.declaringType = type && r.name = name

/-- The place of parameter `n` on the stack, counted from the top, when the method is called. -/
def depthOfParam (r : MethodRef) (n : Nat) : Nat := r.params.length - 1 - n

end MethodRef

namespace Instruction

def isZero (i : Instruction) : Bool := i.integer? = some 0

/-- Does it call the search of an array that gives -1 for "not found"? -/
def isIndexOf (i : Instruction) : Bool :=
  match i.action with
  | .call r _ =>
    r.isNamed "System.Array" "IndexOf" && r.returnType = "System.Int32"
      && r.genericArgs.length = 1 && r.params.length = 2
  | _ => false

/-- Does `load` read the value of the local that the instruction writes? -/
def storesFor (store load : Instruction) : Bool :=
  match store.action, load.action with
  | .storeLocal slot, .loadLocal slot' false => slot = slot'
  | _, _ => false

end Instruction

namespace Rule

/-- Does `p` hold of the instruction `distance` before `i`? -/
def holdsBack (c : MethodContext) (i distance : Nat) (p : Instruction → Bool) : Bool :=
  (c.back? i distance).any p

/-- Is the value stored at `store` before `i` read back at `load` before `i`? -/
def storedAndRead (c : MethodContext) (i store load : Nat) : Bool :=
  match c.back? i store, c.back? i load with
  | some s, some l => s.storesFor l
  | _, _ => false

/-- Is a search result compared with zero so that the first element counts as missing? The
    result may come straight from the call or through a local. -/
def comparesIndexOf (c : MethodContext) (i : Instruction) : Option Finding :=
  let zeroAt := fun d => holdsBack c i.index d Instruction.isZero
  let callAt := fun d => holdsBack c i.index d Instruction.isIndexOf
  let found := fun what : Text => some (Finding.mk what [])
  match i.action with
  | .branchIf _ .le _ =>
    if zeroAt 1 && storedAndRead c i.index 3 2 && callAt 4 then found "stored IndexOf <= 0"
    else if zeroAt 1 && callAt 2 then found "IndexOf <= 0"
    else none
  | .branchIf _ .ge _ =>
    if zeroAt 2 && storedAndRead c i.index 3 1 && callAt 4 then found "0 >= stored IndexOf"
    else none
  | .compare .gt _ =>
    if !zeroAt 1 then none
    else if storedAndRead c i.index 3 2 && callAt 4 then found "stored IndexOf > 0"
    else if callAt 2 then found "IndexOf > 0"
    else none
  | _ => none

/-- A search result tested with "greater than zero". -/
def arrayIndexOf : Rule :=
  firstInMethod "C1013" "ArrayIndexOf" [.branchIf, .compare] everyMethod comparesIndexOf

/-- Is the method an equality operator of a reference type? -/
def isReferenceEquality (c : MethodContext) : Bool :=
  !c.type.isValueType && (c.method.name = "op_Equality" || c.method.name = "op_Inequality")

def callsItself (c : MethodContext) (i : Instruction) : Option Finding :=
  match i.action with
  | .call r _ => if r.toText = c.method.fullName then some ⟨"recursive call", []⟩ else none
  | _ => none

/-- An equality operator of a reference type that calls itself. -/
def recursiveEquality : Rule :=
  firstInMethod "C1021" "RecursiveEquality" [.call] isReferenceEquality callsItself

end Rule

end CilAudit
