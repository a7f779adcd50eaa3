import CilAudit.Instruction

/-!
# Stack effect and control flow of one instruction

How many values an instruction takes and leaves, whether control can go on to the next
instruction, and where it goes when the instruction ends a basic block.
-/

set_option autoImplicit false

namespace CilAudit

/-- The number of values an instruction takes from the stack, then leaves on it. -/
structure Effect where
  pop : Nat
  push : Nat
  deriving DecidableEq, Repr

/-- Where control goes from an instruction that ends a basic block. -/
inductive Transfer where
  /-- To one offset, always. -/
  | jump (target : Int)
  /-- To one of the offsets, or on to the next instruction. -/
  | choice (targets : List Int)
  /-- Out of the body, or out of a handler. -/
  | leave
  deriving DecidableEq, Repr

namespace Transfer

def targets : Transfer → List Int
  | jump t => [t]
  | choice ts => ts
  | leave => []

/-- May control also go on to the next instruction? -/
def isConditional : Transfer → Bool
  | choice _ => true
  | _ => false

end Transfer

namespace Instruction

/-- The stack effect, if it does not depend on more than the instruction. A virtual call
always takes a receiver. -/
def effect? (i : Instruction) : Option Effect :=
  match i.action with
  | .call m virtual =>
    some ⟨m.argCount + (if virtual && !m.hasThis then 1 else 0), if m.returns then 1 else 0⟩
  | .newObject m => some ⟨m.params.length, 1⟩
  | _ => do
    let o ← i.code.opcode?
    return ⟨← o.pop, ← o.push⟩

/-- Can control go on to the next instruction in stream order? -/
def fallsThrough (i : Instruction) : Bool :=
  match i.code.opcode? with
  | some o => o.flow ≠ .branch ∧ o.flow ≠ .exit ∧ o.flow ≠ .throw
  | none => true

/-- Where control goes, if the instruction ends a basic block. Calls return to the next
instruction and end none. -/
def transfer? (i : Instruction) : Option Transfer :=
  match i.action with
  | .branch t _ => some (.jump t)
  | .branchIf t _ _ => some (.choice [(t : Int)])
  | .switch ts => some (.choice ts)
  | .ret => some .leave
  | .throw _ => some .leave
  | _ => if i.fallsThrough then none else some .leave

end Instruction

end CilAudit
