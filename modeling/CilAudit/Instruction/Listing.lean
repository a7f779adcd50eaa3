import CilAudit.Instruction
import CilAudit.Text.Quoted

/-!
# Listings

One line per instruction: offset, mnemonic, operand, and a note where an annotator has one.
-/

set_option autoImplicit false

namespace CilAudit

/-- A source of notes; an empty text is no note. -/
abbrev Annotator := Instruction → Text

namespace Instruction

/-- The operand as listings show it; empty where the mnemonic says it all. -/
def operandText (i : Instruction) : Text :=
  let unlessImplied (t : Text) : Text :=
    match i.code.opcode? with
    | some o => if o.operand = .none then [] else t
    | none => t
  match i.action with
  | .loadLocal n _ => unlessImplied ("V_" ++ Text.ofNat n)
  | .storeLocal n => unlessImplied ("V_" ++ Text.ofNat n)
  | .loadArg n _ => unlessImplied ("A_" ++ Text.ofNat n)
  | .storeArg n => "A_" ++ Text.ofNat n
  | .loadConst c => unlessImplied c.toText
  | .loadString t => t.quoted
  | .loadField f _ _ => f.toText
  | .storeField f _ => f.toText
  | .branch t _ => offsetLabel t
  | .branchIf t _ _ => offsetLabel t
  | .switch ts => "(" ++ Text.joinWith ", " (ts.map offsetLabel) ++ ")"
  | .call m _ => m.toText
  | .newObject m => m.toText
  | .other .none => []
  | .other (.int .uint32 t) => "token:0x" ++ Text.hex 8 t
  | .other o => o.toText
  | .loadNull | .compare .. | .ret | .throw _ => []

/-- The first note any annotator has. -/
def note (annotators : List Annotator) (i : Instruction) : Text :=
  ((annotators.map (· i)).find? (· ≠ [])).getD []

/-- The line of an instruction, without the line feed. -/
def line (annotators : List Annotator) (i : Instruction) : Text :=
  offsetLabel i.offset ++ ": " ++ i.code.mnemonic ++ Text.ledBy " " i.operandText ++
    Text.ledBy "  ; " (i.note annotators)

end Instruction

/-- The listing of a body. -/
def listing (annotators : List Annotator) (body : List Instruction) : Text :=
  Text.lines (body.map (·.line annotators))

end CilAudit
