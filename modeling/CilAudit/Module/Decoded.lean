import CilAudit.Instruction.Decode
import CilAudit.Module

/-!
# Decoded bodies

A body can be analysed when its instructions can be read and then decoded. Otherwise the first
step that fails says why.
-/

set_option autoImplicit false

namespace CilAudit

/-- Why a body cannot be analysed. -/
inductive BodyError where
  | read (cause : ReadError)
  | decode (cause : DecodeError)
  deriving DecidableEq, Repr

def BodyError.message : BodyError → Text
  | read cause => cause.message
  | decode cause => cause.message

namespace MethodBody

/-- The decoded instructions of a body. -/
def decoded (b : MethodBody) : Except BodyError (List Instruction) :=
  match b.rawInstructions with
  | .error cause => .error (.read cause)
  | .ok raw =>
    match decode raw with
    | .error cause => .error (.decode cause)
    | .ok instructions => .ok instructions

end MethodBody

namespace Module

/-- The types that belong to the module itself. -/
def ownTypes (m : Module) : List TypeDef := m.types.filter (!·.isExternal)

end Module

/-- What is said of a method whose body cannot be analysed. -/
def skippingMessage (fullName : Text) (cause : BodyError) : Text :=
  "skipping " ++ fullName ++ ": " ++ cause.message

end CilAudit
