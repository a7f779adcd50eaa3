import CilAudit.Event

/-!
# Violations

A finding of a check: what it is attached to and, where it points at an instruction, the byte
offset of that.
-/

set_option autoImplicit false

namespace CilAudit

structure Violation where
  check : Text
  entity : Entity
  /-- Negative when the finding has no instruction. -/
  offset : Int
  detail : Text
  deriving DecidableEq, Repr

namespace Violation

def toText (v : Violation) : Text :=
  let place : Text := if 0 ≤ v.offset then offsetLabel v.offset else []
  v.check ++ " " ++ v.entity.kind.name ++ " " ++ v.entity.name ++ Text.ledBy " " place
    ++ Text.ledBy " " v.detail

def ofModule (check : Text) (m : Module) (detail : Text) : Violation :=
  ⟨check, ⟨.module, m.name⟩, -1, detail⟩

def ofType (check : Text) (t : TypeDef) (detail : Text) : Violation :=
  ⟨check, ⟨.type, t.fullName⟩, -1, detail⟩

def ofMethod (check : Text) (m : Method) (offset : Int) (detail : Text) : Violation :=
  ⟨check, ⟨.method, m.fullName⟩, offset, detail⟩

/-- The findings of one check. -/
def ofCheck (check : Text) (vs : List Violation) : List Violation := vs.filter (·.check = check)

end Violation

end CilAudit
