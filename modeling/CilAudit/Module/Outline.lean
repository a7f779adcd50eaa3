import CilAudit.Module
import CilAudit.Tree

/-!
# Outlines

The types of a module with their fields and methods, as a tree.
-/

set_option autoImplicit false

namespace CilAudit

/-- What sets a method apart: a native function behind it, or a body that is missing. -/
def Method.outlineTag (m : Method) : Text :=
  match m.nativeImport, m.body with
  | some i, _ => "pinvoke " ++ i.library
  | none, none => "no body"
  | none, some _ => "method"

namespace TypeDef

def outlineFlags (t : TypeDef) : List Text :=
  let flags : List (Bool × Text) :=
    [(t.isPublic, "public"), (t.isSealed, "sealed"), (t.isAbstract, "abstract")]
  flags.filterMap fun (holds, name) => if holds then some name else none

def outline (t : TypeDef) : Tree :=
  let flags := t.outlineFlags
  .node (if flags.isEmpty then none else some (Text.joinWith " " flags))
    (t.fullName ++ Text.ledBy " : " t.base)
    (t.fields.map (fun f => .leaf "field" (f.type ++ " " ++ f.name))
      ++ t.methods.map fun m => .leaf m.outlineTag m.fullName)

end TypeDef

/-- The outline of the types that belong to the module itself. -/
def Module.outline (m : Module) : Tree :=
  .node none m.name ((m.types.filter (!·.isExternal)).map (·.outline))

end CilAudit
