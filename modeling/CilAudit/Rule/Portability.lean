import CilAudit.Rule.Correctness
import CilAudit.Text.Quoted

/-!
# Rules on portability

Names that only one platform understands.
-/

set_option autoImplicit false

namespace CilAudit

namespace Rule

/-- A backslash, or a first slash that neither closes markup nor starts a double slash. -/
def hasPathSeparator (t : Text) : Bool :=
  t.contains "\\" ||
    match Text.cutAt 0x2F t with
    | none => false
    | some (before, after) => !before.endsWith "<" && !after.startsWith "/"

/-- The first literal with a path separator among the arguments of a call. -/
def pathLiteral? (c : MethodContext) (i : Instruction) (r : MethodRef) : Option Text :=
  (List.range r.params.length).findSome? fun n =>
    match (c.producer? i.index (r.depthOfParam n)).map Instruction.action with
    | some (.loadString t) => if hasPathSeparator t then some t else none
    | _ => none

def concatsPath (c : MethodContext) (i : Instruction) : Option Finding :=
  match i.action with
  | .call r _ =>
    if r.isNamed "System.String" "Concat" && r.returnType = "System.String" then
      (pathLiteral? c i r).map fun t => ⟨"concat of " ++ t, []⟩
    else none
  | _ => none

/-- A path put together as text. -/
def pathCombine : Rule := firstInMethod "PO1006" "PathCombine" [.call] everyMethod concatsPath

/-- A native library named with an extension. -/
def dllImportExtension : Rule :=
  stateless "PO1002" "DllImportExtension" [.method] fun
    | .method _ m =>
      match m.nativeImport with
      | some imported =>
        if imported.library.contains "." then
          [debugEntry "PO1002" ("library " ++ imported.library.quoted ++ " has an extension"),
            .report (.ofMethod "PO1002" m (-1) imported.library)]
        else []
      | none => []
    | _ => []

end Rule

end CilAudit
