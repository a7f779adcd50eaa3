import CilAudit.Instruction.Listing
import CilAudit.Module.Decoded
import CilAudit.Signal.Category
import CilAudit.Signal.Entropy

/-!
# Module listings

The listings of all bodies of a module, each under the full name of its method.
-/

set_option autoImplicit false

namespace CilAudit

/-- Notes on string literals: their categories, the gravest severity of these, and the
entropy of the literal. -/
def signalNote : Annotator := fun i =>
  match i.action with
  | .loadString t =>
    let categories := (Signal.classify t).map Category.name
    if categories.isEmpty then []
    else Text.joinWith "," categories ++ " [" ++ (Severity.ofCategories categories).name
      ++ "] entropy=" ++ t.entropyText 2
  | _ => []

/-- The listing of a body, or a line that says why there is none. -/
def bodyListing (annotators : List Annotator) : Except BodyError (List Instruction) → Text
  | .ok instructions => listing annotators instructions ++ "\n"
  | .error cause => "// skipped: " ++ cause.message ++ "\n\n"

/-- The listings of the methods whose full names contain `part`. -/
def Module.listings (m : Module) (part : Text) (annotators : List Annotator) : Text :=
  m.ownTypes.flatMap fun t => t.methods.flatMap fun method =>
    match method.body with
    | none => []
    | some body =>
      if method.fullName.contains part then
        "// " ++ method.fullName ++ "\n" ++ bodyListing annotators body.decoded
      else []

end CilAudit
