import CilAudit.Dispatcher
import CilAudit.Rule.Design
import CilAudit.Rule.Portability
import CilAudit.Rule.Reliability
import CilAudit.Rule.Security

/-!
# The rules

Every rule, in the order in which they run, and the choice among them.
-/

set_option autoImplicit false

namespace CilAudit

namespace Rule

def all : List Rule :=
  [arrayIndexOf, recursiveEquality, zeroSleep, pathCombine, preferMonitor, nativeMethods,
    dllImportExtension, unsealedAttribute, typedEnumerator, serializableMethods, readOnlyArray,
    lockThis, tooManyArgs, hardcodedKey]

/-- The form in which ids are compared: letter case and surrounding blanks do not matter. -/
def normalId (id : Text) : Text := id.trim.upper

/-- Is the rule listed? -/
def isListed (ids : List Text) (r : Rule) : Bool := (ids.map normalId).contains r.id.upper

/-- The rules that are not disabled. -/
def enabled (disabled : List Text) : List Rule := all.filter (!isListed disabled ·)

/-- What is said of the disabled rules. -/
def disabledLog (disabled : List Text) : Log :=
  (all.filter (isListed disabled)).map fun r =>
    ⟨.info, logger, "rule " ++ r.id ++ " (" ++ r.name ++ ") disabled"⟩

end Rule

end CilAudit
