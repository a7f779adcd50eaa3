import CilAudit.Rule.Correctness

/-!
# Rules on design and performance

Declarations that a clearer or faster one should stand in for.
-/

set_option autoImplicit false

namespace CilAudit

namespace Rule

def createsNamedLock (_ : MethodContext) (i : Instruction) : Option Finding :=
  match i.action with
  | .newObject r =>
    if (r.declaringType = "System.Threading.Mutex"
        || r.declaringType = "System.Threading.Semaphore")
      && r.params.any (· = "System.String")
    then some ⟨"named " ++ r.declaringType, []⟩ else none
  | _ => none

/-- A lock shared with other processes. -/
def preferMonitor : Rule := firstInMethod "D1056" "PreferMonitor" [.newObject] everyMethod createsNamedLock

/-- The classes that native functions may be declared in. -/
def nativeClasses : List Text := ["NativeMethods", "SafeNativeMethods", "UnsafeNativeMethods"]

/-- A native function declared outside the classes meant for them. -/
def nativeMethods : Rule :=
  stateless "D1020" "NativeMethods" [.method] fun
    | .method t m =>
      if m.nativeImport.isSome && !nativeClasses.contains t.name then
        [debugEntry "D1020" ("p/invoke declared in " ++ t.name), .report (.ofMethod "D1020" m (-1) [])]
      else []
    | _ => []

/-- An enumerator whose current element has no type of its own. -/
def typedEnumerator : Rule :=
  stateless "D1011" "TypedEnumerator" [.beginType] fun
    | .beginType m t =>
      if !t.isCompilerGenerated && m.implements t "System.Collections.IEnumerator"
        && (t.propertiesNamed "Current").all (·.type = "System.Object")
      then
        [debugEntry "D1011" ("no strongly typed Current in " ++ t.fullName),
          .report (.ofType "D1011" t [])]
      else []
    | _ => []

/-- The most parameters a method should have. -/
def maxArgs : Nat := 5

/-- A method of too many parameters, unless its signature is set elsewhere. -/
def tooManyArgs : Rule :=
  stateless "D1045" "TooManyArgs" [.method] fun
    | .method _ m =>
      if maxArgs < m.params.length && m.nativeImport.isNone && !m.isOverride then
        [.report (.ofMethod "D1045" m (-1) (Text.ofNat m.params.length ++ " arguments"))]
      else []
    | _ => []

/-- A public attribute that others can derive from. -/
def unsealedAttribute : Rule :=
  stateless "P1013" "UnsealedAttribute" [.beginType] fun
    | .beginType m t =>
      if t.isPublic && !t.isSealed && !t.isAbstract && m.isSubtypeOf t "System.Attribute" then
        [.report (.ofType "P1013" t [])]
      else []
    | _ => []

end Rule

end CilAudit
