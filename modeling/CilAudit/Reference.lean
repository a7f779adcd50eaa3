import CilAudit.Text

/-!
# References

The members that an instruction names: a method to call and a field to access.
-/

set_option autoImplicit false

namespace CilAudit

/-- A method as a call site names it. An empty return type stands for void. -/
structure MethodRef where
  declaringType : Text
  name : Text
  returnType : Text := []
  params : List Text := []
  genericArgs : List Text := []
  hasThis : Bool := false
  deriving DecidableEq, Repr

/-- A field as an access names it. -/
structure FieldRef where
  declaringType : Text
  name : Text
  fieldType : Text := []
  deriving DecidableEq, Repr

/-- The type name of methods that return nothing. -/
def voidType : Text := "System.Void"

namespace MethodRef

/-- The method as a disassembler prints a call target, for example
`System.Int32 System.Array::IndexOf<T>(T[],T)`. -/
def toText (m : MethodRef) : Text :=
  let result := if m.returnType.isEmpty then voidType else m.returnType
  let generic : Text :=
    if m.genericArgs.isEmpty then [] else "<" ++ Text.joinWith "," m.genericArgs ++ ">"
  result ++ " " ++ m.declaringType ++ "::" ++ m.name ++ generic ++ "(" ++
    Text.joinWith "," m.params ++ ")"

/-- Does a call leave a value on the stack? -/
def returns (m : MethodRef) : Bool := m.returnType ≠ [] ∧ m.returnType ≠ voidType

/-- The number of stack values a call takes. -/
def argCount (m : MethodRef) : Nat := m.params.length + if m.hasThis then 1 else 0

end MethodRef

namespace FieldRef

def toText (f : FieldRef) : Text := f.fieldType ++ " " ++ f.declaringType ++ "::" ++ f.name

end FieldRef

end CilAudit
