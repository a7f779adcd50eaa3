import CilAudit.Rule.Correctness

/-!
# Rules on reliability

Code that can starve threads, and serialization code that is never called.
-/

set_option autoImplicit false

namespace CilAudit

namespace Rule

def sleepsZero (c : MethodContext) (i : Instruction) : Option Finding :=
  match i.action with
  | .call r _ =>
    if r.isNamed "System.Threading.Thread" "Sleep" && r.params = [Text.ofString "System.Int32"]
      && (c.value? i.index (r.depthOfParam 0)).any Instruction.isZero
    then some ⟨"Sleep(0)", []⟩ else none
  | _ => none

/-- A sleep of no time. -/
def zeroSleep : Rule := firstInMethod "R1017" "ZeroSleep" [.call] everyMethod sleepsZero

/-- The parameters of the serialization methods. -/
def serializationParams : List Text :=
  ["System.Runtime.Serialization.SerializationInfo",
    "System.Runtime.Serialization.StreamingContext"]

/-- What serialization method it is, if any. -/
def serializationMethod? (m : Method) : Option Text :=
  if m.name = ".ctor" && m.params.map (·.type) = serializationParams then
    some "serialization constructor"
  else if m.hasSignature voidType "GetObjectData" serializationParams then some "GetObjectData"
  else none

/-- Of the type whose methods are under way. -/
structure SerializationState where
  isSerializable : Bool
  hasMethod : Bool

/-- Serialization methods in a type that does not ask to be serialized by them. -/
def serializableMethods : Rule where
  id := "R1041"
  name := "ISerializableMethods"
  State := SerializationState
  start := ⟨true, false⟩
  handles kind := kind = .beginMethods || kind = .beginMethod || kind = .endMethods
  requests := [.beginMethods, .beginMethod, .endMethods]
  react
    | _, .beginMethods m t =>
      { state := ⟨m.implements t "System.Runtime.Serialization.ISerializable", false⟩ }
    | ⟨false, false⟩, .beginMethod c =>
      match serializationMethod? c.method with
      | none => { state := ⟨false, false⟩ }
      | some what =>
        { state := ⟨false, true⟩
          emissions := [debugEntry "R1041" (what ++ " in " ++ c.type.fullName)] }
    | ⟨false, true⟩, .endMethods _ t =>
      { state := ⟨false, true⟩, emissions := [.report (.ofType "R1041" t [])] }
    | s, _ => { state := s }

end Rule

end CilAudit
