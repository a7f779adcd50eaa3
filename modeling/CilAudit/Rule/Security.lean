import CilAudit.Rule.Correctness
import CilAudit.Signal.Category

/-!
# Rules on security

State that callers can change or lock, and keys written into the code.
-/

set_option autoImplicit false

namespace CilAudit

namespace Rule

/-- Can code outside the type replace elements of the field, though not the field? -/
def exposesArray (f : Field) : Bool := f.isInitOnly && (f.isPublic || f.isFamily) && f.isArray

/-- Of the type under way: is it public, and which of its fields are exposed? -/
structure ArrayState where
  isPublic : Bool
  exposed : List Text

/-- Read-only arrays of a public type. -/
def readOnlyArray : Rule where
  id := "S1002"
  name := "ReadOnlyArray"
  State := ArrayState
  start := ⟨false, []⟩
  handles kind := kind = .beginType || kind = .field || kind = .endType
  requests := [.beginType, .field, .endType]
  react
    | _, .beginType _ t => { state := ⟨t.isPublic, []⟩ }
    | s, .field _ f =>
      { state := if s.isPublic && exposesArray f then ⟨s.isPublic, s.exposed ++ [f.name]⟩ else s }
    | s, .endType _ t =>
      { state := s
        emissions :=
          if s.exposed.isEmpty then []
          else [.report (.ofType "S1002" t ("Fields: " ++ Text.joinWith " " s.exposed))] }
    | s, _ => { state := s }

def locksThis (c : MethodContext) (i : Instruction) : Option Finding :=
  match i.action with
  | .call r _ =>
    if !c.method.isStatic && r.isNamed "System.Threading.Monitor" "Enter" && !r.params.isEmpty then
      match (c.value? i.index (r.depthOfParam 0)).map Instruction.action with
      | some (.loadArg 0 false) => some ⟨"Monitor.Enter(this)", []⟩
      | _ => none
    else none
  | _ => none

/-- A lock on the object itself. -/
def lockThis : Rule := firstInMethod "MS1003" "LockThis" [.call] everyMethod locksThis

/-- Does the call turn a text into bytes? -/
def decodesText (r : MethodRef) : Bool :=
  r.isNamed "System.Convert" "FromBase64String" ||
    (r.name = "GetBytes" && r.declaringType.startsWith "System.Text."
      && r.params = [Text.ofString "System.String"])

/-- The literal at a stack position, looked for through at most one decoding call. -/
def literal? (c : MethodContext) (consumer arg : Nat) : Option Text :=
  match c.value? consumer arg with
  | some ⟨_, _, _, .loadString t⟩ => some t
  | some ⟨index, _, _, .call r _⟩ =>
    if decodesText r then
      match (c.value? index 0).map Instruction.action with
      | some (.loadString t) => some t
      | _ => none
    else none
  | _ => none

/-- The category for which a literal counts as key material. -/
def keyCategory? (t : Text) : Option Category :=
  (Signal.classify t).find? fun
    | .base64 => true
    | .encryption => t.entropyAtLeast 7 2 && 16 ≤ t.length
    | _ => false

/-- What a report says of key material. -/
def keyMaterial? (t : Text) : Option Text :=
  (keyCategory? t).map fun category => category.name ++ " entropy=" ++ t.entropyText 2

def passesKey (c : MethodContext) (i : Instruction) : Option Finding :=
  match i.callee? with
  | some r =>
    if r.declaringType.startsWith "System.Security.Cryptography." then
      (List.range r.params.length).findSome? fun n =>
        ((literal? c i.index (r.depthOfParam n)).bind keyMaterial?).map fun detail =>
          ⟨"literal key for " ++ r.declaringType ++ "::" ++ r.name, detail⟩
    else none
  | none => none

/-- A literal key passed to a cryptographic function. -/
def hardcodedKey : Rule := firstInMethod "S1030" "HardcodedKey" [.call, .newObject] everyMethod passesKey

end Rule

end CilAudit
