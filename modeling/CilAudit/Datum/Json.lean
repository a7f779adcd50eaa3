import CilAudit.Datum
import CilAudit.Text.Base64
import CilAudit.Text.Quoted

/-!
# Document data as JSON

Byte strings become base64 text, instants their text, big numbers an empty object. The members
of a map go by the texts of its keys. Infinities, NaN, and maps with keys that have no text have
no JSON form.
-/

set_option autoImplicit false

namespace CilAudit

/-- Why a value has no JSON form. -/
inductive JsonFault where
  | unsupportedValue (text : Text)
  | instant (fault : InstantFault)
  /-- A key that is no text, with the way to its map and the bytes written before it. -/
  | keyNotText (pointer : List Text) (written : Nat)
  deriving DecidableEq, Repr

namespace JsonFault

/-- One step of the way to a value. -/
def stepText (step : Text) : Text :=
  0x2F :: step.flatMap fun b =>
    if b = 0x7E then [0x7E, 0x30] else if b = 0x2F then [0x7E, 0x31] else [b]

def message : JsonFault → Text
  | unsupportedValue t => "json: unsupported value: " ++ t
  | instant fault => "json: error calling MarshalJSON for type *time.Time: " ++ fault.message
  | keyNotText pointer written =>
    "json: unsupported value: jsontext: object member name must be a string" ++
      Text.ledBy " within " (if pointer.isEmpty then [] else Text.quoted (pointer.flatMap stepText)) ++
      " after offset " ++ Text.ofNat written

/-- The fault of a value, seen from one that holds it. -/
def within (step : Text) (written : Nat) : JsonFault → JsonFault
  | keyNotText pointer n => keyNotText (step :: pointer) (n + written)
  | fault => fault

end JsonFault

namespace Datum

/-- The text of a map key. -/
def keyText : Datum → Except JsonFault Text
  | text t => .ok t
  | keyBytes t => .ok t.repaired
  | int n => .ok (Text.ofInt n)
  | nat n => .ok (Text.ofNat n)
  | simple n => .ok (Text.ofNat n)
  | instant i => i.toDocument.mapError .instant
  | float x => .error (if x.isFinite then .keyNotText [] 1 else .unsupportedValue x.toText)
  | _ => .error (.keyNotText [] 1)

/-- The items of an array after those that are done, the last of these first. -/
def arrayOf (done : List Json) : List (Except JsonFault Json) → Except JsonFault Json
  | [] => .ok (.array done.reverse)
  | .ok v :: rest => arrayOf (v :: done) rest
  | .error fault :: _ =>
    let written := if done.isEmpty then 1 else (Json.array done).compact.length
    .error (fault.within (Text.ofNat done.length) written)

/-- The members of an object after those that are done, the last of these first. -/
def objectOf (done : List (Text × Json)) :
    List (Text × Except JsonFault Json) → Except JsonFault Json
  | [] => .ok (.object done.reverse)
  | (k, .ok v) :: rest => objectOf ((k, v) :: done) rest
  | (k, .error fault) :: _ =>
    let before := if done.isEmpty then 1 else (Json.object done).compact.length
    .error (fault.within k (before + (Json.quote k).length + 1))

mutual

def toJson : Datum → Except JsonFault Json
  | null => .ok .null
  | bool b => .ok (.bool b)
  | int n => .ok (.ofInt n)
  | nat n => .ok (.ofNat n)
  | simple n => .ok (.ofNat n)
  | big _ => .ok (.object [])
  | float x => if x.isFinite then .ok (.ofDouble x) else .error (.unsupportedValue x.toText)
  | literal t => .ok (.number t)
  | text t | keyBytes t => .ok (.string t)
  | bytes t => .ok (.string t.base64)
  | instant i => (i.toDocument.mapError .instant).map .string
  | list items => arrayOf [] (itemsToJson items)
  | object members => objectOf [] (membersToJson members)
  | map entries => do
    let keys ← entries.mapM fun e => e.1.keyText
    objectOf [] ((keys.zip (valuesToJson entries)).mergeSort fun a b => Text.le a.1 b.1)
  | tag n d => objectOf [] [("Number", .ok (.ofNat n)), ("Content", toJson d)]
  | malformed => .ok (.string [])

def itemsToJson : List Datum → List (Except JsonFault Json)
  | [] => []
  | d :: rest => toJson d :: itemsToJson rest

def membersToJson : List (Text × Datum) → List (Text × Except JsonFault Json)
  | [] => []
  | (k, d) :: rest => (k, toJson d) :: membersToJson rest

def valuesToJson : List (Datum × Datum) → List (Except JsonFault Json)
  | [] => []
  | (_, d) :: rest => toJson d :: valuesToJson rest

end

end Datum

end CilAudit
