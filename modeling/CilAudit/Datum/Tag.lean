import CilAudit.Datum

/-!
# Tags

What the tags of a document mean. A tag that says that the document is one of its kind says
nothing about the value and is passed over. Tags 0 and 1 make instants of texts and numbers, 2
and 3 big numbers of bytes, and these four take nothing else. All other tags are kept with a
value of any type and passed over where a type is asked for.
-/

set_option autoImplicit false

namespace CilAudit.Datum

/-- The tag in front of a document that says how it is encoded. -/
def documentTag : Nat := 55799

/-- May a value stand directly under a tag? -/
def admits : Nat → Datum → Bool
  | 0, text _ | 0, malformed => true
  | 1, nat _ | 1, int _ | 1, big _ | 1, float _ => true
  | 2, bytes _ | 3, bytes _ => true
  | n, _ => 3 < n

/-- The number whose digits to the base 256 are the bytes, the most significant first. -/
def ofBytes (b : Text) : Nat := b.foldl (fun n x => n * 256 + x.toNat) 0

/-- The number that bytes under one of the tags 2 and 3 make. -/
def bigUnder (number : Nat) (b : Text) : Datum :=
  if number = 2 then big (ofBytes b) else big (-1 - ofBytes b)

/-- The value that a field of a fixed type finds under any tags. -/
def plain? : Datum → Option Datum
  | tag n d =>
    if n = documentTag then plain? d
    else if !admits n d then none
    else
      match d with
      | bytes b => if n = 2 ∨ n = 3 then some (bigUnder n b) else some (bytes b)
      | d => plain? d
  | d => some d

/-- The instant that a value under one of the tags 0 and 1 stands for. -/
def instantOf? : Datum → Option Instant
  | text t => Instant.read? t
  | nat n => some (.ofSeconds n 0)
  | int n => some (.ofSeconds n 0)
  | float x => some (.ofDouble x)
  | _ => none

/-- The value as the key of a map. Only what cannot change can be one. -/
def key? : Datum → Option Datum
  | bytes b => some (keyBytes b)
  | tag n d => (key? d).map (tag n)
  | list _ | object _ | map _ | big _ => none
  | d => some d

mutual

/-- A value of any type, with its tags as what they mean and the keys of objects and maps without
repetition. Directly under another tag the tag of documents is like any other. -/
def free? (underTag : Bool) : Datum → Option Datum
  | tag n d =>
    if n = documentTag ∧ !underTag then free? false d
    else if !admits n d then none
    else if n ≤ 1 then (instantOf? d).map instant
    else
      match d with
      | bytes b => if n ≤ 3 then some (bigUnder n b) else some (tag n (bytes b))
      | d => (free? true d).map (tag n)
  | list items => (freeItems? items).map list
  | object members => (freeMembers? members).map fun ms => object (sortedMembers ms)
  | map entries => (freeEntries? entries).map fun es => map (distinctEntries es)
  | malformed => none
  | d => some d

def freeItems? : List Datum → Option (List Datum)
  | [] => some []
  | d :: rest => do
    let first ← free? false d
    return first :: (← freeItems? rest)

def freeMembers? : List (Text × Datum) → Option (List (Text × Datum))
  | [] => some []
  | (k, d) :: rest => do
    let value ← free? false d
    return (k, value) :: (← freeMembers? rest)

def freeEntries? : List (Datum × Datum) → Option (List (Datum × Datum))
  | [] => some []
  | (k, d) :: rest => do
    let key ← (← free? false k).key?
    let value ← free? false d
    return (key, value) :: (← freeEntries? rest)

end

end CilAudit.Datum
