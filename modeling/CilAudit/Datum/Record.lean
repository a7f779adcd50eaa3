import CilAudit.Datum.Tag

/-!
# Records in documents

A record is read from an object or map by rules, one for each of its fields. Keys are matched
exactly or else without regard to case, and keys without a rule are ignored. Of a repeated key
in a map the first counts. An object may repeat a key, so that several values are given for one
field: each is read over what the ones before it left, down to the items of lists. Hence every
reader here takes the list of the values given for it, in order.
-/

set_option autoImplicit false

namespace CilAudit

/-- How the values given for a key fill a field of a record. -/
structure FieldRule (α : Type) where
  key : String
  read : α → List Datum → Option α

namespace FieldRule

/-- The rule for a key of an object. -/
def forKey? {α : Type} (rules : List (FieldRule α)) (key : Text) : Option (FieldRule α) :=
  (rules.find? fun r => Text.ofString r.key = key).or
    (rules.find? fun r => Text.equalFold r.key key)

/-- The rule for a key of a map: without regard to case only if it takes as many bytes. -/
def forMapKey? {α : Type} (rules : List (FieldRule α)) (key : Text) : Option (FieldRule α) :=
  (rules.find? fun r => Text.ofString r.key = key).or
    (rules.find? fun r => (Text.ofString r.key).length = key.length && Text.equalFold r.key key)

end FieldRule

namespace Datum

/-- The values that the entries of a map give, with the keys of their rules. A rule is used up by
the first entry it reads. Integers may be keys and have no rule. -/
def givenEntries? {α : Type} (rules : List (FieldRule α)) :
    List (Datum × Datum) → Option (List (String × Datum))
  | [] => some []
  | (text key, d) :: rest =>
    match FieldRule.forMapKey? rules key with
    | some rule => (givenEntries? (rules.filter (·.key ≠ rule.key)) rest).map ((rule.key, d) :: ·)
    | none => givenEntries? rules rest
  | (nat _, _) :: rest | (int _, _) :: rest => givenEntries? rules rest
  | _ :: _ => none

/-- The values that a document gives for the fields of a record, with the keys of their rules. -/
def given? {α : Type} (rules : List (FieldRule α)) (d : Datum) : Option (List (String × Datum)) :=
  match d.plain? with
  | some null => some []
  | some (object members) =>
    some (members.filterMap fun (k, d) => (FieldRule.forKey? rules k).map fun r => (r.key, d))
  | some (map entries) => givenEntries? rules entries
  | _ => none

/-- A record, from what it is when nothing is given. -/
def readRecord {α : Type} (rules : List (FieldRule α)) (zero : α) (ds : List Datum) : Option α := do
  let given := (← ds.mapM (given? rules)).flatten
  rules.foldlM (fun r rule => rule.read r ((given.filter (·.1 = rule.key)).map (·.2))) zero

/-- A text, unless the value is missing and leaves an earlier one. -/
def textOver? (old : Text) (d : Datum) : Option Text :=
  match d.plain? with
  | some (text t) => some t
  | some null => some old
  | _ => none

def readText (ds : List Datum) : Option Text := ds.foldlM textOver? []

def boolOver? (old : Bool) (d : Datum) : Option Bool :=
  match d.plain? with
  | some (bool b) => some b
  | some null => some old
  | _ => none

def readBool (ds : List Datum) : Option Bool := ds.foldlM boolOver? false

/-- A signed integer of 64 bits, written as an integer. -/
def intOver? (old : Int) (d : Datum) : Option Int :=
  let fitting (n : Int) : Option Int :=
    if -0x8000000000000000 ≤ n ∧ n < 0x8000000000000000 then some n else none
  match d.plain? with
  | some (literal t) => int64? t
  | some (int n) => some n
  | some (nat n) | some (simple n) => fitting n
  | some (big n) => fitting n
  | some null => some old
  | _ => none

def readInt (ds : List Datum) : Option Int := ds.foldlM intOver? 0

/-- The columns of rows of any lengths, with one more row below. -/
def addRow : List (List Datum) → List Datum → List (List Datum)
  | columns, [] => columns
  | [], d :: rest => [d] :: addRow [] rest
  | column :: columns, d :: rest => (column ++ [d]) :: addRow columns rest

/-- The items of a list, each from the values given for its place. The last list says how many
there are; a missing or empty list makes the items before it be forgotten. -/
def readItems? {α : Type} (read : List Datum → Option α) (columns : List (List Datum))
    (length? : Option Nat) : List Datum → Option (Option (List α))
  | [] => (columns.mapM read).map fun items => length?.map items.take
  | d :: rest =>
    match d.plain? with
    | some null => (columns.mapM read).bind fun _ => readItems? read [] none rest
    | some (list []) => (columns.mapM read).bind fun _ => readItems? read [] (some 0) rest
    | some (list items) => readItems? read (addRow columns items) (some items.length) rest
    | _ => none

/-- A list that may be missing. -/
def readList? {α : Type} (read : List Datum → Option α) (ds : List Datum) :
    Option (Option (List α)) :=
  readItems? read [] none ds

/-- A list; a missing one is empty. -/
def readList {α : Type} (read : List Datum → Option α) (ds : List Datum) : Option (List α) :=
  (readList? read ds).map (·.getD [])

/-- A value that may be missing, from the values given since it was. -/
def readOptional? {α : Type} (read : List Datum → Option α) (given : List Datum) :
    List Datum → Option (Option α)
  | [] => (read given).map fun x => if given.isEmpty then none else some x
  | null :: rest => (read given).bind fun _ => readOptional? read [] rest
  | d :: rest => readOptional? read (given ++ [d]) rest

/-- A value of any type: the last one given. -/
def readFree (ds : List Datum) : Option Datum := ds.foldlM (fun _ d => d.free? false) null

/-- A table with one more entry; an entry with the same key is replaced in its place. -/
def putEntry {α : Type} (table : List (Text × α)) (key : Text) (value : α) : List (Text × α) :=
  if table.any (·.1 = key) then table.map fun e => if e.1 = key then (key, value) else e
  else table ++ [(key, value)]

/-- One entry of a map added to a table. The key and the value are read over those of the entry
before it. -/
def tableStep? {α : Type} (over? : α → Datum → Option α) (state : List (Text × α) × Text × α)
    (entry : Datum × Datum) : Option (List (Text × α) × Text × α) := do
  let key ← textOver? state.2.1 entry.1
  let value ← over? state.2.2 entry.2
  return (putEntry state.1 key value, key, value)

/-- A table from texts to values, the entries of all documents together; a missing one makes
those before it be forgotten. -/
def readTable {α : Type} (over? : α → Datum → Option α) (zero : α) (ds : List Datum) :
    Option (List (Text × α)) :=
  ds.foldlM (fun table d =>
    match d.plain? with
    | some (object members) =>
      members.foldlM (fun t (k, v) => (over? zero v).map (putEntry t k)) table
    | some (map entries) => (entries.foldlM (tableStep? over?) (table, [], zero)).map (·.1)
    | some null => some []
    | _ => none) []

end Datum

end CilAudit
