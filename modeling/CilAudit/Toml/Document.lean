import CilAudit.Toml.Reader

/-!
# Tables of a settings document

The statements of a document put together into one table. A name in a table is given once: what
stands under it may not be given again, unless it came about only as the parent of something
else. The parts of a key with several parts imply tables, and where such a part has been given
an array, the table takes the place of the array.
-/

set_option autoImplicit false

namespace CilAudit.Toml

/-- What stands under a name in a table. -/
inductive Content where
  | value (v : Value)
  | table (entries : List (Text × Content))
  /-- Tables with one name, each under a heading of its own. -/
  | tables (items : List (List (Text × Content)))
  deriving Repr

/-- The names in a table and what stands under them, in the order in which they came. -/
abbrev Entries := List (Text × Content)

namespace Entries

/-- The entries with something under a name, in the place of what stood there. -/
def put (es : Entries) (name : Text) (c : Content) : Entries :=
  if es.any (·.1 = name) then es.map fun e => if e.1 = name then (name, c) else e
  else es ++ [(name, c)]

/-- The entries of the table that a name leads to: of several tables the last one. -/
def enter? (es : Entries) (name : Text) : Option Entries :=
  match es.lookup name with
  | some (.table entries) => some entries
  | some (.tables items) => items.getLast?
  | _ => none

/-- The entries with those of the table that a name leads to replaced. -/
def leave (es : Entries) (name : Text) (changed : Entries) : Entries :=
  match es.lookup name with
  | some (.tables items) => es.put name (.tables (items.dropLast ++ [changed]))
  | _ => es.put name (.table changed)

/-- The entries of the table with a key. -/
def at? (es : Entries) (key : Key) : Option Entries := key.foldlM enter? es

/-- Changes the table with a key. -/
def change? (f : Entries → Entries) : Key → Entries → Option Entries
  | [], es => some (f es)
  | name :: rest, es => do
    let changed ← change? f rest (← es.enter? name)
    return es.leave name changed

/-- Puts something under a key of any length, in tables that are made as they are needed. -/
def putDeep? (c : Content) : Key → Entries → Option Entries
  | [], _ => none
  | [name], es => some (es.put name c)
  | name :: rest, es =>
    match es.lookup name with
    | none => (putDeep? c rest []).map fun below => es.put name (.table below)
    | some (.table entries) => (putDeep? c rest entries).map fun below => es.put name (.table below)
    | some _ => none

end Entries

mutual

/-- The content that a value is by itself. -/
def Value.content? : Value → Option Content
  | .table entries => (tableContent? [] entries).map .table
  | .array items => if itemsAreSound items then some (.value (.array items)) else none
  | v => some (.value v)

/-- The entries of an inline table, after those that are there already. -/
def tableContent? (es : Entries) : List (Key × Value) → Option Entries
  | [] => some es
  | (key, v) :: rest => do
    let c ← v.content?
    let es ← es.putDeep? c key
    tableContent? es rest

/-- Are all inline tables within the items in order? -/
def itemsAreSound : List Value → Bool
  | [] => true
  | v :: rest => v.content?.isSome && itemsAreSound rest

end

/-- A document so far. -/
structure Document where
  entries : Entries := []
  /-- The keys of tables that came about as parents only. -/
  implied : List Key := []
  /-- The keys that count as given an array. -/
  arrays : List Key := []
  deriving Repr

namespace Document

def imply (d : Document) (key : Key) : Document := { d with implied := key :: d.implied }

def confirm (d : Document) (key : Key) : Document :=
  { d with implied := d.implied.filter (· ≠ key) }

/-- Notes whether a name in a table is given an array. An empty name stands for the table. -/
def note (d : Document) (table : Key) (name : Text) (isArray : Bool) : Document :=
  let key := if !name.isEmpty then table ++ [name] else if table.isEmpty then [[]] else table
  let others := d.arrays.filter (· ≠ key)
  { d with arrays := if isArray then key :: others else others }

def put? (d : Document) (table : Key) (name : Text) (c : Content) : Option Document :=
  (d.entries.change? (·.put name c) table).map fun entries => { d with entries }

/-- Puts something under a name in the table with a key. -/
def set? (d : Document) (table : Key) (name : Text) (c : Content) : Option Document := do
  let key := table ++ [name]
  if ((← d.entries.at? table).lookup name).isNone then d.put? table name c
  else if d.implied.contains key then
    if d.arrays.contains key then (d.confirm key).put? table name c else some (d.confirm key)
  else none

/-- Makes sure that the tables on the way to a key exist; those that are missing are implied. -/
def parents? (d : Document) (before : Key) : Key → Option Document
  | [] => some d
  | name :: rest => do
    let es ← d.entries.at? before
    let key := before ++ [name]
    let d ← if (es.lookup name).isNone then (d.imply key).put? before name (.table []) else some d
    discard <| d.entries.at? key
    d.parents? key rest

/-- Opens the table with a key, which is not empty. -/
def open? (d : Document) (key : Key) : Option Document := do
  let d ← d.parents? [] key.dropLast
  d.set? key.dropLast (key.getLastD []) (.table [])

/-- Opens one more table of those with a key, which is not empty. -/
def openItem? (d : Document) (key : Key) : Option Document := do
  let d ← d.parents? [] key.dropLast
  let name := key.getLastD []
  match (← d.entries.at? key.dropLast).lookup name with
  | none => d.put? key.dropLast name (.tables [[]])
  | some (.tables items) => d.put? key.dropLast name (.tables (items ++ [[]]))
  | some _ => none

/-- Opens the tables that the parts of a key below `context` imply, all but the last part. -/
def openParents? (d : Document) (context : Key) : Key → Option Document
  | [] => some d
  | [_] => some d
  | name :: rest => do
    let key := context ++ [name]
    let d ← (d.imply key).open? key
    d.openParents? key rest

def isArray : Value → Bool
  | .array _ => true
  | _ => false

mutual

/-- Puts the entries of the inline tables in a value for a name where they belong. -/
def expand? (d : Document) (table : Key) (name : Text) (inArray : Bool) : Value → Option Document
  | .array items => (d.note table name true).expandItems? table name items
  | .table entries => do
    let key := table ++ [name]
    let d := d.imply key
    let d ← if inArray then d.openItem? key else d.open? key
    d.assignAll? key entries
  | _ => some d

def expandItems? (d : Document) (table : Key) (name : Text) : List Value → Option Document
  | [] => some d
  | v :: rest => do (← d.expand? table name true v).expandItems? table name rest

/-- Gives values to keys below the table `context`. -/
def assignAll? (d : Document) (context : Key) : List (Key × Value) → Option Document
  | [] => some d
  | (key, v) :: rest => do
    let table := context ++ key.dropLast
    let name := key.getLastD []
    let d ← d.openParents? context key
    let d ← d.expand? table name false v
    let d ← d.set? table name (← v.content?)
    (d.note table name (isArray v)).assignAll? context rest

end

/-- One statement, with the table that the last heading opened. -/
def state? (s : Document × Key) : Statement → Option (Document × Key)
  | .assign key v => (s.1.assignAll? s.2 [(key, v)]).map fun d => (d, s.2)
  | .table key => (s.1.open? key).map fun d => (d.note key [] false, key)
  | .tableItem key => (s.1.openItem? key).map fun d => (d.note key [] false, key)

/-- Reads a document. -/
def read? (text : Text) : Option Document := do
  let (d, _) ← (← statements? text).foldlM state? ({}, [])
  return d

end Document

end CilAudit.Toml
