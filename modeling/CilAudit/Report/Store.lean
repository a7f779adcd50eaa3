import CilAudit.Json.Reader
import CilAudit.Violation

/-!
# Store

Findings kept across runs, in two tables: the runs, one for each analysed module, and the
findings, each with the number of its run. Numbers of runs rise in the order in which they
begin, so the largest number with a module's name is its latest run. By itself a store numbers
them from 1 on.
-/

set_option autoImplicit false

namespace CilAudit

/-- What a store is asked to do. -/
inductive StoreAction where
  | begin (module : Text)
  | store (check : Text)
  | counts
  | violations (module : Text)
  deriving DecidableEq, Repr

inductive StoreError where
  | noRunStarted (check : Text)
  | closed (action : StoreAction)
  deriving DecidableEq, Repr

def StoreAction.toText : StoreAction → Text
  | begin m => "begin run " ++ m
  | store c => "store " ++ c
  | counts => "counts"
  | violations m => "violations " ++ m

def StoreError.message : StoreError → Text
  | noRunStarted c => "output: report " ++ c ++ ": no run started"
  | closed a => "output: " ++ a.toText ++ ": sql: database is closed"

structure Store where
  /-- The runs by number and module, oldest first. -/
  runs : List (Nat × Text) := []
  /-- The findings with the numbers of their runs, oldest first. -/
  rows : List (Nat × Violation) := []
  /-- The run that findings are added to; 0 before the first one begins. -/
  current : Nat := 0
  /-- The first failure to add a finding. -/
  error : Option StoreError := none
  isClosed : Bool := false
  deriving DecidableEq, Repr

namespace Store

/-- Begins a run under a number; later findings belong to it. -/
def beginRunAs (s : Store) (number : Nat) (module : Text) : Except StoreError Store :=
  if s.isClosed then .error (.closed (.begin module))
  else .ok { s with runs := s.runs ++ [(number, module)], current := number }

def beginRun (s : Store) (module : Text) : Except StoreError Store := s.beginRunAs (s.runs.length + 1) module

/-- A finding as it comes back from the table: kinds are kept by name. -/
def asStored (v : Violation) : Violation :=
  { v with entity := ⟨.ofName v.entity.kind.name, v.entity.name⟩ }

/-- Adds a finding to the current run. After a failure nothing is added any more. -/
def report (s : Store) (v : Violation) : Store :=
  if s.error.isSome then s
  else if s.current = 0 then { s with error := some (.noRunStarted v.check) }
  else if s.isClosed then { s with error := some (.closed (.store v.check)) }
  else { s with rows := s.rows ++ [(s.current, asStored v)] }

/-- The largest number of a run of a module. -/
def latest? (s : Store) (module : Text) : Option Nat :=
  (s.runs.filterMap fun (n, name) => if name = module then some n else none).max?

/-- The findings of the latest run of a module. -/
def violations (s : Store) (module : Text) : Except StoreError (List Violation) :=
  if s.isClosed then .error (.closed (.violations module))
  else .ok (s.rows.filterMap fun (n, v) => if s.latest? module = some n then some v else none)

/-- How many findings of all runs each check has, by the text of the check. -/
def counts (s : Store) : Except StoreError (List (Text × Nat)) :=
  if s.isClosed then .error (.closed .counts)
  else
    let checks := s.rows.map (·.2.check)
    .ok ((Text.sort checks).eraseDups.map fun c => (c, checks.count c))

def close (s : Store) : Store := { s with isClosed := true }

/-- The tables as a document. -/
def toJson (s : Store) : Json :=
  let row (r : Nat × Violation) : Json :=
    .array [.ofNat r.1, .string r.2.check, .string r.2.entity.kind.name, .string r.2.entity.name,
      .ofInt r.2.offset, .string r.2.detail]
  let run (r : Nat × Text) : Json := .array [.ofNat r.1, .string r.2]
  .object [("runs", .array (s.runs.map run)), ("violations", .array (s.rows.map row))]

/-- The store whose tables are in a document. -/
def ofJson? (j : Json) : Option Store := do
  let run? : Json → Option (Nat × Text)
    | .array [.number n, .string module] => do return (← Text.toNat? n, module)
    | _ => none
  let row? : Json → Option (Nat × Violation)
    | .array [.number n, .string check, .string kind, .string name, .number offset, .string detail] => do
      return (← Text.toNat? n, ⟨check, ⟨.ofName kind, name⟩, ← Text.toInt? offset, detail⟩)
    | _ => none
  let runs ← (← j.field? "runs").items.mapM run?
  let rows ← (← j.field? "violations").items.mapM row?
  return { runs, rows }

/-- The bytes that files with tables start with. No text starts so. -/
def signature : Text := 0x89 :: "CIL" ++ [0x0D, 0x0A, 0x1A, 0x0A]

/-- The contents of a file with the tables. -/
def encode (s : Store) : Text := signature ++ s.toJson.compact ++ "\n"

/-- The store in a file. A file that is no longer than one byte is an empty store. -/
def decode? (contents : Text) : Option Store :=
  if contents.length ≤ 1 then some {}
  else if contents.startsWith signature then
    (Json.read? (contents.drop signature.length)).bind ofJson?
  else none

end Store

end CilAudit
