import CilAudit.Command.Line
import CilAudit.Command.Task
import CilAudit.Rule.All

/-!
# Checking modules

Runs the enabled rules over modules in turn, reports what they find, and keeps it in a store
if one is named.
-/

set_option autoImplicit false

namespace CilAudit.Check

variable {m : Type → Type} [Monad m]

/-- The statistics of one module in the summary document. -/
def moduleSummary (path : Text) (module : Module) (r : Dispatcher.Report) : Json :=
  let checks := r.violations.map (·.check)
  let counts := (Text.sort checks).eraseDups.map fun c => (c, Json.ofNat (checks.count c))
  let faults : List (Text × Json) :=
    if r.stats.faults.isEmpty then []
    else [("faults", Json.strings (r.stats.faults.map (·.message)))]
  let head : List (Text × Json) :=
    [("path", .string path), ("module", .string module.name), ("types", .ofNat r.stats.types),
      ("methods", .ofNat r.stats.methods), ("instructions", .ofNat r.stats.instructions),
      ("skipped", .ofNat r.stats.skipped)]
  .object (head ++ faults ++ [(Text.ofString "violations", .object counts)])

/-- A store at the place that its name says. -/
structure KeptStore where
  name : Text
  place : StorePlace
  store : Store := {}

/-- Writes a store that is kept in a file. -/
def save (host : Host m) (k : KeptStore) : Task m Unit := do
  if let .file path _ := k.place then
    Task.ask (fun (_ : FileError) => .openStore k.name) (host.write path k.store.encode)

/-- What the file of a store holds. If it is missing, it is created where it may be. -/
def fileContents (host : Host m) (name path : Text) (mayCreate : Bool) : Task m Text := do
  let failure (_ : FileError) : CommandError := .openStore name
  if ← host.isPresent path then Task.ask failure (host.read path)
  else if mayCreate then
    Task.ask failure (host.write path [])
    return []
  else throw (.openStore name)

/-- Opens a store and sees to its tables. -/
def openStore (host : Host m) (name : Text) : Task m KeptStore := do
  let some { place, isReadOnly, isSettled } := StoreName.read? name | throw (.openStore name)
  let contents ← match place with
    | .memory => pure []
    | .file path mayCreate => fileContents host name path mayCreate
  if !isSettled then throw (.openStore name)
  let some store := Store.decode? contents | throw (.noStore name)
  if isReadOnly then throw (.readOnlyStore name)
  let kept : KeptStore := { name, place, store }
  save host kept
  return kept

/-- Adds the findings in one module to a store. -/
def keep (host : Host m) (module : Module) (vs : List Violation) (k : KeptStore) :
    Task m KeptStore := do
  let begun ← Task.ask .store (pure (k.store.beginRun module.name))
  let kept : KeptStore := { k with store := vs.foldl Store.report begun }
  save host kept
  return kept

/-- How far a check has come. -/
structure Progress where
  writer : ReportWriter
  /-- The report so far. -/
  text : Text := []
  store : Option KeptStore
  summaries : List Json := []

/-- Adds lines to the report. -/
def emit (host : Host m) (out : Text) (text lines : Text) : Task m Unit := do
  if out.isEmpty then host.print lines
  else Task.ask (.create out) (host.write out (text ++ lines))

/-- Checks the modules in turn. -/
def modules (host : Host m) (out : Text) (d : Dispatcher) (p : Progress) :
    List Text → Task m Progress
  | [] => return p
  | path :: rest => do
    let module ← Task.loadModule host path
    let (next, r) := d.run module
    let (writer, lines) := { p.writer with module := module.name }.reportAll r.violations
    let store ← match p.store with
      | some k => some <$> keep host module r.violations k
      | none => pure none
    host.log r.log
    emit host out p.text lines
    modules host out next
      { writer, text := p.text ++ lines, store
        summaries := p.summaries ++ [moduleSummary path module r] } rest

/-- What is said of the store at the end. -/
def reportStore (host : Host m) (k : KeptStore) : Task m Unit := do
  if let some e := k.store.error then throw (.store e)
  let counts ← Task.ask .store (pure k.store.counts)
  Task.log host .info
    (k.name ++ ": " ++ Text.ofNat counts.length ++ " checks with stored violations")

/-- The settings as the options change them. -/
def adjusted (s : Settings) (o : CheckOptions) : Settings :=
  { s with
    format := o.format.getD s.format
    database := if o.database.isEmpty then s.database else o.database
    timeout := if 0 < o.timeout.nanoseconds then o.timeout else s.timeout
    disabled := s.disabled ++ o.disabled }

/-- Checks the modules in the files. -/
def run (host : Host m) (settings : Settings) (o : CheckOptions) (paths : List Text) :
    Task m Unit := do
  let s := adjusted settings o
  let format ← Task.ask .settings (pure s.validate)
  if !o.out.isEmpty then Task.ask (.create o.out) (host.write o.out [])
  let store ← if s.database.isEmpty then pure none else some <$> openStore host s.database
  let rules := Rule.enabled s.disabled
  host.log (Rule.disabledLog s.disabled)
  Task.log host .info
    (Text.ofNat rules.length ++ " rules enabled, watchdog " ++ s.timeout.toText)
  let p ← modules host o.out (Dispatcher.ofRules rules).1 { writer := { format }, store } paths
  if let some k := p.store then reportStore host k
  Task.log host .info
    (Text.ofNat p.writer.count ++ " violations in " ++ Text.ofNat paths.length ++ " modules")
  if !o.summary.isEmpty then Task.writeDocument host o.summary (.array p.summaries)

end CilAudit.Check
