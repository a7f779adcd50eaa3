import CilAudit.Command.Arguments
import CilAudit.Dispatcher
import CilAudit.Dump.Build
import CilAudit.Report.Store
import CilAudit.Report.StorePlace
import CilAudit.Settings

/-!
# Tasks

The steps that commands are made of. A task runs on a host and may fail; what it did before
that stays done.
-/

set_option autoImplicit false

namespace CilAudit

/-- Why a command failed. -/
inductive CommandError where
  | usage (cause : UsageError)
  | settings (cause : SettingsError)
  | unknownFormat (path : Text)
  | unreadableDump (path : Text) (cause : FileError)
  | malformedDump (path : Text) (cause : LoadError)
  | create (path : Text) (cause : FileError)
  | makeDirectory (path : Text) (cause : FileError)
  | createDocument (path : Text) (cause : FileError)
  | writeDrawing (path : Text) (cause : FileError)
  | openStore (name : Text)
  | noStore (name : Text)
  | readOnlyStore (name : Text)
  | store (cause : StoreError)
  | negativeDistance
  | noBodies (path : Text)
  | readSource (path : Text) (cause : FileError)
  | malformedSource (path : Text) (cause : LoadError)
  | encodeTarget (cause : Dump.WriteError)
  | writeTarget (path : Text) (cause : FileError)

def CommandError.message : CommandError → Text
  | usage cause => cause.message
  | settings cause => cause.message
  | unknownFormat path => "loader: " ++ path ++ ": unknown dump format"
  | unreadableDump path cause => "loader: " ++ path ++ ": " ++ cause.message
  | malformedDump path cause => "loader: " ++ path ++ ": " ++ cause.message
  | create path cause => "create " ++ path ++ ": " ++ cause.message
  | makeDirectory path cause => "output: mkdir " ++ path ++ ": " ++ cause.message
  | createDocument path cause => "output: create " ++ path ++ ": " ++ cause.message
  | writeDrawing path cause => "output: write " ++ path ++ ": " ++ cause.message
  | openStore name => "output: " ++ name ++ ": busy timeout: unable to open database file (14)"
  | noStore name => "output: " ++ name ++ ": create tables: file is not a database (26)"
  | readOnlyStore name =>
    "output: " ++ name ++ ": create tables: attempt to write a readonly database (8)"
  | store cause => cause.message
  | negativeDistance => "--k must be >= 0"
  | noBodies path => path ++ ": no method bodies"
  | readSource path cause => "read " ++ path ++ ": " ++ cause.message
  | malformedSource path cause => path ++ ": " ++ cause.message
  | encodeTarget cause => cause.message
  | writeTarget path cause => "write " ++ path ++ ": " ++ cause.message

/-- A task on a host whose steps are in `m`. -/
abbrev Task (m : Type → Type) := ExceptT CommandError m

namespace Task

variable {m : Type → Type} [Monad m]

/-- A step that may be refused, with the failure that a refusal means. -/
def ask {ε α : Type} (failure : ε → CommandError) (step : m (Except ε α)) : Task m α :=
  ExceptT.mk do return (← step).mapError failure

def log (host : Host m) (level : LogLevel) (message : Text) : Task m Unit :=
  host.log [⟨level, "cilscan", message⟩]

def formatOf (path : Text) : Task m DumpFormat :=
  match DumpFormat.ofPath? path with
  | some format => pure format
  | none => throw (.unknownFormat path)

/-- Loads the module in a file; a module without a name gets that of the file. -/
def loadModule (host : Host m) (path : Text) : Task m Module := do
  let format ← formatOf path
  let data ← ask (.unreadableDump path) (host.read path)
  let module ← ask (.malformedDump path) (pure (Module.load format.name data))
  host.log [module.builtEntry]
  return if module.name.isEmpty then { module with name := Path.base path } else module

/-- Writes a file in a directory that is created if need be. -/
def writeBelow (host : Host m) (failure : Text → FileError → CommandError) (path contents : Text) :
    Task m Unit := do
  let directory := Path.directory path
  ask (.makeDirectory directory) (host.makeDirectories directory)
  ask (failure path) (host.write path contents)

/-- Writes a document over several lines. -/
def writeDocument (host : Host m) (path : Text) (document : Json) : Task m Unit :=
  writeBelow host .createDocument path (document.indented ++ "\n")

end Task

end CilAudit
