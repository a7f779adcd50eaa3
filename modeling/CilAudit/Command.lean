import CilAudit.Command.Check
import CilAudit.Command.Graphs
import CilAudit.Module.Listing
import CilAudit.Module.Outline
import CilAudit.Rule.Catalogue

/-!
# Commands

A command line carried out on a host.
-/

set_option autoImplicit false

namespace CilAudit.Command

variable {m : Type → Type} [Monad m]

/-- Prints the listings of a module, or its outline. -/
def dump (host : Host m) (o : DumpOptions) (path : Text) : Task m Unit := do
  let module ← Task.loadModule host path
  if o.tree then host.print (module.outline.draw ++ "\n")
  else host.print (module.listings o.method (if o.strings then [signalNote] else []))

/-- Prints the catalogue of rules. -/
def rules (host : Host m) (s : Settings) : Task m Unit := do
  host.log (Rule.disabledLog s.disabled)
  host.print ((Rule.catalogue s.disabled).draw ++ "\n")

/-- Writes a dump in another format. A dump that describes no module is not written. -/
def convert (host : Host m) (source target : Text) : Task m Unit := do
  let sourceFormat ← Task.formatOf source
  let targetFormat ← Task.formatOf target
  let data ← Task.ask (.readSource source) (host.read source)
  let dump ← Task.ask (.malformedSource source) (pure (Dump.read sourceFormat.name data))
  let module ← Task.ask (.malformedSource source) (pure dump.build)
  host.log [module.builtEntry]
  let encoded ← Task.ask .encodeTarget (pure (dump.write targetFormat.name))
  Task.ask (.writeTarget target) (host.write target encoded)
  host.notify ("wrote " ++ target ++ " (" ++ Text.ofNat encoded.length ++ " bytes)\n")

/-- The settings of a run. -/
def settings (host : Host m) (line : CommandLine) : Task m Settings := do
  let s ← Task.ask .settings
    (if line.config.isEmpty then Settings.find host "." else Settings.load host line.config)
  let s : Settings :=
    { s with
      verbosity := if 0 < line.verbosity then line.verbosity else s.verbosity
      logFile := if line.logFile.isEmpty then s.logFile else line.logFile }
  host.openLog s.verbosity s.logFile
  if !s.path.isEmpty then Task.log host .debug ("config: " ++ s.path)
  return s

/-- Carries out a command line. -/
def run (host : Host m) (words : List Text) : Task m Unit := do
  let line ← Task.ask .usage (pure (CommandLine.parse words))
  if line.request ≠ .help then
    let s ← settings host line
    match line.request with
    | .check options paths => Check.run host s options paths
    | .dump options path => dump host options path
    | .graphs options path => Graphs.run host s options path
    | .rules => rules host s
    | .convert source target => convert host source target
    | .help => return

end CilAudit.Command
