import CilAudit.File
import CilAudit.Report
import CilAudit.Text.Letter
import CilAudit.Text.Quoted
import CilAudit.Toml.Document
import CilAudit.Watchdog

/-!
# Settings

The settings of a run: defaults, and a document that may change them. The document is named
by the user or found in the working directory or one above it.
-/

set_option autoImplicit false

namespace CilAudit

structure Settings where
  timeout : Duration := ⟨0⟩
  verbosity : Int := 0
  logFile : Text := []
  /-- The ids of rules that do not run. -/
  disabled : List Text := []
  /-- The name of the report format. -/
  format : Text := []
  /-- The path of a store for the findings; none if empty. -/
  database : Text := []
  /-- The document the settings come from; empty for defaults. -/
  path : Text := []
  deriving DecidableEq, Repr

inductive SettingsError where
  | unreadable (path : Text) (cause : FileError)
  | malformed (path : Text)
  | unknownFormat (source format : Text)
  | negativeVerbosity (source : Text)
  deriving DecidableEq, Repr

def SettingsError.message : SettingsError → Text
  | unreadable path cause => "config: cannot read " ++ path ++ ": " ++ cause.message
  | malformed path => "config: parse error in " ++ path ++ ": not a settings document"
  | unknownFormat source format =>
    "config: " ++ source ++ ": report format " ++ format.quoted ++ ": want "
      ++ ReportFormat.text.name.quoted ++ " or " ++ ReportFormat.jsonl.name.quoted
  | negativeVerbosity source => "config: " ++ source ++ ": negative log verbosity"

namespace Settings

/-- The name of the document that is looked for. -/
def fileName : Text := "cilscan.toml"

/-- The settings with defaults for what they leave open. -/
def completed (s : Settings) : Settings :=
  { s with
    timeout := Watchdog.effectiveTimeout s.timeout
    format := if s.format.isEmpty then ReportFormat.text.name else s.format }

def default : Settings := completed {}

def source (s : Settings) : Text := if s.path.isEmpty then "defaults" else s.path

/-- The report format of settings that can be used. -/
def validate (s : Settings) : Except SettingsError ReportFormat :=
  match ReportFormat.ofName? s.format with
  | none => .error (.unknownFormat s.source s.format)
  | some format => if s.verbosity < 0 then .error (.negativeVerbosity s.source) else .ok format

def textOf? : Toml.Content → Option Text
  | .value (.string t) => some t
  | _ => none

def integerOf? : Toml.Content → Option Int
  | .value (.integer n) => some n
  | _ => none

def textsOf? : Toml.Content → Option (List Text)
  | .value (.array items) => items.mapM fun v => textOf? (.value v)
  | _ => none

/-- A duration is written as a text; a number stands for the text of its digits. -/
def durationOf? : Toml.Content → Option Duration
  | .value (.string t) => (Duration.read t).toOption
  | .value (.integer n) => (Duration.read (Text.ofInt n)).toOption
  | _ => none

/-- Takes over one entry of a section. Names agree up to case; unknown ones change nothing. -/
def withField? (section_ : Text) (s : Settings) (entry : Text × Toml.Content) : Option Settings :=
  let is (sectionName name : Text) : Bool :=
    sectionName.equalFold section_ && name.equalFold entry.1
  if is "watchdog" "timeout" then
    (durationOf? entry.2).map fun timeout => { s with timeout }
  else if is "log" "verbosity" then
    (integerOf? entry.2).map fun verbosity => { s with verbosity }
  else if is "log" "file" then (textOf? entry.2).map fun logFile => { s with logFile }
  else if is "rules" "disabled" then (textsOf? entry.2).map fun disabled => { s with disabled }
  else if is "report" "format" then (textOf? entry.2).map fun format => { s with format }
  else if is "report" "database" then (textOf? entry.2).map fun database => { s with database }
  else some s

def sections : List Text := ["watchdog", "log", "rules", "report"]

/-- Takes over one section, which has to be a table. -/
def withSection? (s : Settings) (entry : Text × Toml.Content) : Option Settings :=
  if sections.any (·.equalFold entry.1) then
    match entry.2 with
    | .table entries => entries.foldlM (withField? entry.1) s
    | _ => none
  else some s

/-- The settings in a document. -/
def ofDocument? (d : Toml.Document) : Option Settings := d.entries.foldlM withSection? {}

/-- The settings in the document with a path and these contents. -/
def read (path contents : Text) : Except SettingsError Settings :=
  match (Toml.Document.read? contents).bind ofDocument? with
  | none => .error (.malformed path)
  | some s =>
    let s := { s with path }.completed
    s.validate.map fun _ => s

variable {m : Type → Type} [Monad m]

/-- Reads the document with a path. -/
def load (host : Host m) (path : Text) : m (Except SettingsError Settings) := do
  match ← host.read path with
  | .error cause => return .error (.unreadable path cause)
  | .ok contents => return read path contents

/-- Reads the document in the first of the directories that has one; defaults if none has. -/
def loadFirst (host : Host m) : List Text → m (Except SettingsError Settings)
  | [] => return .ok default
  | directory :: rest => do
    let path := Path.join [directory, fileName]
    if ← host.isPresent path then load host path else loadFirst host rest

/-- Looks for a document in a directory and those above it. -/
def find (host : Host m) (directory : Text) : m (Except SettingsError Settings) := do
  loadFirst host (Path.ancestors (Path.absolute (← host.workingDirectory) directory))

end Settings

end CilAudit
