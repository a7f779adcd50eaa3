import CilAudit.Command

/-!
# Program

The command line on the real file system.
-/

set_option autoImplicit false

namespace CilAudit.Main

/-- The bytes of a text as an array. -/
def bytes (t : Text) : ByteArray := ⟨t.toArray⟩

/-- A text as a string; what is no UTF-8 is replaced. -/
def string (t : Text) : String := String.ofList t.chars

/-- What a refused operation means. -/
def faultOf : IO.Error → FileFault
  | .noFileOrDirectory .. => .noEntry
  | .inappropriateType _ _ details =>
    if details = "Is a directory" then .isDirectory else .notDirectory
  | .invalidArgument _ _ details =>
    if details = "File name too long" then .nameTooLong else .invalidName
  | e => .other (Text.ofString (toString e))

/-- An operation on a path that may be refused. -/
def attempt {α : Type} (operation : String) (path : Text) (act : IO α) :
    IO (Except FileError α) := do
  try return .ok (← act)
  catch e => return .error ⟨operation, path, faultOf e⟩

/-- The least verbosity at which entries of a level are wanted. -/
def rank : LogLevel → Int
  | .critical => -3
  | .error => -2
  | .warning => -1
  | .notice => 0
  | .info => 1
  | .debug => 2

def logLine (e : LogEntry) : Text :=
  Text.ofString e.level.name ++ " [" ++ Text.ofString e.logger ++ "] " ++ e.message ++ "\n"

/-- Where entries of the log go, and how many levels of them. -/
structure LogTarget where
  verbosity : Int := 0
  file : Text := []

/-- Adds a text to the log. -/
def appendLog (file text : Text) : IO Unit := do
  if file.isEmpty then (← IO.getStderr).write (bytes text)
  else IO.FS.withFile (string file) .append fun handle => handle.write (bytes text)

/-- The system the program runs on. -/
def host (target : IO.Ref LogTarget) : Host IO where
  read path := do
    let contents ← attempt "open" path do return (← IO.FS.readBinFile (string path)).toList
    return contents.mapError fun e =>
      if e.fault = .isDirectory then { e with operation := "read" } else e
  write path contents := attempt "open" path (IO.FS.writeBinFile (string path) (bytes contents))
  makeDirectories path := attempt "mkdir" path (IO.FS.createDirAll (string path))
  isPresent path := do return ← ((← IO.currentDir) / string path).pathExists
  workingDirectory := do return Text.ofString (← IO.currentDir).toString
  print t := do (← IO.getStdout).write (bytes t)
  notify t := do (← IO.getStderr).write (bytes t)
  openLog verbosity file := target.set { verbosity, file }
  log entries := do
    let t ← target.get
    let wanted := entries.filter fun e => rank e.level ≤ t.verbosity
    if !wanted.isEmpty then appendLog t.file (wanted.flatMap logLine)

end CilAudit.Main

open CilAudit in
def main (args : List String) : IO UInt32 := do
  let target ← IO.mkRef ({} : Main.LogTarget)
  match ← (Command.run (Main.host target) (args.map Text.ofString)).run with
  | .ok _ => return 0
  | .error e =>
    (← IO.getStderr).write (Main.bytes ("error: " ++ e.message ++ "\n"))
    return 1
