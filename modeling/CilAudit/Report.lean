import CilAudit.Json
import CilAudit.Violation

/-!
# Reports

Findings as lines: aligned columns, or one JSON object each. A report is written to an
output of limited room; the first line that does not fit ends it, while findings are still
counted.
-/

set_option autoImplicit false

namespace CilAudit

inductive ReportFormat where
  | text
  | jsonl
  deriving DecidableEq, Repr

namespace ReportFormat

def name : ReportFormat → Text
  | text => "text"
  | jsonl => "jsonl"

def ofName? (t : Text) : Option ReportFormat :=
  if t = text.name then some text else if t = jsonl.name then some jsonl else none

end ReportFormat

namespace Violation

/-- Blanks added on the right up to `width` characters; a stray byte counts as one. -/
def column (width : Nat) (t : Text) : Text :=
  t ++ Text.replicate (width - t.pieces.length) 0x20

/-- The line of a text report. -/
def textLine (v : Violation) : Text :=
  let place : Text := if 0 ≤ v.offset then offsetLabel v.offset else "-"
  column 7 v.check ++ " " ++ column 6 v.entity.kind.name ++ " " ++ v.entity.name ++ "  " ++ place
    ++ Text.ledBy "  " v.detail ++ "\n"

/-- The object of a JSON report; what is empty or missing is left out. -/
def toRecord (module : Text) (v : Violation) : Json :=
  let unlessEmpty (key : String) (t : Text) : List (Text × Json) :=
    if t.isEmpty then [] else [(Text.ofString key, .string t)]
  let offset : List (Text × Json) := if 0 ≤ v.offset then [("offset", .ofInt v.offset)] else []
  .object (unlessEmpty "module" module ++ [(Text.ofString "check", .string v.check),
    (Text.ofString "kind", .string v.entity.kind.name),
    (Text.ofString "name", .string v.entity.name)] ++ offset ++ unlessEmpty "detail" v.detail)

/-- The line of a finding in a report on `module`. -/
def reportLine (format : ReportFormat) (module : Text) (v : Violation) : Text :=
  match format with
  | .text => v.textLine
  | .jsonl => (v.toRecord module).compact ++ "\n"

end Violation

/-- A report in the course of being written. -/
structure ReportWriter where
  format : ReportFormat
  /-- The bytes that the output still takes; without a bound if missing. -/
  room : Option Nat := none
  /-- The module that the next findings belong to. -/
  module : Text := []
  /-- How many findings there were, written or not. -/
  count : Nat := 0
  hasFailed : Bool := false
  deriving DecidableEq, Repr

namespace ReportWriter

/-- What is said of a report that could not be written. -/
def errorMessage? (w : ReportWriter) : Option Text :=
  if w.hasFailed then
    some (match w.format with
      | .text => "output: write violation: disk full"
      | .jsonl => "output: encode violation: disk full")
  else none

/-- Takes one finding; also the text that is written. -/
def report (w : ReportWriter) (v : Violation) : ReportWriter × Text :=
  let counted := { w with count := w.count + 1 }
  let line := v.reportLine w.format w.module
  if w.hasFailed then (counted, [])
  else
    match w.room with
    | none => (counted, line)
    | some room =>
      if line.length ≤ room then ({ counted with room := some (room - line.length) }, line)
      else ({ counted with hasFailed := true }, [])

/-- Takes findings in order; also the text that is written. -/
def reportAll (w : ReportWriter) : List Violation → ReportWriter × Text
  | [] => (w, [])
  | v :: rest =>
    let (next, line) := w.report v
    let (last, lines) := reportAll next rest
    (last, line ++ lines)

end ReportWriter

end CilAudit
