import CilAudit.Command.Line
import CilAudit.Command.Task
import CilAudit.Diagram.Calls
import CilAudit.Diagram.Flow
import CilAudit.Diagram.SignalPaths
import CilAudit.Rule.All

/-!
# Drawing modules

Writes the call graph of a module, the blocks of its methods, and the graph of its signal
methods, and on request the block graphs of single methods with the findings in them.
-/

set_option autoImplicit false

namespace CilAudit.Graphs

variable {m : Type → Type} [Monad m]

/-- Writes a drawing into a directory, and gives its path. -/
def draw (host : Host m) (out name drawing : Text) : Task m Text := do
  let path := Path.join [out, name]
  Task.writeBelow host .writeDrawing path drawing
  host.notify ("wrote " ++ path ++ " (" ++ Text.ofNat drawing.length ++ " bytes)\n")
  return path

/-- The summaries of the signal methods that have any. -/
def signalSummaries (methods : List AnalysedMethod) (g : SignalGraph) : List SiteGraph :=
  let isSignal (f : AnalysedMethod) : Bool :=
    (g.methods.reverse.find? (·.name = f.name)).any (·.role = .signal)
  ((methods.filter isSignal).map SiteGraph.summary).filter (!·.blocks.isEmpty)

/-- The findings in the instructions of a method, by offset. -/
def marksOf (vs : List Violation) (method : Text) : Marks :=
  let found := vs.filter fun v => v.entity = ⟨.method, method⟩ && 0 ≤ v.offset
  (found.map (·.offset)).eraseDups.map fun offset =>
    (offset, Text.joinWith " " (Text.sort ((found.filter (·.offset = offset)).map (·.check))))

/-- Draws the methods one by one, with the findings of the enabled rules. -/
def drawMethods (host : Host m) (disabled : List Text) (o : GraphOptions) (module : Module)
    (methods : List AnalysedMethod) : Task m (List Text) := do
  host.log (Rule.disabledLog disabled)
  let (_, r) := (Dispatcher.ofRules (Rule.enabled disabled)).1.run module
  host.log r.log
  let chosen := methods.filter (·.name.contains o.method)
  let paths ← chosen.mapM fun f =>
    draw host o.out (Path.join ["methods", Path.fileName f.name ++ ".dot"])
      (Diagram.flow .plain (marksOf r.violations f.name)
        (BlockGraph.ofBody f.name f.instructions f.entries))
  if chosen.isEmpty then Task.log host .warning ("no method matches " ++ o.method.quoted)
  return paths

/-- Draws the signal methods, if there are any. -/
def drawSignals (host : Host m) (out title : Text) (methods : List AnalysedMethod)
    (g : SignalGraph) : Task m (List Text) := do
  if g.methods.isEmpty then return []
  let paths ← draw host out "signal.dot" (Diagram.signalPaths .plain title g)
  let summaries := signalSummaries methods g
  if summaries.isEmpty then return [paths]
  let blocks ← draw host out "signal_cfg.dot" (Diagram.sites .plain (title ++ " (signal)") summaries)
  return [paths, blocks]

/-- What is said when pictures are wanted and cannot be made. -/
def svgHint (drawings : List Text) : Text :=
  "\ndot not found in PATH; SVG not generated.\n" ++ Text.concat (drawings.map fun d =>
    "  dot -Tsvg -o " ++ Text.trimEnd d ".dot" ++ ".svg " ++ d ++ "\n")

/-- Draws the module in a file. -/
def run (host : Host m) (s : Settings) (o : GraphOptions) (path : Text) : Task m Unit := do
  if o.distance < 0 then throw .negativeDistance
  let module ← Task.loadModule host path
  let title := Path.title path
  let methods := module.analysed
  let skipped := module.skippedLog
  host.log skipped
  if !skipped.isEmpty then
    Task.log host .warning (Text.ofNat skipped.length ++ " method bodies skipped")
  if methods.isEmpty then throw (.noBodies path)
  let calls ← draw host o.out "callgraph.dot"
    (Diagram.calls .plain title (CallGraph.ofMethods methods))
  let blocks ← draw host o.out "cfg.dot"
    (Diagram.sites .plain title (methods.map SiteGraph.ofMethod))
  let g := SignalGraph.build (Signal.membersOf methods) (Signal.callsOf methods)
    (Signal.literalsOf methods) o.distance
  Task.log host .info
    ("signal graph: " ++ Text.ofNat g.stats.signal ++ " signal, " ++ Text.ofNat g.stats.context
      ++ " context of " ++ Text.ofNat g.stats.methods ++ " methods")
  let document := Path.join [o.out, "signal.json"]
  Task.writeDocument host document g.toJson
  host.notify ("wrote " ++ document ++ " (" ++ Text.ofNat g.methods.length ++ " funcs, "
    ++ Text.ofNat g.calls.length ++ " edges)\n")
  let signals ← drawSignals host o.out title methods g
  let single ←
    if o.method.isEmpty then pure [] else drawMethods host s.disabled o module methods
  if o.svg then host.notify (svgHint ([calls, blocks] ++ signals ++ single))

end CilAudit.Graphs
