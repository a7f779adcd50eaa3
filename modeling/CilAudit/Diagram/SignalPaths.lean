import CilAudit.Diagram
import CilAudit.Signal.View

/-!
# Drawings of signal graphs

The view of a signal graph with its leaves. Methods of one type stand together when there are
several.
-/

set_option autoImplicit false

namespace CilAudit

namespace Diagram

open Signal

/-- How a target is drawn. -/
structure TargetStyle where
  fill : Text
  border : Text
  /-- Empty for the colour of other nodes. -/
  font : Text
  pen : Text

def targetStyle : Option Severity → TargetStyle
  | some .high => ⟨"#FCE4EC", "#C62828", "#C62828", "1.5"⟩
  | some .medium => ⟨"#FFF3E0", "#E65100", "#E65100", "1.2"⟩
  | some .low => ⟨"#E3F2FD", "#1565C0", [], "1.0"⟩
  | none => ⟨[], [], [], "0.0"⟩

/-- The colour of a literal, by the name of its first category. -/
def literalColour (t : Theme) (category : Text) : Text :=
  match Category.ofName? category with
  | some .encryption | some .base64 | some .process => "#C62828"
  | some .auth => "#AD1457"
  | some .url | some .host => "#0B3D91"
  | some .registry => "#6A1B9A"
  | _ => t.literalEdge

def nodeLine (t : Theme) (g : SignalGraph) (indent name : Text) : Text :=
  let label := shortened 40 (shortMethod name)
  let (lines, style) : List Text × Text :=
    if g.isTarget name then
      let m := g.method? name
      let s := targetStyle (m.bind (·.severity))
      let categories := (m.map (·.categories)).getD []
      let font : Text := if s.font.isEmpty then [] else ", fontcolor=" ++ plainQuoted s.font
      ((if categories.isEmpty then [label]
        else [label, shortened 30 (Text.joinWith "," categories)]),
        ", fillcolor=" ++ plainQuoted s.fill ++ ", color=" ++ plainQuoted s.border ++ ", penwidth="
          ++ s.pen ++ font)
    else if !g.isCalled name then
      ([label], ", fillcolor=\"#E8F5E9\", color=" ++ plainQuoted t.entryBorder ++ ", penwidth=1.2")
    else ([label], ", fillcolor=\"#F5F5F5\", color=\"#BDBDBD\", fontcolor=\"#757575\"")
  indent ++ nodeId name ++ " [label=" ++ quotedLines lines ++ style ++ "];"

/-- The declaring type of a method, if it is known. -/
def ownerOf (g : SignalGraph) (name : Text) : Text := ((g.method? name).map (·.owner)).getD []

/-- The types that several of the methods belong to, in order. -/
def clusters (g : SignalGraph) (names : List Text) : List Text :=
  (Text.sort (names.map (ownerOf g)).eraseDups).filter fun owner =>
    owner ≠ [] && 2 ≤ names.countP (ownerOf g · = owner)

/-- The methods of one type in a frame. -/
def clusterLines (t : Theme) (g : SignalGraph) (owner : Text) (names : List Text) : List Text :=
  let head : List Text :=
    ["  subgraph cluster_" ++ nodeId owner ++ " \x7b",
      "    label=<<font point-size=\"8\" color=\"" ++ t.clusterLabel ++ "\">" ++ escaped owner
        ++ "</font>>;",
      "    style=dotted; color=" ++ plainQuoted t.clusterBorder ++ "; penwidth=0.3;"]
  head ++ names.map (nodeLine t g "    ") ++ [Text.ofString "  \x7d"]

def nodeLines (t : Theme) (g : SignalGraph) (v : SignalView) : List Text :=
  let names := Text.sort v.nodes
  let owners := clusters g names
  let loose := names.filter fun name => !owners.contains (ownerOf g name)
  owners.flatMap (fun owner => clusterLines t g owner (names.filter (ownerOf g · = owner)))
    ++ loose.map (nodeLine t g "  ") ++ [[]]

/-- The name of the node of the leaf with a number. -/
def leafId (n : Nat) : Text := "str_" ++ Text.ofNat n

def leafLine (t : Theme) (leaf : Leaf) (n : Nat) : Text :=
  let colour := literalColour t leaf.category
  "  " ++ leafId n ++ " [shape=rect, style=\"filled,rounded\", fillcolor=\"#FFF8E1\", color="
    ++ plainQuoted colour ++ ", penwidth=0.3, fontsize=7, fontcolor=" ++ plainQuoted colour
    ++ ", fontname=\"Courier,monospace\", margin=\"0.06,0.03\", height=0.2, label="
    ++ quotedLines [leaf.label] ++ "];"

def leafLines (t : Theme) (leaves : List Leaf) : List Text :=
  if leaves.isEmpty then []
  else
    Text.ofString "  // String literals" ::
      (leaves.zipIdx.map fun (leaf, n) => leafLine t leaf n) ++ [[]]

/-- Order of calls: by the caller, then by the callee. -/
def callLe (a b : Text × Text) : Bool := if a.1 = b.1 then a.2.le b.2 else a.1.le b.1

def callLine (t : Theme) (g : SignalGraph) (c : Text × Text) : Text :=
  let style : Text :=
    if g.isTarget c.2 then "color=" ++ plainQuoted t.signalEdge ++ ", penwidth=1.0"
    else "color=" ++ plainQuoted t.callEdge
  "  " ++ nodeId c.1 ++ " -> " ++ nodeId c.2 ++ " [" ++ style ++ "];"

def leafEdgeLine (t : Theme) (leaf : Leaf) (n : Nat) : Text :=
  "  " ++ nodeId leaf.method ++ " -> " ++ leafId n
    ++ " [style=dotted, arrowsize=0.3, penwidth=0.4, color=" ++ plainQuoted t.literalEdge ++ "];"

def signalHeader (t : Theme) (title : Text) : List Text :=
  let common : List Text :=
    ["digraph signal \x7b", "  rankdir=LR;", "  compound=true;", "  splines=true;",
      "  nodesep=0.3;", "  ranksep=0.5;", "  bgcolor=" ++ plainQuoted t.background ++ ";",
      "  node [shape=rect, style=filled, fillcolor=" ++ plainQuoted t.nodeFill ++ ", color="
        ++ plainQuoted t.nodeBorder
        ++ ", penwidth=0.5, fontname=\"Helvetica Neue,Helvetica,Arial\", fontsize=9, fontcolor="
        ++ plainQuoted t.text ++ ", height=0.3, margin=\"0.10,0.05\"];",
      "  edge [penwidth=0.6, arrowsize=0.5, arrowhead=vee, color=" ++ plainQuoted t.callEdge ++ "];"]
  if title.isEmpty then common
  else common ++ [Text.ofString "  labelloc=t; labeljust=l;", titleLine t (escaped title)]

/-- The drawing of a signal graph. -/
def signalPaths (t : Theme) (title : Text) (g : SignalGraph) : Text :=
  let v := SignalView.ofGraph g
  let leaves := v.leaves g
  Text.lines <|
    signalHeader t title ++ [[]] ++ nodeLines t g v ++ leafLines t leaves
      ++ (v.calls.mergeSort callLe).map (callLine t g)
      ++ (leaves.zipIdx.map fun (leaf, n) => leafEdgeLine t leaf n) ++ [Text.ofString "\x7d"]

end Diagram

end CilAudit
