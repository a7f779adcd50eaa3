import CilAudit.CallGraph
import CilAudit.Diagram

/-!
# Drawings of call graphs

Methods with their calls, and the blocks of methods with the calls and literals in them.
-/

set_option autoImplicit false

namespace CilAudit.Diagram

/-- The lines before the nodes of a drawing. -/
def callHeader (t : Theme) (name title : Text) : List Text :=
  ["digraph " ++ name ++ " \x7b", "  rankdir=LR;", "  bgcolor=" ++ plainQuoted t.background ++ ";",
    "  node [shape=rect, style=filled, fillcolor=" ++ plainQuoted t.nodeFill ++ ", color="
      ++ plainQuoted t.nodeBorder ++ ", fontcolor=" ++ plainQuoted t.text ++ ", fontsize=8];",
    "  edge [color=" ++ plainQuoted t.callEdge ++ ", arrowsize=0.5];", "  labelloc=t;",
    titleLine t (escaped title)]

/-- The drawing of a call graph. -/
def calls (t : Theme) (title : Text) (g : CallGraph) : Text :=
  let node (n : Text) : Text := "  " ++ nodeId n ++ " [label=" ++ quotedLines [shortMethod n] ++ "];"
  let edge (e : Text × Text) : Text := "  " ++ nodeId e.1 ++ " -> " ++ nodeId e.2 ++ ";"
  Text.lines (callHeader t "calls" title ++ g.nodes.map node ++ g.edges.map edge
    ++ [Text.ofString "\x7d"])

/-- The name of a block in a drawing of several methods. -/
def siteId (graph block : Nat) : Text := "m" ++ Text.ofNat graph ++ "_b" ++ Text.ofNat block

/-- The blocks of one method, in a frame of their own. -/
def siteCluster (graph : Nat) (g : SiteGraph) : List Text :=
  let node (b : SiteBlock) : Text :=
    "    " ++ siteId graph b.id ++ " [label=" ++ quotedLines (b.sites.map (·.label)) ++ "];"
  let edges (b : SiteBlock) : List Text := b.succs.map fun e =>
    "    " ++ siteId graph b.id ++ " -> " ++ siteId graph e.block ++ ";"
  ["  subgraph cluster_" ++ Text.ofNat graph ++ " \x7b",
    "    label=" ++ quotedLines [shortMethod g.name] ++ ";"]
    ++ g.blocks.map node ++ g.blocks.flatMap edges ++ [Text.ofString "  \x7d"]

/-- The drawing of methods with the calls and literals of their blocks. -/
def sites (t : Theme) (title : Text) (graphs : List SiteGraph) : Text :=
  Text.lines (callHeader t "blocks" title
    ++ (graphs.zipIdx.flatMap fun (g, n) => siteCluster n g) ++ [Text.ofString "\x7d"])

end CilAudit.Diagram
