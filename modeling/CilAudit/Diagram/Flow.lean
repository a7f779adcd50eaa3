import CilAudit.BlockGraph
import CilAudit.Diagram
import CilAudit.Instruction.Listing
import CilAudit.Text.Letter

/-!
# Drawings of block graphs

A node for each block with its listing, and an edge for each way control passes. Marked
instructions stand out, and so does their block.
-/

set_option autoImplicit false

namespace CilAudit

/-- The ids of the checks reported at an offset, separated by blanks. -/
abbrev Marks := List (Int × Text)

namespace Marks

def at_ (marks : Marks) (offset : Int) : Text := (marks.lookup offset).getD []

/-- How often each check is marked: "A x2, B x1". -/
def summary (marks : Marks) : Text :=
  let ids := marks.flatMap fun m => Text.words m.2
  Text.joinWith ", " ((Text.sort ids.eraseDups).map fun id =>
    id ++ " x" ++ Text.ofNat (ids.count id))

end Marks

namespace Diagram

/-- The most lines of a block that are drawn in full. -/
def maxBlockLines : Nat := 12

/-- How many lines remain at either end of a longer block. -/
def blockEdgeLines : Nat := 5

def lineBreak : Text := "<br align=\"left\"/>"

def instructionLine (t : Theme) (marks : Marks) (i : Instruction) : Text :=
  let line := escaped (i.line [fun i => marks.at_ i.offset])
  if marks.at_ i.offset = [] then line
  else "<font color=\"" ++ t.finding ++ "\">" ++ line ++ "</font>"

/-- The lines of a block, the middle of a long one left out. -/
def elided (lines : List Text) : List Text :=
  if lines.length ≤ maxBlockLines then lines
  else
    lines.take blockEdgeLines
      ++ ["... (" ++ Text.ofNat (lines.length - 2 * blockEdgeLines) ++ " more)"]
      ++ lines.drop (lines.length - blockEdgeLines)

def blockLine (t : Theme) (marks : Marks) (body : Array Instruction) (b : Block) : Text :=
  let instructions := (body.extract b.start b.stop).toList
  let label := Text.joinWith lineBreak (elided (instructions.map (instructionLine t marks)))
    ++ lineBreak
  let border (colour : Text) : Text := ", penwidth=1.5, color=" ++ plainQuoted colour
  let outline : Text :=
    if instructions.any (marks.at_ ·.offset ≠ []) then border t.finding
    else if b.isEntry then border t.entryBorder
    else []
  let fill : Text := if b.isTerm then ", fillcolor=" ++ plainQuoted t.terminalFill else []
  "  bb" ++ Text.ofNat b.id ++ " [label=<" ++ label ++ ">" ++ outline ++ fill ++ "];"

def edgeStyle (t : Theme) : Outcome → Text
  | .always => "color=" ++ plainQuoted t.callEdge
  | .taken => labelled t.trueEdge "T"
  | .otherwise => labelled t.falseEdge "F"
where
  labelled (colour label : Text) : Text :=
    "color=" ++ plainQuoted colour ++ ", label=<<font point-size=\"7\" color=\"" ++ colour
      ++ "\">" ++ label ++ "</font>>"

def edgeLine (t : Theme) (source : Nat) (e : Edge) : Text :=
  "  bb" ++ Text.ofNat source ++ " -> bb" ++ Text.ofNat e.block ++ " [" ++ edgeStyle t e.outcome
    ++ "];"

def flowHeader (t : Theme) (title : Text) : List Text :=
  ["digraph cfg \x7b", "  rankdir=TB;", "  nodesep=0.3;", "  ranksep=0.4;",
    "  bgcolor=" ++ plainQuoted t.background ++ ";",
    "  node [shape=rect, style=filled, fillcolor=" ++ plainQuoted t.nodeFill ++ ", color="
      ++ plainQuoted t.nodeBorder
      ++ ", penwidth=0.5, fontname=\"Courier,monospace\", fontsize=8, fontcolor="
      ++ plainQuoted t.text ++ ", margin=\"0.08,0.04\"];",
    "  edge [penwidth=0.7, arrowsize=0.5, arrowhead=vee];", "  labelloc=t;", "  labeljust=l;",
    titleLine t title, []]

/-- The drawing of a block graph; nothing for one without blocks. -/
def flow (t : Theme) (marks : Marks) (g : BlockGraph) : Text :=
  if g.blocks.isEmpty then []
  else
    let found := escaped marks.summary
    let title : Text :=
      if found.isEmpty then escaped g.name
      else escaped g.name ++ "<br/><font color=\"" ++ t.finding ++ "\">" ++ found ++ "</font>"
    Text.lines <|
      flowHeader t title ++ g.blocks.toList.map (blockLine t marks g.body) ++ [[]]
        ++ (g.blocks.toList.flatMap fun b => b.succs.map (edgeLine t b.id))
        ++ [Text.ofString "\x7d"]

end Diagram

end CilAudit
