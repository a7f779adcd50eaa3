import CilAudit.Text

/-!
# Trees

Labelled trees drawn with lines, one node to a line. Every ancestor of a node takes a cell
of four columns, with a line in it where more siblings of that ancestor follow.
-/

set_option autoImplicit false

namespace CilAudit

/-- A tree; a node may have a tag, which stands in brackets before its label. -/
inductive Tree where
  | node (tag : Option Text) (label : Text) (children : List Tree)
  deriving Repr

namespace Tree

def leaf (tag : Text) (label : Text) : Tree := node (some tag) label []

def label : Tree → Text
  | node _ l _ => l

/-- The cell below a node: a line if siblings follow. -/
def cell (isLast : Bool) : Text := if isLast then "    " else "│   "

/-- A node's tag and label. The further lines of the label are set off by `margin`. -/
def caption (margin : Text) (tag : Option Text) (label : Text) : Text :=
  let shown : Text := match tag with
    | some t => "[" ++ t ++ "]  "
    | none => []
  shown ++ Text.joinWith ("\n" ++ margin) (label.splitAt 0x0A)

mutual

/-- The lines of a node below the root, after the cells of its ancestors. -/
def drawNode (cells : Text) (isLast : Bool) : Tree → Text
  | node tag label children =>
    let edge : Text := if isLast then "└── " else "├── "
    let below := cells ++ cell isLast
    cells ++ edge ++ caption below tag label ++ "\n" ++ drawAll below children

/-- The lines of siblings. -/
def drawAll (cells : Text) : List Tree → Text
  | [] => []
  | t :: rest => drawNode cells rest.isEmpty t ++ drawAll cells rest

end

/-- The drawing: the root's label as it is, then the nodes below it. -/
def draw : Tree → Text
  | node _ label children => label ++ "\n" ++ drawAll [] children

end Tree

end CilAudit
