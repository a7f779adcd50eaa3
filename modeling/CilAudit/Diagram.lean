import CilAudit.Text.Numeral
import CilAudit.Text.Utf8

/-!
# Diagrams

What all drawings share: the colours, the escaping of labels, and names for nodes. A drawing
is a text in the graph description language of a layout program.
-/

set_option autoImplicit false

namespace CilAudit

/-- The colours of a drawing. -/
structure Theme where
  background : Text
  nodeFill : Text
  nodeBorder : Text
  text : Text
  callEdge : Text
  /-- Calls of signal methods. -/
  signalEdge : Text
  /-- A branch taken. -/
  trueEdge : Text
  /-- A branch not taken. -/
  falseEdge : Text
  /-- From a method to its literals. -/
  literalEdge : Text
  entryBorder : Text
  /-- Blocks that leave the method. -/
  terminalFill : Text
  /-- Instructions with a finding. -/
  finding : Text
  clusterBorder : Text
  clusterLabel : Text
  deriving DecidableEq, Repr

/-- Few colours on light grey. -/
def Theme.plain : Theme where
  background := "#F5F5F5"
  nodeFill := "white"
  nodeBorder := "#1A1A1A"
  text := "#1A1A1A"
  callEdge := "#424242"
  signalEdge := "#0B3D91"
  trueEdge := "#0B3D91"
  falseEdge := "#FC3D21"
  literalEdge := "#C2185B"
  entryBorder := "#0B3D91"
  terminalFill := "#ECEFF1"
  finding := "#C62828"
  clusterBorder := "#BDBDBD"
  clusterLabel := "#757575"

namespace Diagram

/-- A text for a label with markup. The ampersands come first, since the entities that stand for
    the other characters bring in new ones. -/
def escaped (t : Text) : Text :=
  (((t.replaceByte 0x26 "&amp;").replaceByte 0x3C "&lt;").replaceByte 0x3E "&gt;").replaceByte 0x22
    "&quot;"

def isIdChar (c : Char) : Bool := c.isAlphanum || c = '_'

/-- A character as it stands in the name of a node. -/
def idChar (c : Char) : Text :=
  if isIdChar c then Text.ofChars [c] else "_" ++ Text.hex 4 c.toNat

/-- The name of the node of a method: letters, digits and underscores stand for themselves, any
    other character for its number. -/
def nodeId (name : Text) : Text := "n_" ++ name.chars.flatMap idChar

/-- A line for a plain label. The backslashes come first, since those before the quotes are new. -/
def quotedLine (t : Text) : Text := (t.replaceByte 0x5C "\\\\").replaceByte 0x22 "\\\""

/-- Lines as one plain label. -/
def quotedLines (lines : List Text) : Text :=
  "\"" ++ Text.joinWith "\\n" (lines.map quotedLine) ++ "\""

/-- A type without its namespace; nested types keep their outer ones. -/
def shortType (name : Text) : Text := ((name.cutAtLast (· = 0x2E)).map (·.2)).getD name

/-- A full method name reduced to type and name; what is no such name stays. -/
def shortMethod (full : Text) : Text :=
  let signature := ((Text.cutAt 0x28 full).map (·.1)).getD full
  match Text.cutOn "::" signature with
  | none => full
  | some (owner, name) =>
    shortType (((owner.cutAtLast (· = 0x20)).map (·.2)).getD owner) ++ "::" ++ name

/-- A text between double quotes; for texts that need no escaping. -/
def plainQuoted (t : Text) : Text := "\"" ++ t ++ "\""

/-- The title of a drawing, from a label with markup. -/
def titleLine (t : Theme) (markup : Text) : Text :=
  "  label=<<font face=\"Helvetica Neue,Helvetica\" point-size=\"9\" color=\"" ++ t.text ++ "\">"
    ++ markup ++ "</font>>;"

end Diagram

end CilAudit
