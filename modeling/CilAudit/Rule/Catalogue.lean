import CilAudit.Rule.All
import CilAudit.Tree

/-!
# Catalogue of rules

The rules by category. The letters in front of the number of a rule's id say which one.
-/

set_option autoImplicit false

namespace CilAudit.Rule

/-- The categories by the letters that stand for them. -/
def categories : List (Text × Text) :=
  [("C", "correctness"), ("R", "reliability"), ("PO", "portability"), ("D", "design"),
    ("P", "performance"), ("S", "security"), ("MS", "security")]

/-- The category of an id. -/
def categoryOf (id : Text) : Text :=
  let letters := (id.reverse.dropWhile Text.isDigit).reverse
  (categories.lookup letters).getD "other"

/-- The rules by category, categories in the order in which they first occur; disabled rules
are marked. -/
def catalogue (disabled : List Text) : Tree :=
  let entry (r : Rule) : Tree :=
    .leaf (if r.isListed disabled then r.id ++ " disabled" else r.id) r.name
  let names := (all.map fun r => categoryOf r.id).eraseDups
  .node none "rules"
    (names.map fun c => .node none c ((all.filter fun r => categoryOf r.id = c).map entry))

end CilAudit.Rule
