/-!
# Search by halving

A place in an ordered row is found by asking, again and again, what stands in the middle.
-/

set_option autoImplicit false

namespace CilAudit

/-- The place between `lo` and `hi` that halving finds, where `before` says whether what stands at an
index comes before what is sought. It is the first place that does not, if all that come before stand
in front of those that do not. -/
def halve (before : Nat → Option Bool) (lo hi : Nat) : Nat :=
  if lo < hi then
    let mid := (lo + hi) / 2
    match before mid with
    | some true => halve before (mid + 1) hi
    | some false => halve before lo mid
    | none => lo
  else lo
termination_by hi - lo
decreasing_by all_goals omega

end CilAudit
