import CilAudit.Binary.Logarithm
import CilAudit.Binary.Notation

/-!
# Entropy

The Shannon entropy of a text in bits per byte, in floating-point arithmetic: a byte whose share
of the text is `p` adds `-p * log2 p`, and the byte values follow in ascending order.
-/

set_option autoImplicit false

namespace CilAudit.Text

/-- How often each byte value of the text occurs in it, for those that do. -/
def byteCounts (t : Text) : List Nat :=
  ((List.range 256).map fun v => t.count v.toUInt8).filter (· ≠ 0)

def entropy (t : Text) : Double :=
  t.byteCounts.foldl (fun sum (count : Nat) =>
    let p := Double.ofInt count / Double.ofInt t.length
    sum - p * p.log2) ⟨0⟩

/-- Is the entropy at least `num / den` bits per byte? -/
def entropyAtLeast (t : Text) (num den : Nat) : Bool :=
  let (a, b) := t.entropy.fraction
  ((num * b : Nat) : Int) ≤ a * den

/-- Is the entropy above `num / den` bits per byte? -/
def entropyAbove (t : Text) (num den : Nat) : Bool :=
  let (a, b) := t.entropy.fraction
  ((num * b : Nat) : Int) < a * den

/-- The entropy with a fixed number of decimals. -/
def entropyText (decimals : Nat) (t : Text) : Text :=
  let (a, b) := t.entropy.fraction
  fixedPlaces decimals a.toNat b

end CilAudit.Text
