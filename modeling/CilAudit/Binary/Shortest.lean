import CilAudit.Binary

/-!
# Shortest decimals

The decimal with the fewest digits that reads back as a given binary value, and of those
the nearest. The reals that round to a value form an interval around it, whose ends belong
to it when the mantissa is even; for 1, 2, … digits the value's two neighbours on that
decimal grid are tried.
-/

set_option autoImplicit false

namespace CilAudit

/-- The number `digits · 10 ^ exponent`. -/
structure Decimal where
  digits : Nat
  exponent : Int
  deriving DecidableEq, Repr

namespace BinaryFormat

/-- Compares `a · 10 ^ i` with `n · 2 ^ j`. -/
def compareScaled (a : Nat) (i : Int) (n : Nat) (j : Int) : Ordering :=
  compare ((a * tenTo i.toNat) <<< (-j).toNat) ((n * tenTo (-i).toNat) <<< j.toNat)

/-- Is `d` one of the reals that round to `m · 2 ^ q`? Below the least mantissa of a binade
the gap is half as wide. -/
def readsBack (f : BinaryFormat) (m : Nat) (q : Int) (d : Decimal) : Bool :=
  let narrow := m = 1 <<< f.fraction ∧ f.leastScale < q
  let below := if narrow then 4 * m - 1 else 4 * m - 2
  let low := compareScaled d.digits d.exponent below (q - 2)
  let high := compareScaled d.digits d.exponent (4 * m + 2) (q - 2)
  let closed := m % 2 = 0
  (low = .gt ∨ closed ∧ low = .eq) ∧ (high = .lt ∨ closed ∧ high = .eq)

/-- The least `k` with `m · 2 ^ q < 10 ^ k`, for a positive `m`. -/
def decimalWidth (m : Nat) (q : Int) : Int :=
  let guess := ((m.log2 : Int) + q) * 30103 / 100000
  let above (k : Int) : Bool := compareScaled 1 k m q = .gt
  ([guess - 1, guess, guess + 1, guess + 2].find? above).getD (guess + 3)

/-- The neighbour of `m · 2 ^ q` on the grid of `10 ^ exponent` that reads back, the nearer
one if both do, the even one if they are equally near. -/
def onGrid? (f : BinaryFormat) (m : Nat) (q : Int) (exponent : Int) : Option Decimal :=
  let num := (m * tenTo (-exponent).toNat) <<< q.toNat
  let den := tenTo exponent.toNat <<< (-q).toNat
  let lower : Decimal := ⟨num / den, exponent⟩
  let upper : Decimal := ⟨num / den + 1, exponent⟩
  match f.readsBack m q lower, f.readsBack m q upper with
  | true, true => some ⟨roundHalfEven num den, exponent⟩
  | true, false => some lower
  | false, true => some upper
  | false, false => none

/-- The shortest decimal that reads back as `m · 2 ^ q`, for a positive `m`. -/
def shortest (f : BinaryFormat) (m : Nat) (q : Int) : Decimal :=
  let k := decimalWidth m q
  let exact : Decimal := ⟨(m * Nat.pow 5 (-q).toNat) <<< q.toNat, -((-q).toNat : Int)⟩
  ((List.range 17).findSome? fun n : Nat => f.onGrid? m q (k - 1 - (n : Int))).getD exact

end BinaryFormat

end CilAudit
