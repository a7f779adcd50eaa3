import CilAudit.Binary

/-!
# Floating-point arithmetic

The four operations on finite 64-bit values. The exact result is a fraction, and it is rounded
once, to the nearest value.
-/

set_option autoImplicit false

namespace CilAudit.Double

/-- A finite value as a fraction with a positive denominator; 0 for a value that is not finite. -/
def fraction (x : Double) : Int × Nat :=
  match x.value with
  | .finite negative m q =>
    let num := m <<< q.toNat
    (if negative then -(num : Int) else num, 1 <<< (-q).toNat)
  | _ => (0, 1)

/-- The value nearest to a fraction with a positive denominator. -/
def ofFraction (num : Int) (den : Nat) : Double :=
  let sign := if num < 0 then BinaryFormat.double.signBit else 0
  ⟨(sign + BinaryFormat.double.roundRatio num.natAbs den).toUInt64⟩

def add (x y : Double) : Double :=
  let (a, b) := x.fraction
  let (c, d) := y.fraction
  ofFraction (a * d + c * b) (b * d)

def sub (x y : Double) : Double :=
  let (a, b) := x.fraction
  let (c, d) := y.fraction
  ofFraction (a * d - c * b) (b * d)

def mul (x y : Double) : Double :=
  let (a, b) := x.fraction
  let (c, d) := y.fraction
  ofFraction (a * c) (b * d)

/-- The quotient by a value that is not 0. -/
def div (x y : Double) : Double :=
  let (a, b) := x.fraction
  let (c, d) := y.fraction
  ofFraction (a * d * c.sign) (b * c.natAbs)

instance : Add Double := ⟨add⟩
instance : Sub Double := ⟨sub⟩
instance : Mul Double := ⟨mul⟩
instance : Div Double := ⟨div⟩

/-- The order of finite values. -/
def isBelow (x y : Double) : Bool :=
  let (a, b) := x.fraction
  let (c, d) := y.fraction
  a * d < c * b

/-- A finite value without its fraction. -/
def truncated (x : Double) : Int :=
  let (a, b) := x.fraction
  Int.tdiv a b

end CilAudit.Double
