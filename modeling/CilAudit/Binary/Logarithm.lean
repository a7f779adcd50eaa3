import CilAudit.Binary.Arithmetic

/-!
# Logarithms

The natural and the binary logarithm of positive values, in floating-point arithmetic. A value
is `2 ^ k * (1 + f)` with `1 + f` between `√2 / 2` and `√2`, and `log (1 + f)` comes from a
polynomial in `s = f / (2 + f)`, whose coefficients keep the result within one unit in the last
place. The binary logarithm of a power of two is exact.
-/

set_option autoImplicit false

namespace CilAudit.Double

/-- A positive value as a mantissa from 1/2 up to but not including 1, and an exponent. -/
def split (x : Double) : Double × Int :=
  match x.value with
  | .finite _ m q =>
    let width := m.log2 + 1
    (ofFraction m (1 <<< width), q + width)
  | _ => (⟨0⟩, 0)

def half : Double := ⟨0x3FE0000000000000⟩
def one : Double := ⟨0x3FF0000000000000⟩
def two : Double := ⟨0x4000000000000000⟩

/-- `√2 / 2`. -/
def halfRootTwo : Double := ⟨0x3FE6A09E667F3BCD⟩

/-- `log 2` without its last bits, so that small multiples of it are exact. -/
def logTwoHigh : Double := ⟨0x3FE62E42FEE00000⟩

/-- What is missing to `log 2`. -/
def logTwoLow : Double := ⟨0x3DEA39EF35793C76⟩

/-- `1 / log 2`. -/
def inverseLogTwo : Double := ⟨0x3FF71547652B82FE⟩

/-- The value of a polynomial, its coefficients from the constant one on. -/
def polynomial (x : Double) : List Double → Double
  | [] => ⟨0⟩
  | [c] => c
  | c :: rest => c + x * polynomial x rest

/-- The coefficients of the odd and of the even powers of `s * s`. -/
def oddCoefficients : List Double :=
  [⟨0x3FE5555555555593⟩, ⟨0x3FD2492494229359⟩, ⟨0x3FC7466496CB03DE⟩, ⟨0x3FC2F112DF3E5244⟩]

def evenCoefficients : List Double :=
  [⟨0x3FD999999997FA04⟩, ⟨0x3FCC71C51D8E78AF⟩, ⟨0x3FC39A09D078C69F⟩]

/-- The natural logarithm of a positive value. -/
def log (x : Double) : Double :=
  let (mantissa, exponent) := x.split
  let (mantissa, exponent) :=
    if mantissa.isBelow halfRootTwo then (mantissa * two, exponent - 1) else (mantissa, exponent)
  let f := mantissa - one
  let k := ofInt exponent
  let s := f / (two + f)
  let s₂ := s * s
  let s₄ := s₂ * s₂
  let odd := s₂ * polynomial s₄ oddCoefficients
  let even := s₄ * polynomial s₄ evenCoefficients
  let r := odd + even
  let h := half * f * f
  k * logTwoHigh - ((h - (s * (h + r) + k * logTwoLow)) - f)

/-- The binary logarithm of a positive value. -/
def log2 (x : Double) : Double :=
  let (mantissa, exponent) := x.split
  if mantissa = half then ofInt (exponent - 1)
  else mantissa.log * inverseLogTwo + ofInt exponent

end CilAudit.Double
