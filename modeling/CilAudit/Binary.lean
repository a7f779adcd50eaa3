/-!
# Binary floating point

The values of the binary interchange formats, read from and written to their bits by exact
arithmetic on naturals. Rounding goes to the nearest value, and to the even one of two.
-/

set_option autoImplicit false

namespace CilAudit

/-- A binary interchange format: the widths of its fraction and exponent fields. -/
structure BinaryFormat where
  fraction : Nat
  exponent : Nat
  deriving DecidableEq, Repr

/-- What a bit pattern stands for; a finite value is `± mantissa · 2 ^ scale`. -/
inductive Binary where
  | nan
  | infinite (negative : Bool)
  | finite (negative : Bool) (mantissa : Nat) (scale : Int)
  deriving DecidableEq, Repr

/-- The powers of ten. -/
def tenTo (n : Nat) : Nat := Nat.pow 10 n

/-- `num / den` to the nearest integer, a tie to the even one. -/
def roundHalfEven (num den : Nat) : Nat :=
  let q := num / den
  let r := num % den
  if 2 * r < den then q
  else if den < 2 * r then q + 1
  else if q % 2 = 0 then q else q + 1

namespace BinaryFormat

def half : BinaryFormat := ⟨10, 5⟩
def single : BinaryFormat := ⟨23, 8⟩
def double : BinaryFormat := ⟨52, 11⟩

/-- The largest exponent field, kept for infinities and NaNs. -/
def topExponent (f : BinaryFormat) : Nat := (1 <<< f.exponent) - 1

/-- The scale of the least finite value. -/
def leastScale (f : BinaryFormat) : Int := 2 - (1 <<< (f.exponent - 1) : Nat) - f.fraction

def signBit (f : BinaryFormat) : Nat := 1 <<< (f.fraction + f.exponent)

/-- The value of a bit pattern. -/
def value (f : BinaryFormat) (bits : Nat) : Binary :=
  let negative := decide (f.signBit ≤ bits)
  let magnitude := bits % f.signBit
  let e := magnitude >>> f.fraction
  let frac := magnitude % (1 <<< f.fraction)
  if e = f.topExponent then (if frac = 0 then .infinite negative else .nan)
  else if e = 0 then .finite negative frac f.leastScale
  else .finite negative ((1 <<< f.fraction) + frac) (f.leastScale + (e - 1 : Nat))

/-- The bits of the infinity without its sign. -/
def infinityBits (f : BinaryFormat) : Nat := f.topExponent <<< f.fraction

/-- The bits of the NaN that every NaN is written as. -/
def nanBits (f : BinaryFormat) : Nat := f.infinityBits + (1 <<< (f.fraction - 1))

/-- The bits of the value nearest to `num / den`, for a positive `den`. -/
def roundRatio (f : BinaryFormat) (num den : Nat) : Nat :=
  if num = 0 then 0
  else
    let log : Int := (num.log2 : Int) - den.log2
    let scaled (q : Int) : Nat × Nat := (num <<< (-q).toNat, den <<< q.toNat)
    let q₀ := max f.leastScale (log - f.fraction)
    let q :=
      if f.leastScale < q₀ ∧ (scaled q₀).1 < (scaled q₀).2 <<< f.fraction then q₀ - 1 else q₀
    let m := roundHalfEven (scaled q).1 (scaled q).2
    min (((q - f.leastScale).toNat <<< f.fraction) + m) f.infinityBits

/-- The bits of the value of this format nearest to `b`. -/
def ofBinary (f : BinaryFormat) : Binary → Nat
  | .nan => f.nanBits
  | .infinite negative => (if negative then f.signBit else 0) + f.infinityBits
  | .finite negative m q =>
    (if negative then f.signBit else 0) + f.roundRatio (m <<< q.toNat) (1 <<< (-q).toNat)

end BinaryFormat

/-- A 32-bit floating-point value. -/
structure Single where
  bits : UInt32
  deriving DecidableEq, Repr

/-- A 64-bit floating-point value. -/
structure Double where
  bits : UInt64
  deriving DecidableEq, Repr

namespace Single

def value (x : Single) : Binary := BinaryFormat.single.value x.bits.toNat

/-- The same value in 64 bits. -/
def toDouble (x : Single) : Double := ⟨(BinaryFormat.double.ofBinary x.value).toUInt64⟩

end Single

namespace Double

def value (x : Double) : Binary := BinaryFormat.double.value x.bits.toNat

/-- The nearest 32-bit value. -/
def toSingle (x : Double) : Single := ⟨(BinaryFormat.single.ofBinary x.value).toUInt32⟩

/-- The value nearest to an integer. -/
def ofInt (n : Int) : Double :=
  ⟨(BinaryFormat.double.ofBinary (.finite (decide (n < 0)) n.natAbs 0)).toUInt64⟩

/-- The value nearest to `± digits · 10 ^ exponent`; infinite when that is too large.
Exponents that are out of reach either way are not raised to a power. -/
def ofDecimal (negative : Bool) (digits : Nat) (exponent : Int) : Double :=
  let sign := if negative then BinaryFormat.double.signBit else 0
  let size : Int := digits.log2
  let magnitude :=
    if digits = 0 then 0
    else if 1100 < size / 4 + exponent then BinaryFormat.double.infinityBits
    else if size + exponent < -1100 then 0
    else BinaryFormat.double.roundRatio (digits * tenTo exponent.toNat) (tenTo (-exponent).toNat)
  ⟨(sign + magnitude).toUInt64⟩

def isFinite (x : Double) : Bool :=
  match x.value with
  | .finite .. => true
  | _ => false

/-- The value as an integer of 64 signed bits, if it is one. -/
def toInt64? (x : Double) : Option Int :=
  match x.value with
  | .finite negative m q =>
    let num := m <<< q.toNat
    let den := 1 <<< (-q).toNat
    let n : Int := if negative then -(num / den : Nat) else (num / den : Nat)
    if num % den = 0 ∧ -0x8000000000000000 ≤ n ∧ n < 0x8000000000000000 then some n else none
  | _ => none

end Double

end CilAudit
