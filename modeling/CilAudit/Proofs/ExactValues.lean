import CilAudit.Proofs.Rounding

/-!
# Exact floating-point values

Rounding leaves alone what a format has a value for: if a ratio is the value of some bits, these
are the bits it rounds to. So bits are told by their value, a value that two formats share goes
from one to the other and back, and so does an integer that is a value.
-/

set_option autoImplicit false

namespace CilAudit

namespace Binary

/-- The same value, perhaps with another scale. What is no number is not the same as anything. -/
def SameAs : Binary → Binary → Prop
  | infinite negative, infinite negative' => negative = negative'
  | finite negative m q, finite negative' m' q' => negative = negative' ∧ (m : ℚ) * 2 ^ q = m' * 2 ^ q'
  | _, _ => False

/-- An integer as a value. -/
def ofInt (n : Int) : Binary := finite (decide (n < 0)) n.natAbs 0

theorem SameAs.self {b : Binary} (number : b ≠ nan) : b.SameAs b := by
  cases b with
  | nan => exact absurd rfl number
  | infinite => rfl
  | finite => exact ⟨rfl, rfl⟩

theorem SameAs.symm {a b : Binary} (h : a.SameAs b) : b.SameAs a := by
  unfold SameAs at *
  split at h
  · exact h.symm
  · exact ⟨h.1.symm, h.2.symm⟩
  · exact h.elim

theorem SameAs.trans {a b c : Binary} (h : a.SameAs b) (h' : b.SameAs c) : a.SameAs c := by
  unfold SameAs at h
  split at h
  · exact h ▸ h'
  case h_2 =>
    cases c with
    | finite => exact ⟨h.1.trans h'.1, h.2.trans h'.2⟩
    | _ => exact h'.elim
  · exact h.elim

theorem SameAs.ne_nan {a b : Binary} (h : a.SameAs b) : b ≠ nan := by
  rintro rfl
  cases a <;> exact h

end Binary

/-! ## Exact ratios -/

/-- Sides shifted apart by `q` differ by `2 ^ q`. -/
theorem shiftLeft_of_exact {num den m : Nat} {q : Int} (exact : (num : ℚ) = m * 2 ^ q * den) :
    num <<< (-q).toNat = m * (den <<< q.toNat) := by
  have shifted : (num : ℚ) * 2 ^ (-q).toNat = m * (den * 2 ^ q.toNat) := by
    rw [exact, ← two_pow_mul_zpow q]
    ring
  rw [Nat.shiftLeft_eq, Nat.shiftLeft_eq]
  exact_mod_cast shifted

theorem num_eq_zero_iff {num den m : Nat} {q : Int} (hd : den ≠ 0) (exact : (num : ℚ) = m * 2 ^ q * den) :
    num = 0 ↔ m = 0 := by
  have scale : (2 : ℚ) ^ q ≠ 0 := zpow_ne_zero _ (by norm_num)
  rw [← Nat.cast_eq_zero (R := ℚ), exact]
  simp [hd, scale]

namespace BinaryFormat

variable {f : BinaryFormat} {num den m : Nat} {q : Int}

/-! ## Bits and values -/

/-- Bits in three parts. -/
def compose (f : BinaryFormat) (negative : Bool) (e frac : Nat) : Nat :=
  (if negative then f.signBit else 0) + (e <<< f.fraction + frac)

theorem signBit_eq (f : BinaryFormat) : f.signBit = (f.topExponent + 1) <<< f.fraction := by
  have positive : 0 < 1 <<< f.exponent := by simp [Nat.one_shiftLeft]
  rw [signBit, topExponent, Nat.sub_add_cancel positive, Nat.one_shiftLeft, Nat.one_shiftLeft, Nat.shiftLeft_eq,
    Nat.pow_add, mul_comm]

/-- A fraction does not reach the next exponent. -/
theorem parts_lt {e e' frac width : Nat} (below : e < e') (fraction : frac < 1 <<< width) :
    e <<< width + frac < e' <<< width := by
  calc e <<< width + frac < e <<< width + 1 <<< width := Nat.add_lt_add_left fraction _
    _ = (e + 1) <<< width := by
        simp only [Nat.shiftLeft_eq]
        ring
    _ ≤ e' <<< width := by
        simp only [Nat.shiftLeft_eq]
        exact Nat.mul_le_mul_right _ below

section Parts

variable {negative : Bool} {e frac : Nat} (exponent : e ≤ f.topExponent) (fraction : frac < 1 <<< f.fraction)

include exponent fraction in
theorem magnitude_lt : e <<< f.fraction + frac < f.signBit :=
  f.signBit_eq ▸ parts_lt (Nat.lt_succ_of_le exponent) fraction

include exponent fraction in
theorem compose_lt : f.compose negative e frac < 2 * f.signBit := by
  have bound := magnitude_lt exponent fraction
  rw [compose]
  split <;> omega

include exponent fraction in
/-- Each part is found again. -/
theorem value_compose :
    f.value (f.compose negative e frac) =
      if e = f.topExponent then (if frac = 0 then .infinite negative else .nan)
      else if e = 0 then .finite negative frac f.leastScale
      else .finite negative ((1 <<< f.fraction) + frac) (f.leastScale + (e - 1 : Nat)) := by
  have bound := magnitude_lt exponent fraction
  have sign : decide (f.signBit ≤ f.compose negative e frac) = negative := by
    cases negative <;> simp [compose, bound]
  have magnitude : f.compose negative e frac % f.signBit = e <<< f.fraction + frac := by
    cases negative <;> simp [compose, Nat.mod_eq_of_lt bound]
  rw [Nat.one_shiftLeft] at fraction
  have high : (e <<< f.fraction + frac) >>> f.fraction = e := by
    rw [Nat.shiftRight_eq_div_pow, Nat.shiftLeft_eq, mul_comm, Nat.mul_add_div (by positivity),
      Nat.div_eq_of_lt fraction, add_zero]
  have low : (e <<< f.fraction + frac) % (1 <<< f.fraction) = frac := by
    rw [Nat.one_shiftLeft, Nat.shiftLeft_eq, Nat.mul_add_mod_of_lt fraction]
  simp only [value, sign, magnitude, high, low]

end Parts

/-- All bits are made of three parts. -/
theorem exists_parts (f : BinaryFormat) {bits : Nat} (small : bits < 2 * f.signBit) :
    ∃ (negative : Bool) (e frac : Nat), e ≤ f.topExponent ∧ frac < 1 <<< f.fraction ∧
      f.compose negative e frac = bits := by
  have positive : 0 < 1 <<< f.fraction := by simp [Nat.one_shiftLeft]
  have magnitude : bits % f.signBit < f.signBit := Nat.mod_lt _ (by omega)
  refine ⟨decide (f.signBit ≤ bits), bits % f.signBit / (1 <<< f.fraction), bits % f.signBit % (1 <<< f.fraction), ?_,
    Nat.mod_lt _ positive, ?_⟩
  · rw [signBit_eq, Nat.shiftLeft_eq, ← Nat.one_shiftLeft] at magnitude
    exact Nat.lt_succ_iff.1 ((Nat.div_lt_iff_lt_mul positive).2 (by rw [signBit_eq, Nat.shiftLeft_eq, ← Nat.one_shiftLeft]; exact magnitude))
  · have whole : (bits % f.signBit / (1 <<< f.fraction)) <<< f.fraction + bits % f.signBit % (1 <<< f.fraction) =
        bits % f.signBit := by
      rw [Nat.shiftLeft_eq, ← Nat.one_shiftLeft, mul_comm, Nat.div_add_mod]
    rw [compose, whole]
    by_cases negative : f.signBit ≤ bits
    · simp only [negative, decide_true, ↓reduceIte]
      rw [Nat.mod_eq_sub_mod negative, Nat.mod_eq_of_lt (by omega)]
      omega
    · simp [negative, Nat.mod_eq_of_lt (Nat.lt_of_not_le negative)]

/-- The bits of a finite value by its scale and mantissa. -/
theorem canonical_of_value {negative negative' : Bool} {e frac : Nat} (exponent : e ≤ f.topExponent)
    (fraction : frac < 1 <<< f.fraction) (finite : f.value (f.compose negative e frac) = .finite negative' m q) :
    f.Canonical m q ∧ e <<< f.fraction + frac = (q - f.leastScale).toNat <<< f.fraction + m ∧
      e <<< f.fraction + frac < f.infinityBits := by
  rw [value_compose exponent fraction] at finite
  have doubled : 2 ^ (f.fraction + 1) = 1 <<< f.fraction + 1 <<< f.fraction := by
    rw [Nat.one_shiftLeft, Nat.pow_succ]
    omega
  split at finite
  · split at finite <;> cases finite
  case isFalse notTop =>
    have bound : e <<< f.fraction + frac < f.infinityBits := parts_lt (lt_of_le_of_ne exponent notTop) fraction
    split at finite
    case isTrue zero =>
      obtain ⟨-, rfl, rfl⟩ := Binary.finite.inj finite
      refine ⟨⟨le_rfl, by omega, fun h => absurd h (lt_irrefl _)⟩, ?_, bound⟩
      rw [zero, sub_self, Int.toNat_zero]
    case isFalse nonzero =>
      obtain ⟨-, rfl, rfl⟩ := Binary.finite.inj finite
      obtain ⟨e, rfl⟩ := Nat.exists_eq_succ_of_ne_zero nonzero
      refine ⟨⟨by omega, by omega, fun _ => by rw [← Nat.one_shiftLeft]; omega⟩, ?_, bound⟩
      rw [add_sub_cancel_left, Int.toNat_natCast]
      simp only [Nat.shiftLeft_eq, Nat.succ_eq_add_one, Nat.add_sub_cancel]
      ring

/-- **Rounding keeps what is exact.** A ratio that is the value of some bits rounds to these bits. -/
theorem roundRatio_of_value {negative negative' : Bool} {e frac : Nat} (exponent : e ≤ f.topExponent)
    (fraction : frac < 1 <<< f.fraction) (finite : f.value (f.compose negative e frac) = .finite negative' m q)
    (hd : den ≠ 0) (exact : (num : ℚ) = m * 2 ^ q * den) : f.roundRatio num den = e <<< f.fraction + frac := by
  obtain ⟨canonical, parts, bound⟩ := canonical_of_value exponent fraction finite
  by_cases hn : num = 0
  · obtain rfl : m = 0 := (num_eq_zero_iff hd exact).1 hn
    have least : q = f.leastScale := by
      by_contra other
      have := canonical.normal (lt_of_le_of_ne canonical.least (Ne.symm other))
      exact absurd this (Nat.not_le.2 (by positivity))
    rw [parts, least, sub_self, Int.toNat_zero, Nat.zero_shiftLeft, roundRatio, if_pos hn]
  · have value : (num / den : ℚ) = m * 2 ^ q := by
      rw [exact]
      field_simp
    rw [roundRatio_of_near hn hd canonical (value ▸ near_self f m q), ← parts, min_eq_left bound.le]

theorem value_eq_infinite {negative negative' : Bool} {e frac : Nat} (exponent : e ≤ f.topExponent)
    (fraction : frac < 1 <<< f.fraction) (infinite : f.value (f.compose negative e frac) = .infinite negative') :
    negative' = negative ∧ e = f.topExponent ∧ frac = 0 := by
  rw [value_compose exponent fraction] at infinite
  split at infinite
  case isTrue top =>
    split at infinite
    case isTrue none => exact ⟨(Binary.infinite.inj infinite).symm, top, none⟩
    case isFalse => cases infinite
  case isFalse => split at infinite <;> cases infinite

theorem sign_of_finite {negative negative' : Bool} {e frac : Nat} (exponent : e ≤ f.topExponent)
    (fraction : frac < 1 <<< f.fraction) (finite : f.value (f.compose negative e frac) = .finite negative' m q) :
    negative' = negative := by
  rw [value_compose exponent fraction] at finite
  split at finite
  · split at finite <;> cases finite
  · split at finite <;> exact (Binary.finite.inj finite).1.symm

/-- **Bits are told by their value.** -/
theorem ofBinary_of_same {b : Binary} {bits : Nat} (small : bits < 2 * f.signBit) (same : b.SameAs (f.value bits)) :
    f.ofBinary b = bits := by
  obtain ⟨negative, e, frac, exponent, fraction, rfl⟩ := f.exists_parts small
  cases value : f.value (f.compose negative e frac) with
  | nan =>
    rw [value] at same
    cases b <;> exact same.elim
  | infinite negative' =>
    obtain ⟨rfl, rfl, rfl⟩ := value_eq_infinite exponent fraction value
    rw [value] at same
    cases b with
    | infinite negative =>
      obtain rfl : negative = negative' := same
      rfl
    | _ => exact same.elim
  | finite negative' m q =>
    obtain rfl := sign_of_finite exponent fraction value
    rw [value] at same
    cases b with
    | finite negative m' q' =>
      obtain ⟨rfl, same⟩ : negative = negative' ∧ (m' : ℚ) * 2 ^ q' = m * 2 ^ q := same
      have exact : ((m' <<< q'.toNat : Nat) : ℚ) = m * (2 : ℚ) ^ q * (1 <<< (-q').toNat : Nat) := by
        rw [← same, Nat.shiftLeft_eq, Nat.one_shiftLeft]
        push_cast
        rw [← two_pow_mul_zpow q']
        ring
      rw [ofBinary, compose, roundRatio_of_value exponent fraction value (by simp [Nat.one_shiftLeft]) exact]
    | _ => exact same.elim

/-- A number that a format has the digits and the range for is one of its values. -/
theorem exists_value (f : BinaryFormat) (negative : Bool) {m : Nat} {q : Int} (hm : m ≠ 0)
    (digits : m.log2 ≤ f.fraction) (least : f.leastScale + f.fraction ≤ q + m.log2)
    (most : q + m.log2 + 1 < f.leastScale + f.fraction + f.topExponent) :
    ∃ bits, bits < 2 * f.signBit ∧ (f.value bits).SameAs (.finite negative m q) := by
  have lower : 1 <<< f.fraction ≤ m <<< (f.fraction - m.log2) := by
    calc 1 <<< f.fraction = 2 ^ m.log2 * 2 ^ (f.fraction - m.log2) := by
          rw [Nat.one_shiftLeft, ← Nat.pow_add, Nat.add_sub_cancel' digits]
      _ ≤ m <<< (f.fraction - m.log2) := by
          rw [Nat.shiftLeft_eq]
          exact Nat.mul_le_mul_right _ (Nat.log2_self_le hm)
  have upper : m <<< (f.fraction - m.log2) < 1 <<< f.fraction + 1 <<< f.fraction := by
    calc m <<< (f.fraction - m.log2) < 2 ^ (m.log2 + 1) * 2 ^ (f.fraction - m.log2) := by
          rw [Nat.shiftLeft_eq]
          exact Nat.mul_lt_mul_of_pos_right Nat.lt_log2_self (by positivity)
      _ = 1 <<< f.fraction + 1 <<< f.fraction := by
          rw [← Nat.pow_add, Nat.one_shiftLeft, ← Nat.two_mul, ← Nat.pow_succ']
          congr 1
          omega
  have exponent : (q + m.log2 - f.fraction - f.leastScale + 1).toNat ≤ f.topExponent := by omega
  have fraction : m <<< (f.fraction - m.log2) - 1 <<< f.fraction < 1 <<< f.fraction := by omega
  refine ⟨f.compose negative _ _, compose_lt exponent fraction, ?_⟩
  rw [value_compose exponent fraction, if_neg (by omega), if_neg (by omega), Nat.add_sub_cancel' lower]
  have scale : f.leastScale + ((q + m.log2 - f.fraction - f.leastScale + 1).toNat - 1 : Nat) =
      q - (f.fraction - m.log2 : Nat) := by omega
  refine ⟨rfl, ?_⟩
  rw [scale, zpow_sub₀ (by norm_num), zpow_natCast, Nat.shiftLeft_eq]
  push_cast
  field_simp

theorem finite_bounds {bits : Nat} {negative : Bool} (small : bits < 2 * f.signBit)
    (finite : f.value bits = .finite negative m q) :
    m < 1 <<< (f.fraction + 1) ∧ f.leastScale ≤ q ∧ q < f.leastScale + f.topExponent := by
  obtain ⟨negative, e, frac, exponent, fraction, rfl⟩ := f.exists_parts small
  rw [value_compose exponent fraction] at finite
  rw [Nat.one_shiftLeft] at fraction
  rw [Nat.one_shiftLeft, Nat.pow_succ]
  split at finite
  · split at finite <;> cases finite
  · split at finite
    case isTrue =>
      obtain ⟨-, rfl, rfl⟩ := Binary.finite.inj finite
      omega
    case isFalse =>
      obtain ⟨-, rfl, rfl⟩ := Binary.finite.inj finite
      rw [Nat.one_shiftLeft]
      omega

end BinaryFormat

/-! ## The two formats -/

theorem Double.bits_lt (x : Double) : x.bits.toNat < 2 * BinaryFormat.double.signBit := x.bits.toNat_lt

theorem Single.bits_lt (x : Single) : x.bits.toNat < 2 * BinaryFormat.single.signBit := x.bits.toNat_lt

theorem Double.ofBinary_of_same {x : Double} {b : Binary} (same : b.SameAs x.value) :
    (⟨(BinaryFormat.double.ofBinary b).toUInt64⟩ : Double) = x := by
  rw [BinaryFormat.ofBinary_of_same x.bits_lt same]
  simp

theorem Single.ofBinary_of_same {x : Single} {b : Binary} (same : b.SameAs x.value) :
    (⟨(BinaryFormat.single.ofBinary b).toUInt32⟩ : Single) = x := by
  rw [BinaryFormat.ofBinary_of_same x.bits_lt same]
  simp

theorem Double.eq_of_same {x y : Double} (same : y.value.SameAs x.value) : y = x :=
  (ofBinary_of_same (same.trans same.symm)).symm.trans (ofBinary_of_same same)

/-- A value of 32 bits is one of 64 bits. -/
theorem Single.exists_double (x : Single) (number : x.value ≠ .nan) : ∃ y : Double, y.value.SameAs x.value := by
  cases value : x.value with
  | nan => exact absurd value number
  | infinite negative =>
    cases negative with
    | false => exact ⟨⟨0x7FF0000000000000⟩, rfl⟩
    | true => exact ⟨⟨0xFFF0000000000000⟩, rfl⟩
  | finite negative m q =>
    obtain ⟨fits, least, most⟩ := BinaryFormat.finite_bounds x.bits_lt value
    by_cases zero : m = 0
    · have zeros : ∃ y : Double, y.value = .finite negative 0 (-1074) := by
        cases negative with
        | false => exact ⟨⟨0⟩, rfl⟩
        | true => exact ⟨⟨0x8000000000000000⟩, rfl⟩
      obtain ⟨y, isZero⟩ := zeros
      exact ⟨y, isZero ▸ ⟨rfl, by simp [zero]⟩⟩
    · have digits : m.log2 < 24 := (Nat.log2_lt zero).2 fits
      have single : BinaryFormat.single.leastScale = -149 ∧ BinaryFormat.single.topExponent = 255 := by decide
      have double : BinaryFormat.double.leastScale = -1074 ∧ BinaryFormat.double.topExponent = 2047 := by decide
      have width : BinaryFormat.double.fraction = 52 := rfl
      obtain ⟨bits, small, same⟩ := BinaryFormat.double.exists_value negative (q := q) zero (by omega) (by omega) (by omega)
      refine ⟨⟨bits.toUInt64⟩, ?_⟩
      have kept : bits.toUInt64.toNat = bits := Nat.mod_eq_of_lt small
      rwa [Double.value, kept]

theorem Single.value_toDouble (x : Single) (number : x.value ≠ .nan) : x.toDouble.value.SameAs x.value := by
  obtain ⟨y, same⟩ := x.exists_double number
  rwa [toDouble, Double.ofBinary_of_same same.symm]

theorem Single.value_ne_nan {x : Single} (number : x.toDouble.value ≠ .nan) : x.value ≠ .nan := by
  intro nan
  rw [toDouble, nan] at number
  exact number (by decide)

theorem Double.toSingle_of_same {x : Single} {y : Double} (same : y.value.SameAs x.value) : y.toSingle = x :=
  Single.ofBinary_of_same same

/-- An integer that is a value is converted to it. -/
theorem Double.ofInt_of_same {x : Double} {n : Int} (same : (Binary.ofInt n).SameAs x.value) : Double.ofInt n = x :=
  Double.ofBinary_of_same same

/-- A value that is an integer is converted to that. -/
theorem Double.toInt64?_of_same {x : Double} {n : Int} (same : x.value.SameAs (.ofInt n))
    (least : -0x8000000000000000 ≤ n) (most : n < 0x8000000000000000) : x.toInt64? = some n := by
  rw [toInt64?]
  generalize x.value = b at same
  cases b with
  | nan => exact same.elim
  | infinite => exact same.elim
  | finite negative m q =>
    obtain ⟨sign, exact⟩ : negative = decide (n < 0) ∧ (m : ℚ) * 2 ^ q = n.natAbs * 2 ^ (0 : Int) := same
    have whole : m <<< q.toNat = n.natAbs * (1 <<< (-q).toNat) := by
      have shifted : n.natAbs <<< (-q).toNat = m * (1 <<< q.toNat) := shiftLeft_of_exact (by simp [exact])
      rw [Nat.shiftLeft_eq, ← Nat.one_shiftLeft, ← shifted, Nat.shiftLeft_eq, Nat.one_shiftLeft]
    have positive : 0 < 1 <<< (-q).toNat := by simp [Nat.one_shiftLeft]
    have signed : (if negative = true then -(n.natAbs : Int) else n.natAbs) = n := by
      simp only [sign, decide_eq_true_eq]
      split <;> omega
    simp only [whole, Nat.mul_mod_left, Nat.mul_div_cancel _ positive, signed, least, most, and_self, ↓reduceIte]

end CilAudit
