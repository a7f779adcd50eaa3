import CilAudit.Binary.Shortest
import CilAudit.Proofs.ExactValues

/-!
# Shortest decimals are read back

The shortest decimal of a value is chosen from the interval of the numbers that round to it, so it
is read back as the value, however many digits were tried. A decimal that is not too large is read
as a finite value.
-/

set_option autoImplicit false

namespace CilAudit

theorem cast_tenTo (n : Nat) : ((tenTo n : Nat) : ℚ) = 10 ^ n := by
  exact Nat.cast_pow 10 n

theorem ten_pow_mul_zpow (i : Int) : (10 : ℚ) ^ (-i).toNat * 10 ^ i = 10 ^ i.toNat := by
  rcases Int.le_total 0 i with up | down
  · obtain ⟨n, rfl⟩ := Int.eq_ofNat_of_zero_le up
    simp
  · obtain ⟨n, rfl⟩ : ∃ n : Nat, i = -n := ⟨i.natAbs, by omega⟩
    simp

/-- The number that a decimal is. -/
def Decimal.value (d : Decimal) : ℚ := d.digits * 10 ^ d.exponent

/-! ## Decimals in the interval -/

namespace BinaryFormat

variable {f : BinaryFormat} {m : Nat} {q : Int}

/-- Both sides are compared after a common factor is taken out. -/
theorem compareScaled_iff (a : Nat) (i : Int) (n : Nat) (j : Int) :
    (compareScaled a i n j = .lt ↔ (a : ℚ) * 10 ^ i < n * 2 ^ j) ∧
      (compareScaled a i n j = .eq ↔ (a : ℚ) * 10 ^ i = n * 2 ^ j) ∧
      (compareScaled a i n j = .gt ↔ (n : ℚ) * 2 ^ j < a * 10 ^ i) := by
  have factor : (0 : ℚ) < 10 ^ (-i).toNat * 2 ^ (-j).toNat := by positivity
  have left : (((a * tenTo i.toNat) <<< (-j).toNat : Nat) : ℚ) = a * 10 ^ i * (10 ^ (-i).toNat * 2 ^ (-j).toNat) := by
    rw [Nat.shiftLeft_eq]
    push_cast
    rw [cast_tenTo, ← ten_pow_mul_zpow i]
    ring
  have right : (((n * tenTo (-i).toNat) <<< j.toNat : Nat) : ℚ) = n * 2 ^ j * (10 ^ (-i).toNat * 2 ^ (-j).toNat) := by
    rw [Nat.shiftLeft_eq]
    push_cast
    rw [cast_tenTo, ← two_pow_mul_zpow j]
    ring
  rw [compareScaled, Nat.compare_eq_lt, Nat.compare_eq_eq, Nat.compare_eq_gt, ← Nat.cast_lt (α := ℚ),
    ← Nat.cast_inj (R := ℚ), ← Nat.cast_lt (α := ℚ), left, right]
  exact ⟨mul_lt_mul_iff_of_pos_right factor, mul_left_inj' factor.ne', mul_lt_mul_iff_of_pos_right factor⟩

/-- The test for reading back is exact. -/
theorem readsBack_iff (hm : m ≠ 0) (d : Decimal) : f.readsBack m q d = true ↔ f.Near m q d.value := by
  have quarter : ∀ n : ℚ, n * 2 ^ (q - 2) = n / 4 * 2 ^ q := by
    intro n
    rw [zpow_sub₀ (by norm_num)]
    ring
  have positive : 1 ≤ m := Nat.one_le_iff_ne_zero.2 hm
  obtain ⟨-, lowEq, lowGt⟩ := compareScaled_iff d.digits d.exponent
    (if m = 1 <<< f.fraction ∧ f.leastScale < q then 4 * m - 1 else 4 * m - 2) (q - 2)
  obtain ⟨highLt, highEq, -⟩ := compareScaled_iff d.digits d.exponent (4 * m + 2) (q - 2)
  have below : (((if m = 1 <<< f.fraction ∧ f.leastScale < q then 4 * m - 1 else 4 * m - 2 : Nat) : ℚ)) / 4 =
      if m = 2 ^ f.fraction ∧ f.leastScale < q then (m - 1 / 4 : ℚ) else m - 1 / 2 := by
    rw [Nat.one_shiftLeft]
    split
    · rw [Nat.cast_sub (by omega)]
      push_cast
      ring
    · rw [Nat.cast_sub (by omega)]
      push_cast
      ring
  have above : ((4 * m + 2 : Nat) : ℚ) / 4 = m + 1 / 2 := by
    push_cast
    ring
  rw [quarter, below, ← Decimal.value] at lowEq lowGt
  rw [quarter, above, ← Decimal.value] at highLt highEq
  rw [readsBack]
  simp only [decide_eq_true_eq, lowEq, lowGt, highLt, highEq]
  constructor
  · rintro ⟨low, high⟩
    refine ⟨?_, ?_, fun odd => ⟨?_, ?_⟩⟩
    · exact low.elim le_of_lt fun h => h.2.symm.le
    · exact high.elim le_of_lt fun h => h.2.le
    · exact low.elim id fun h => absurd h.1 (by omega)
    · exact high.elim id fun h => absurd h.1 (by omega)
  · rintro ⟨low, high, odd⟩
    rcases Nat.mod_two_eq_zero_or_one m with even | isOdd
    · exact ⟨(lt_or_eq_of_le low).imp_right fun h => ⟨even, h.symm⟩, (lt_or_eq_of_le high).imp_right fun h => ⟨even, h⟩⟩
    · exact ⟨.inl (odd isOdd).1, .inl (odd isOdd).2⟩

/-- A neighbour on a grid is taken only if it reads back. -/
theorem onGrid?_readsBack {exponent : Int} {d : Decimal} (found : f.onGrid? m q exponent = some d) :
    f.readsBack m q d = true := by
  unfold onGrid? at found
  simp only at found
  generalize (m * tenTo (-exponent).toNat) <<< q.toNat = num at found
  generalize tenTo exponent.toNat <<< (-q).toNat = den at found
  have nearer : roundHalfEven num den = num / den ∨ roundHalfEven num den = num / den + 1 := by
    unfold roundHalfEven
    simp only
    split
    · exact .inl rfl
    · split
      · exact .inr rfl
      · split
        · exact .inl rfl
        · exact .inr rfl
  split at found
  case h_1 lower upper =>
    cases found
    rcases nearer with same | same
    · rw [same]
      exact lower
    · rw [same]
      exact upper
  case h_2 lower _ =>
    cases found
    exact lower
  case h_3 _ upper =>
    cases found
    exact upper
  case h_4 => cases found

/-- **The shortest decimal is read back.** -/
theorem shortest_near (hm : m ≠ 0) : f.Near m q (f.shortest m q).value := by
  rw [← readsBack_iff hm]
  unfold shortest
  simp only
  generalize found : List.findSome? _ _ = choice
  cases choice with
  | some d =>
    obtain ⟨n, -, here⟩ := List.exists_of_findSome?_eq_some found
    exact onGrid?_readsBack here
  | none =>
    -- All digits of the value.
    rw [Option.getD_none, readsBack_iff hm]
    have exact : Decimal.value ⟨(m * Nat.pow 5 (-q).toNat) <<< q.toNat, -((-q).toNat : Int)⟩ = m * 2 ^ q := by
      rw [Decimal.value, Nat.shiftLeft_eq]
      have five : ((Nat.pow 5 (-q).toNat : Nat) : ℚ) = 5 ^ (-q).toNat := Nat.cast_pow 5 _
      push_cast
      rw [five, ← two_pow_mul_zpow q, zpow_neg, zpow_natCast, show (10 : ℚ) = 5 * 2 by norm_num, mul_pow]
      field_simp
    rw [exact]
    exact near_self f m q

theorem shortest_digits (hm : m ≠ 0) : (f.shortest m q).digits ≠ 0 := by
  have unit : (0 : ℚ) < 2 ^ q := by positivity
  have positive : (1 : ℚ) ≤ m := by exact_mod_cast Nat.one_le_iff_ne_zero.2 hm
  have low := (shortest_near (f := f) (q := q) hm).low
  intro zero
  rw [Decimal.value, zero, Nat.cast_zero, zero_mul] at low
  split at low <;> nlinarith

/-- The values are bounded away from zero and from above. -/
theorem Near.bounds {v : ℚ} (near : f.Near m q v) (canonical : f.Canonical m q) (hm : m ≠ 0) :
    (2 : ℚ) ^ (f.leastScale - 1) ≤ v ∧ v < 2 ^ (f.fraction + 1 + q) := by
  have unit : (0 : ℚ) < 2 ^ q := by positivity
  have positive : (1 : ℚ) ≤ m := by exact_mod_cast Nat.one_le_iff_ne_zero.2 hm
  have fits : (m : ℚ) + 1 ≤ 2 ^ (f.fraction + 1) := by exact_mod_cast canonical.fits
  constructor
  · calc (2 : ℚ) ^ (f.leastScale - 1) ≤ 2 ^ (q - 1) :=
          zpow_le_zpow_right₀ (by norm_num) (by have := canonical.least; omega)
      _ = 1 / 2 * 2 ^ q := by rw [zpow_sub₀ (by norm_num)]; ring
      _ ≤ (if m = 2 ^ f.fraction ∧ f.leastScale < q then (m - 1 / 4 : ℚ) else m - 1 / 2) * 2 ^ q := by
          split <;> nlinarith
      _ ≤ v := near.low
  · calc v ≤ (m + 1 / 2 : ℚ) * 2 ^ q := near.high
      _ < 2 ^ (f.fraction + 1) * 2 ^ q := by nlinarith
      _ = 2 ^ (f.fraction + 1 + q : Int) := by
          rw [zpow_add₀ (by norm_num)]
          norm_cast

end BinaryFormat

/-! ## Decimals as values of 64 bits -/

namespace Double

/-- Neither shortcut is taken for a decimal in reach. -/
theorem ofDecimal_in_reach {negative : Bool} {digits : Nat} {exponent : Int} (nonzero : digits ≠ 0)
    (least : (2 : ℚ) ^ (-1075 : Int) ≤ digits * 10 ^ exponent)
    (most : (digits : ℚ) * 10 ^ exponent < 2 ^ (1025 : Int)) :
    ofDecimal negative digits exponent = ⟨((if negative then BinaryFormat.double.signBit else 0) +
      BinaryFormat.double.roundRatio (digits * tenTo exponent.toNat) (tenTo (-exponent).toNat)).toUInt64⟩ := by
  obtain ⟨low, high⟩ := log2_bounds nonzero
  have power : (0 : ℚ) < 10 ^ exponent := by positivity
  have notLarge : ¬ 1100 < (digits.log2 : Int) / 4 + exponent := by
    intro large
    have : (10 : ℚ) ^ (1101 : Int) ≤ digits * 10 ^ exponent := by
      calc (10 : ℚ) ^ (1101 : Int) ≤ 10 ^ ((digits.log2 : Int) / 4 + exponent) :=
            zpow_le_zpow_right₀ (by norm_num) (by omega)
        _ = 10 ^ (digits.log2 / 4) * 10 ^ exponent := by
            rw [zpow_add₀ (by norm_num), show ((digits.log2 : Int) / 4) = ((digits.log2 / 4 : Nat) : Int) from rfl,
              zpow_natCast]
        _ ≤ (2 ^ 4) ^ (digits.log2 / 4) * 10 ^ exponent := by gcongr; norm_num
        _ = 2 ^ (4 * (digits.log2 / 4)) * 10 ^ exponent := by rw [← pow_mul]
        _ ≤ 2 ^ digits.log2 * 10 ^ exponent := by
            gcongr
            · norm_num
            · omega
        _ ≤ digits * 10 ^ exponent := by
            rw [zpow_natCast] at low
            gcongr
    have far : (2 : ℚ) ^ (1025 : Int) ≤ 10 ^ (1101 : Int) :=
      (zpow_le_zpow_left₀ (by norm_num) (by norm_num) (by norm_num)).trans
        (zpow_le_zpow_right₀ (by norm_num) (by norm_num))
    exact absurd (far.trans this) (not_le_of_gt most)
  have notSmall : ¬ (digits.log2 : Int) + exponent < -1100 := by
    intro small
    have : (digits : ℚ) * 10 ^ exponent < 10 ^ (-1100 : Int) := by
      calc (digits : ℚ) * 10 ^ exponent < 2 ^ (digits.log2 + 1 : Int) * 10 ^ exponent := by gcongr
        _ ≤ 10 ^ (digits.log2 + 1 : Int) * 10 ^ exponent := by
            gcongr
            exact zpow_le_zpow_left₀ (by omega) (by norm_num) (by norm_num)
        _ = 10 ^ (digits.log2 + 1 + exponent : Int) := by rw [← zpow_add₀ (by norm_num)]
        _ ≤ 10 ^ (-1100 : Int) := zpow_le_zpow_right₀ (by norm_num) (by omega)
    have near : (10 : ℚ) ^ (-1100 : Int) ≤ 2 ^ (-1075 : Int) := by
      refine (zpow_le_zpow_right₀ (by norm_num) (by norm_num : (-1100 : Int) ≤ -1075)).trans ?_
      rw [zpow_neg, zpow_neg]
      exact inv_anti₀ (by positivity) (zpow_le_zpow_left₀ (by norm_num) (by norm_num) (by norm_num))
    exact absurd (least.trans_lt this) (not_lt_of_ge near)
  simp only [ofDecimal, nonzero, ↓reduceIte, notLarge, notSmall]

theorem ratio_tenTo (digits : Nat) (exponent : Int) :
    ((digits * tenTo exponent.toNat : Nat) : ℚ) / (tenTo (-exponent).toNat : Nat) = digits * 10 ^ exponent := by
  push_cast
  rw [cast_tenTo, cast_tenTo, ← ten_pow_mul_zpow exponent]
  field_simp

theorem tenTo_ne_zero (n : Nat) : tenTo n ≠ 0 := (Nat.pow_pos (by norm_num : 0 < 10)).ne'

theorem isFinite_of_lt (negative : Bool) {bits : Nat} (small : bits < BinaryFormat.double.infinityBits) :
    Double.isFinite ⟨((if negative then BinaryFormat.double.signBit else 0) + bits).toUInt64⟩ = true := by
  have numbers : BinaryFormat.double.signBit = 0x8000000000000000 ∧
      BinaryFormat.double.infinityBits = 0x7FF0000000000000 ∧ BinaryFormat.double.topExponent = 2047 := by decide
  have sign : ((if negative then BinaryFormat.double.signBit else 0) + bits) % 0x10000000000000000 %
      BinaryFormat.double.signBit = bits := by
    rw [numbers.2.1] at small
    rw [numbers.1]
    split <;> omega
  have exponent : bits >>> BinaryFormat.double.fraction ≠ BinaryFormat.double.topExponent := by
    rw [numbers.2.1] at small
    rw [numbers.2.2, Nat.shiftRight_eq_div_pow, show BinaryFormat.double.fraction = 52 from rfl]
    omega
  unfold isFinite value BinaryFormat.value
  simp only [Nat.toUInt64, UInt64.toNat_ofNat', show (2 ^ 64 : Nat) = 0x10000000000000000 from rfl, sign, exponent,
    ↓reduceIte]
  by_cases subnormal : bits >>> BinaryFormat.double.fraction = 0
  · simp only [subnormal, ↓reduceIte]
  · simp only [subnormal, ↓reduceIte]

/-- A decimal below the last binade is read as a finite value. -/
theorem isFinite_ofDecimal (negative : Bool) {digits : Nat} {exponent : Int}
    (least : (2 : ℚ) ^ (-1075 : Int) ≤ digits * 10 ^ exponent)
    (most : (digits : ℚ) * 10 ^ exponent < 2 ^ (1023 : Int)) :
    (ofDecimal negative digits exponent).isFinite = true := by
  have nonzero : digits ≠ 0 := by
    rintro rfl
    have : (0 : ℚ) < 2 ^ (-1075 : Int) := by positivity
    simp only [Nat.cast_zero, zero_mul] at least
    exact absurd least (not_le_of_gt this)
  have reach : (2 : ℚ) ^ (1023 : Int) ≤ 2 ^ (1025 : Int) := zpow_le_zpow_right₀ (by norm_num) (by norm_num)
  rw [ofDecimal_in_reach nonzero least (lt_of_lt_of_le most reach)]
  refine isFinite_of_lt negative (lt_of_le_of_lt (BinaryFormat.roundRatio_le (s := 970)
    (Nat.mul_ne_zero nonzero (tenTo_ne_zero _)) (tenTo_ne_zero _) (by decide) ?_) (by decide))
  rw [ratio_tenTo]
  exact most

/-- **A decimal near a value is read as the value.** -/
theorem ofDecimal_of_near {x : Double} {negative : Bool} {m : Nat} {q : Int} (value : x.value = .finite negative m q)
    (hm : m ≠ 0) {digits : Nat} {exponent : Int}
    (near : BinaryFormat.double.Near m q (digits * 10 ^ exponent)) : ofDecimal negative digits exponent = x := by
  obtain ⟨negative', e, frac, top, fraction, bits⟩ := BinaryFormat.double.exists_parts x.bits_lt
  have finite : BinaryFormat.double.value (BinaryFormat.double.compose negative' e frac) = .finite negative m q := by
    rw [bits]
    exact value
  obtain rfl := BinaryFormat.sign_of_finite top fraction finite
  obtain ⟨canonical, parts, bound⟩ := BinaryFormat.canonical_of_value top fraction finite
  obtain ⟨-, -, scale⟩ := BinaryFormat.finite_bounds x.bits_lt value
  have numbers : BinaryFormat.double.leastScale = -1074 ∧ BinaryFormat.double.topExponent = 2047 := by decide
  have width : BinaryFormat.double.fraction = 52 := rfl
  obtain ⟨least, most⟩ := near.bounds canonical hm
  have positive : (0 : ℚ) < digits * 10 ^ exponent := lt_of_lt_of_le (by positivity) least
  have nonzero : digits ≠ 0 := by
    rintro rfl
    simp at positive
  have top' : (2 : ℚ) ^ (BinaryFormat.double.fraction + 1 + q : Int) ≤ 2 ^ (1025 : Int) :=
    zpow_le_zpow_right₀ (by norm_num) (by omega)
  rw [ofDecimal_in_reach nonzero (by rw [numbers.1] at least; exact least) (lt_of_lt_of_le most top'),
    BinaryFormat.roundRatio_of_near (m := m) (q := q) (Nat.mul_ne_zero nonzero (tenTo_ne_zero _))
      (tenTo_ne_zero _) canonical (ratio_tenTo digits exponent ▸ near),
    ← parts, min_eq_left bound.le, ← BinaryFormat.compose, bits]
  simp

end Double

end CilAudit
