import CilAudit.Binary
import Mathlib.Algebra.Order.Field.Power
import Mathlib.Algebra.Order.Field.Rat
import Mathlib.Tactic.FieldSimp
import Mathlib.Tactic.Linarith
import Mathlib.Tactic.NormNum
import Mathlib.Tactic.Positivity
import Mathlib.Tactic.Ring

/-!
# Rounding to a floating-point format

A ratio is rounded at the least scale at which the mantissa has room for it. The numbers that
round to a value form an interval around it: half a unit to each side, but a quarter below the
least mantissa of a binade.
-/

set_option autoImplicit false

namespace CilAudit

/-! ## Powers of two -/

theorem two_pow_mul_zpow (q : Int) : (2 : ℚ) ^ (-q).toNat * 2 ^ q = 2 ^ q.toNat := by
  rcases Int.le_total 0 q with up | down
  · obtain ⟨n, rfl⟩ := Int.eq_ofNat_of_zero_le up
    simp
  · obtain ⟨n, rfl⟩ : ∃ n : Nat, q = -n := ⟨q.natAbs, by omega⟩
    simp

theorem log2_bounds {n : Nat} (nonzero : n ≠ 0) : (2 : ℚ) ^ (n.log2 : Int) ≤ n ∧ (n : ℚ) < 2 ^ (n.log2 + 1 : Int) := by
  have least := Nat.log2_self_le nonzero
  have most := Nat.lt_log2_self (n := n)
  constructor
  · exact_mod_cast least
  · exact_mod_cast most

/-! ## Rounding to the nearest -/

/-- The nearest integer is the one at most one half away, the even one of two. -/
theorem roundHalfEven_of_near {num den m : Nat} (positive : 0 < den) (low : (2 * m - 1 : ℚ) * den ≤ 2 * num)
    (high : (2 * num : ℚ) ≤ (2 * m + 1) * den)
    (odd : m % 2 = 1 → (2 * m - 1 : ℚ) * den < 2 * num ∧ (2 * num : ℚ) < (2 * m + 1) * den) :
    roundHalfEven num den = m := by
  have least : 2 * m * den ≤ 2 * num + den := by
    have : (2 * m * den : ℚ) ≤ 2 * num + den := by linarith
    exact_mod_cast this
  have most : 2 * num ≤ 2 * m * den + den := by
    have : (2 * num : ℚ) ≤ 2 * m * den + den := by linarith
    exact_mod_cast this
  have strict : m % 2 = 1 → 2 * m * den < 2 * num + den ∧ 2 * num < 2 * m * den + den := by
    intro h
    obtain ⟨low, high⟩ := odd h
    constructor
    · have : (2 * m * den : ℚ) < 2 * num + den := by linarith
      exact_mod_cast this
    · have : (2 * num : ℚ) < 2 * m * den + den := by linarith
      exact_mod_cast this
  have whole := Nat.div_add_mod num den
  have rest := Nat.mod_lt num positive
  unfold roundHalfEven
  generalize num / den = quotient at whole
  generalize num % den = r at whole rest
  subst whole
  simp only
  -- The quotient is the integer, or one less.
  have near : m = quotient ∨ m = quotient + 1 := by
    have lower : quotient < m + 1 := by
      by_contra far
      have : (m + 1) * den ≤ quotient * den := Nat.mul_le_mul_right den (Nat.not_lt.1 far)
      nlinarith
    have upper : m < quotient + 2 := by
      by_contra far
      have : (quotient + 2) * den ≤ m * den := Nat.mul_le_mul_right den (Nat.not_lt.1 far)
      nlinarith
    omega
  rcases near with rfl | rfl
  · have half : 2 * r ≤ den := by nlinarith
    have even : 2 * r = den → m % 2 = 0 := by
      intro tie
      by_contra h
      have := (strict (by omega)).2
      nlinarith
    split
    · rfl
    · rw [if_neg (by omega), if_pos (even (by omega))]
  · have half : den ≤ 2 * r := by nlinarith
    have even : 2 * r = den → (quotient + 1) % 2 = 0 := by
      intro tie
      by_contra h
      have := (strict (by omega)).1
      nlinarith
    rw [if_neg (by omega)]
    split
    · rfl
    · rw [if_neg (by have := even (by omega); omega)]

theorem roundHalfEven_le {num den k : Nat} (below : num < den * k) : roundHalfEven num den ≤ k := by
  have := Nat.div_lt_of_lt_mul below
  simp only [roundHalfEven]
  split
  · omega
  · split
    · omega
    · split <;> omega

/-! ## The scale that rounding chooses -/

namespace BinaryFormat

variable {f : BinaryFormat} {num den m : Nat} {q : Int}

/-- Both sides of a ratio shifted apart, as a comparison of its value. -/
theorem shifted_lt_iff (hd : den ≠ 0) (q : Int) (k : Nat) :
    num <<< (-q).toNat < den <<< q.toNat <<< k ↔ (num / den : ℚ) < 2 ^ (k + q) := by
  have positive : (0 : ℚ) < den := by positivity
  have scale : (0 : ℚ) < 2 ^ (-q).toNat := by positivity
  rw [div_lt_iff₀ positive, ← mul_lt_mul_iff_of_pos_left scale, zpow_add₀ (by norm_num), zpow_natCast]
  simp only [Nat.shiftLeft_eq]
  rw [← Nat.cast_lt (α := ℚ)]
  push_cast
  rw [← two_pow_mul_zpow q]
  constructor <;> intro h <;> nlinarith

/-- Rounding takes the least scale at which the mantissa has room. -/
theorem exists_scale (f : BinaryFormat) (hn : num ≠ 0) (hd : den ≠ 0) :
    ∃ q, f.leastScale ≤ q ∧ (num / den : ℚ) < 2 ^ (f.fraction + 1 + q) ∧
      (f.leastScale < q → (2 : ℚ) ^ (f.fraction + q) ≤ num / den) ∧
      f.roundRatio num den = min (((q - f.leastScale).toNat <<< f.fraction) +
        roundHalfEven (num <<< (-q).toNat) (den <<< q.toNat)) f.infinityBits := by
  obtain ⟨num_least, num_most⟩ := log2_bounds hn
  obtain ⟨den_least, den_most⟩ := log2_bounds hd
  have positive : (0 : ℚ) < den := by positivity
  have above : (2 : ℚ) ^ ((num.log2 : Int) - den.log2 - 1) < num / den := by
    rw [lt_div_iff₀ positive]
    calc (2 : ℚ) ^ ((num.log2 : Int) - den.log2 - 1) * den
        < 2 ^ ((num.log2 : Int) - den.log2 - 1) * 2 ^ (den.log2 + 1 : Int) := by gcongr
      _ = 2 ^ (num.log2 : Int) := by rw [← zpow_add₀ (by norm_num)]; congr 1; ring
      _ ≤ num := num_least
  have below : (num / den : ℚ) < 2 ^ ((num.log2 : Int) - den.log2 + 1) := by
    rw [div_lt_iff₀ positive]
    calc (num : ℚ) < 2 ^ (num.log2 + 1 : Int) := num_most
      _ = 2 ^ ((num.log2 : Int) - den.log2 + 1) * 2 ^ (den.log2 : Int) := by
          rw [← zpow_add₀ (by norm_num)]; congr 1; ring
      _ ≤ 2 ^ ((num.log2 : Int) - den.log2 + 1) * den := by gcongr
  have monotone : ∀ {i j : Int}, i ≤ j → (2 : ℚ) ^ i ≤ 2 ^ j := fun h => zpow_le_zpow_right₀ (by norm_num) h
  unfold roundRatio
  simp only [hn, ↓reduceIte]
  generalize guessed : max f.leastScale ((num.log2 : Int) - den.log2 - f.fraction) = guess
  split
  case isTrue lower =>
    rw [shifted_lt_iff hd guess f.fraction] at lower
    refine ⟨guess - 1, by omega, ?_, fun _ => ?_, rfl⟩
    · rw [show (f.fraction + 1 + (guess - 1) : Int) = f.fraction + guess by ring]
      exact lower.2
    · exact (monotone (by omega)).trans above.le
  case isFalse notLower =>
    rw [shifted_lt_iff hd guess f.fraction] at notLower
    refine ⟨guess, by omega, lt_of_lt_of_le below (monotone (by omega)), fun h => ?_, rfl⟩
    exact le_of_not_gt fun small => notLower ⟨h, small⟩

/-- A ratio that has room at a scale is rounded to no more than the next binade. -/
theorem roundRatio_le (hn : num ≠ 0) (hd : den ≠ 0) {s : Int} (least : f.leastScale ≤ s)
    (below : (num / den : ℚ) < 2 ^ (f.fraction + 1 + s)) :
    f.roundRatio num den ≤ ((s - f.leastScale).toNat + 2) <<< f.fraction := by
  obtain ⟨q, least', room, tight, rounded⟩ := f.exists_scale hn hd
  have scale : q ≤ s := by
    by_contra larger
    have power := lt_of_le_of_lt (tight (by omega)) below
    have := (zpow_lt_zpow_iff_right₀ (by norm_num : (1 : ℚ) < 2)).1 power
    omega
  have mantissa : roundHalfEven (num <<< (-q).toNat) (den <<< q.toNat) ≤ 2 ^ (f.fraction + 1) := by
    refine roundHalfEven_le ?_
    rw [← Nat.shiftLeft_eq, shifted_lt_iff hd]
    exact_mod_cast room
  rw [rounded]
  refine (min_le_left _ _).trans ?_
  simp only [Nat.shiftLeft_eq] at mantissa ⊢
  have steps : (q - f.leastScale).toNat ≤ (s - f.leastScale).toNat := by omega
  have := Nat.mul_le_mul_right (2 ^ f.fraction) steps
  rw [Nat.pow_succ] at mantissa
  rw [Nat.add_mul]
  omega

/-- A scale and mantissa as some bits have them. -/
structure Canonical (f : BinaryFormat) (m : Nat) (q : Int) : Prop where
  least : f.leastScale ≤ q
  fits : m < 2 ^ (f.fraction + 1)
  normal : f.leastScale < q → 2 ^ f.fraction ≤ m

/-- Near enough to `m · 2 ^ q` to be rounded to it: at most half a unit away, below the least
mantissa of a binade a quarter, and at the very ends only if `m` is even. -/
structure Near (f : BinaryFormat) (m : Nat) (q : Int) (v : ℚ) : Prop where
  low : (if m = 2 ^ f.fraction ∧ f.leastScale < q then (m - 1 / 4 : ℚ) else m - 1 / 2) * 2 ^ q ≤ v
  high : v ≤ (m + 1 / 2 : ℚ) * 2 ^ q
  odd : m % 2 = 1 →
    (if m = 2 ^ f.fraction ∧ f.leastScale < q then (m - 1 / 4 : ℚ) else m - 1 / 2) * 2 ^ q < v ∧
      v < (m + 1 / 2 : ℚ) * 2 ^ q

theorem roundHalfEven_shifted (hd : den ≠ 0) (low : (m - 1 / 2 : ℚ) * 2 ^ q ≤ num / den)
    (high : (num / den : ℚ) ≤ (m + 1 / 2) * 2 ^ q)
    (odd : m % 2 = 1 → (m - 1 / 2 : ℚ) * 2 ^ q < num / den ∧ (num / den : ℚ) < (m + 1 / 2) * 2 ^ q) :
    roundHalfEven (num <<< (-q).toNat) (den <<< q.toNat) = m := by
  have positive : (0 : ℚ) < den := by positivity
  have scale : (0 : ℚ) < 2 ^ (-q).toNat := by positivity
  have room : 0 < den <<< q.toNat := by
    rw [Nat.shiftLeft_eq]
    positivity
  have shift : ((den <<< q.toNat : Nat) : ℚ) = den * (2 ^ (-q).toNat * 2 ^ q) := by
    rw [Nat.shiftLeft_eq, two_pow_mul_zpow q]
    push_cast
    rfl
  have lift : ((num <<< (-q).toNat : Nat) : ℚ) = num * 2 ^ (-q).toNat := by
    rw [Nat.shiftLeft_eq]
    push_cast
    rfl
  rw [le_div_iff₀ positive] at low
  rw [div_le_iff₀ positive] at high
  rw [lt_div_iff₀ positive, div_lt_iff₀ positive] at odd
  refine roundHalfEven_of_near room ?_ ?_ fun h => ⟨?_, ?_⟩ <;> rw [shift, lift]
  · nlinarith [mul_le_mul_of_nonneg_left low scale.le]
  · nlinarith [mul_le_mul_of_nonneg_left high scale.le]
  · nlinarith [mul_lt_mul_of_pos_left (odd h).1 scale]
  · nlinarith [mul_lt_mul_of_pos_left (odd h).2 scale]

/-- **What is near a value is rounded to it.** -/
theorem roundRatio_of_near (hn : num ≠ 0) (hd : den ≠ 0)
    (canonical : f.Canonical m q) (near : f.Near m q (num / den)) :
    f.roundRatio num den = min (((q - f.leastScale).toNat <<< f.fraction) + m) f.infinityBits := by
  obtain ⟨q', least', room, tight, rounded⟩ := f.exists_scale hn hd
  have unit : (0 : ℚ) < 2 ^ q := by positivity
  have base : (1 : ℚ) < 2 := by norm_num
  have fits : (m : ℚ) + 1 ≤ 2 ^ (f.fraction + 1) := by exact_mod_cast canonical.fits
  have wide : (2 : ℚ) ^ (f.fraction + 1 + q : Int) = 2 ^ (f.fraction + 1) * 2 ^ q := by
    rw [zpow_add₀ (by norm_num)]
    norm_cast
  have narrow : (2 : ℚ) ^ (f.fraction + q : Int) = 2 ^ f.fraction * 2 ^ q := by
    rw [zpow_add₀ (by norm_num), zpow_natCast]
  have under : (num / den : ℚ) < 2 ^ (f.fraction + 1 + q : Int) := by
    rw [wide]
    nlinarith [near.high]
  -- A larger scale would have had a larger value.
  have notAbove : q' ≤ q := by
    by_contra above
    have large := tight (by have := canonical.least; omega)
    have : (2 : ℚ) ^ (f.fraction + 1 + q : Int) ≤ 2 ^ (f.fraction + q' : Int) := zpow_le_zpow_right₀ base.le (by omega)
    linarith
  by_cases reaches : q = f.leastScale ∨ (2 : ℚ) ^ (f.fraction + q : Int) ≤ num / den
  · obtain rfl : q' = q := by
      by_contra other
      have below : q' + 1 ≤ q := by omega
      rcases reaches with bottom | reaches
      · omega
      · have : (2 : ℚ) ^ (f.fraction + 1 + q' : Int) ≤ 2 ^ (f.fraction + q : Int) :=
          zpow_le_zpow_right₀ base.le (by omega)
        linarith
    have weaker : (m - 1 / 2 : ℚ) * 2 ^ q' ≤
        (if m = 2 ^ f.fraction ∧ f.leastScale < q' then (m - 1 / 4 : ℚ) else m - 1 / 2) * 2 ^ q' := by
      split <;> nlinarith
    rw [rounded, roundHalfEven_shifted hd (weaker.trans near.low) near.high fun h =>
      ⟨lt_of_le_of_lt weaker (near.odd h).1, (near.odd h).2⟩]
  · -- The value is the least of its binade, and what is near it from below has the scale before.
    have above : f.leastScale < q := by
      have := canonical.least
      have : q ≠ f.leastScale := fun h => reaches (.inl h)
      omega
    have small : (num / den : ℚ) < 2 ^ f.fraction * 2 ^ q := by
      rw [← narrow]
      exact lt_of_not_ge fun h => reaches (.inr h)
    have bottom : m = 2 ^ f.fraction := by
      by_contra other
      have more : (2 : ℚ) ^ f.fraction + 1 ≤ m := by
        have := canonical.normal above
        have : 2 ^ f.fraction + 1 ≤ m := by omega
        exact_mod_cast this
      have low := near.low
      rw [if_neg fun h => other h.1] at low
      nlinarith
    have low := near.low
    rw [if_pos ⟨bottom, above⟩] at low
    have value : (m : ℚ) = 2 ^ f.fraction := by exact_mod_cast bottom
    have large : (1 : ℚ) ≤ 2 ^ f.fraction := one_le_pow₀ base.le
    have halved : (2 : ℚ) ^ q = 2 * 2 ^ (q - 1) := by
      rw [← zpow_one_add₀ (by norm_num), add_sub_cancel]
    obtain rfl : q' = q - 1 := by
      by_contra other
      rcases Int.lt_or_gt_of_ne other with below | beyond
      · have : (2 : ℚ) ^ (f.fraction + 1 + q' : Int) ≤ 2 ^ (f.fraction + (q - 1) : Int) :=
          zpow_le_zpow_right₀ base.le (by omega)
        have : (2 : ℚ) ^ (f.fraction + (q - 1) : Int) * 2 = 2 ^ f.fraction * 2 ^ q := by
          rw [halved, zpow_add₀ (by norm_num), zpow_natCast]
          ring
        nlinarith
      · obtain rfl : q' = q := by omega
        have := tight above
        rw [narrow] at this
        linarith
    have doubled : ((2 * m : Nat) : ℚ) = 2 * 2 ^ f.fraction := by
      push_cast
      rw [value]
    rw [rounded, roundHalfEven_shifted (m := 2 * m) hd ?_ ?_ fun h => absurd h (by omega)]
    · -- Both spell the same bits.
      have scales : (q - f.leastScale).toNat = (q - 1 - f.leastScale).toNat + 1 := by omega
      rw [scales, bottom, Nat.shiftLeft_eq, Nat.shiftLeft_eq]
      congr 1
      ring
    · rw [doubled]
      rw [value, halved] at low
      nlinarith
    · rw [doubled]
      rw [halved] at small
      nlinarith [(by positivity : (0 : ℚ) < 2 ^ (q - 1))]

/-- A value is near itself. -/
theorem near_self (f : BinaryFormat) (m : Nat) (q : Int) : f.Near m q (m * 2 ^ q) := by
  have unit : (0 : ℚ) < 2 ^ q := by positivity
  refine ⟨?_, by nlinarith, fun _ => ⟨?_, by nlinarith⟩⟩ <;> split <;> nlinarith

end BinaryFormat

end CilAudit
