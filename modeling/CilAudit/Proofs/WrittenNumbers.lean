import CilAudit.Datum
import CilAudit.Proofs.DocumentText
import CilAudit.Proofs.ShortestDecimals

/-!
# Written numbers are read back

The text of an integer is read as the integer, and the text of a floating-point value, in
whichever of its layouts, as the value. Both are literals as the grammar of documents has them.
-/

set_option autoImplicit false

namespace CilAudit

namespace Text

/-! ## Runs of digits -/

/-- The number that a run of digits is. -/
def decimal (t : Text) : Nat := t.foldl (fun n b => n * 10 + (b.toNat - 0x30)) 0

theorem toNat?_of_digits {t : Text} (digits : Digits t) : toNat? t = some (decimal t) := by
  have run : ∀ (l : Text) (n : Nat), (∀ b ∈ l, isDigit b = true) →
      l.foldl (fun acc b => acc.bind fun n => if isDigit b then some (n * 10 + (b.toNat - 0x30)) else none) (some n) =
        some (l.foldl (fun n b => n * 10 + (b.toNat - 0x30)) n) := by
    intro l
    induction l with
    | nil => exact fun n _ => rfl
    | cons b l ih =>
      intro n all
      obtain ⟨first, others⟩ := List.forall_mem_cons.1 all
      simp only [List.foldl_cons, Option.bind_some, first, ↓reduceIte]
      exact ih _ others
  rw [toNat?, if_neg (by simpa using digits.nonempty), run t 0 digits.all, decimal]

theorem decimal_append (s t : Text) : decimal (s ++ t) = decimal s * 10 ^ t.length + decimal t := by
  have run : ∀ (l : Text) (n : Nat), l.foldl (fun n b => n * 10 + (b.toNat - 0x30)) n =
      n * 10 ^ l.length + l.foldl (fun n b => n * 10 + (b.toNat - 0x30)) 0 := by
    intro l
    induction l with
    | nil => simp
    | cons b l ih =>
      intro n
      rw [List.foldl_cons, List.foldl_cons, ih, ih (0 * 10 + _), List.length_cons, Nat.pow_succ]
      ring
  rw [decimal, List.foldl_append, run]
  rfl

theorem decimal_zeros (k : Nat) : decimal (List.replicate k 0x30) = 0 := by
  induction k with
  | zero => rfl
  | succ k ih => rw [List.replicate_succ', decimal_append, ih]; rfl

theorem isDigit_zeros (k : Nat) : ∀ b ∈ List.replicate k (0x30 : UInt8), isDigit b = true := by
  intro b mem
  rw [List.eq_of_mem_replicate mem]
  rfl

/-! ## Numerals -/

theorem digit_of_lt {d : Nat} (small : d < 10) : isDigit (digit d) = true ∧ (digit d).toNat - 0x30 = d := by
  match d, small with
  | 0, _ | 1, _ | 2, _ | 3, _ | 4, _ | 5, _ | 6, _ | 7, _ | 8, _ | 9, _ => decide

theorem digitsAnd_eq_append (base n : Nat) (tail : Text) : digitsAnd base n tail = digitsAnd base n [] ++ tail := by
  induction n using Nat.strongRecOn generalizing tail with
  | ind n ih =>
    conv_lhs => rw [digitsAnd]
    conv_rhs => rw [digitsAnd]
    split
    case isTrue large =>
      have smaller : n / base < n := Nat.div_lt_self (by omega) large.1
      rw [ih _ smaller, ih _ smaller [_], List.append_assoc, List.singleton_append]
    case isFalse => rfl

/-- The last digit stands behind the others. -/
theorem ofNat_of_ge {n : Nat} (large : 10 ≤ n) : ofNat n = ofNat (n / 10) ++ [digit (n % 10)] := by
  rw [ofNat, digitsIn, digitsAnd, dif_pos ⟨by decide, large⟩]
  exact digitsAnd_eq_append 10 (n / 10) _

theorem ofNat_of_lt {n : Nat} (small : n < 10) : ofNat n = [digit n] := by
  rw [ofNat, digitsIn, digitsAnd, dif_neg (by omega), Nat.mod_eq_of_lt small]

theorem digits_ofNat (n : Nat) : Digits (ofNat n) ∧ decimal (ofNat n) = n := by
  induction n using Nat.strongRecOn with
  | ind n ih =>
    rcases Nat.lt_or_ge n 10 with small | large
    · obtain ⟨isDigit, value⟩ := digit_of_lt small
      rw [ofNat_of_lt small]
      exact ⟨⟨by simp, by simpa using isDigit⟩, by simpa [decimal] using value⟩
    · obtain ⟨isDigit, value⟩ := digit_of_lt (Nat.mod_lt n (by decide : 0 < 10))
      obtain ⟨digits, whole⟩ := ih (n / 10) (Nat.div_lt_self (by omega) (by decide))
      rw [ofNat_of_ge large]
      refine ⟨digits.append (by simpa using isDigit), ?_⟩
      have last : decimal [digit (n % 10)] = n % 10 := by simpa [decimal] using value
      rw [decimal_append, whole, last]
      simp only [List.length_singleton, pow_one]
      omega

theorem toNat?_ofNat (n : Nat) : toNat? (ofNat n) = some n := by
  obtain ⟨digits, value⟩ := digits_ofNat n
  rw [toNat?_of_digits digits, value]

/-- A positive number has no leading zero. -/
theorem head?_ofNat {n : Nat} (positive : n ≠ 0) : (ofNat n).head? ≠ some 0x30 := by
  induction n using Nat.strongRecOn with
  | ind n ih =>
    rcases Nat.lt_or_ge n 10 with small | large
    · rw [ofNat_of_lt small]
      match n, small, positive with
      | 1, _, _ | 2, _, _ | 3, _, _ | 4, _, _ | 5, _, _ | 6, _, _ | 7, _, _ | 8, _, _ | 9, _, _ => decide
    · have before := ih (n / 10) (Nat.div_lt_self (by omega) (by decide)) (by omega)
      have nonempty := (digits_ofNat (n / 10)).1.nonempty
      rw [ofNat_of_ge large, List.head?_append_of_ne_nil _ nonempty]
      exact before

theorem toInt?_of_digits {t : Text} (digits : Digits t) : toInt? t = some (decimal t : Int) := by
  have signless : ∀ rest, t ≠ 0x2D :: rest ∧ t ≠ 0x2B :: rest := by
    intro rest
    constructor <;>
    · rintro rfl
      exact absurd (digits.all _ List.mem_cons_self) (by decide)
  unfold toInt?
  split
  · exact absurd rfl (signless _).1
  · exact absurd rfl (signless _).2
  · rw [toNat?_of_digits digits]
    rfl

theorem toInt?_ofInt (n : Int) : toInt? (ofInt n) = some n := by
  unfold ofInt
  split
  case isTrue negative =>
    rw [toInt?, toNat?_ofNat]
    exact congrArg some (by omega : -(n.natAbs : Int) = n)
  case isFalse nonnegative =>
    obtain ⟨digits, value⟩ := digits_ofNat n.toNat
    rw [toInt?_of_digits digits, value]
    congr 1
    omega

/-! ## Cutting at a byte -/

theorem cutAt_of_not_mem {b : UInt8} {t : Text} (absent : b ∉ t) : cutAt b t = none := by
  induction t with
  | nil => rfl
  | cons c t ih =>
    obtain ⟨first, others⟩ := not_or.1 (mt List.mem_cons.2 absent)
    rw [cutAt, if_neg (Ne.symm first), ih others]
    rfl

theorem cutAt_append {b : UInt8} {s : Text} (absent : b ∉ s) (t : Text) : cutAt b (s ++ b :: t) = some (s, t) := by
  induction s with
  | nil => simp [cutAt]
  | cons c s ih =>
    obtain ⟨first, others⟩ := not_or.1 (mt List.mem_cons.2 absent)
    rw [List.cons_append, cutAt, if_neg (Ne.symm first), ih others]
    rfl

theorem cutAtLast_of_all {p : UInt8 → Bool} {t : Text} (none : ∀ b ∈ t, p b = false) : cutAtLast p t = .none := by
  induction t with
  | nil => rfl
  | cons c t ih =>
    obtain ⟨first, others⟩ := List.forall_mem_cons.1 none
    rw [cutAtLast, ih others]
    simp [first]

theorem cutAtLast_append {p : UInt8 → Bool} {b : UInt8} (here : p b = true) (s : Text) {t : Text}
    (none : ∀ c ∈ t, p c = false) : cutAtLast p (s ++ b :: t) = some (s, t) := by
  induction s with
  | nil =>
    rw [List.nil_append, cutAtLast, cutAtLast_of_all none]
    simp [here]
  | cons c s ih => rw [List.cons_append, cutAtLast, ih]

end Text

namespace Json

open Text

/-! ## Literals -/

theorem Magnitude.ofNat (n : Nat) : Magnitude (Text.ofNat n) := by
  have whole : Whole (Text.ofNat n) := by
    by_cases zero : n = 0
    · rw [zero, ofNat_of_lt (by decide)]
      exact .zero
    · exact .digits (digits_ofNat n).1 (head?_ofNat zero)
  simpa using Magnitude.intro whole .none .none

theorem Numeral.ofInt (n : Int) : Numeral (Text.ofInt n) := by
  unfold Text.ofInt
  split
  · exact .negative (.ofNat _)
  · exact .unsigned (.ofNat _)

/-- A literal without sign, exponent in lower case, that stands for the number `v`. -/
inductive Stands (v : ℚ) : Text → Prop
  | intro {w f F E : Text} {e : Int} (whole : Whole w) (fraction : F = [] ∧ f = [] ∨ F = 0x2E :: f ∧ Digits f)
      (exponent : E = [] ∧ e = 0 ∨ ∃ sign t, E = 0x65 :: (sign ++ t) ∧ (sign = [0x2B] ∨ sign = [0x2D]) ∧ Digits t ∧
        toInt? (sign ++ t) = some e)
      (value : (decimal (w ++ f) : ℚ) * 10 ^ (e - f.length) = v) : Stands v (w ++ F ++ E)

theorem Stands.magnitude {v : ℚ} {t : Text} (stands : Stands v t) : Magnitude t := by
  cases stands with
  | intro whole fraction exponent =>
    refine .intro whole ?_ ?_
    · rcases fraction with ⟨rfl, -⟩ | ⟨rfl, digits⟩
      · exact .none
      · exact .digits digits
    · rcases exponent with ⟨rfl, -⟩ | ⟨sign, t, rfl, signs, digits, -⟩
      · exact .none
      · exact .digits (.inl rfl) (.inr signs) digits

end Json

/-! ## Reading literals -/

namespace Datum

open Text Json

/-- The decimal that a literal without sign is. -/
def decimalOf (t : Text) : Decimal :=
  let (mantissa, exponent) := exponentOf t
  let (whole, fraction) := (cutAt 0x2E mantissa).getD (mantissa, [])
  ⟨(toNat? (whole ++ fraction)).getD 0, exponent - fraction.length⟩

theorem doubleOf_negative (t : Text) :
    doubleOf (0x2D :: t) = Double.ofDecimal true (decimalOf t).digits (decimalOf t).exponent := rfl

theorem doubleOf_unsigned {t : Text} (unsigned : t.head? ≠ some 0x2D) :
    doubleOf t = Double.ofDecimal false (decimalOf t).digits (decimalOf t).exponent := by
  have sign : ∀ rest, t ≠ 0x2D :: rest := by
    rintro rest rfl
    exact unsigned rfl
  unfold doubleOf
  split
  rename_i shape
  split at shape
  · exact absurd rfl (sign _)
  · cases shape
    rfl

theorem value_decimalOf {v : ℚ} {t : Text} (stands : Stands v t) : (decimalOf t).value = v := by
  cases stands with
  | @intro w f F E e whole fraction exponent value =>
    have unmarked : ∀ {l : Text}, (∀ b ∈ l, isDigit b = true) → ∀ b ∈ l, (b = 0x65 || b = 0x45) = false := by
      intro l digits b mem
      have first := ne_of_isDigit (digits b mem) (show isDigit 0x65 = false by decide)
      have second := ne_of_isDigit (digits b mem) (show isDigit 0x45 = false by decide)
      simp [first, second]
    have digits := whole.isDigits
    have fractionDigits : ∀ b ∈ f, isDigit b = true := by
      rcases fraction with ⟨-, rfl⟩ | ⟨-, digits⟩
      · exact List.forall_mem_nil _
      · exact digits.all
    have mantissa : ∀ b ∈ w ++ F, (b = 0x65 || b = 0x45) = false := by
      refine List.forall_mem_append.2 ⟨unmarked digits.all, ?_⟩
      rcases fraction with ⟨rfl, -⟩ | ⟨rfl, more⟩
      · exact List.forall_mem_nil _
      · exact List.forall_mem_cons.2 ⟨by decide, unmarked more.all⟩
    have cut : exponentOf (w ++ F ++ E) = (w ++ F, e) := by
      rcases exponent with ⟨rfl, rfl⟩ | ⟨sign, t, rfl, signs, power, read⟩
      · rw [List.append_nil, exponentOf, cutAtLast_of_all mantissa]
      · have behind : ∀ b ∈ sign ++ t, (b = 0x65 || b = 0x45) = false := by
          refine List.forall_mem_append.2 ⟨?_, unmarked power.all⟩
          rcases signs with rfl | rfl <;> exact List.forall_mem_singleton.2 (by decide)
        rw [exponentOf, cutAtLast_append (by decide) _ behind]
        simp only [read, Option.getD_some]
    have point : (cutAt 0x2E (w ++ F)).getD (w ++ F, []) = (w, f) := by
      have absent : (0x2E : UInt8) ∉ w := fun mem => absurd (digits.all _ mem) (by decide)
      rcases fraction with ⟨rfl, rfl⟩ | ⟨rfl, -⟩
      · rw [List.append_nil, cutAt_of_not_mem absent]
        rfl
      · rw [cutAt_append absent]
        rfl
    rw [decimalOf, cut]
    simp only [point]
    rw [toNat?_of_digits (digits.append fractionDigits), Option.getD_some]
    exact value

end Datum

/-! ## Layouts -/

namespace NumberNotation

open Text Json

theorem stripZeros_value (d : Decimal) : (stripZeros d).value = d.value := by
  fun_induction stripZeros d with
  | case1 d zeros smaller ih =>
    rw [ih, Decimal.value, Decimal.value, zpow_add_one₀ (by norm_num)]
    have whole : d.digits = d.digits / 10 * 10 := by omega
    conv_rhs => rw [whole]
    push_cast
    ring
  | case2 => rfl

theorem stripZeros_digits {d : Decimal} (nonzero : d.digits ≠ 0) : (stripZeros d).digits ≠ 0 := by
  fun_induction stripZeros d with
  | case1 d zeros smaller ih => exact ih (by simp only; omega)
  | case2 => exact nonzero

section Layouts

variable {t : Text} (digits : Digits t) (lead : t.head? ≠ some 0x30)

include digits lead

/-- Digits and then zeros. -/
theorem stands_zeros {e : Int} (whole : 0 ≤ e) :
    Stands (decimal t * 10 ^ e) (t ++ Text.replicate e.toNat 0x30) := by
  have shape : Whole (t ++ Text.replicate e.toNat 0x30) := by
    refine .digits (digits.append (isDigit_zeros _)) ?_
    rwa [List.head?_append_of_ne_nil _ digits.nonempty]
  have value : ((decimal (t ++ Text.replicate e.toNat 0x30 ++ []) : Nat) : ℚ) * 10 ^ ((0 : Int) - ([] : Text).length) =
      decimal t * 10 ^ e := by
    rw [List.append_nil, decimal_append, Text.replicate, decimal_zeros, List.length_replicate]
    push_cast
    rw [← zpow_natCast, Int.toNat_of_nonneg whole]
    simp
  simpa using Stands.intro shape (.inl ⟨rfl, rfl⟩) (.inl ⟨rfl, rfl⟩) value

theorem whole_take {k : Nat} (some : k ≠ 0) : Whole (t.take k) := by
  refine .digits ⟨by simp [digits.nonempty, some], fun b mem => digits.all b (List.mem_of_mem_take mem)⟩ ?_
  rwa [List.head?_take, if_neg some]

omit lead in
theorem digits_drop {k : Nat} (more : k < t.length) : Digits (t.drop k) :=
  ⟨by simpa using more, fun b mem => digits.all b (List.mem_of_mem_drop mem)⟩

/-- A point among the digits. -/
theorem stands_point {k : Nat} (some : k ≠ 0) (more : k < t.length) :
    Stands (decimal t * 10 ^ ((k : Int) - t.length)) (t.take k ++ (("." : String) : Text) ++ t.drop k) := by
  have value : ((decimal (t.take k ++ t.drop k) : Nat) : ℚ) * 10 ^ ((0 : Int) - (t.drop k).length) =
      decimal t * 10 ^ ((k : Int) - t.length) := by
    rw [List.take_append_drop, List.length_drop]
    congr 2
    omega
  have stands :=
    Stands.intro (whole_take digits lead some) (.inr ⟨rfl, digits_drop digits more⟩) (.inl ⟨rfl, rfl⟩) value
  rwa [List.append_nil, ← List.singleton_append, ← List.append_assoc] at stands

omit lead in
/-- Zeros behind the point. -/
theorem stands_leading (k : Nat) :
    Stands (decimal t * 10 ^ (-(k + t.length : Int))) ((("0." : String) : Text) ++ Text.replicate k 0x30 ++ t) := by
  have run : Digits (Text.replicate k 0x30 ++ t) :=
    ⟨by simp [digits.nonempty], List.forall_mem_append.2 ⟨isDigit_zeros k, digits.all⟩⟩
  have value : ((decimal ([0x30] ++ (Text.replicate k 0x30 ++ t)) : Nat) : ℚ) *
      10 ^ ((0 : Int) - (Text.replicate k 0x30 ++ t).length) = decimal t * 10 ^ (-(k + t.length : Int)) := by
    have zero : decimal [0x30] = 0 := rfl
    rw [decimal_append, decimal_append, Text.replicate, decimal_zeros, List.length_append, List.length_replicate, zero]
    simp only [zero_mul, zero_add, zero_sub, Nat.cast_add]
  have stands := Stands.intro .zero (.inr ⟨rfl, run⟩) (.inl ⟨rfl, rfl⟩) value
  rwa [List.append_nil] at stands

/-- One digit, the others behind a point, and an exponent. -/
theorem stands_exponent (width : Nat) (e : Int) :
    Stands (decimal t * 10 ^ (e - (t.length - 1 : Nat)))
      (t.take 1 ++ (if t.length = 1 then ([] : Text) else [0x2E]) ++ t.drop 1 ++ (("e" : String) : Text) ++
        (if e < 0 then ([0x2D] : Text) else [0x2B]) ++ Text.padZeros width (Text.ofNat e.natAbs)) := by
  have value : ((decimal (t.take 1 ++ t.drop 1) : Nat) : ℚ) * 10 ^ (e - (t.drop 1).length) =
      decimal t * 10 ^ (e - (t.length - 1 : Nat)) := by
    rw [List.take_append_drop, List.length_drop]
  have padded : Digits (Text.padZeros width (Text.ofNat e.natAbs)) ∧
      decimal (Text.padZeros width (Text.ofNat e.natAbs)) = e.natAbs := by
    obtain ⟨digits, number⟩ := digits_ofNat e.natAbs
    refine ⟨⟨by simp [padZeros, digits.nonempty], List.forall_mem_append.2 ⟨isDigit_zeros _, digits.all⟩⟩, ?_⟩
    rw [padZeros, decimal_append, decimal_zeros, number]
    simp
  generalize Text.padZeros width (Text.ofNat e.natAbs) = power at padded
  have signed : ((if e < 0 then ([0x2D] : Text) else [0x2B]) = [0x2B] ∨
      (if e < 0 then ([0x2D] : Text) else [0x2B]) = [0x2D]) ∧
      toInt? ((if e < 0 then ([0x2D] : Text) else [0x2B]) ++ power) = some e := by
    split
    case isTrue negative =>
      refine ⟨.inr rfl, ?_⟩
      rw [List.singleton_append, toInt?, toNat?_of_digits padded.1, padded.2]
      exact congrArg some (by omega : -(e.natAbs : Int) = e)
    case isFalse nonnegative =>
      refine ⟨.inl rfl, ?_⟩
      rw [List.singleton_append, toInt?, toNat?_of_digits padded.1, padded.2]
      exact congrArg some (by omega : (e.natAbs : Int) = e)
  generalize (if e < 0 then ([0x2D] : Text) else [0x2B]) = sign at signed
  have fraction : (if t.length = 1 then ([] : Text) else [0x2E]) ++ t.drop 1 = [] ∧ t.drop 1 = [] ∨
      (if t.length = 1 then ([] : Text) else [0x2E]) ++ t.drop 1 = 0x2E :: t.drop 1 ∧ Digits (t.drop 1) := by
    have some : t.length ≠ 0 := by simpa using digits.nonempty
    split
    case isTrue single =>
      have none : t.drop 1 = [] := List.drop_eq_nil_of_le (by omega)
      exact .inl ⟨by rw [none]; rfl, none⟩
    case isFalse more => exact .inr ⟨rfl, digits_drop digits (by omega)⟩
  have stands := Stands.intro (whole_take digits lead (by decide)) fraction
    (.inr ⟨sign, power, rfl, signed.1, padded.1, signed.2⟩) value
  have text : ∀ a b c : Text, a ++ (b ++ c) ++ 0x65 :: (sign ++ power) =
      a ++ b ++ c ++ (("e" : String) : Text) ++ sign ++ power := by
    intro a b c
    rw [show (("e" : String) : Text) = [0x65] from rfl]
    simp
  rwa [text] at stands

end Layouts

/-- Each of the layouts stands for the number that is laid out. -/
theorem stands_layout (n : NumberNotation) {d : Decimal} (nonzero : d.digits ≠ 0) : Stands d.value (n.layout d) := by
  rw [← stripZeros_value, layout]
  have positive := stripZeros_digits nonzero
  generalize stripZeros d = d at positive
  obtain ⟨digits, number⟩ := digits_ofNat d.digits
  have lead := head?_ofNat positive
  simp only
  generalize Text.ofNat d.digits = t at digits number lead
  rw [Decimal.value, ← number]
  have some : t.length ≠ 0 := by simpa using digits.nonempty
  split
  · split
    case isTrue whole => exact stands_zeros digits lead whole
    case isFalse broken =>
      split
      case isTrue inside =>
        have stands := stands_point digits lead (k := (d.exponent + t.length - 1).toNat + 1) (by omega) (by omega)
        rwa [show ((((d.exponent + t.length - 1).toNat + 1 : Nat) : Int) - t.length) = d.exponent by omega] at stands
      case isFalse small =>
        have stands := stands_leading digits ((-(d.exponent + t.length - 1)).toNat - 1)
        rwa [show (-((((-(d.exponent + t.length - 1)).toNat - 1 : Nat) : Int) + t.length)) = d.exponent by omega]
          at stands
  · have stands := stands_exponent digits lead n.exponentWidth (d.exponent + t.length - 1)
    rwa [show (d.exponent + t.length - 1 - (t.length - 1 : Nat) : Int) = d.exponent by omega] at stands

end NumberNotation

/-! ## Values of 64 bits -/

namespace Datum

open Text Json

theorem head?_ne_sign {v : ℚ} {t : Text} (stands : Stands v t) : t.head? ≠ some 0x2D := by
  cases stands with
  | @intro w f F E e whole =>
    have digits := whole.isDigits
    rw [List.append_assoc, List.head?_append_of_ne_nil _ digits.nonempty]
    intro sign
    exact absurd (digits.all _ (List.mem_of_mem_head? sign)) (by decide)

/-- The text of a finite value is a literal. -/
theorem numeral_render {x : Double} (finite : x.isFinite = true) (n : NumberNotation) :
    Numeral (n.render .double x.value) := by
  unfold Double.isFinite at finite
  cases value : x.value with
  | nan | infinite =>
    rw [value] at finite
    cases finite
  | finite negative m q =>
    have magnitude : Magnitude
        (if m = 0 then (("0" : String) : Text) else n.layout (BinaryFormat.double.shortest m q)) := by
      split
      case isTrue => exact Magnitude.intro .zero .none .none
      case isFalse hm => exact (n.stands_layout (BinaryFormat.shortest_digits hm)).magnitude
    rw [NumberNotation.render]
    split
    · exact .negative magnitude
    · exact .unsigned magnitude

/-- **The text of a finite value is read as the value.** -/
theorem doubleOf_render {x : Double} {negative : Bool} {m : Nat} {q : Int} (value : x.value = .finite negative m q)
    (hm : m ≠ 0) (n : NumberNotation) : doubleOf (n.render .double x.value) = x := by
  have stands := n.stands_layout (BinaryFormat.shortest_digits (f := .double) (q := q) hm)
  have near : BinaryFormat.double.Near m q (decimalOf (n.layout (BinaryFormat.double.shortest m q))).value :=
    value_decimalOf stands ▸ BinaryFormat.shortest_near hm
  rw [value, NumberNotation.render, if_neg hm]
  cases negative with
  | true => exact (doubleOf_negative _).trans (Double.ofDecimal_of_near value hm near)
  | false => exact (doubleOf_unsigned (head?_ne_sign stands)).trans (Double.ofDecimal_of_near value hm near)

/-- A finite value that was written comes back as itself, or as an integer if it was written like one. -/
theorem ofLiteral_render {x : Double} (finite : x.isFinite = true) (n : NumberNotation) :
    (∃ k, ofLiteral (n.render .double x.value) = .int k) ∨ ofLiteral (n.render .double x.value) = .float x := by
  rw [ofLiteral]
  cases whole : int64? (n.render .double x.value) with
  | some k => exact .inl ⟨k, rfl⟩
  | none =>
    have finite' := finite
    unfold Double.isFinite at finite'
    cases value : x.value with
    | nan | infinite =>
      rw [value] at finite'
      cases finite'
    | finite negative m q =>
      have hm : m ≠ 0 := by
        rintro rfl
        have zeros : int64? [0x30] = some 0 ∧ int64? [0x2D, 0x30] = some 0 := by decide +kernel
        rw [value, NumberNotation.render, if_pos rfl] at whole
        cases negative with
        | true => cases zeros.2.symm.trans whole
        | false => cases zeros.1.symm.trans whole
      have same := doubleOf_render value hm n
      rw [value] at same
      simp only [same, finite, ↓reduceIte]
      exact .inr trivial

theorem int64?_ofInt {n : Int} (least : -0x8000000000000000 ≤ n) (most : n < 0x8000000000000000) :
    int64? (Text.ofInt n) = some n := by
  rw [int64?, toInt?_ofInt]
  simp only [least, most, and_self, ↓reduceIte]

theorem ofLiteral_ofInt {n : Int} (least : -0x8000000000000000 ≤ n) (most : n < 0x8000000000000000) :
    ofLiteral (Text.ofInt n) = .int n := by
  rw [ofLiteral, int64?_ofInt least most]

theorem isFinite_doubleOf_ofNat {n : Nat} (small : n < 0x10000000000000000) :
    (doubleOf (Text.ofNat n)).isFinite = true := by
  by_cases zero : n = 0
  · subst zero
    decide +kernel
  · obtain ⟨digits, value⟩ := digits_ofNat n
    have stands : Stands n (Text.ofNat n) := by
      have zeros := NumberNotation.stands_zeros digits (head?_ofNat zero) (e := 0) le_rfl
      rw [value] at zeros
      simpa [Text.replicate] using zeros
    have least : (2 : ℚ) ^ (-1075 : Int) ≤ n := by
      have one : (1 : ℚ) ≤ n := by exact_mod_cast Nat.one_le_iff_ne_zero.2 zero
      exact (zpow_le_one_of_nonpos₀ (by norm_num) (by norm_num)).trans one
    have most : (n : ℚ) < 2 ^ (1023 : Int) := by
      have bound : (n : ℚ) < 2 ^ (64 : Int) := by exact_mod_cast small
      exact bound.trans_le (zpow_le_zpow_right₀ (by norm_num) (by norm_num))
    have same := value_decimalOf stands
    rw [Decimal.value] at same
    rw [doubleOf_unsigned (head?_ne_sign stands)]
    exact Double.isFinite_ofDecimal false (same ▸ least) (same ▸ most)

/-- An unsigned number comes back as a number, if not as an integer. -/
theorem ofLiteral_ofNat {n : Nat} (small : n < 0x10000000000000000) :
    (∃ k, ofLiteral (Text.ofNat n) = .int k) ∨ ∃ x, ofLiteral (Text.ofNat n) = .float x := by
  rw [ofLiteral]
  cases int64? (Text.ofNat n) with
  | some k => exact .inl ⟨k, rfl⟩
  | none =>
    simp only [isFinite_doubleOf_ofNat small, ↓reduceIte]
    exact .inr ⟨_, rfl⟩

end Datum

end CilAudit
