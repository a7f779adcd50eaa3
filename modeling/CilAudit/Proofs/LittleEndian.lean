import CilAudit.Instruction.Encoding

/-!
# Numbers as bytes

The bytes of a number, least significant first and in two's complement, and why reading them
back gives the number. One writer serves signed and unsigned readings: they differ only in
which of the numbers with the same bytes is meant.
-/

set_option autoImplicit false

namespace CilAudit

/-- How many numbers can be told apart with so many bytes. -/
def capacity : Nat → Nat
  | 0 => 1
  | width + 1 => 256 * capacity width

/-- The lowest bytes of a number. -/
def bytesOf : Nat → Int → Text
  | 0, _ => []
  | width + 1, v => UInt8.ofNat (v % 256).toNat :: bytesOf width (v / 256)

/-- The numbers that bytes without a sign can hold. -/
def FitsUnsigned (width : Nat) (v : Int) : Prop := 0 ≤ v ∧ v < capacity width

/-- The numbers that bytes with a sign can hold. -/
def FitsSigned (width : Nat) (v : Int) : Prop := -capacity width ≤ 2 * v ∧ 2 * v < capacity width

instance (width : Nat) (v : Int) : Decidable (FitsUnsigned width v) := inferInstanceAs (Decidable (_ ∧ _))

instance (width : Nat) (v : Int) : Decidable (FitsSigned width v) := inferInstanceAs (Decidable (_ ∧ _))

theorem capacity_pos (width : Nat) : 0 < capacity width := by
  induction width with
  | zero => decide
  | succ width ih => exact Nat.mul_pos (by decide) ih

theorem capacity_eq_shiftLeft (width : Nat) : capacity width = 1 <<< (8 * width) := by
  induction width with
  | zero => rfl
  | succ width ih =>
    rw [capacity, ih, Nat.one_shiftLeft, Nat.one_shiftLeft, Nat.mul_succ, Nat.pow_add, Nat.mul_comm]

@[simp] theorem length_bytesOf (width : Nat) (v : Int) : (bytesOf width v).length = width := by
  induction width generalizing v with
  | zero => rfl
  | succ width ih => simp [bytesOf, ih]

theorem littleEndian_lt (bytes : Text) : littleEndian bytes < capacity bytes.length := by
  induction bytes with
  | nil => decide
  | cons b rest ih =>
    have byte := b.toNat_lt
    simp only [littleEndian, List.length_cons, capacity]
    omega

/-- The remainder by a product, digit by digit. -/
theorem emod_mul_capacity (v : Int) (width : Nat) :
    v % (capacity (width + 1) : Int) = v % 256 + 256 * (v / 256 % capacity width) := by
  have positive : (0 : Int) < capacity width := Int.natCast_pos.2 (capacity_pos width)
  have high := Int.emod_add_mul_ediv (v / 256) (capacity width)
  have least := Int.emod_nonneg (v / 256) (Int.ne_of_gt positive)
  have most := Int.emod_lt_of_pos (v / 256) positive
  have split : (capacity (width + 1) : Int) = 256 * capacity width := by simp [capacity]
  refine ((Int.ediv_emod_unique (q := v / 256 / capacity width) (by omega)).2 ⟨?_, by omega, by omega⟩).2
  rw [split, Int.mul_assoc]
  omega

theorem littleEndian_bytesOf (width : Nat) (v : Int) :
    (littleEndian (bytesOf width v) : Int) = v % capacity width := by
  induction width generalizing v with
  | zero => simp only [bytesOf, littleEndian, capacity, Int.natCast_one, Int.emod_one, Int.natCast_zero]
  | succ width ih =>
    have digit : ((UInt8.ofNat (v % 256).toNat).toNat : Int) = v % 256 := by
      rw [UInt8.toNat_ofNat']
      omega
    rw [emod_mul_capacity, ← ih (v / 256), ← digit]
    simp [bytesOf, littleEndian]

theorem bytesOf_littleEndian (bytes : Text) : bytesOf bytes.length (littleEndian bytes) = bytes := by
  induction bytes with
  | nil => rfl
  | cons b rest ih =>
    have byte := b.toNat_lt
    have low : ((littleEndian (b :: rest) : Int) % 256).toNat = b.toNat := by
      simp only [littleEndian]
      omega
    have high : (littleEndian (b :: rest) : Int) / 256 = littleEndian rest := by
      simp only [littleEndian]
      omega
    rw [List.length_cons, bytesOf, low, high, ih, UInt8.ofNat_toNat]

/-- The bytes say which number it is, up to the capacity. -/
theorem bytesOf_eq_of_emod_eq {bytes : Text} {v : Int}
    (same : v % capacity bytes.length = littleEndian bytes) : bytesOf bytes.length v = bytes := by
  have back := bytesOf_littleEndian (bytesOf bytes.length v)
  rw [length_bytesOf, littleEndian_bytesOf, same, bytesOf_littleEndian] at back
  exact back.symm

theorem littleEndianSigned_eq (bytes : Text) :
    littleEndianSigned bytes = Int.bmod (littleEndian bytes) (capacity bytes.length) := by
  rw [littleEndianSigned, capacity_eq_shiftLeft]

theorem bytesOf_littleEndianSigned (bytes : Text) :
    bytesOf bytes.length (littleEndianSigned bytes) = bytes := by
  apply bytesOf_eq_of_emod_eq
  rw [littleEndianSigned_eq, Int.bmod_emod]
  exact Int.emod_eq_of_lt (Int.natCast_nonneg _) (Int.ofNat_lt.2 (littleEndian_lt bytes))

theorem fitsUnsigned_littleEndian (bytes : Text) : FitsUnsigned bytes.length (littleEndian bytes) :=
  ⟨Int.natCast_nonneg _, Int.ofNat_lt.2 (littleEndian_lt bytes)⟩

theorem littleEndian_of_fits {width : Nat} {v : Int} (fits : FitsUnsigned width v) :
    (littleEndian (bytesOf width v) : Int) = v := by
  rw [littleEndian_bytesOf]
  exact Int.emod_eq_of_lt fits.1 fits.2

theorem littleEndian_of_lt {width n : Nat} (small : n < capacity width) : littleEndian (bytesOf width n) = n :=
  Int.ofNat_inj.1 (littleEndian_of_fits ⟨Int.natCast_nonneg _, Int.ofNat_lt.2 small⟩)

theorem toUInt32_littleEndian {bytes : Text} (four : bytes.length = 4) :
    (littleEndian bytes).toUInt32.toNat = littleEndian bytes :=
  Nat.mod_eq_of_lt (four ▸ littleEndian_lt bytes : littleEndian bytes < capacity 4)

theorem toUInt64_littleEndian {bytes : Text} (eight : bytes.length = 8) :
    (littleEndian bytes).toUInt64.toNat = littleEndian bytes :=
  Nat.mod_eq_of_lt (eight ▸ littleEndian_lt bytes : littleEndian bytes < capacity 8)

/-- A capacity splits evenly between the signs, but for that of no bytes. -/
theorem capacity_halves (width : Nat) : capacity width = 1 ∨ capacity width % 2 = 0 := by
  cases width with
  | zero => exact .inl rfl
  | succ width =>
    rw [capacity]
    omega

theorem fitsSigned_littleEndianSigned (bytes : Text) : FitsSigned bytes.length (littleEndianSigned bytes) := by
  have halves := capacity_halves bytes.length
  have least := Int.le_bmod (x := littleEndian bytes) (capacity_pos bytes.length)
  have most := Int.bmod_lt (x := littleEndian bytes) (capacity_pos bytes.length)
  rw [littleEndianSigned_eq, FitsSigned]
  omega

theorem littleEndianSigned_of_fits {width : Nat} {v : Int} (fits : FitsSigned width v) :
    littleEndianSigned (bytesOf width v) = v := by
  have halves := capacity_halves width
  obtain ⟨least, most⟩ := fits
  rw [littleEndianSigned_eq, length_bytesOf, littleEndian_bytesOf, Int.emod_bmod]
  exact Int.bmod_eq_of_le (by omega) (by omega)

/-! ## Groups of four -/

theorem words32_append {word rest : Text} (four : word.length = 4) :
    words32 (word ++ rest) = word :: words32 rest := by
  match word, four with
  | [a, b, c, d], _ => rfl

theorem words32_flatMap {α : Type} {write : α → Text} (four : ∀ a, (write a).length = 4) (l : List α) :
    words32 (l.flatMap write) = l.map write := by
  induction l with
  | nil => rfl
  | cons x l ih => rw [List.flatMap_cons, words32_append (four x), ih, List.map_cons]

/-- Whole groups of four are cut without a rest. -/
theorem words32_whole (count : Nat) {bytes : Text} (whole : bytes.length = 4 * count) :
    (words32 bytes).length = count ∧ (words32 bytes).flatten = bytes ∧ ∀ w ∈ words32 bytes, w.length = 4 := by
  induction count generalizing bytes with
  | zero =>
    obtain rfl : bytes = [] := List.length_eq_zero_iff.1 whole
    exact ⟨rfl, rfl, by simp [words32]⟩
  | succ count ih =>
    have four : (bytes.take 4).length = 4 := by
      rw [List.length_take]
      omega
    obtain ⟨length, flatten, members⟩ := @ih (bytes.drop 4) (by rw [List.length_drop]; omega)
    rw [← List.take_append_drop 4 bytes, words32_append four]
    refine ⟨by simp [length], by simp [flatten], fun w member => ?_⟩
    rcases List.mem_cons.1 member with rfl | later
    · exact four
    · exact members w later

end CilAudit
