import CilAudit.Cbor
import CilAudit.Proofs.DocumentText
import CilAudit.Proofs.ExactValues
import CilAudit.Proofs.LittleEndian

/-!
# Written items are read back

Data as JSON has them, unsigned numbers and floats of any value, written in the canonical encoding and read again
within the limits of the reader, come back up to what the encoding does not keep: a number without a sign is
unsigned, every NaN is the same, a literal is text, and an object is a map in the order of its encoded keys.
-/

set_option autoImplicit false

namespace CilAudit

def Double.IsNumber (x : Double) : Prop := x.value ≠ .nan

/-- What is read of a float that was written: every NaN is the same. -/
def Double.kept (x : Double) : Double := if x.value = .nan then Cbor.widen .half 0x7E00 else x

theorem Double.kept_of_isNumber {x : Double} (number : x.IsNumber) : x.kept = x := if_neg number

namespace Datum

/-- Data as JSON has them, and unsigned numbers: all text is UTF-8, integers have 64 bits, floats are of
a given sort, and literals are as the grammar has them. -/
inductive Plain (P : Double → Prop) : Datum → Prop
  | null : Plain P .null
  | bool (b : Bool) : Plain P (.bool b)
  | int {n : Int} (least : -0x8000000000000000 ≤ n) (most : n < 0x8000000000000000) : Plain P (.int n)
  | nat {n : Nat} (most : n < 0x10000000000000000) : Plain P (.nat n)
  | float {x : Double} (sort : P x) : Plain P (.float x)
  | literal {t : Text} (numeral : Json.Numeral t) : Plain P (.literal t)
  | text {t : Text} (utf8 : t.isUtf8 = true) : Plain P (.text t)
  | list {items : List Datum} (values : ∀ d ∈ items, Plain P d) : Plain P (.list items)
  | object {members : List (Text × Datum)} (keys : ∀ m ∈ members, m.1.isUtf8 = true)
      (values : ∀ m ∈ members, Plain P m.2) : Plain P (.object members)

mutual

/-- Do plain data keep within the limits of the reader, nested at most so deep? -/
def fits (depth : Nat) : Datum → Bool
  | .literal t | .text t => t.length < 0x10000000000000000
  | .list items =>
    match depth with
    | 0 => false
    | depth + 1 => items.length ≤ Cbor.maxItems && itemsFit depth items
  | .object members =>
    match depth with
    | 0 => false
    | depth + 1 => members.length ≤ Cbor.maxItems && membersFit depth members
  | _ => true

def itemsFit (depth : Nat) : List Datum → Bool
  | [] => true
  | d :: rest => d.fits depth && itemsFit depth rest

def membersFit (depth : Nat) : List (Text × Datum) → Bool
  | [] => true
  | (k, d) :: rest => k.length < 0x10000000000000000 && d.fits depth && membersFit depth rest

end

/-- The order of entries by their encoded keys. -/
def entryLe (a b : Datum × Datum) : Bool := Cbor.keyLe (Cbor.write a.1) (Cbor.write b.1)

mutual

/-- What is read of plain data that were written. -/
def reread : Datum → Datum
  | .int n => if n < 0 then .int n else .nat n.toNat
  | .float x => .float x.kept
  | .literal t => .text t
  | .list items => .list (rereadItems items)
  | .object members => .map ((rereadMembers members).mergeSort entryLe)
  | d => d

def rereadItems : List Datum → List Datum
  | [] => []
  | d :: rest => d.reread :: rereadItems rest

def rereadMembers : List (Text × Datum) → List (Datum × Datum)
  | [] => []
  | (k, d) :: rest => (.text k, d.reread) :: rereadMembers rest

end

theorem rereadItems_eq_map (items : List Datum) : rereadItems items = items.map reread := by
  induction items with
  | nil => rw [rereadItems, List.map_nil]
  | cons d rest ih => rw [rereadItems, List.map_cons, ih]

theorem rereadMembers_eq_map (members : List (Text × Datum)) :
    rereadMembers members = members.map fun m => (.text m.1, m.2.reread) := by
  induction members with
  | nil => rw [rereadMembers, List.map_nil]
  | cons m rest ih => rw [rereadMembers, List.map_cons, ih]

theorem itemsFit_iff {depth : Nat} {items : List Datum} :
    itemsFit depth items = true ↔ ∀ d ∈ items, d.fits depth = true := by
  induction items with
  | nil => simp [itemsFit]
  | cons d rest ih => simp [itemsFit, ih]

theorem membersFit_iff {depth : Nat} {members : List (Text × Datum)} :
    membersFit depth members = true ↔
      ∀ m ∈ members, m.1.length < 0x10000000000000000 ∧ m.2.fits depth = true := by
  induction members with
  | nil => simp [membersFit]
  | cons m rest ih => simp [membersFit, ih]

end Datum

namespace Cbor

open Datum

/-! ## Heads -/

theorem reverse_bigEndianBytes (width n : Nat) : (bigEndianBytes width n).reverse = bytesOf width n := by
  induction width generalizing n with
  | zero => rfl
  | succ width ih =>
    have shifted : ∀ i, n >>> (8 * (i + 1)) = (n / 256) >>> (8 * i) := by
      intro i
      rw [Nat.mul_succ, Nat.add_comm, Nat.shiftRight_add, Nat.shiftRight_eq_div_pow n 8]
    have low : ((n : Int) % 256).toNat = n % 256 := by omega
    have high : (n : Int) / 256 = (n / 256 : Nat) := by omega
    rw [bytesOf, low, high, ← ih (n / 256)]
    simp only [bigEndianBytes, List.map_reverse, List.reverse_reverse, List.range_succ_eq_map,
      List.map_cons, List.map_map]
    congr 1
    apply List.map_congr_left
    intro i _
    simp only [Function.comp, Nat.succ_eq_add_one, shifted]

theorem length_bigEndianBytes (width n : Nat) : (bigEndianBytes width n).length = width := by
  simp [bigEndianBytes]

theorem bigEndian_bigEndianBytes {width n : Nat} (small : n < capacity width) :
    bigEndian (bigEndianBytes width n) = n := by
  rw [bigEndian, reverse_bigEndianBytes]
  exact littleEndian_of_lt small

theorem cut?_append {n : Nat} {t : Text} (whole : t.length = n) (rest : Text) :
    cut? n (t ++ rest) = some (t, rest) := by
  subst whole
  simp [cut?]

section Heads

variable {major info : Nat}

theorem first_parts (hm : major < 8) (hi : info < 32) :
    (major * 32 + info).toUInt8.toNat / 32 = major ∧ (major * 32 + info).toUInt8.toNat % 32 = info := by
  have value : (major * 32 + info).toUInt8.toNat = major * 32 + info := by
    rw [Nat.toUInt8_eq, UInt8.toNat_ofNat']
    omega
  rw [value]
  omega

theorem head?_short (hm : major < 8) (hi : info < 24) (rest : Text) :
    head? ((major * 32 + info).toUInt8 :: rest) = some (⟨major, info, some info⟩, rest) := by
  obtain ⟨hmajor, hinfo⟩ := first_parts hm (show info < 32 by omega)
  simp only [head?, hmajor, hinfo, if_pos hi]

/-- The widths of the arguments that follow the first byte. -/
def widths : List (Nat × Nat) := [(24, 1), (25, 2), (26, 4), (27, 8)]

theorem head?_wide {width n : Nat} (hm : major < 8) (wide : (info, width) ∈ widths)
    (small : n < capacity width) (rest : Text) :
    head? ((major * 32 + info).toUInt8 :: (bigEndianBytes width n ++ rest)) =
      some (⟨major, info, some n⟩, rest) := by
  have argument := cut?_append (length_bigEndianBytes width n) rest
  have value := bigEndian_bigEndianBytes small
  simp only [widths, List.mem_cons, Prod.mk.injEq, List.not_mem_nil, or_false] at wide
  obtain ⟨hmajor, hinfo⟩ := first_parts hm (show info < 32 by omega)
  simp only [head?, hmajor, hinfo]
  rcases wide with ⟨rfl, rfl⟩ | ⟨rfl, rfl⟩ | ⟨rfl, rfl⟩ | ⟨rfl, rfl⟩ <;> simp [argument, value]

/-- The shortest head holds its argument. -/
theorem head?_writeHead {n : Nat} (hm : major < 8) (small : n < 0x10000000000000000) (rest : Text) :
    ∃ info, head? (writeHead major n ++ rest) = some (⟨major, info, some n⟩, rest) := by
  unfold writeHead
  simp only
  split
  case isTrue short => exact ⟨n, head?_short hm short rest⟩
  case isFalse =>
    split
    case isTrue one => exact ⟨24, head?_wide hm (by decide) one rest⟩
    case isFalse =>
      split
      case isTrue two => exact ⟨25, head?_wide hm (by decide) two rest⟩
      case isFalse =>
        split
        case isTrue four => exact ⟨26, head?_wide hm (by decide) four rest⟩
        case isFalse => exact ⟨27, head?_wide hm (by decide) small rest⟩

end Heads

/-! ## Items -/

/-- Do the bytes start an item that is read as this one, whatever follows it? -/
def Reads (depth : Nat) (bytes : Text) (d : Datum) : Prop :=
  ∀ rest, item? depth (bytes ++ rest) = some (d, rest)

/-- An item without tags is read by its head. -/
theorem item?_of_head {depth : Nat} {s rest : Text} {h : Head} (head : head? s = some (h, rest))
    (untagged : h.major ≠ 6) : item? depth s = untagged? depth h rest := by
  have bare : tags? (depth + 2) s = some ([], s) := by
    rw [tags?, head]
    split
    case h_1 same | h_2 same =>
      cases same
      exact absurd rfl untagged
    case h_3 => rfl
  rw [item?, bare]
  simp [head]

/-- An item of major type 7 is its head. -/
theorem reads_of_simple (depth : Nat) {bytes : Text} {info argument : Nat} {d : Datum}
    (head : ∀ rest, head? (bytes ++ rest) = some (⟨7, info, some argument⟩, rest))
    (meaning : simple? ⟨7, info, some argument⟩ = some d) : Reads depth bytes d := by
  intro rest
  rw [item?_of_head (head rest) (by simp), untagged?]
  simp only [meaning, Option.map_some]

theorem reads_null (depth : Nat) : Reads depth [0xF6] .null :=
  reads_of_simple depth (head?_short (show 7 < 8 by decide) (show 22 < 24 by decide)) rfl

theorem reads_bool (depth : Nat) (b : Bool) : Reads depth (if b then [0xF5] else [0xF4]) (.bool b) := by
  cases b with
  | false =>
    exact reads_of_simple depth (head?_short (show 7 < 8 by decide) (show 20 < 24 by decide)) rfl
  | true =>
    exact reads_of_simple depth (head?_short (show 7 < 8 by decide) (show 21 < 24 by decide)) rfl

theorem reads_nat (depth : Nat) {n : Nat} (most : n < 0x10000000000000000) :
    Reads depth (writeHead 0 n) (.nat n) := by
  intro rest
  obtain ⟨info, head⟩ := head?_writeHead (show 0 < 8 by decide) most rest
  rw [item?_of_head head (by simp), untagged?]
  rfl

theorem reads_int (depth : Nat) {n : Int} (least : -0x8000000000000000 ≤ n)
    (most : n < 0x8000000000000000) : Reads depth (writeInt n) (Datum.int n).reread := by
  intro rest
  rw [writeInt, reread]
  split
  case isTrue negative =>
    obtain ⟨info, head⟩ := head?_writeHead (show 1 < 8 by decide)
      (show (-1 - n).toNat < 0x10000000000000000 by omega) rest
    have value : (-1 - ((-1 - n).toNat : Int)) = n := by omega
    rw [item?_of_head head (by simp), untagged?]
    simp only [value]
    rw [if_pos (by omega)]
  case isFalse => exact reads_nat depth (by omega) rest

theorem ofBinary_lt (f : BinaryFormat) {b : Binary} (number : b ≠ .nan) :
    f.ofBinary b < 2 * f.signBit := by
  have infinity : f.infinityBits < f.signBit := by
    have unit : 0 < 1 <<< f.fraction := by simp [Nat.one_shiftLeft]
    rw [f.signBit_eq]
    exact BinaryFormat.parts_lt (Nat.lt_succ_self f.topExponent) unit
  cases b with
  | nan => exact absurd rfl number
  | infinite negative =>
    rw [BinaryFormat.ofBinary]
    split <;> omega
  | finite negative m q =>
    have bound : ∀ num den, f.roundRatio num den ≤ f.infinityBits := by
      intro num den
      rw [BinaryFormat.roundRatio]
      split
      · exact Nat.zero_le _
      · exact Nat.min_le_right _ _
    have := bound (m <<< q.toNat) (1 <<< (-q).toNat)
    rw [BinaryFormat.ofBinary]
    split <;> omega

theorem reads_float (depth : Nat) (x : Double) : Reads depth (writeFloat x) (.float x.kept) := by
  have wide : ∀ {y : Double} {info width n : Nat}, (info, width) ∈ widths → n < capacity width →
      simple? ⟨7, info, some n⟩ = some (.float y) →
      Reads depth ((7 * 32 + info).toUInt8 :: bigEndianBytes width n) (.float y) := by
    intro y info width n member small meaning
    exact reads_of_simple depth (head?_wide (by decide) member small) meaning
  rw [writeFloat]
  split
  case h_1 nan =>
    rw [Double.kept, if_pos nan]
    exact wide (show (25, 2) ∈ widths by decide) (show 0x7E00 < capacity 2 by decide) rfl
  case h_2 number =>
    rw [Double.kept_of_isNumber number]
    simp only [decide_eq_true_eq]
    split
    case isTrue kept =>
      exact wide (show (25, 2) ∈ widths by decide) (ofBinary_lt .half number)
        (congrArg (fun y => some (Datum.float y)) kept)
    case isFalse =>
      split
      case isTrue kept =>
        exact wide (show (26, 4) ∈ widths by decide) (ofBinary_lt .single number)
          (congrArg (fun y => some (Datum.float y)) kept)
      case isFalse =>
        have same : x.bits.toNat.toUInt64 = x.bits := UInt64.ofNat_toNat
        exact wide (show (27, 8) ∈ widths by decide) x.bits.toNat_lt
          (congrArg (fun y => some (Datum.float ⟨y⟩)) same)

theorem reads_text (depth : Nat) {t : Text} (utf8 : t.isUtf8 = true)
    (short : t.length < 0x10000000000000000) : Reads depth (writeText t) (.text t) := by
  intro rest
  obtain ⟨info, head⟩ := head?_writeHead (show 3 < 8 by decide) short (t ++ rest)
  rw [writeText, List.append_assoc, item?_of_head head (by simp), untagged?]
  simp [string?, cut?_append, textItem, utf8]

/-- Items are read one after another. -/
theorem items?_append {depth : Nat} {items : List Datum}
    (each : ∀ d ∈ items, Reads depth (write d) d.reread) (rest : Text) :
    items? depth items.length (writeItems items ++ rest) = some (items.map reread, rest) := by
  induction items with
  | nil => simp [items?, writeItems]
  | cons d items ih =>
    obtain ⟨first, others⟩ := List.forall_mem_cons.1 each
    rw [List.length_cons, items?, writeItems, List.append_assoc, first]
    simp [ih others]

/-- Entries are read one after another. -/
theorem entries?_append {depth : Nat} {members : List (Text × Datum)}
    (each : ∀ m ∈ members, Reads depth (writeText m.1) (.text m.1) ∧ Reads depth (write m.2) m.2.reread)
    (rest : Text) :
    entries? depth members.length
        (members.flatMap (fun m => writeText m.1 ++ write m.2) ++ rest) =
      some (members.map fun m => (.text m.1, m.2.reread), rest) := by
  induction members with
  | nil => simp [entries?]
  | cons m members ih =>
    obtain ⟨⟨key, value⟩, others⟩ := List.forall_mem_cons.1 each
    rw [List.length_cons, entries?, List.flatMap_cons, List.append_assoc, List.append_assoc, key]
    have next := value (members.flatMap (fun m => writeText m.1 ++ write m.2) ++ rest)
    simp [next, ih others]

/-- The members of an object in the order in which they are written. -/
def inKeyOrder {α : Type} (members : List (Text × α)) : List (Text × α) :=
  members.mergeSort fun a b => keyLe (writeText a.1) (writeText b.1)

theorem writeMembers_eq_map (members : List (Text × Datum)) :
    writeMembers members = members.map fun m => (writeText m.1, write m.2) := by
  induction members with
  | nil => rw [writeMembers, List.map_nil]
  | cons m rest ih => rw [writeMembers, List.map_cons, ih]

theorem write_object (members : List (Text × Datum)) :
    write (.object members) = writeHead 5 members.length ++
      (inKeyOrder members).flatMap fun m => writeText m.1 ++ write m.2 := by
  have sorted : (inKeyOrder members).map (fun m => (writeText m.1, write m.2)) =
      (writeMembers members).mergeSort fun a b => keyLe a.1 b.1 := by
    rw [writeMembers_eq_map, inKeyOrder, List.map_mergeSort]
    intro a _ b _
    rfl
  rw [write, writeMap, ← sorted, List.flatMap_map, writeMembers_eq_map, List.length_map]

theorem reread_object (members : List (Text × Datum)) :
    reread (.object members) = .map ((inKeyOrder members).map fun m => (.text m.1, m.2.reread)) := by
  rw [reread, rereadMembers_eq_map, inKeyOrder, List.map_mergeSort]
  intro a _ b _
  simp only [entryLe, write]

/-- Plain data within the limits are read as `reread` says. -/
theorem reads_write {P : Double → Prop} {d : Datum} (plain : d.Plain P) :
    ∀ {depth : Nat}, d.fits depth = true → Reads depth (write d) d.reread := by
  induction plain with
  | null => exact fun {depth} _ => reads_null depth
  | bool b => exact fun {depth} _ => reads_bool depth b
  | int least most =>
    intro depth _
    rw [write]
    exact reads_int depth least most
  | float sort =>
    intro depth _
    rw [write]
    exact reads_float depth _
  | nat most =>
    intro depth _
    rw [write]
    exact reads_nat depth most
  | literal numeral =>
    intro depth short
    rw [write]
    exact reads_text depth numeral.isUtf8 (by simpa [fits] using short)
  | text utf8 =>
    intro depth short
    rw [write]
    exact reads_text depth utf8 (by simpa [fits] using short)
  | @list items values ih =>
    intro depth limit rest
    cases depth with
    | zero => simp [fits] at limit
    | succ depth =>
      obtain ⟨count, within⟩ : items.length ≤ maxItems ∧ itemsFit depth items = true := by
        simpa [fits] using limit
      have each : ∀ d ∈ items, Reads depth (write d) d.reread := fun d mem =>
        ih d mem (itemsFit_iff.1 within d mem)
      have small : items.length < 0x10000000000000000 := Nat.lt_of_le_of_lt count (by decide)
      obtain ⟨info, head⟩ := head?_writeHead (show 4 < 8 by decide) small (writeItems items ++ rest)
      rw [write, List.append_assoc, item?_of_head head (by simp), untagged?, reread,
        rereadItems_eq_map]
      simp [Nat.not_lt.2 count, items?_append each]
  | @object members keys values ih =>
    intro depth limit rest
    cases depth with
    | zero => simp [fits] at limit
    | succ depth =>
      obtain ⟨count, within⟩ : members.length ≤ maxItems ∧ membersFit depth members = true := by
        simpa [fits] using limit
      have each : ∀ m ∈ inKeyOrder members,
          Reads depth (writeText m.1) (.text m.1) ∧ Reads depth (write m.2) m.2.reread := by
        intro m sorted
        have mem : m ∈ members := List.mem_mergeSort.1 sorted
        obtain ⟨short, fit⟩ := membersFit_iff.1 within m mem
        exact ⟨reads_text depth (keys m mem) short, ih m mem fit⟩
      have small : members.length < 0x10000000000000000 := Nat.lt_of_le_of_lt count (by decide)
      obtain ⟨info, head⟩ := head?_writeHead (show 5 < 8 by decide) small
        ((inKeyOrder members).flatMap (fun m => writeText m.1 ++ write m.2) ++ rest)
      have entries := entries?_append each rest
      rw [show (inKeyOrder members).length = members.length from List.length_mergeSort _] at entries
      rw [write_object, List.append_assoc, item?_of_head head (by simp), untagged?, reread_object]
      simp [Nat.not_lt.2 count, entries]

/-- A document of plain data within the limits is read. -/
theorem read?_write {P : Double → Prop} {d : Datum} (plain : d.Plain P) (limit : d.fits maxDepth = true) :
    read? (write d) = some d.reread := by
  have whole := reads_write plain limit []
  rw [List.append_nil] at whole
  rw [read?, whole]

end Cbor

end CilAudit
