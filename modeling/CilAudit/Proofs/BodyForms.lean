import CilAudit.Dump.Body
import CilAudit.Proofs.Encoding
import CilAudit.Proofs.ExactValues
import Mathlib.Data.List.Induction

/-!
# The two forms of a body

A dump gives a body as encoded bytes or as lines by mnemonic. What lines may be written for a body
is said operand by operand, with every spelling that is left open once a document is read: tokens
with leading zeros and letters of either case, numbers as signed, unsigned or floating ones. The
main statement is that whichever lines are written, they convert to exactly what the bytes are read
as.
-/

set_option autoImplicit false

namespace CilAudit

/-! ## Hexadecimal numerals -/

/-- The byte is the digit `d`, in either case. -/
def HexDigit (d : Nat) (b : UInt8) : Prop := d < 16 ∧ b ∈ Text.digit d :: Text.upperAscii [Text.digit d]

/-- The text is a numeral of `n`, perhaps with zeros in front. -/
inductive HexNumeral : Nat → Text → Prop where
  | one {d : Nat} {b : UInt8} (digit : HexDigit d b) : HexNumeral d [b]
  | more {n d : Nat} {t : Text} {b : UInt8} (front : HexNumeral n t) (digit : HexDigit d b) :
      HexNumeral (n * 16 + d) (t ++ [b])

theorem hexDigit_iff {d : Nat} {b : UInt8} : HexDigit d b ↔ Text.hexDigit? b = some d := by
  constructor
  · rintro ⟨small, member⟩
    have digits : ∀ d < 16, ∀ b ∈ Text.digit d :: Text.upperAscii [Text.digit d], Text.hexDigit? b = some d := by
      decide +kernel
    exact digits d small b member
  · intro read
    have bytes : ∀ n < 256, ∀ d ∈ Text.hexDigit? n.toUInt8,
        d < 16 ∧ n.toUInt8 ∈ Text.digit d :: Text.upperAscii [Text.digit d] := by decide +kernel
    have found := bytes b.toNat b.toNat_lt d
    rw [show b.toNat.toUInt8 = b by simp] at found
    exact found read

theorem toNatHex?_append {t : Text} (nonempty : t ≠ []) (b : UInt8) :
    Text.toNatHex? (t ++ [b]) = (Text.toNatHex? t).bind fun n => (Text.hexDigit? b).map (n * 16 + ·) := by
  simp [Text.toNatHex?, nonempty, List.foldl_append]

/-- The numerals are what can be read, each as its number. -/
theorem hexNumeral_iff {n : Nat} {t : Text} : HexNumeral n t ↔ Text.toNatHex? t = some n := by
  constructor
  · intro numeral
    induction numeral with
    | one digit => simp [Text.toNatHex?, hexDigit_iff.1 digit]
    | @more n d t b front digit ih =>
      have nonempty : t ≠ [] := by
        rintro rfl
        cases ih
      simp [toNatHex?_append nonempty, ih, hexDigit_iff.1 digit]
  · intro read
    induction t using List.reverseRecOn generalizing n with
    | nil => cases read
    | append_singleton t b ih =>
      by_cases nonempty : t = []
      · subst nonempty
        have digit : Text.hexDigit? b = some n := by simpa [Text.toNatHex?] using read
        exact .one (hexDigit_iff.2 digit)
      · rw [toNatHex?_append nonempty] at read
        obtain ⟨front, found, rest⟩ := Option.bind_eq_some_iff.1 read
        obtain ⟨d, digit, rfl⟩ := Option.map_eq_some_iff.1 rest
        exact .more (ih found) (hexDigit_iff.2 digit)

theorem hexDigit_digit {d : Nat} (small : d < 16) : HexDigit d (Text.digit d) := ⟨small, List.mem_cons_self⟩

theorem exists_hexNumeral (n : Nat) : ∃ t, HexNumeral n t := by
  induction n using Nat.strongRecOn with
  | ind n ih =>
    by_cases small : n < 16
    · exact ⟨_, .one (hexDigit_digit small)⟩
    · obtain ⟨t, front⟩ := ih (n / 16) (by omega)
      have whole := front.more (hexDigit_digit (Nat.mod_lt n (by decide)))
      rw [Nat.div_add_mod' n 16] at whole
      exact ⟨_, whole⟩

/-! ## Resolving tokens -/

/-- The token that an operand is, before anything is resolved. -/
def Operand.token? : Operand → Option UInt32
  | .int .uint32 n => some n.toNat.toUInt32
  | _ => Option.none

/-- The member that a table gives for a token, where an opcode takes one. -/
def TokenTable.member? (table : TokenTable) : OperandKind → UInt32 → Option Operand
  | .string, t => (table.string? t).map .text
  | .method, t => (table.method? t).map .method
  | .field, t => (table.field? t).map .field
  | .type, t => (table.type? t).map .text
  | _, _ => none

/-- An operand with its token resolved, if it is one and the table knows it. -/
def Operand.resolve (table : TokenTable) (kind : OperandKind) (x : Operand) : Operand :=
  (x.token?.bind (table.member? kind)).getD x

/-- An instruction with its operand resolved. -/
def RawInstruction.resolve (table : TokenTable) (r : RawInstruction) : RawInstruction :=
  match r.code.opcode? with
  | some o => { r with operand := r.operand.resolve table o.operand }
  | none => r

@[simp] theorem Operand.token?_token (t : UInt32) : (Operand.token t).token? = some t := by
  simp [Operand.token, Operand.token?]

theorem Operand.resolve_token (table : TokenTable) (kind : OperandKind) (t : UInt32) :
    (Operand.token t).resolve table kind = (table.member? kind t).getD (.token t) := by
  simp [Operand.resolve]

theorem RawInstruction.resolve_of_mem {table : TokenTable} {o : Opcode} (member : o ∈ Opcode.all) (start : Int)
    (x : Operand) : resolve table ⟨start, o.code, x⟩ = ⟨start, o.code, x.resolve table o.operand⟩ := by
  simp only [resolve, Code.opcode?_eq_some_iff.2 ⟨member, rfl⟩]

theorem RawInstruction.code_resolve (table : TokenTable) (r : RawInstruction) : (r.resolve table).code = r.code := by
  unfold resolve
  split <;> rfl

/-- What is no token stays. -/
theorem RawInstruction.float?_resolve {table : TokenTable} {r : RawInstruction} {x : Double}
    (float : r.operand.float? = some x) : (r.resolve table).operand.float? = some x := by
  have stays (kind : OperandKind) : r.operand.resolve table kind = r.operand := by
    cases operand : r.operand <;> simp_all [Operand.float?, Operand.resolve, Operand.token?]
  unfold resolve
  split
  · simpa only [stays] using float
  · exact float

/-- Reading an operand with a table is reading it without one and then resolving. -/
theorem readOperand_resolve (table : TokenTable) (next : Nat) (bytes : Text) (kind : OperandKind) :
    readOperand table next bytes kind = (readOperand {} next bytes kind).resolve table kind := by
  have bare (member : table.member? kind (readOperand.token bytes) = none) :
      Operand.token (readOperand.token bytes) = (Operand.token (readOperand.token bytes)).resolve table kind := by
    rw [Operand.resolve_token, member]
    rfl
  cases kind with
  | string | method | field | type =>
    rw [show readOperand {} next bytes _ = .token (readOperand.token bytes) from rfl, Operand.resolve_token]
    rfl
  | token | signature => exact bare rfl
  | _ => rfl

/-- **Reading with a table is reading without one and then resolving.** -/
theorem readFrom_resolve (table : TokenTable) (start : Nat) (code : Text) :
    readFrom table start code = (readFrom {} start code).map (·.map (·.resolve table)) := by
  match code with
  | [] => simp [readFrom, Except.map]
  | b :: bytes =>
    cases cut : cutInstruction b bytes with
    | error cause =>
      rw [readFrom_cons_of_refused table cut, readFrom_cons_of_refused {} cut]
      rfl
    | ok c =>
      -- Where the instruction is cut off does not depend on the table.
      have shorter := cutInstruction_length cut
      have member := (cutInstruction_eq_ok_iff.1 cut).1
      rw [readFrom_cons_of_cut table cut, readFrom_cons_of_cut {} cut, readFrom_resolve table _ c.rest,
        readOperand_resolve]
      cases readFrom {} (start + c.size) c.rest with
      | error e => rfl
      | ok rest => simp [Except.map, RawInstruction.resolve_of_mem member]
termination_by code.length

/-! ## What is written -/

/-- The datum is the integer `n`. -/
inductive IntegerForm : Int → Datum → Prop where
  | signed (n : Int) : IntegerForm n (.int n)
  | unsigned {n : Nat} (range : FitsSigned 8 n) : IntegerForm n (.nat n)
  | float {n : Int} {x : Double} (range : FitsSigned 8 n) (same : x.value.SameAs (.ofInt n)) :
      IntegerForm n (.float x)

/-- The datum is the number `b`. -/
inductive NumberForm (b : Binary) : Datum → Prop where
  | signed {n : Int} (same : (Binary.ofInt n).SameAs b) : NumberForm b (.int n)
  | unsigned {n : Nat} (same : (Binary.ofInt n).SameAs b) : NumberForm b (.nat n)
  | float {x : Double} (same : x.value.SameAs b) : NumberForm b (.float x)

/-- The datum is what a line gives for an operand that is not resolved: nothing for none, a number
for a number or an offset, a list of numbers for a table, and the text of a token. -/
inductive OperandForm : Operand → Datum → Prop where
  | none : OperandForm .none .null
  | int {type : IntType} {n : Int} {d : Datum} (number : type ≠ .uint32) (form : IntegerForm n d) :
      OperandForm (.int type n) d
  | float32 {x : Single} {d : Datum} (form : NumberForm x.value d) : OperandForm (.float32 x) d
  | float64 {x : Double} {d : Datum} (form : NumberForm x.value d) : OperandForm (.float64 x) d
  | offsets {targets : List Int} {items : List Datum} (forms : List.Forall₂ IntegerForm targets items) :
      OperandForm (.offsets targets) (.list items)
  | token {t : UInt32} {digits : Text} (numeral : HexNumeral t.toNat digits) :
      OperandForm (.token t) (.text ("0x" ++ digits))

theorem NumberForm.of_same {b b' : Binary} {d : Datum} (form : NumberForm b d) (same : b.SameAs b') :
    NumberForm b' d := by
  cases form with
  | signed first => exact .signed (first.trans same)
  | unsigned first => exact .unsigned (first.trans same)
  | float first => exact .float (first.trans same)

theorem NumberForm.ne_nan {b : Binary} {d : Datum} (form : NumberForm b d) : b ≠ .nan := by
  cases form with
  | signed same | unsigned same | float same => exact same.ne_nan

theorem OperandForm.exists_digits {t : UInt32} {d : Datum} (form : OperandForm (.token t) d) :
    ∃ digits, HexNumeral t.toNat digits ∧ d = .text ("0x" ++ digits) := by
  generalize token : Operand.token t = x at form
  cases form with
  | int number =>
    obtain ⟨rfl, -⟩ := Operand.int.inj token
    exact absurd rfl number
  | @token t' digits numeral =>
    obtain rfl : t = t' := UInt32.toNat_inj.1 (Int.ofNat_inj.1 (Operand.int.inj token).2)
    exact ⟨digits, numeral, rfl⟩
  | _ => cases token

/-- Four unsigned bytes are a token. -/
theorem exists_token {next : Int} {x : Operand} (fits : (Shape.number .uint32 false 4).Fits next x) :
    ∃ t, x = .token t := by
  cases fits with
  | @unsigned _ _ v range =>
    obtain ⟨n, rfl⟩ := Int.eq_ofNat_of_zero_le range.1
    have small : n < 0x100000000 := Int.ofNat_lt.1 range.2
    refine ⟨n.toUInt32, ?_⟩
    rw [Operand.token, UInt32.toNat_ofNat_of_lt' small]

theorem Written.size_pos (w : Written) : 0 < w.size := by
  obtain ⟨b, rest, bytes⟩ := w.opcode.code.bytes_eq_cons
  simp [Written.size, bytes]

/-- The line is the instruction, at its offset and by its mnemonic. -/
structure LineForm (r : RawInstruction) (l : Dump.Line) : Prop where
  offset : l.offset = r.offset
  op : l.op = r.code.mnemonic
  operand : OperandForm r.operand l.operand

namespace Dump

theorem token?_of_numeral {t : UInt32} {digits : Text} (numeral : HexNumeral t.toNat digits) :
    token? ("0x" ++ digits) = some t := by
  have small : t.toNat < 0x100000000 := t.toNat_lt
  rw [show (("0x" : Text) ++ digits) = 0x30 :: 0x78 :: digits from rfl]
  simp [token?, hexNumeral_iff.1 numeral, small]

theorem integer_of_form {n : Int} {d : Datum} (form : IntegerForm n d) : integer d = .ok n := by
  cases form with
  | signed => rfl
  | @unsigned n range =>
    have small : 2 * (n : Int) < 0x10000000000000000 := range.2
    exact congrArg Except.ok (Int.bmod_eq_of_le (by omega) (by omega))
  | @float n x range same =>
    have bounds : -0x10000000000000000 ≤ 2 * n ∧ 2 * n < 0x10000000000000000 := range
    rw [integer, x.toInt64?_of_same same (by omega) (by omega)]
    rfl

theorem target_of_form {n : Int} {d : Datum} (form : IntegerForm n d) : target d = .ok n := by
  have read := integer_of_form form
  -- Only a text is taken for a label.
  cases form with
  | signed | unsigned | float => exact read

theorem targets_of_forms {targets : List Int} {items : List Datum} (forms : List.Forall₂ IntegerForm targets items) :
    items.mapM target = .ok targets := by
  induction forms with
  | nil => rfl
  | cons first _ ih => simp [List.mapM_cons, target_of_form first, ih, bind, Except.bind, pure, Except.pure]

theorem number_of_form {x : Double} {d : Datum} (form : NumberForm x.value d) : number d = .ok x := by
  cases form with
  | signed same => rw [number, Double.ofInt_of_same same]
  | unsigned same => rw [number, Double.ofInt_of_same same]
  | float same => rw [number, Double.eq_of_same same]

/-- A number of 32 bits goes through 64 bits unchanged. -/
theorem single_of_form {x : Single} {d : Datum} (form : NumberForm x.value d) :
    number d = .ok x.toDouble ∧ x.toDouble.toSingle = x := by
  have same := x.value_toDouble form.ne_nan
  exact ⟨number_of_form (form.of_same same.symm), Double.toSingle_of_same same⟩

/-- Every mnemonic names its opcode alone. -/
theorem ofMnemonic?_name : ∀ o ∈ Opcode.all, Code.ofMnemonic? o.name = some o.code := by decide +kernel

theorem mnemonic_of_mem {o : Opcode} (member : o ∈ Opcode.all) : o.code.mnemonic = Text.ofString o.name := by
  rw [Code.mnemonic, Code.opcode?_eq_some_iff.2 ⟨member, rfl⟩]

theorem opcode?_of_mnemonic {o : Opcode} (member : o ∈ Opcode.all) :
    (Code.ofMnemonic? o.code.mnemonic).bind Code.opcode? = some o := by
  rw [mnemonic_of_mem member, ofMnemonic?_name o member]
  exact Code.opcode?_eq_some_iff.2 ⟨member, rfl⟩

/-- No opcode but `ldstr` takes a string, and none but `ldtoken` a token of any kind. -/
theorem name_of_kind : ∀ o ∈ Opcode.all,
    (o.operand = .string → o.name = "ldstr") ∧ (o.operand = .token → o.name = "ldtoken") := by
  decide +kernel

variable {table : TokenTable}

theorem withToken_of_numeral {t : UInt32} {digits : Text} (numeral : HexNumeral t.toNat digits)
    (f : UInt32 → Operand) : convert.withToken (.text ("0x" ++ digits)) f = .ok (f t) := by
  simp [convert.withToken, token?_of_numeral numeral]

/-- A narrow integer is kept when the upper bits are cut off. -/
theorem int32_of_form {width : Nat} {n : Int} {d : Datum} (narrow : capacity width ≤ capacity 4)
    (range : FitsSigned width n) (form : IntegerForm n d) :
    (integer d).map (fun n => Operand.int .int32 (Int.bmod n 0x100000000)) = .ok (.int .int32 n) := by
  have four : (capacity 4 : Int) = 0x100000000 := rfl
  obtain ⟨least, most⟩ := range
  rw [integer_of_form form, Except.map, Int.bmod_eq_of_le (by omega) (by omega)]

/-- **Operands convert as they are read.** The kind left out is the one whose tokens stand for any
member: its types are resolved in lines and in no bytes. A string that is not resolved is left out
too: the line keeps its text, the bytes keep its number. -/
theorem convert_of_form {kind : OperandKind} {next : Int} {x : Operand} {d : Datum}
    (fits : kind.shape.Fits next x) (form : OperandForm x d) (alike : kind ≠ .token)
    (resolved : kind = .string → ∃ t, x.resolve table kind = .text t) :
    convert table d kind = .ok (x.resolve table kind) := by
  cases kind with
  | none =>
    cases fits
    cases form
    rfl
  | shortVar | var | int64 =>
    cases fits
    cases form with
    | int number form =>
      rw [convert, integer_of_form form]
      rfl
  | shortInt | int32 =>
    cases fits with
    | signed range =>
      cases form with
      | int number form => exact int32_of_form (by decide) range form
  | float32 =>
    cases fits
    cases form with
    | float32 form =>
      obtain ⟨number, single⟩ := single_of_form form
      rw [convert, number, Except.map, single]
      rfl
  | float64 =>
    cases fits
    cases form with
    | float64 form =>
      rw [convert, number_of_form form]
      rfl
  | shortTarget | target =>
    cases fits
    cases form with
    | int number form =>
      rw [convert, target_of_form form]
      rfl
  | targetTable =>
    cases fits
    cases form with
    | offsets forms =>
      rw [convert, targets_of_forms forms]
      rfl
  | token => exact absurd rfl alike
  -- From here on the line names the token that stands in the bytes, and the table is asked the same.
  | string =>
    obtain ⟨t, rfl⟩ := exists_token fits
    obtain ⟨digits, numeral, rfl⟩ := form.exists_digits
    obtain ⟨text, known⟩ := resolved rfl
    rw [Operand.resolve_token] at known ⊢
    rw [convert, token?_of_numeral numeral]
    cases found : table.string? t with
    | none => simp [TokenTable.member?, found, Operand.token] at known
    | some s => simp [TokenTable.member?, found]
  | method | field | signature =>
    obtain ⟨t, rfl⟩ := exists_token fits
    obtain ⟨digits, numeral, rfl⟩ := form.exists_digits
    rw [convert, withToken_of_numeral numeral, Operand.resolve_token]
    rfl
  | type =>
    obtain ⟨t, rfl⟩ := exists_token fits
    obtain ⟨digits, numeral, rfl⟩ := form.exists_digits
    rw [convert, token?_of_numeral numeral, Operand.resolve_token]
    rfl

/-! ## Lines and bodies -/

/-- The instruction is read as its line converts: it is no `ldtoken`, and its string is known. -/
def Agrees (table : TokenTable) (r : RawInstruction) : Prop :=
  r.code.mnemonic ≠ "ldtoken" ∧ (r.code.mnemonic = "ldstr" → ∃ t, (r.resolve table).operand = .text t)

theorem convertLine_of_form {w : Written} {start : Nat} {l : Line} (fits : w.Fits start)
    (form : LineForm (w.placed start) l) (agrees : Agrees table (w.placed start)) :
    convertLine table l = .ok ((w.placed start).resolve table) := by
  obtain ⟨member, operand⟩ := fits
  obtain ⟨string, token⟩ := name_of_kind w.opcode member
  have name : (w.placed start).code.mnemonic = Text.ofString w.opcode.name := mnemonic_of_mem member
  have resolve : (w.placed start).resolve table =
      ⟨start, w.opcode.code, w.operand.resolve table w.opcode.operand⟩ :=
    RawInstruction.resolve_of_mem member start w.operand
  have converted : convert table l.operand w.opcode.operand = .ok (w.operand.resolve table w.opcode.operand) :=
    convert_of_form operand form.operand (fun kind => agrees.1 (by rw [name, token kind])) fun kind => by
      simpa [resolve] using agrees.2 (by rw [name, string kind])
  have found : (Code.ofMnemonic? l.op).bind Code.opcode? = some w.opcode := by
    rw [form.op]
    exact opcode?_of_mnemonic member
  simp only [convertLine, found, converted, resolve, form.offset]
  rfl

/-- One line of a body. -/
theorem convertLines_cons {previous : Option Int} {l : Line} {rest : List Line} {r : RawInstruction}
    {later : List RawInstruction} (after : ∀ p ∈ previous, p < l.offset) (least : 0 ≤ l.offset)
    (first : convertLine table l = .ok r) (others : convertLines table (some l.offset) rest = .ok later) :
    convertLines table previous (l :: rest) = .ok (r :: later) := by
  have notNegative : ¬ l.offset < 0 := Int.not_lt.2 least
  cases previous with
  | none => simp [convertLines, notNegative, first, others, bind, Except.bind, pure, Except.pure]
  | some p =>
    have ascends : ¬ l.offset ≤ p := Int.not_le.2 (after p rfl)
    simp [convertLines, ascends, notNegative, first, others, bind, Except.bind, pure, Except.pure]

/-- **Bodies convert as they are read.** -/
theorem convertLines_of_forms {body : List Written} {start : Nat} {lines : List Line} {previous : Option Int}
    (fits : FitsFrom start body) (after : ∀ p ∈ previous, p < start)
    (forms : List.Forall₂ LineForm (placedFrom start body) lines)
    (agree : ∀ r ∈ placedFrom start body, Agrees table r) :
    convertLines table previous lines = .ok ((placedFrom start body).map (·.resolve table)) := by
  induction body generalizing start lines previous with
  | nil =>
    cases forms
    rfl
  | cons w rest ih =>
    rw [placedFrom] at forms agree
    obtain ⟨here, later⟩ := fits
    obtain _ | ⟨first, others⟩ := forms
    have offset : _ = (start : Int) := first.offset
    -- No instruction is empty, so the next line stands behind this one.
    have size := w.size_pos
    refine convertLines_cons (by rwa [offset]) (by omega) (convertLine_of_form here first (agree _ List.mem_cons_self))
      (ih later ?_ others fun r member => agree r (List.mem_cons_of_mem _ member))
    rintro p ⟨⟩
    omega

/-! ## Every body has lines -/

theorem exists_operandForm {kind : OperandKind} {next : Int} {x : Operand} (fits : kind.shape.Fits next x)
    (numbers : ∀ y, x.float? = some y → y.value ≠ .nan) : ∃ d, OperandForm x d := by
  cases kind with
  | none =>
    cases fits
    exact ⟨_, .none⟩
  | shortVar | var | shortInt | int32 | int64 | shortTarget | target =>
    cases fits
    exact ⟨_, .int (by decide) (.signed _)⟩
  | float32 =>
    cases fits with
    | float32 x => exact ⟨_, .float32 (.float (x.value_toDouble (x.value_ne_nan (numbers _ rfl))))⟩
  | float64 =>
    cases fits with
    | float64 x => exact ⟨_, .float64 (.float (.self (numbers _ rfl)))⟩
  | targetTable =>
    cases fits with
    | @table targets =>
      refine ⟨.list (targets.map .int), .offsets ?_⟩
      exact List.forall₂_map_right_iff.2 (List.forall₂_same.2 fun n _ => .signed n)
  | string | method | field | type | token | signature =>
    obtain ⟨t, rfl⟩ := exists_token fits
    obtain ⟨digits, numeral⟩ := exists_hexNumeral t.toNat
    exact ⟨_, .token numeral⟩

theorem exists_lines {body : List Written} {start : Nat} (fits : FitsFrom start body)
    (numbers : ∀ r ∈ placedFrom start body, ∀ x, r.operand.float? = some x → x.value ≠ .nan) :
    ∃ lines, List.Forall₂ LineForm (placedFrom start body) lines := by
  induction body generalizing start with
  | nil => exact ⟨[], .nil⟩
  | cons w rest ih =>
    rw [placedFrom] at numbers
    obtain ⟨d, form⟩ := exists_operandForm fits.1.2 (numbers _ List.mem_cons_self)
    obtain ⟨lines, forms⟩ := ih fits.2 fun r member => numbers r (List.mem_cons_of_mem _ member)
    exact ⟨⟨start, w.opcode.code.mnemonic, d⟩ :: lines, .cons ⟨rfl, rfl, form⟩ forms⟩

/-- **The two forms of a body agree.** Where every string is known, no `ldtoken` occurs and every
number is one, an encoded body can be written as lines, and however that is done, they convert to
the instructions that the bytes are read as. -/
theorem mnemonicBody_eq_read {table : TokenTable} {code : Text} {raw : List RawInstruction}
    (readable : CilAudit.read table code = .ok raw)
    (strings : ∀ r ∈ raw, r.code.mnemonic = "ldstr" → ∃ t, r.operand = .text t)
    (tokens : ∀ r ∈ raw, r.code.mnemonic ≠ "ldtoken")
    (numbers : ∀ r ∈ raw, ∀ x, r.operand.float? = some x → x.value ≠ .nan) :
    ∃ bare, CilAudit.read {} code = .ok bare ∧ (∃ lines, List.Forall₂ LineForm bare lines) ∧
      ∀ lines, List.Forall₂ LineForm bare lines → mnemonicBody table lines = .ok raw := by
  rw [CilAudit.read, readFrom_resolve] at readable
  cases plain : readFrom {} 0 code with
  | error e => simp [plain, Except.map] at readable
  | ok bare =>
    obtain rfl : bare.map (·.resolve table) = raw := by simpa [plain, Except.map] using readable
    simp only [List.forall_mem_map, RawInstruction.code_resolve] at strings tokens numbers
    obtain ⟨body, fits, -, rfl⟩ := exists_of_readFrom plain
    refine ⟨_, plain, ?_, fun lines forms => ?_⟩
    · exact exists_lines fits fun r member x float => numbers r member x (RawInstruction.float?_resolve float)
    · exact convertLines_of_forms fits (by simp) forms fun r member => ⟨tokens r member, strings r member⟩

/-- A table that knows a string and a type. -/
def known : TokenTable where
  strings := [(0x70000001, "ready")]
  types := [(0x01000003, "System.Text")]

/-- A negative constant, a table of targets, a number in each width, tokens that are resolved and
one that is not, and a branch back. -/
def errand : List Written :=
  [⟨⟨⟨0x1F⟩, "ldc.i4.s", .shortInt, some 0, some 1, .next, .loadInt32 none⟩, .int .int32 (-3)⟩,
   ⟨⟨⟨0x45⟩, "switch", .targetTable, some 1, some 0, .conditional, .switch⟩, .offsets [0, 29]⟩,
   ⟨⟨⟨0x22⟩, "ldc.r4", .float32, some 0, some 1, .next, .loadFloat32⟩, .float32 ⟨0x3F000000⟩⟩,
   ⟨⟨⟨0x23⟩, "ldc.r8", .float64, some 0, some 1, .next, .loadFloat64⟩, .float64 ⟨0x4008000000000000⟩⟩,
   ⟨⟨⟨0x72⟩, "ldstr", .string, some 0, some 1, .next, .loadString⟩, .token 0x70000001⟩,
   ⟨⟨⟨0x74⟩, "castclass", .type, some 1, some 1, .next, .other⟩, .token 0x01000003⟩,
   ⟨⟨⟨0x28⟩, "call", .method, none, none, .call, .call false⟩, .token 0x0A000002⟩,
   ⟨⟨⟨0x2B⟩, "br.s", .shortTarget, some 0, some 0, .branch, .branch false⟩, .int .int 0⟩]

def errandBytes : Text :=
  [0x1F, 0xFD, 0x45, 2, 0, 0, 0, 0xF1, 0xFF, 0xFF, 0xFF, 14, 0, 0, 0, 0x22, 0, 0, 0, 0x3F,
   0x23, 0, 0, 0, 0, 0, 0, 0x08, 0x40, 0x72, 1, 0, 0, 0x70, 0x74, 3, 0, 0, 1, 0x28, 2, 0, 0, 0x0A, 0x2B, 0xD2]

def errandLines : List Line :=
  [⟨0, "ldc.i4.s", .int (-3)⟩, ⟨2, "switch", .list [.nat 0, .int 29]⟩,
   ⟨15, "ldc.r4", .float ⟨0x3FE0000000000000⟩⟩, ⟨20, "ldc.r8", .int 3⟩, ⟨29, "ldstr", .text "0x70000001"⟩,
   ⟨34, "castclass", .text "0x1000003"⟩, ⟨39, "call", .text "0x0a000002"⟩, ⟨44, "br.s", .nat 0⟩]

def errandBody : List RawInstruction :=
  [⟨0, ⟨0x1F⟩, .int .int32 (-3)⟩, ⟨2, ⟨0x45⟩, .offsets [0, 29]⟩, ⟨15, ⟨0x22⟩, .float32 ⟨0x3F000000⟩⟩,
   ⟨20, ⟨0x23⟩, .float64 ⟨0x4008000000000000⟩⟩, ⟨29, ⟨0x72⟩, .text "ready"⟩,
   ⟨34, ⟨0x74⟩, .text "System.Text"⟩, ⟨39, ⟨0x28⟩, .token 0x0A000002⟩, ⟨44, ⟨0x2B⟩, .int .int 0⟩]

theorem read_errand : CilAudit.read {} errandBytes = .ok (placedFrom 0 errand) := by
  have fits : FitsFrom 0 errand := by
    refine ⟨⟨?_, .signed ?_⟩, ⟨?_, .table ?_ ?_⟩, ⟨?_, .float32 _⟩, ⟨?_, .float64 _⟩, ⟨?_, .unsigned ?_⟩,
      ⟨?_, .unsigned ?_⟩, ⟨?_, .unsigned ?_⟩, ⟨?_, .distance ?_⟩, trivial⟩
    all_goals decide +kernel
  have bytes : encodeFrom 0 errand = errandBytes := by decide +kernel
  exact bytes ▸ readFrom_encodeFrom fits

theorem errand_forms : List.Forall₂ LineForm (placedFrom 0 errand) errandLines := by
  have half : (⟨0x3FE0000000000000⟩ : Double).value.SameAs (⟨0x3F000000⟩ : Single).value := by
    rw [show (⟨0x3FE0000000000000⟩ : Double).value = .finite false 0x10000000000000 (-53) by decide,
      show (⟨0x3F000000⟩ : Single).value = .finite false 0x800000 (-24) by decide]
    exact ⟨rfl, by norm_num⟩
  have three : (Binary.ofInt 3).SameAs (⟨0x4008000000000000⟩ : Double).value := by
    rw [show (⟨0x4008000000000000⟩ : Double).value = .finite false 0x18000000000000 (-51) by decide]
    exact ⟨rfl, by norm_num [Binary.ofInt]⟩
  have zero : IntegerForm 0 (.nat 0) := .unsigned (by decide)
  have string : HexNumeral 0x70000001 "70000001" := hexNumeral_iff.2 (by decide)
  have type : HexNumeral 0x1000003 "1000003" := hexNumeral_iff.2 (by decide)
  have method : HexNumeral 0x0A000002 "0a000002" := hexNumeral_iff.2 (by decide)
  exact .cons ⟨rfl, by decide, .int (by decide) (.signed _)⟩ <|
    .cons ⟨rfl, by decide, .offsets (.cons zero (.cons (.signed _) .nil))⟩ <|
    .cons ⟨rfl, by decide, .float32 (.float half)⟩ <|
    .cons ⟨rfl, by decide, .float64 (.signed three)⟩ <|
    .cons ⟨rfl, by decide, .token string⟩ <|
    .cons ⟨rfl, by decide, .token type⟩ <|
    .cons ⟨rfl, by decide, .token method⟩ <|
    .cons ⟨rfl, by decide, .int (by decide) zero⟩ .nil

theorem mnemonicBody_eq_read_errand :
    CilAudit.read known errandBytes = .ok errandBody ∧ mnemonicBody known errandLines = .ok errandBody := by
  have resolved : (placedFrom 0 errand).map (·.resolve known) = errandBody := by decide +kernel
  have readable : CilAudit.read known errandBytes = .ok errandBody := by
    rw [CilAudit.read, readFrom_resolve, ← CilAudit.read, read_errand, Except.map, resolved]
  have string : ∀ r ∈ errandBody, r.code.mnemonic = "ldstr" → r.operand = .text "ready" := by decide +kernel
  have tokens : ∀ r ∈ errandBody, r.code.mnemonic ≠ "ldtoken" := by decide +kernel
  have numbers : ∀ r ∈ errandBody, ∀ x ∈ r.operand.float?, x.value ≠ .nan := by decide +kernel
  obtain ⟨bare, plain, -, agree⟩ :=
    mnemonicBody_eq_read readable (fun r member name => ⟨_, string r member name⟩) tokens numbers
  obtain rfl : placedFrom 0 errand = bare := Except.ok.inj (read_errand.symm.trans plain)
  exact ⟨readable, agree _ errand_forms⟩

end Dump

end CilAudit
