import CilAudit.Proofs.DumpConversion
import CilAudit.Proofs.EventOrder
import CilAudit.Proofs.OffsetLookup

/-!
# The offsets of loaded bodies

Bytes are read one instruction after the other, and lines must ascend to be accepted. So in a body
of a loaded module each instruction stands at an offset of its own, behind those before it, and
decoding leaves it there.
-/

set_option autoImplicit false

namespace CilAudit

/-- The instructions stand at offsets that ascend from zero or more. -/
structure RawInstruction.InOrder (raw : List RawInstruction) : Prop where
  nonneg : ∀ r ∈ raw, 0 ≤ r.offset
  ascend : raw.Pairwise fun r s => r.offset < s.offset

/-! ## Encoded bodies -/

/-- What is read lies from the start on, each instruction behind the one before. -/
theorem ascend_of_readFrom (table : TokenTable) {code : Text} {start : Nat} {raw : List RawInstruction}
    (read : readFrom table start code = .ok raw) :
    (∀ r ∈ raw, (start : Int) ≤ r.offset) ∧ raw.Pairwise fun r s => r.offset < s.offset := by
  match code with
  | [] =>
    obtain rfl : [] = raw := by simpa [readFrom] using read
    exact ⟨by simp, .nil⟩
  | b :: bytes =>
    cases cut : cutInstruction b bytes with
    | error cause =>
      rw [readFrom_cons_of_refused table cut] at read
      cases read
    | ok c =>
      have shorter := cutInstruction_length cut
      rw [readFrom_cons_of_cut table cut] at read
      cases rest : readFrom table (start + c.size) c.rest with
      | error e => simp [rest, Except.map] at read
      | ok later =>
        obtain rfl : _ :: later = raw := by simpa [rest, Except.map] using read
        obtain ⟨behind, ascend⟩ := ascend_of_readFrom table rest
        have beyond : ∀ r ∈ later, (start : Int) < r.offset := by
          intro r member
          have size := c.size_pos
          have := behind r member
          omega
        refine ⟨List.forall_mem_cons.2 ⟨Int.le_refl _, fun r member => Int.le_of_lt (beyond r member)⟩, ?_⟩
        exact .cons beyond ascend
termination_by code.length

theorem inOrder_of_read {table : TokenTable} {code : Text} {raw : List RawInstruction}
    (read : read table code = .ok raw) : RawInstruction.InOrder raw := by
  obtain ⟨nonneg, ascend⟩ := ascend_of_readFrom table read
  exact ⟨by simpa using nonneg, ascend⟩

/-! ## Bodies by mnemonic -/

namespace Dump

theorem offset_of_convertLine {table : TokenTable} {l : Line} {r : RawInstruction}
    (converted : convertLine table l = .ok r) : r.offset = l.offset := by
  unfold convertLine at converted
  split at converted
  case h_1 => cases converted
  case h_2 =>
    split at converted
    case h_1 =>
      cases converted
      rfl
    case h_2 => cases converted

theorem ascend_of_convertLines {table : TokenTable} {lines : List Line} {previous : Option Int}
    {raw : List RawInstruction} (converted : convertLines table previous lines = .ok raw) :
    (∀ r ∈ raw, 0 ≤ r.offset ∧ ∀ p ∈ previous, p < r.offset) ∧ raw.Pairwise fun r s => r.offset < s.offset := by
  induction lines generalizing previous raw with
  | nil =>
    obtain rfl : [] = raw := by simpa [convertLines] using converted
    exact ⟨by simp, .nil⟩
  | cons l rest ih =>
    obtain ⟨after, least, r, later, here, next, rfl⟩ := convertLines_cons_ok converted
    obtain ⟨behind, ascend⟩ := ih next
    have offset := offset_of_convertLine here
    have beyond : ∀ s ∈ later, r.offset < s.offset := fun s member => offset ▸ (behind s member).2 l.offset rfl
    refine ⟨List.forall_mem_cons.2 ⟨⟨offset ▸ least, offset ▸ after⟩, fun s member => ?_⟩, .cons beyond ascend⟩
    exact ⟨(behind s member).1, fun p known => Int.lt_trans (offset ▸ after p known) (beyond s member)⟩

theorem inOrder_of_mnemonicBody {table : TokenTable} {lines : List Line} {raw : List RawInstruction}
    (converted : mnemonicBody table lines = .ok raw) : RawInstruction.InOrder raw := by
  obtain ⟨nonneg, ascend⟩ := ascend_of_convertLines converted
  exact ⟨fun r member => (nonneg r member).1, ascend⟩

/-! ## Loaded modules -/

theorem exists_of_mapM {ε α β : Type} {f : α → Except ε β} {xs : List α} {ys : List β} (mapped : xs.mapM f = .ok ys)
    {y : β} (member : y ∈ ys) : ∃ x ∈ xs, f x = .ok y := by
  rw [mapM_eq_ok_iff] at mapped
  induction mapped with
  | nil => cases member
  | cons first _ ih =>
    rcases List.mem_cons.1 member with rfl | later
    · exact ⟨_, List.mem_cons_self, first⟩
    · obtain ⟨x, among, made⟩ := ih later
      exact ⟨x, List.mem_cons_of_mem _ among, made⟩

theorem Method.inOrder_of_body {table : TokenTable} {x : Method} {body : MethodBody}
    (built : x.body table = .ok (some body)) {raw : List RawInstruction} (read : body.rawInstructions = .ok raw) :
    RawInstruction.InOrder raw := by
  unfold Method.body at built
  split at built
  case isTrue => cases built
  case isFalse =>
    obtain ⟨handlers, -, built⟩ := Except.bind_eq_ok_iff.1 built
    obtain ⟨found, loaded, built⟩ := Except.bind_eq_ok_iff.1 built
    cases built
    unfold Method.instructions at loaded
    split at loaded
    case isTrue =>
      split at loaded
      case h_1 lines converted =>
        cases loaded
        cases read
        exact inOrder_of_mnemonicBody converted
      case h_2 => cases loaded
    case isFalse =>
      split at loaded
      case h_1 code _ =>
        cases loaded
        exact inOrder_of_read read
      case h_2 => cases loaded

/-- A method of a loaded module was built for the type it stands in. -/
theorem exists_built_method {d : Dump} {m : Module} (built : d.build = .ok m) {t : CilAudit.TypeDef}
    (type : t ∈ m.types) {x : CilAudit.Method} (method : x ∈ t.methods) :
    ∃ (table : TokenTable) (x' : Method), x'.build table t.fullName = .ok x := by
  obtain ⟨table, -, built⟩ := Except.bind_eq_ok_iff.1 built
  obtain ⟨types, each, built⟩ := Except.bind_eq_ok_iff.1 built
  cases built
  obtain ⟨t', -, builtType⟩ := exists_of_mapM each type
  obtain ⟨methods, rest⟩ := (TypeDef.build_eq_ok_iff table).1 builtType
  have named : t'.name = t.fullName := congrArg CilAudit.TypeDef.fullName (Except.ok.inj rest)
  obtain ⟨x', -, builtMethod⟩ := exists_of_mapM (mapM_eq_ok_iff.2 methods) method
  exact ⟨table, x', named ▸ builtMethod⟩

/-- **Loaded bodies are in order**, as far as they can be read. -/
theorem inOrder_of_build {d : Dump} {m : Module} (built : d.build = .ok m) {t : CilAudit.TypeDef} (type : t ∈ m.types)
    {x : CilAudit.Method} (method : x ∈ t.methods) {body : MethodBody} (bodied : x.body = some body)
    {raw : List RawInstruction} (read : body.rawInstructions = .ok raw) : RawInstruction.InOrder raw := by
  obtain ⟨table, x', builtMethod⟩ := exists_built_method built type method
  obtain ⟨body', builtBody, same⟩ := Except.bind_eq_ok_iff.1 builtMethod
  cases same
  obtain rfl : body' = some body := bodied
  exact Method.inOrder_of_body builtBody read

theorem declaringType_of_build {d : Dump} {m : Module} (built : d.build = .ok m) {t : CilAudit.TypeDef}
    (type : t ∈ m.types) {x : CilAudit.Method} (method : x ∈ t.methods) : x.declaringType = t.fullName := by
  obtain ⟨table, x', builtMethod⟩ := exists_built_method built type method
  obtain ⟨body, -, same⟩ := Except.bind_eq_ok_iff.1 builtMethod
  cases same
  rfl

end Dump

/-! ## Decoded bodies -/

/-- Decoding leaves each instruction where it stands. -/
theorem offsets_of_decodeFrom {k : Nat} {raw : List RawInstruction} {insts : List Instruction}
    (decoded : decodeFrom k raw = .ok insts) : insts.map (·.offset) = raw.map (·.offset) := by
  induction raw generalizing k insts with
  | nil =>
    cases decoded
    rfl
  | cons r rest ih =>
    obtain ⟨x, xs, rfl, first, later⟩ := decodeFrom_cons_eq_ok.1 decoded
    obtain ⟨-, -, offset, -⟩ := RawInstruction.decode_eq_ok.1 first
    rw [List.map_cons, List.map_cons, offset, ih later]

/-- No instruction that is decoded stands before the start. -/
theorem RawInstruction.InOrder.nonneg_offset {raw : List RawInstruction} {insts : List Instruction}
    (order : InOrder raw) (decoded : CilAudit.decode raw = .ok insts) : ∀ x ∈ insts, 0 ≤ x.offset := by
  intro x member
  have listed : x.offset ∈ raw.map (·.offset) := offsets_of_decodeFrom decoded ▸ List.mem_map_of_mem member
  obtain ⟨r, member, same⟩ := List.mem_map.1 listed
  exact same ▸ order.nonneg r member

theorem RawInstruction.InOrder.pairwise_offset {raw : List RawInstruction} {insts : List Instruction}
    (order : InOrder raw) (decoded : CilAudit.decode raw = .ok insts) :
    insts.Pairwise fun x y => x.offset < y.offset := by
  rw [← List.pairwise_map (f := Instruction.offset) (R := (· < ·)), offsets_of_decodeFrom decoded, List.pairwise_map]
  exact order.ascend

theorem RawInstruction.InOrder.offsetsAscend {raw : List RawInstruction} {insts : List Instruction}
    (order : InOrder raw) (decoded : CilAudit.decode raw = .ok insts) : OffsetsAscend insts.toArray := by
  intro i j x y less hx hy
  rw [List.getElem?_toArray] at hx hy
  obtain ⟨boundX, rfl⟩ := List.getElem?_eq_some_iff.1 hx
  obtain ⟨boundY, rfl⟩ := List.getElem?_eq_some_iff.1 hy
  exact List.pairwise_iff_getElem.1 (order.pairwise_offset decoded) i j boundX boundY less

theorem MethodBody.instructions?_eq_some_iff {b : MethodBody} {insts : List Instruction} :
    b.instructions? = some insts ↔ ∃ raw, b.rawInstructions = .ok raw ∧ decode raw = .ok insts := by
  unfold instructions?
  cases b.rawInstructions with
  | error cause => simp
  | ok raw => cases made : decode raw <;> simp [made]

/-- No instruction of a loaded body stands before its start. -/
theorem Dump.nonneg_of_build {d : Dump} {m : Module} (built : d.build = .ok m) {t : CilAudit.TypeDef}
    (type : t ∈ m.types) {x : CilAudit.Method} (method : x ∈ t.methods) {body : MethodBody}
    (bodied : x.body = some body) {insts : List Instruction} (decoded : body.instructions? = some insts) :
    ∀ i ∈ insts, 0 ≤ i.offset := by
  obtain ⟨raw, read, decoded⟩ := MethodBody.instructions?_eq_some_iff.1 decoded
  exact (inOrder_of_build built type method bodied read).nonneg_offset decoded

end CilAudit
