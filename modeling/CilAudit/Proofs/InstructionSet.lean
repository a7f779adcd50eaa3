import CilAudit.Instruction.Decode
import CilAudit.Instruction.Effect
import Mathlib.Data.List.Nodup

/-!
# What decoding guarantees

The rows of the instruction set agree with themselves: numbers ascend, so an opcode is found
under its own number, and the form of a row fixes the way control leaves it. A decoded
instruction inherits this agreement. Its action says as much about control and about the
stack as its number does, and the analyses may read either.
-/

set_option autoImplicit false

namespace CilAudit

/-! ## The table -/

theorem Opcode.codes_ascend : (Opcode.all.map fun o => o.code.value.toNat).IsChain (· < ·) := by
  decide +kernel

/-- No two rows share a number. -/
theorem Opcode.eq_of_code_eq {o p : Opcode} (ho : o ∈ Opcode.all) (hp : p ∈ Opcode.all)
    (h : o.code = p.code) : o = p := by
  have distinct : (Opcode.all.map fun o => o.code.value.toNat).Nodup :=
    (List.isChain_iff_pairwise.1 Opcode.codes_ascend).imp Nat.ne_of_lt
  exact List.inj_on_of_nodup_map distinct ho hp (by rw [h])

theorem Code.opcode?_eq_some_iff {c : Code} {o : Opcode} :
    c.opcode? = some o ↔ o ∈ Opcode.all ∧ o.code = c := by
  constructor
  · intro h
    exact ⟨List.mem_of_find?_eq_some h, by simpa using List.find?_some h⟩
  · rintro ⟨member, rfl⟩
    obtain ⟨p, found⟩ : ∃ p, o.code.opcode? = some p :=
      Option.isSome_iff_exists.1 (List.find?_isSome.2 ⟨o, member, by simp⟩)
    have same : p.code = o.code := by simpa using List.find?_some found
    rw [found, Opcode.eq_of_code_eq (List.mem_of_find?_eq_some found) member same]

/-- The kind of action a form makes. -/
def Form.kind : Form → Kind
  | loadLocal _ | loadLocalAddress => .loadLocal
  | storeLocal _ => .storeLocal
  | loadArg _ | loadArgAddress => .loadArg
  | storeArg => .storeArg
  | loadInt32 _ | loadInt64 | loadFloat32 | loadFloat64 => .loadConst
  | loadString => .loadString
  | loadNull => .loadNull
  | loadField .. => .loadField
  | storeField _ => .storeField
  | branch _ => .branch
  | branchIf .. => .branchIf
  | switch => .switch
  | compare .. => .compare
  | call _ => .call
  | newObject => .newObject
  | ret => .ret
  | throw _ => .throw
  | other => .other

/-- The ways control may leave an action of a kind. -/
def Kind.flows : Kind → List Flow
  | branch => [.branch]
  | branchIf | switch => [.conditional]
  | ret => [.exit]
  | throw => [.throw]
  | call | newObject => [.call]
  | other => [.next, .call, .exit, .modifier]
  | _ => [.next]

theorem Opcode.flow_mem_flows : ∀ o ∈ Opcode.all, o.flow ∈ o.form.kind.flows := by decide +kernel

/-- The effect of the kinds that move a value between the stack and a local. -/
def Kind.localEffect? : Kind → Option Effect
  | loadLocal => some ⟨0, 1⟩
  | storeLocal => some ⟨1, 0⟩
  | _ => none

theorem Opcode.effect_of_local :
    ∀ o ∈ Opcode.all, ∀ e ∈ o.form.kind.localEffect?, o.pop = some e.pop ∧ o.push = some e.push := by
  decide +kernel

/-! ## Decoded instructions -/

/-- A view of the operand that a form cannot do without: the action is made from what it shows. -/
theorem elim_eq_ok {α : Type} {view : Option α} {wanted : Wanted} {make : α → Action} {a : Action} :
    view.elim (Except.error wanted) (fun v => Except.ok (make v)) = .ok a ↔
      ∃ v, view = some v ∧ make v = a := by
  cases view <;> simp

theorem Operand.kind_of_action {w : Operand} {f : Form} {a : Action} (h : w.action f = .ok a) :
    a.kind = f.kind := by
  revert h
  fun_cases Operand.action w f
  all_goals simp only [elim_eq_ok, Except.ok.injEq, reduceCtorEq, false_imp_iff]
  all_goals grind [Action.kind, Form.kind]

namespace Instruction

/-- Does the row of the instruction say that it returns or throws? -/
def leavesBody (x : Instruction) : Bool :=
  match x.code.opcode? with
  | some o => o.flow = .exit || o.flow = .throw
  | none => false

/-- The offsets that a branch or a switch names. -/
def targets (x : Instruction) : List Int :=
  match x.action with
  | .branch t _ => [(t : Int)]
  | .branchIf t _ _ => [(t : Int)]
  | .switch ts => ts
  | _ => []

theorem targets_of_transfer? (x : Instruction) : (x.transfer?.map (·.targets)).getD [] = x.targets := by
  unfold transfer? targets
  cases x.action <;> simp [Transfer.targets]
  all_goals cases x.fallsThrough <;> rfl

end Instruction

/-- The instruction is what decoding makes of some operand. -/
def Instruction.IsDecoded (x : Instruction) : Prop :=
  ∃ operand, (⟨x.offset, x.code, operand⟩ : RawInstruction).action = .ok x.action

/-- One raw instruction gives its place, offset and number to the decoded one. -/
theorem RawInstruction.decode_eq_ok {k : Nat} {r : RawInstruction} {x : Instruction} :
    r.decode k = .ok x ↔ r.action = .ok x.action ∧ x.index = k ∧ x.offset = r.offset ∧ x.code = r.code := by
  unfold RawInstruction.decode
  cases x
  cases r.action <;> grind

theorem decodeFrom_cons_eq_ok {k : Nat} {r : RawInstruction} {rest : List RawInstruction}
    {out : List Instruction} :
    decodeFrom k (r :: rest) = .ok out ↔
      ∃ x xs, out = x :: xs ∧ r.decode k = .ok x ∧ decodeFrom (k + 1) rest = .ok xs := by
  simp only [decodeFrom, bind, Except.bind, pure, Except.pure]
  cases r.decode k with
  | error e => simp
  | ok x => cases decodeFrom (k + 1) rest <;> simp [eq_comm]

/-- Decoding goes position by position. -/
theorem getElem?_decodeFrom {k : Nat} {raw : List RawInstruction} {out : List Instruction}
    (h : decodeFrom k raw = .ok out) {i : Nat} {x : Instruction} (hx : out[i]? = some x) :
    ∃ r, raw[i]? = some r ∧ r.decode (k + i) = .ok x := by
  induction raw generalizing k out i with
  | nil =>
    cases h
    simp at hx
  | cons r rest ih =>
    obtain ⟨y, ys, rfl, first, later⟩ := decodeFrom_cons_eq_ok.1 h
    cases i with
    | zero =>
      obtain rfl : y = x := by simpa using hx
      exact ⟨r, rfl, first⟩
    | succ i =>
      obtain ⟨r', found, made⟩ := ih later (by simpa using hx)
      exact ⟨r', by simpa using found, by rwa [show k + (i + 1) = k + 1 + i by omega]⟩

theorem isDecoded_of_decode {raw : List RawInstruction} {insts : List Instruction}
    (h : decode raw = .ok insts) {x : Instruction} (hx : x ∈ insts) : x.IsDecoded := by
  obtain ⟨i, hi⟩ := List.mem_iff_getElem?.1 hx
  obtain ⟨r, -, made⟩ := getElem?_decodeFrom h hi
  obtain ⟨action, -, offset, code⟩ := RawInstruction.decode_eq_ok.1 made
  exact ⟨r.operand, by rw [offset, code]; exact action⟩

theorem isDecoded_at {raw : List RawInstruction} {insts : List Instruction} (h : decode raw = .ok insts)
    {i : Nat} {x : Instruction} (here : insts.toArray[i]? = some x) : x.IsDecoded :=
  isDecoded_of_decode h (by simpa using Array.mem_of_getElem? here)

namespace Instruction.IsDecoded

variable {x : Instruction}

/-- The row of a decoded instruction has a form of its kind; outside the instruction set there
is only the kind `other`. -/
theorem row (h : x.IsDecoded) :
    (x.code.opcode? = none ∧ x.kind = .other) ∨
      ∃ o ∈ Opcode.all, x.code.opcode? = some o ∧ o.form.kind = x.kind := by
  obtain ⟨operand, made⟩ := h
  simp only [RawInstruction.action] at made
  cases found : x.code.opcode? with
  | none =>
    simp only [found, Except.ok.injEq] at made
    exact .inl ⟨rfl, by rw [Instruction.kind, ← made]; rfl⟩
  | some o =>
    simp only [found] at made
    split at made
    · cases made
    · exact .inr ⟨o, (Code.opcode?_eq_some_iff.1 found).1, rfl, (Operand.kind_of_action made).symm⟩

/-- The flow of the row is one that the kind of the action allows. -/
theorem flow_mem (h : x.IsDecoded) {o : Opcode} (found : x.code.opcode? = some o) :
    o.flow ∈ x.kind.flows := by
  obtain ⟨absent, -⟩ | ⟨p, member, found', kind⟩ := h.row
  · rw [absent] at found
    cases found
  · rw [found'] at found
    cases found
    rw [← kind]
    exact Opcode.flow_mem_flows o member

/-- What an instruction does with control, from its action and from its row at once. -/
theorem transfer?_cases (h : x.IsDecoded) :
    (x.transfer? = none ∧ x.fallsThrough = true ∧ x.leavesBody = false) ∨
    (∃ t leave, x.action = .branch t leave ∧ x.transfer? = some (.jump t) ∧
      x.fallsThrough = false ∧ x.leavesBody = false) ∨
    (∃ ts, x.transfer? = some (.choice ts) ∧ x.fallsThrough = true ∧ x.leavesBody = false) ∨
    (x.transfer? = some .leave ∧ x.fallsThrough = false ∧ x.leavesBody = true) := by
  cases found : x.code.opcode? with
  | none =>
    obtain ⟨-, kind⟩ | ⟨o, -, present, -⟩ := h.row
    · cases action : x.action <;> simp [Instruction.kind, Action.kind, action] at kind
      simp [Instruction.transfer?, Instruction.fallsThrough, Instruction.leavesBody, action, found]
    · rw [found] at present
      cases present
  | some o =>
    have flow := h.flow_mem found
    cases action : x.action <;>
      simp only [Instruction.kind, Action.kind, Kind.flows, action, List.mem_cons, List.not_mem_nil,
        or_false] at flow <;>
      simp [Instruction.transfer?, Instruction.fallsThrough, Instruction.leavesBody, action, found]
    all_goals grind

/-- The effect of an instruction that is no call is the one its row gives. -/
theorem effect?_of_row {o : Opcode} {pop push : Nat} (found : x.code.opcode? = some o)
    (noCall : ∀ m virtual, x.action ≠ .call m virtual) (noCreation : ∀ m, x.action ≠ .newObject m)
    (hpop : o.pop = some pop) (hpush : o.push = some push) : x.effect? = some ⟨pop, push⟩ := by
  unfold Instruction.effect?
  split
  · exact absurd ‹_› (noCall _ _)
  · exact absurd ‹_› (noCreation _)
  · simp [found, hpop, hpush]

/-- Loads and stores of locals move one value, whatever their encoding. -/
theorem effect?_of_local (h : x.IsDecoded) {e : Effect} (moves : x.kind.localEffect? = some e) :
    x.effect? = some e := by
  obtain ⟨-, kind⟩ | ⟨o, member, found, kind⟩ := h.row
  · simp [kind, Kind.localEffect?] at moves
  · obtain ⟨hpop, hpush⟩ := Opcode.effect_of_local o member e (by rw [kind]; exact moves)
    refine effect?_of_row found ?_ ?_ hpop hpush
    · intro m virtual action
      simp [Instruction.kind, action, Action.kind, Kind.localEffect?] at moves
    · intro m action
      simp [Instruction.kind, action, Action.kind, Kind.localEffect?] at moves

theorem effect?_of_load (h : x.IsDecoded) {slot : Nat} (action : x.action = .loadLocal slot false) :
    x.effect? = some ⟨0, 1⟩ :=
  h.effect?_of_local (by rw [Instruction.kind, action]; rfl)

theorem effect?_of_store (h : x.IsDecoded) {slot : Nat} (action : x.action = .storeLocal slot) :
    x.effect? = some ⟨1, 0⟩ :=
  h.effect?_of_local (by rw [Instruction.kind, action]; rfl)

/-- A `dup` is no special action, and leaves two values for one. -/
theorem dup (h : x.IsDecoded) (code : x.code = .dup) :
    (∃ operand, x.action = .other operand) ∧ x.effect? = some ⟨1, 2⟩ := by
  have found : x.code.opcode? = some ⟨.dup, "dup", .none, some 1, some 2, .next, .other⟩ := by
    rw [code]
    rfl
  have kind : x.kind = .other := by
    obtain ⟨absent, -⟩ | ⟨o, -, found', kind⟩ := h.row
    · rw [absent] at found
      cases found
    · rw [found] at found'
      cases found'
      exact kind.symm
  obtain ⟨operand, action⟩ : ∃ operand, x.action = .other operand := by
    cases action : x.action <;> simp [Instruction.kind, Action.kind, action] at kind
    exact ⟨_, rfl⟩
  exact ⟨⟨operand, action⟩, effect?_of_row found (by simp [action]) (by simp [action]) rfl rfl⟩

theorem code_ne_dup (h : x.IsDecoded) (special : ∀ operand, x.action ≠ .other operand) : x.code ≠ .dup := by
  intro code
  obtain ⟨⟨operand, action⟩, -⟩ := h.dup code
  exact special operand action

end Instruction.IsDecoded

end CilAudit
