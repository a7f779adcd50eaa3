import CilAudit.Provenance
import CilAudit.Proofs.InstructionSet

/-!
# Bodies in another encoding

The instruction set has short and long spellings of one action, and with the spelling the offsets
behind it move. Two bodies that do the same, instruction by instruction, have the same block
graph, and values in them have the same origins: the rows of two spellings agree in what the
analyses read of them, and an offset counts only by the instruction that it leads to.
-/

set_option autoImplicit false

namespace CilAudit

/-! ## Spellings of one action -/

/-- The same action, up to the offsets that a branch or a switch names. -/
inductive Action.SameButTargets : Action → Action → Prop
  | refl (a : Action) : SameButTargets a a
  | branch (t t' : Nat) (leave : Bool) : SameButTargets (.branch t leave) (.branch t' leave)
  | branchIf (t t' : Nat) (cond : Condition) (unsigned : Bool) :
    SameButTargets (.branchIf t cond unsigned) (.branchIf t' cond unsigned)
  | switch (ts ts' : List Int) : SameButTargets (.switch ts) (.switch ts')

theorem Action.SameButTargets.kind_eq {a b : Action} (h : a.SameButTargets b) : a.kind = b.kind := by
  cases h <;> rfl

/-- How many values rows of a form take and leave, where the form alone decides. -/
def Form.counts? : Form → Option (Option Nat × Option Nat)
  | loadLocal _ | loadLocalAddress | loadArg _ | loadArgAddress | loadInt32 _ | loadInt64 | loadFloat32
  | loadFloat64 | loadString | loadNull => some (some 0, some 1)
  | loadField static _ => some (some (if static then 0 else 1), some 1)
  | storeLocal _ | storeArg | switch => some (some 1, some 0)
  | storeField static => some (some (if static then 1 else 2), some 0)
  | branch _ => some (some 0, some 0)
  | branchIf cond _ => some (some (if cond = .isTrue ∨ cond = .isFalse then 1 else 2), some 0)
  | compare .. => some (some 2, some 1)
  | ret => some (none, some 0)
  | throw rethrow => some (some (if rethrow then 0 else 1), some 0)
  | call _ | newObject | other => none

/-- The same numbers, told from the action. -/
def Action.counts? : Action → Option (Option Nat × Option Nat)
  | loadLocal .. | loadArg .. | loadConst _ | loadString _ | loadNull => some (some 0, some 1)
  | loadField _ static _ => some (some (if static then 0 else 1), some 1)
  | storeLocal _ | storeArg _ | switch _ => some (some 1, some 0)
  | storeField _ static => some (some (if static then 1 else 2), some 0)
  | branch .. => some (some 0, some 0)
  | branchIf _ cond _ => some (some (if cond = .isTrue ∨ cond = .isFalse then 1 else 2), some 0)
  | compare .. => some (some 2, some 1)
  | ret => some (none, some 0)
  | throw rethrow => some (some (if rethrow then 0 else 1), some 0)
  | call .. | newObject _ | other _ => none

theorem Action.SameButTargets.counts?_eq {a b : Action} (h : a.SameButTargets b) : a.counts? = b.counts? := by
  cases h <;> rfl

theorem Action.SameButTargets.eq_of_uncounted {a b : Action} (h : a.SameButTargets b)
    (uncounted : a.counts? = none) : a = b := by
  cases h with
  | refl => rfl
  | _ => simp [Action.counts?] at uncounted

theorem Opcode.counts_of_form : ∀ o ∈ Opcode.all, ∀ n ∈ o.form.counts?, (o.pop, o.push) = n := by decide +kernel

theorem Operand.counts?_of_action {w : Operand} {f : Form} {a : Action} (h : w.action f = .ok a) :
    f.counts? = a.counts? := by
  revert h
  fun_cases Operand.action w f
  all_goals simp only [elim_eq_ok, Except.ok.injEq, reduceCtorEq, false_imp_iff]
  all_goals grind [Action.counts?, Form.counts?]

/-- Outside the kind `other` a kind of action has one flow. -/
theorem Kind.flow_unique {k : Kind} (special : k ≠ .other) {f g : Flow} (hf : f ∈ k.flows) (hg : g ∈ k.flows) :
    f = g := by
  cases k <;> simp_all [Kind.flows]

namespace Instruction

/-- The row of a decoded instruction, with the numbers of values that its action fixes. -/
theorem IsDecoded.counts {x : Instruction} (h : x.IsDecoded) (special : x.kind ≠ .other) :
    ∃ o, x.code.opcode? = some o ∧ ∀ n ∈ x.action.counts?, (o.pop, o.push) = n := by
  obtain ⟨operand, made⟩ := h
  simp only [RawInstruction.action] at made
  cases found : x.code.opcode? with
  | none =>
    simp only [found, Except.ok.injEq] at made
    exact absurd (by rw [kind, ← made]; rfl) special
  | some o =>
    simp only [found] at made
    split at made
    · cases made
    · refine ⟨o, rfl, fun n fixed => ?_⟩
      rw [← Operand.counts?_of_action made] at fixed
      exact Opcode.counts_of_form o (Code.opcode?_eq_some_iff.1 found).1 n fixed

/-- Where the action fixes them, the effect is these numbers, whatever the spelling. -/
theorem IsDecoded.effect?_of_counted {x : Instruction} (h : x.IsDecoded) {n : Option Nat × Option Nat}
    (counted : x.action.counts? = some n) : x.effect? = do return ⟨← n.1, ← n.2⟩ := by
  have special : x.kind ≠ .other := by
    cases action : x.action <;> simp_all [kind, Action.kind, Action.counts?]
  obtain ⟨o, found, fixed⟩ := h.counts special
  obtain rfl : (o.pop, o.push) = n := fixed n counted
  cases action : x.action <;> simp_all [effect?, Action.counts?]

/-- Two instructions do the same. Where no action tells one opcode from the other they share it, and
their targets are at the same places. -/
structure Alike (find find' : Int → Option Nat) (x y : Instruction) : Prop where
  action : x.action.SameButTargets y.action
  code : x.kind = .other → x.code = y.code
  targets : x.targets.map find = y.targets.map find'

/-- Two decoded instructions at one position that do the same. -/
structure Twins (find find' : Int → Option Nat) (k : Nat) (x y : Instruction) : Prop
    extends x.Alike find find' y where
  decoded : x.IsDecoded
  decoded' : y.IsDecoded
  index : x.index = k
  index' : y.index = k

variable {find find' : Int → Option Nat} {k : Nat} {x y : Instruction}

theorem Alike.kind_eq (h : x.Alike find find' y) : x.kind = y.kind := h.action.kind_eq

namespace Twins

theorem fallsThrough_eq (h : Twins find find' k x y) : x.fallsThrough = y.fallsThrough := by
  by_cases special : x.kind = .other
  · rw [fallsThrough, fallsThrough, h.code special]
  · -- The rows may be two, but their kind has one flow.
    obtain ⟨o, found, -⟩ := h.decoded.counts special
    obtain ⟨p, found', -⟩ := h.decoded'.counts (h.kind_eq ▸ special)
    have flow : o.flow = p.flow :=
      Kind.flow_unique special (h.decoded.flow_mem found) (h.kind_eq ▸ h.decoded'.flow_mem found')
    simp only [fallsThrough, found, found', flow]

theorem effect?_eq (h : Twins find find' k x y) : x.effect? = y.effect? := by
  cases counted : x.action.counts? with
  | some n =>
    have counted' : y.action.counts? = some n := h.action.counts?_eq ▸ counted
    rw [h.decoded.effect?_of_counted counted, h.decoded'.effect?_of_counted counted']
  | none =>
    -- A call goes by the method that it names, and anything else by its opcode.
    have same : x.action = y.action := h.action.eq_of_uncounted counted
    by_cases special : x.kind = .other
    · rw [effect?, effect?, same, h.code special]
    · cases action : y.action <;> simp_all [effect?, Action.counts?, kind, Action.kind]

end Twins

end Instruction

/-- Control goes to the same places. -/
inductive Transfer.Alike (find find' : Int → Option Nat) : Transfer → Transfer → Prop
  | jump {t t' : Int} (same : find t = find' t') : Alike find find' (.jump t) (.jump t')
  | choice {ts ts' : List Int} (same : ts.map find = ts'.map find') : Alike find find' (.choice ts) (.choice ts')
  | leave : Alike find find' .leave .leave

theorem Instruction.Twins.transfer? {find find' : Int → Option Nat} {k : Nat} {x y : Instruction}
    (h : Twins find find' k x y) : Option.Rel (Transfer.Alike find find') x.transfer? y.transfer? := by
  have action := h.action
  have targets := h.targets
  have falls := h.fallsThrough_eq
  unfold Instruction.transfer?
  unfold Instruction.targets at targets
  generalize x.action = a at *
  generalize y.action = b at *
  cases action with
  | branch t t' leave => exact .some (.jump (by simpa using targets))
  | branchIf t t' cond unsigned => exact .some (.choice (by simpa using targets))
  | switch ts ts' => exact .some (.choice (by simpa using targets))
  | refl =>
    cases a with
    | branch t leave => exact .some (.jump (by simpa using targets))
    | branchIf t cond unsigned => exact .some (.choice (by simpa using targets))
    | switch ts => exact .some (.choice (by simpa using targets))
    | ret => exact .some .leave
    | throw rethrow => exact .some .leave
    | _ =>
      simp only [falls]
      split
      · exact .none
      · exact .some .leave

/-! ## Bodies -/

theorem rel_cases {α β : Type} {R : α → β → Prop} {o : Option α} {o' : Option β} (h : Option.Rel R o o') :
    (o = none ∧ o' = none) ∨ ∃ a b, o = some a ∧ o' = some b ∧ R a b := by
  cases h with
  | none => exact .inl ⟨rfl, rfl⟩
  | some related => exact .inr ⟨_, _, rfl, rfl, related⟩

theorem flatMap_eq_of_forall₂ {α β γ : Type} {f : α → List γ} {g : β → List γ} {l : List α} {l' : List β}
    (h : List.Forall₂ (fun a b => f a = g b) l l') : l.flatMap f = l'.flatMap g := by
  induction h with
  | nil => rfl
  | cons first _ ih => rw [List.flatMap_cons, List.flatMap_cons, first, ih]

/-- Lists related member by member are so at each position. -/
theorem rel_getElem? {α β : Type} {R S : α → β → Prop} {l : List α} {l' : List β} (h : List.Forall₂ R l l') {k : Nat}
    (imp : ∀ a b, l[k]? = some a → l'[k]? = some b → R a b → S a b) : Option.Rel S l[k]? l'[k]? := by
  by_cases bound : k < l.length
  · have bound' : k < l'.length := h.length_eq ▸ bound
    have here := List.getElem?_eq_getElem bound
    have here' := List.getElem?_eq_getElem bound'
    have related := imp _ _ here here' (h.get bound bound')
    rw [here, here']
    exact .some related
  · have bound' : ¬ k < l'.length := h.length_eq ▸ bound
    rw [List.getElem?_eq_none (Nat.le_of_not_lt bound), List.getElem?_eq_none (Nat.le_of_not_lt bound')]
    exact .none

/-- Two decoded bodies that do the same, one instruction as the other, with branches, switches and
entries from outside that lead to the same instructions or, both, nowhere. -/
structure Reencoded (insts insts' : List Instruction) (entries entries' : List Int) : Prop where
  decoded : ∃ raw, decode raw = .ok insts
  decoded' : ∃ raw, decode raw = .ok insts'
  alike : List.Forall₂ (Instruction.Alike (indexOf? insts.toArray) (indexOf? insts'.toArray)) insts insts'
  entries : ∀ i, i ∈ BlockGraph.resolve insts.toArray entries ↔ i ∈ BlockGraph.resolve insts'.toArray entries'

theorem index_of_decode {raw : List RawInstruction} {insts : List Instruction} (h : decode raw = .ok insts) {k : Nat}
    {x : Instruction} (here : insts[k]? = some x) : x.index = k := by
  obtain ⟨r, -, made⟩ := getElem?_decodeFrom h here
  simpa using (RawInstruction.decode_eq_ok.1 made).2.1

/-- The instructions stand at one position of the two bodies. -/
def Instruction.Twinned (insts insts' : List Instruction) (x y : Instruction) : Prop :=
  ∃ k, Twins (indexOf? insts.toArray) (indexOf? insts'.toArray) k x y

theorem Provenance.body_ofBody (insts : List Instruction) (entries : List Int) :
    (ofBody insts entries).body = insts.toArray := rfl

theorem Provenance.body_counted (p : Provenance) (counting : Counting) : (p.counted counting).body = p.body := rfl

namespace Reencoded

variable {insts insts' : List Instruction} {entries entries' : List Int}

theorem size_eq (h : Reencoded insts insts' entries entries') : insts.toArray.size = insts'.toArray.size := by
  simpa using h.alike.length_eq

/-- At every position stand twins, or nothing on either side. -/
theorem twins (h : Reencoded insts insts' entries entries') (k : Nat) :
    Option.Rel (Instruction.Twins (indexOf? insts.toArray) (indexOf? insts'.toArray) k)
      insts.toArray[k]? insts'.toArray[k]? := by
  obtain ⟨raw, made⟩ := h.decoded
  obtain ⟨raw', made'⟩ := h.decoded'
  rw [List.getElem?_toArray, List.getElem?_toArray]
  refine rel_getElem? h.alike fun x y here here' alike => ?_
  exact { alike with
    decoded := isDecoded_of_decode made (List.mem_of_getElem? here)
    decoded' := isDecoded_of_decode made' (List.mem_of_getElem? here')
    index := index_of_decode made here
    index' := index_of_decode made' here' }

theorem twinned (h : Reencoded insts insts' entries entries') :
    List.Forall₂ (Instruction.Twinned insts insts') insts insts' := by
  refine List.forall₂_iff_get.2 ⟨h.alike.length_eq, fun k bound bound' => ⟨k, ?_⟩⟩
  have twins := h.twins k
  simp only [List.getElem?_toArray, List.getElem?_eq_getElem bound, List.getElem?_eq_getElem bound'] at twins
  obtain ⟨absent, -⟩ | ⟨x, y, here, here', same⟩ := rel_cases twins
  · cases absent
  · cases here
    cases here'
    exact same

/-! ### The block graph -/

theorem transfer (h : Reencoded insts insts' entries entries') (k : Nat) :
    Option.Rel (Transfer.Alike (indexOf? insts.toArray) (indexOf? insts'.toArray))
      (insts.toArray[k]?.bind (·.transfer?)) (insts'.toArray[k]?.bind (·.transfer?)) := by
  obtain ⟨here, here'⟩ | ⟨x, y, here, here', twins⟩ := rel_cases (h.twins k)
  · rw [here, here']
    exact .none
  · rw [here, here']
    exact twins.transfer?

theorem resolve_eq {body body' : Array Instruction} {ts ts' : List Int}
    (same : ts.map (indexOf? body) = ts'.map (indexOf? body')) :
    BlockGraph.resolve body ts = BlockGraph.resolve body' ts' := by
  have reduced := congrArg (List.filterMap id) same
  rwa [List.filterMap_map, List.filterMap_map] at reduced

theorem targets_eq (h : Reencoded insts insts' entries entries') :
    BlockGraph.targets insts.toArray = BlockGraph.targets insts'.toArray := by
  have all : List.Forall₂
      (fun x y => BlockGraph.resolve insts.toArray x.targets = BlockGraph.resolve insts'.toArray y.targets) insts insts' :=
    h.alike.imp fun x y alike => resolve_eq alike.targets
  simp only [BlockGraph.targets, Instruction.targets_of_transfer?]
  rw [BlockGraph.resolve, BlockGraph.resolve, List.filterMap_flatMap, List.filterMap_flatMap]
  exact flatMap_eq_of_forall₂ all

theorem endsBlock_eq (h : Reencoded insts insts' entries entries') (k : Nat) :
    BlockGraph.endsBlock insts.toArray k = BlockGraph.endsBlock insts'.toArray k := by
  rw [BlockGraph.endsBlock, BlockGraph.endsBlock]
  obtain ⟨last, last'⟩ | ⟨t, t', last, last', -⟩ := rel_cases (h.transfer k)
  · rw [last, last']
  · rw [last, last', Option.isSome_some, Option.isSome_some]

theorem contains_eq (h : Reencoded insts insts' entries entries') (i : Nat) :
    (BlockGraph.resolve insts.toArray entries).contains i = (BlockGraph.resolve insts'.toArray entries').contains i := by
  rw [Bool.eq_iff_iff, List.contains_iff_mem, List.contains_iff_mem, h.entries]

theorem leaders_eq (h : Reencoded insts insts' entries entries') :
    BlockGraph.leaders insts.toArray (BlockGraph.resolve insts.toArray entries) =
      BlockGraph.leaders insts'.toArray (BlockGraph.resolve insts'.toArray entries') := by
  simp only [BlockGraph.leaders, h.size_eq, h.targets_eq, h.endsBlock_eq, h.contains_eq]

theorem edges_eq (h : Reencoded insts insts' entries entries') (leaders : List Nat) (stop : Nat) :
    BlockGraph.edges insts.toArray leaders stop = BlockGraph.edges insts'.toArray leaders stop := by
  unfold BlockGraph.edges
  obtain ⟨last, last'⟩ | ⟨t, t', last, last', alike⟩ := rel_cases (h.transfer (stop - 1))
  · simp only [last, last']
  · simp only [last, last']
    cases alike with
    | @jump t t' same =>
      have there : BlockGraph.resolve insts.toArray [t] = BlockGraph.resolve insts'.toArray [t'] :=
        resolve_eq (by simp [same])
      simp only [there]
    | choice same => simp only [resolve_eq same]
    | leave => rfl

theorem terminates_eq (h : Reencoded insts insts' entries entries') (stop : Nat) :
    BlockGraph.terminates insts.toArray stop = BlockGraph.terminates insts'.toArray stop := by
  unfold BlockGraph.terminates
  obtain ⟨last, last'⟩ | ⟨t, t', last, last', alike⟩ := rel_cases (h.transfer (stop - 1))
  · simp only [last, last']
  · simp only [last, last']
    cases alike with
    | jump same => simp only [same]
    | choice _ => rfl
    | leave => rfl

/-- **The blocks are the same,** with their edges in both directions. -/
theorem blocks_eq (h : Reencoded insts insts' entries entries') (name name' : Text) :
    (BlockGraph.ofBody name insts entries).blocks = (BlockGraph.ofBody name' insts' entries').blocks := by
  simp only [BlockGraph.ofBody, BlockGraph.openBlocks, h.leaders_eq, h.size_eq, h.edges_eq, h.terminates_eq,
    h.contains_eq]

/-! ### The origin of values -/

theorem straightLine_eq (h : Reencoded insts insts' entries entries') (name name' : Text) (i : Nat) :
    (BlockGraph.ofBody name insts entries).straightLine i = (BlockGraph.ofBody name' insts' entries').straightLine i := by
  simp only [BlockGraph.straightLine, BlockGraph.blockOf?, h.blocks_eq name name']

theorem isStraight_eq (h : Reencoded insts insts' entries entries') (i : Nat) :
    (Provenance.ofBody insts entries).isStraight i = (Provenance.ofBody insts' entries').isStraight i := by
  have line : (BlockGraph.ofBody [] insts entries).straightLine = (BlockGraph.ofBody [] insts' entries').straightLine :=
    funext (h.straightLine_eq [] [])
  simp only [Provenance.isStraight, Provenance.ofBody, line]
  simp only [BlockGraph.ofBody, h.size_eq]

theorem effect?_eq (h : Reencoded insts insts' entries entries') (i : Nat) :
    insts.toArray[i]?.bind (·.effect?) = insts'.toArray[i]?.bind (·.effect?) := by
  obtain ⟨here, here'⟩ | ⟨x, y, here, here', twins⟩ := rel_cases (h.twins i)
  · rw [here, here']
  · rw [here, here', Option.bind_some, Option.bind_some, twins.effect?_eq]

section

variable (h : Reencoded insts insts' entries entries') (counting : Counting)

include h

theorem pusher?_eq (depth : Int) (i : Nat) :
    ((Provenance.ofBody insts entries).counted counting).pusher? depth i =
      ((Provenance.ofBody insts' entries').counted counting).pusher? depth i := by
  induction i generalizing depth with
  | zero => rfl
  | succ i ih =>
    have straight : ((Provenance.ofBody insts entries).counted counting).isStraight (i + 1) =
        ((Provenance.ofBody insts' entries').counted counting).isStraight (i + 1) := h.isStraight_eq (i + 1)
    have effect : ((Provenance.ofBody insts entries).counted counting).body[i]?.bind (·.effect?) =
        ((Provenance.ofBody insts' entries').counted counting).body[i]?.bind (·.effect?) := h.effect?_eq i
    simp only [Provenance.pusher?, straight, effect, ih]
    rfl

theorem producer?_eq (c a : Nat) :
    ((Provenance.ofBody insts entries).counted counting).producer? c a =
      ((Provenance.ofBody insts' entries').counted counting).producer? c a := by
  have size : ((Provenance.ofBody insts entries).counted counting).body.size =
      ((Provenance.ofBody insts' entries').counted counting).body.size := h.size_eq
  simp only [Provenance.producer?, size, h.pusher?_eq]

theorem lastStore?_eq (slot i : Nat) :
    ((Provenance.ofBody insts entries).counted counting).lastStore? slot i =
      ((Provenance.ofBody insts' entries').counted counting).lastStore? slot i := by
  induction i with
  | zero => rfl
  | succ i ih =>
    have straight : ((Provenance.ofBody insts entries).counted counting).isStraight (i + 1) =
        ((Provenance.ofBody insts' entries').counted counting).isStraight (i + 1) := h.isStraight_eq (i + 1)
    simp only [Provenance.lastStore?, Provenance.body_counted, Provenance.body_ofBody, straight, ih]
    obtain ⟨here, here'⟩ | ⟨x, y, here, here', twins⟩ := rel_cases (h.twins i)
    · simp only [here, here']
    · simp only [here, here', Option.map_some]
      obtain ⟨_, _, _, a⟩ := x
      obtain ⟨_, _, _, b⟩ := y
      have action : a.SameButTargets b := twins.action
      cases action <;> rfl

theorem copySource?_eq (i : Nat) :
    ((Provenance.ofBody insts entries).counted counting).copySource? i =
      ((Provenance.ofBody insts' entries').counted counting).copySource? i := by
  simp only [Provenance.copySource?, Provenance.body_counted, Provenance.body_ofBody, h.producer?_eq, h.lastStore?_eq]
  obtain ⟨here, here'⟩ | ⟨x, y, here, here', twins⟩ := rel_cases (h.twins i)
  · simp only [here, here']
  · simp only [here, here']
    obtain ⟨_, _, code, a⟩ := x
    obtain ⟨_, _, code', b⟩ := y
    have action : a.SameButTargets b := twins.action
    cases action with
    | refl =>
      cases a with
      | other operand =>
        have same : code = code' := twins.code rfl
        simp only [same]
      | loadLocal slot address => cases address <;> rfl
      | _ => rfl
    | _ => rfl

theorem origin?_eq (hops i : Nat) :
    ((Provenance.ofBody insts entries).counted counting).origin? hops i =
      ((Provenance.ofBody insts' entries').counted counting).origin? hops i := by
  induction hops generalizing i with
  | zero => rfl
  | succ hops ih => simp only [Provenance.origin?, h.copySource?_eq, ih]

theorem value?_eq (c a : Nat) :
    ((Provenance.ofBody insts entries).counted counting).value? c a =
      ((Provenance.ofBody insts' entries').counted counting).value? c a := by
  have same := funext (h.origin?_eq counting Provenance.maxHops)
  rw [Provenance.value?, Provenance.value?, h.producer?_eq, same]

end

theorem wordProducer?_eq (h : Reencoded insts insts' entries entries') (c a : Int) :
    (Provenance.ofBody insts entries).wordProducer? c a = (Provenance.ofBody insts' entries').wordProducer? c a := by
  rw [Provenance.wordProducer?, Provenance.wordProducer?, h.producer?_eq]

theorem wordValue?_eq (h : Reencoded insts insts' entries entries') (c a : Int) :
    (Provenance.ofBody insts entries).wordValue? c a = (Provenance.ofBody insts' entries').wordValue? c a := by
  rw [Provenance.wordValue?, Provenance.wordValue?, h.value?_eq]

end Reencoded

end CilAudit
