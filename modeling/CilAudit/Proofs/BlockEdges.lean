import CilAudit.Proofs.BlockPartition
import CilAudit.Proofs.InstructionSet
import Mathlib.Logic.Relation

/-!
# Block edges are the control flow of the instructions

Control passes from one instruction to another by going on, or along a target that is found in
the body. A block graph keeps exactly this: inside a block control only goes on, the edges
of a block are the steps out of its last instruction, with their multiplicity, and a
path through instructions is a path through blocks.
-/

set_option autoImplicit false

namespace CilAudit

namespace Instruction

/-- Does the instruction choose between its targets and going on? -/
def isConditional (x : Instruction) : Bool := (x.transfer?.map (·.isConditional)).getD false

theorem targets_eq_nil {x : Instruction} (h : x.transfer? = none) : x.targets = [] := by
  rw [← x.targets_of_transfer?, h]
  rfl

theorem targets_eq {x : Instruction} {t : Transfer} (h : x.transfer? = some t) : x.targets = t.targets := by
  rw [← x.targets_of_transfer?, h]
  rfl

theorem isConditional_eq {x : Instruction} {t : Transfer} (h : x.transfer? = some t) :
    x.isConditional = t.isConditional := by
  rw [isConditional, h]
  rfl

end Instruction

/-- Control can pass from the instruction at `i` to the one at `j`. -/
inductive Leads (body : Array Instruction) (i j : Nat) : Prop where
  | onward {x : Instruction} (here : body[i]? = some x) (none : x.transfer? = none)
      (next : j = i + 1) (bound : j < body.size)
  | target {x : Instruction} {o : Int} (here : body[i]? = some x) (named : o ∈ x.targets)
      (found : indexOf? body o = some j)
  | otherwise {x : Instruction} (here : body[i]? = some x) (conditional : x.isConditional = true)
      (next : j = i + 1) (bound : j < body.size)

namespace Leads

variable {body : Array Instruction} {i j : Nat}

theorem lt_left (h : Leads body i j) : i < body.size := by
  cases h with
  | onward here => exact lt_size_of_getElem? here
  | target here => exact lt_size_of_getElem? here
  | otherwise here => exact lt_size_of_getElem? here

theorem lt_right (h : Leads body i j) : j < body.size := by
  cases h with
  | onward _ _ _ bound => exact bound
  | target _ _ found => exact indexOf?_lt found
  | otherwise _ _ _ bound => exact bound

end Leads

namespace BlockGraph

section

variable {body : Array Instruction} {entries : List Nat} {a b : Block}

theorem mem_targets {j : Nat} :
    j ∈ targets body ↔
      ∃ (i : Nat) (x : Instruction), body[i]? = some x ∧ ∃ o ∈ x.targets, indexOf? body o = some j := by
  simp only [targets, resolve, List.mem_filterMap, List.mem_flatMap, Instruction.targets_of_transfer?]
  constructor
  · rintro ⟨o, ⟨x, member, named⟩, found⟩
    obtain ⟨i, here⟩ := Array.mem_iff_getElem?.1 (Array.mem_toList_iff.1 member)
    exact ⟨i, x, here, o, named, found⟩
  · rintro ⟨i, x, here, o, named, found⟩
    exact ⟨o, ⟨x, Array.mem_toList_iff.2 (Array.mem_of_getElem? here), named⟩, found⟩

theorem endsBlock_eq_false_iff {i : Nat} {x : Instruction} (here : body[i]? = some x) :
    endsBlock body i = false ↔ x.transfer? = none := by
  simp [endsBlock, here]

/-- What a branch leads to starts a block. -/
theorem target_leader {j : Nat} {x : Instruction} {i : Nat} {o : Int} (here : body[i]? = some x)
    (named : o ∈ x.targets) (found : indexOf? body o = some j) : j ∈ leaders body entries :=
  mem_leaders.2 ⟨indexOf?_lt found, .inr (.inr (.inl (mem_targets.2 ⟨i, x, here, o, named, found⟩)))⟩

namespace Placed

/-- No instruction but the last of a block transfers control. -/
theorem transfer?_inside (h : Placed body entries a) {i : Nat} {x : Instruction} (low : a.start ≤ i)
    (high : i + 1 < a.stop) (here : body[i]? = some x) : x.transfer? = none := by
  rw [← endsBlock_eq_false_iff here]
  have unled := h.not_leader_inside (Nat.lt_succ_of_le low) high
  have bound : i + 1 < body.size := Nat.lt_of_lt_of_le high h.stop_le_size
  rw [mem_leaders] at unled
  simp only [bound, true_and, not_or, not_and, Bool.not_eq_true] at unled
  exact unled.2.2.2 (Nat.succ_pos i)

/-- Inside a block control goes on and nowhere else. -/
theorem leads_inside (h : Placed body entries a) {i j : Nat} (low : a.start ≤ i) (high : i + 1 < a.stop) :
    Leads body i j ↔ j = i + 1 := by
  have bound : i + 1 < body.size := Nat.lt_of_lt_of_le high h.stop_le_size
  constructor
  · intro step
    cases step with
    | onward _ _ next => exact next
    | target here named =>
      rw [Instruction.targets_eq_nil (h.transfer?_inside low high here)] at named
      cases named
    | otherwise here conditional next => exact next
  · rintro rfl
    obtain ⟨x, here⟩ : ∃ x, body[i]? = some x := ⟨body[i], Array.getElem?_eq_getElem (by omega)⟩
    exact .onward here (h.transfer?_inside low high here) rfl bound

/-- The last instruction of a block. -/
theorem exists_last (h : Placed body entries a) : ∃ x, body[a.stop - 1]? = some x := by
  have nonempty := h.start_lt_stop
  have bound := h.stop_le_size
  exact ⟨body[a.stop - 1], Array.getElem?_eq_getElem (by omega)⟩

/-- A step from an instruction of a block stays inside or leads from its last instruction to a
leader. -/
theorem leads_cases (h : Placed body entries a) {i j : Nat} (low : a.start ≤ i) (high : i < a.stop)
    (step : Leads body i j) : (j = i + 1 ∧ i + 1 < a.stop) ∨ (i + 1 = a.stop ∧ j ∈ leaders body entries) := by
  by_cases inside : i + 1 < a.stop
  · exact .inl ⟨(h.leads_inside low inside).1 step, inside⟩
  · have last : i + 1 = a.stop := by omega
    refine .inr ⟨last, ?_⟩
    cases step with
    | onward _ _ next bound =>
      rw [next, last] at bound ⊢
      exact h.stop_leader bound
    | target here named found => exact target_leader here named found
    | otherwise _ _ next bound =>
      rw [next, last] at bound ⊢
      exact h.stop_leader bound

end Placed

/-! ## Edges -/

/-- The edge to the block that starts at `stop`, if one does. -/
def onward (leaders : List Nat) (stop : Nat) (outcome : Outcome) : List Edge :=
  ((leaders.idxOf? stop).map fun b => ⟨b, outcome⟩).toList

/-- The edges to the blocks that the offsets lead to. -/
def along (body : Array Instruction) (leaders : List Nat) (outcome : Outcome) (offsets : List Int) : List Edge :=
  (resolve body offsets).filterMap fun i => (leaders.idxOf? i).map fun b => ⟨b, outcome⟩

/-- The edges out of a block are given by the transfer of its last instruction. -/
theorem edges_of_last {leaders : List Nat} {stop : Nat} {x : Instruction} (last : body[stop - 1]? = some x) :
    edges body leaders stop =
      match x.transfer? with
      | none => onward leaders stop .always
      | some .leave => []
      | some (.jump t) => along body leaders .always [t]
      | some (.choice ts) => along body leaders .taken ts ++ onward leaders stop .otherwise := by
  simp only [edges, last, Option.bind_some]
  rfl

theorem count_onward (hb : Placed body entries b) (stop : Nat) (made asked : Outcome) :
    (onward (leaders body entries) stop made).count ⟨b.id, asked⟩ =
      if made = asked ∧ stop = b.start then 1 else 0 := by
  unfold onward
  cases found : (leaders body entries).idxOf? stop with
  | none =>
    have : stop ≠ b.start := by
      rintro rfl
      rw [idxOf?_leaders_eq_some_iff.2 hb.start] at found
      cases found
    simp [this]
  | some k =>
    have same : k = b.id ↔ stop = b.start := by
      rw [idxOf?_leaders_eq_some_iff] at found
      constructor
      · rintro rfl
        exact Option.some.inj (found.symm.trans hb.start)
      · rintro rfl
        exact leader_inj found hb.start
    simp [List.count_singleton, same, and_comm]

theorem along_cons (leaders : List Nat) (made : Outcome) (o : Int) (rest : List Int) :
    along body leaders made (o :: rest) =
      ((indexOf? body o).map fun i => onward leaders i made).getD [] ++ along body leaders made rest := by
  unfold along onward resolve
  cases found : indexOf? body o with
  | none => simp [found]
  | some i => cases place : leaders.idxOf? i <;> simp [found, place]

theorem count_along (hb : Placed body entries b) (offsets : List Int) (made asked : Outcome) :
    (along body (leaders body entries) made offsets).count ⟨b.id, asked⟩ =
      if made = asked then offsets.countP fun o => indexOf? body o = some b.start else 0 := by
  induction offsets with
  | nil => simp [along, resolve]
  | cons o rest ih =>
    rw [along_cons, List.count_append, ih, List.countP_cons]
    cases found : indexOf? body o with
    | none => simp
    | some i =>
      rw [Option.map_some, Option.getD_some, count_onward hb]
      by_cases same : made = asked <;> by_cases there : i = b.start <;> simp [same, there, Nat.add_comm]

/-- The edges from one block to another, counted by outcome. -/
theorem Placed.count_succs (ha : Placed body entries a) (hb : Placed body entries b) {x : Instruction}
    (last : body[a.stop - 1]? = some x) (asked : Outcome) :
    a.succs.count ⟨b.id, asked⟩ =
      match x.transfer? with
      | none => if .always = asked ∧ a.stop = b.start then 1 else 0
      | some .leave => 0
      | some (.jump t) => if .always = asked then [t].countP fun o => indexOf? body o = some b.start else 0
      | some (.choice ts) =>
        (if .taken = asked then ts.countP fun o => indexOf? body o = some b.start else 0) +
          if .otherwise = asked ∧ a.stop = b.start then 1 else 0 := by
  rw [ha.succs, edges_of_last last]
  cases x.transfer? with
  | none => exact count_onward hb _ _ _
  | some t =>
    cases t with
    | leave => rfl
    | jump t => exact count_along hb _ _ _
    | choice ts =>
      simp only [List.count_append]
      rw [count_along hb, count_onward hb]

/-- One edge for each target that leads to the other block. -/
theorem Placed.count_taken (ha : Placed body entries a) (hb : Placed body entries b) {x : Instruction}
    {t : Transfer} (last : body[a.stop - 1]? = some x) (transfer : x.transfer? = some t) :
    a.succs.count ⟨b.id, if t.isConditional then .taken else .always⟩ =
      x.targets.countP fun o => indexOf? body o = some b.start := by
  rw [ha.count_succs hb last, transfer, Instruction.targets_eq transfer]
  cases t <;> simp [Transfer.isConditional, Transfer.targets]

/-- One more edge for a test that fails. -/
theorem Placed.count_otherwise (ha : Placed body entries a) (hb : Placed body entries b) {x : Instruction}
    (last : body[a.stop - 1]? = some x) :
    a.succs.count ⟨b.id, .otherwise⟩ = if x.isConditional ∧ a.stop = b.start then 1 else 0 := by
  rw [ha.count_succs hb last]
  cases transfer : x.transfer? with
  | none => simp [Instruction.isConditional, transfer]
  | some t =>
    rw [Instruction.isConditional_eq transfer]
    cases t <;> simp [Transfer.isConditional]

/-- The edges from one block to another, counted together: those that some outcome labels. -/
theorem countP_block (es : List Edge) (k : Nat) :
    es.countP (·.block = k) =
      es.count ⟨k, .always⟩ + es.count ⟨k, .taken⟩ + es.count ⟨k, .otherwise⟩ := by
  induction es with
  | nil => rfl
  | cons e rest ih =>
    obtain ⟨block, outcome⟩ := e
    rw [List.countP_cons, List.count_cons, List.count_cons, List.count_cons, ih]
    by_cases same : block = k <;> cases outcome <;> simp [same] <;> omega

/-- All edges from one block to another: one for each target that leads there, and one if control
goes on to it. -/
theorem Placed.countP_succs (ha : Placed body entries a) (hb : Placed body entries b) {x : Instruction}
    (last : body[a.stop - 1]? = some x) :
    a.succs.countP (·.block = b.id) =
      (x.targets.countP fun o => indexOf? body o = some b.start) +
        if (x.transfer? = none ∨ x.isConditional) ∧ a.stop = b.start then 1 else 0 := by
  rw [countP_block, ha.count_succs hb last, ha.count_succs hb last, ha.count_succs hb last]
  cases transfer : x.transfer? with
  | none => simp [Instruction.targets_eq_nil transfer]
  | some t =>
    cases t with
    | leave =>
      rw [Instruction.targets_eq transfer, Instruction.isConditional_eq transfer]
      simp [Transfer.targets, Transfer.isConditional]
    | jump t =>
      rw [Instruction.targets_eq transfer, Instruction.isConditional_eq transfer]
      simp [Transfer.targets, Transfer.isConditional]
    | choice ts =>
      rw [Instruction.targets_eq transfer, Instruction.isConditional_eq transfer]
      simp [Transfer.targets, Transfer.isConditional]

/-- A block has an edge to another exactly if its last instruction leads to the other's start. -/
theorem Placed.succ_iff_leads (ha : Placed body entries a) (hb : Placed body entries b) :
    (∃ e ∈ a.succs, e.block = b.id) ↔ Leads body (a.stop - 1) b.start := by
  obtain ⟨x, last⟩ := ha.exists_last
  have nonempty := ha.start_lt_stop
  have some_edge : (∃ e ∈ a.succs, e.block = b.id) ↔ 0 < a.succs.countP (·.block = b.id) := by
    simp [List.countP_pos_iff]
  rw [some_edge, ha.countP_succs hb last]
  constructor
  · intro positive
    by_cases along : ∃ o ∈ x.targets, indexOf? body o = some b.start
    · obtain ⟨o, named, found⟩ := along
      exact .target last named found
    · have none_along : (x.targets.countP fun o => indexOf? body o = some b.start) = 0 := by
        simpa [List.countP_eq_zero] using along
      rw [none_along, Nat.zero_add] at positive
      split at positive
      · next goes =>
        have next : b.start = a.stop - 1 + 1 := by omega
        have bound : b.start < body.size := (mem_leaders.1 hb.start_leader).1
        rcases goes.1 with none | conditional
        · exact .onward last none next bound
        · exact .otherwise last conditional next bound
      · omega
  · intro step
    cases step with
    | onward here none next =>
      obtain rfl := Option.some.inj (last.symm.trans here)
      rw [if_pos ⟨.inl none, by omega⟩]
      omega
    | target here named found =>
      obtain rfl := Option.some.inj (last.symm.trans here)
      have : 0 < x.targets.countP fun o => indexOf? body o = some b.start :=
        List.countP_pos_iff.2 ⟨_, named, by simpa using found⟩
      omega
    | otherwise here conditional next =>
      obtain rfl := Option.some.inj (last.symm.trans here)
      rw [if_pos ⟨.inr conditional, by omega⟩]
      omega

/-- Every edge ends at a block. -/
theorem Placed.succ_placed (ha : Placed body entries a) {e : Edge} (h : e ∈ a.succs) :
    ∃ b, Placed body entries b ∧ b.id = e.block := by
  have of_number : ∀ i k, (leaders body entries).idxOf? i = some k →
      ∃ b, Placed body entries b ∧ b.id = k := by
    intro i k found
    rw [idxOf?_leaders_eq_some_iff] at found
    obtain ⟨b, placed, start⟩ := exists_placed_of_leader (List.mem_of_getElem? found)
    exact ⟨b, placed, leader_inj (start ▸ placed.start) found⟩
  have of_onward : ∀ stop made, e ∈ onward (leaders body entries) stop made →
      ∃ b, Placed body entries b ∧ b.id = e.block := by
    intro stop made member
    simp only [onward, Option.mem_toList, Option.map_eq_some_iff] at member
    obtain ⟨k, found, rfl⟩ := member
    exact of_number _ _ found
  have of_along : ∀ made offsets, e ∈ along body (leaders body entries) made offsets →
      ∃ b, Placed body entries b ∧ b.id = e.block := by
    intro made offsets member
    simp only [along, List.mem_filterMap, Option.map_eq_some_iff] at member
    obtain ⟨i, -, k, found, rfl⟩ := member
    exact of_number _ _ found
  obtain ⟨x, last⟩ := ha.exists_last
  rw [ha.succs, edges_of_last last] at h
  split at h
  · exact of_onward _ _ h
  · cases h
  · exact of_along _ _ h
  · rcases List.mem_append.1 h with h | h
    · exact of_along _ _ h
    · exact of_onward _ _ h

/-! ## Incoming edges -/

/-- Among blocks with different numbers, a block is a source once for each of its edges. -/
theorem count_sources {blocks : List Block} (distinct : (blocks.map (·.id)).Nodup) {a : Block}
    (member : a ∈ blocks) (k : Nat) : (sources blocks k).count a.id = a.succs.countP (·.block = k) := by
  have from_one : ∀ b : Block, ((b.succs.filter (·.block = k)).map fun _ => b.id).count a.id =
      if b.id = a.id then b.succs.countP (·.block = k) else 0 := by
    intro b
    rw [List.map_const', List.count_replicate, List.countP_eq_length_filter]
    simp only [beq_iff_eq]
  induction blocks with
  | nil => cases member
  | cons b rest ih =>
    obtain ⟨fresh, distinct⟩ := List.nodup_cons.1 distinct
    have rest_only : (sources (b :: rest) k).count a.id =
        (if b.id = a.id then b.succs.countP (·.block = k) else 0) + (sources rest k).count a.id := by
      rw [sources, List.flatMap_cons, List.count_append, from_one]
      rfl
    rw [rest_only]
    rcases List.mem_cons.1 member with rfl | later
    · have absent : (sources rest k).count a.id = 0 := by
        rw [List.count_eq_zero]
        intro source
        simp only [sources, List.mem_flatMap, List.mem_map] at source
        obtain ⟨c, inRest, -, -, same⟩ := source
        exact fresh (List.mem_map.2 ⟨c, inRest, same⟩)
      simp [absent]
    · have apart : b.id ≠ a.id := fun same => fresh (List.mem_map.2 ⟨a, later, same.symm⟩)
      simp [apart, ih distinct later]

theorem openBlocks_ids (body : Array Instruction) (entries : List Nat) :
    (openBlocks body entries).map (·.id) = List.range (leaders body entries).length := by
  apply List.ext_getElem?
  intro k
  rw [List.getElem?_map, getElem?_openBlocks]
  by_cases bound : k < (leaders body entries).length
  · simp [bound]
  · simp [bound]

/-- The incoming edges of a block mirror the outgoing edges of all blocks. -/
theorem Placed.count_preds (ha : Placed body entries a) (hb : Placed body entries b) :
    b.preds.count a.id = a.succs.countP (·.block = b.id) := by
  have distinct : ((openBlocks body entries).map (·.id)).Nodup := by
    rw [openBlocks_ids]
    exact List.nodup_range
  rw [hb.preds]
  exact count_sources distinct ha.mem_openBlocks b.id

theorem Placed.pred_placed (hb : Placed body entries b) {k : Nat} (h : k ∈ b.preds) :
    ∃ a, Placed body entries a ∧ a.id = k := by
  rw [hb.preds] at h
  simp only [sources, List.mem_flatMap, List.mem_map] at h
  obtain ⟨o, member, -, -, rfl⟩ := h
  exact ⟨_, Placed.of_mem_openBlocks member, rfl⟩

/-- Control leaves the body at the end of a block if its last instruction returns or throws, or
always branches to an offset that is not in the body. -/
theorem Placed.isTerm_iff (ha : Placed body entries a) {x : Instruction}
    (last : body[a.stop - 1]? = some x) (decoded : x.IsDecoded) :
    a.isTerm = true ↔
      x.leavesBody = true ∨ ∃ t leave, x.action = .branch t leave ∧ indexOf? body t = none := by
  rw [ha.isTerm, terminates, last, Option.bind_some]
  obtain ⟨transfer, -, leaves⟩ | ⟨t, leave, action, transfer, -, leaves⟩ | ⟨ts, transfer, -, leaves⟩ |
    ⟨transfer, -, leaves⟩ := decoded.transfer?_cases
  · have noBranch : ∀ t leave, x.action ≠ .branch t leave := by
      intro t leave action
      simp [Instruction.transfer?, action] at transfer
    simp [transfer, leaves, noBranch]
  · simp [transfer, leaves, action]
  · have noBranch : ∀ t leave, x.action ≠ .branch t leave := by
      intro t leave action
      simp [Instruction.transfer?, action] at transfer
    simp [transfer, leaves, noBranch]
  · simp [transfer, leaves]

end

end BlockGraph

end CilAudit
