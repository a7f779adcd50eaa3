import CilAudit.Proofs.BlockEdges

/-!
# Paths through blocks

The block graph of a decoded body is exact: what `Exact` asks of blocks, edges and ends of
control is what the instructions do, and one instruction can be reached from another exactly if
it lies further down the same block or its block can be reached along edges.
-/

set_option autoImplicit false

namespace CilAudit.BlockGraph

/-- Block number `k` has an edge to block number `l`. -/
def HasEdge (g : BlockGraph) (k l : Nat) : Prop := ∃ a ∈ g.blocks, a.id = k ∧ ∃ e ∈ a.succs, e.block = l

/-- The instruction at `j` is further down the block of `i`, or in a block that edges lead to from
the block of `i`. -/
def Below (g : BlockGraph) (i j : Nat) : Prop :=
  ∃ a b, g.blockOf? i = some a ∧ g.blockOf? j = some b ∧
    ((a = b ∧ i < j) ∨ Relation.TransGen g.HasEdge a.id b.id)

section

variable {name : Text} {insts : List Instruction} {entries : List Int} {a b : Block}

theorem hasEdge_iff (ha : Placed insts.toArray (resolve insts.toArray entries) a)
    (hb : Placed insts.toArray (resolve insts.toArray entries) b) :
    (ofBody name insts entries).HasEdge a.id b.id ↔ Leads insts.toArray (a.stop - 1) b.start := by
  rw [← ha.succ_iff_leads hb]
  constructor
  · rintro ⟨c, member, same, edge⟩
    rwa [ha.eq_of_id (mem_blocks_iff.1 member) same.symm]
  · intro edge
    exact ⟨a, mem_blocks_iff.2 ha, rfl, edge⟩

/-- Control runs down a block from any of its instructions to any later one. -/
theorem Placed.run_down (ha : Placed insts.toArray (resolve insts.toArray entries) a) {i : Nat}
    (low : a.start ≤ i) : ∀ n, i + n < a.stop → Relation.ReflTransGen (Leads insts.toArray) i (i + n) := by
  intro n
  induction n with
  | zero => exact fun _ => .refl
  | succ n ih =>
    intro high
    have low' : a.start ≤ i + n := by omega
    exact (ih (by omega)).tail ((ha.leads_inside low' high).2 rfl)

/-- One step moves down a block or along an edge to the start of a block. -/
theorem Placed.leads_split (name : Text) (ha : Placed insts.toArray (resolve insts.toArray entries) a) {i j : Nat}
    (low : a.start ≤ i) (high : i < a.stop) (step : Leads insts.toArray i j) :
    (j = i + 1 ∧ i + 1 < a.stop) ∨
      ∃ b, Placed insts.toArray (resolve insts.toArray entries) b ∧ b.start = j ∧
        (ofBody name insts entries).HasEdge a.id b.id := by
  rcases ha.leads_cases low high step with inside | ⟨last, leader⟩
  · exact .inl inside
  · obtain ⟨b, hb, rfl⟩ := exists_placed_of_leader leader
    refine .inr ⟨b, hb, rfl, (hasEdge_iff ha hb).2 ?_⟩
    rwa [show a.stop - 1 = i by omega]

/-- A path of instructions is a path of blocks: the block of the instruction reached so far is
carried along, and each step stays in it or takes an edge. -/
theorem Placed.follow (ha : Placed insts.toArray (resolve insts.toArray entries) a) {i j : Nat}
    (low : a.start ≤ i) (high : i < a.stop) (path : Relation.TransGen (Leads insts.toArray) i j) :
    ∃ b, Placed insts.toArray (resolve insts.toArray entries) b ∧ (b.start ≤ j ∧ j < b.stop) ∧
      ((a = b ∧ i < j) ∨ Relation.TransGen (ofBody name insts entries).HasEdge a.id b.id) := by
  induction path with
  | single step =>
    rcases ha.leads_split name low high step with ⟨rfl, inside⟩ | ⟨b, hb, rfl, edge⟩
    · exact ⟨a, ha, ⟨by omega, inside⟩, .inl ⟨rfl, Nat.lt_succ_self i⟩⟩
    · exact ⟨b, hb, ⟨Nat.le_refl _, hb.start_lt_stop⟩, .inr (.single edge)⟩
  | tail _ step ih =>
    obtain ⟨c, hc, ⟨lowc, highc⟩, reached⟩ := ih
    rcases hc.leads_split name lowc highc step with ⟨rfl, inside⟩ | ⟨b, hb, rfl, edge⟩
    · refine ⟨c, hc, ⟨by omega, inside⟩, reached.imp_left ?_⟩
      rintro ⟨rfl, before⟩
      exact ⟨rfl, by omega⟩
    · refine ⟨b, hb, ⟨Nat.le_refl _, hb.start_lt_stop⟩, .inr ?_⟩
      rcases reached with ⟨rfl, -⟩ | along
      · exact .single edge
      · exact along.tail edge

/-- An edge is crossed from the last instruction of its source, and then control runs down. -/
theorem Placed.cross (ha : Placed insts.toArray (resolve insts.toArray entries) a)
    (hb : Placed insts.toArray (resolve insts.toArray entries) b)
    (edge : (ofBody name insts entries).HasEdge a.id b.id) {j : Nat} (within : b.start ≤ j ∧ j < b.stop) :
    Relation.TransGen (Leads insts.toArray) (a.stop - 1) j := by
  have step := (hasEdge_iff ha hb).1 edge
  have down := hb.run_down (Nat.le_refl _) (j - b.start) (by omega)
  rw [show b.start + (j - b.start) = j by omega] at down
  exact .head' step down

/-- A path of blocks is a path of instructions. -/
theorem transGen_of_edges {k l : Nat} (path : Relation.TransGen (ofBody name insts entries).HasEdge k l)
    (ha : Placed insts.toArray (resolve insts.toArray entries) a) (start : a.id = k)
    (hb : Placed insts.toArray (resolve insts.toArray entries) b) (stop : b.id = l) {i j : Nat}
    (ina : a.start ≤ i ∧ i < a.stop) (inb : b.start ≤ j ∧ j < b.stop) :
    Relation.TransGen (Leads insts.toArray) i j := by
  have to_last : Relation.ReflTransGen (Leads insts.toArray) i (a.stop - 1) := by
    have down := ha.run_down ina.1 (a.stop - 1 - i) (by omega)
    rwa [show i + (a.stop - 1 - i) = a.stop - 1 by omega] at down
  induction path generalizing b j with
  | single edge =>
    subst start stop
    exact .trans_right to_last (ha.cross hb edge inb)
  | tail _ edge ih =>
    obtain ⟨c, member, rfl, -⟩ := id edge
    have hc := mem_blocks_iff.1 member
    have nonempty := hc.start_lt_stop
    subst stop
    exact (ih hc rfl ⟨by omega, by omega⟩).trans (hc.cross hb edge inb)

/-- Reachability by one or more steps is the same in both views. -/
theorem transGen_leads_iff {i j : Nat} (hi : i < insts.toArray.size) :
    Relation.TransGen (Leads insts.toArray) i j ↔ (ofBody name insts entries).Below i j := by
  constructor
  · intro path
    obtain ⟨a, ha, ina⟩ : ∃ a, Placed insts.toArray (resolve insts.toArray entries) a ∧
      a.start ≤ i ∧ i < a.stop := exists_placed hi
    obtain ⟨b, hb, inb, reached⟩ := ha.follow ina.1 ina.2 path
    exact ⟨a, b, blockOf?_eq_some_iff.2 ⟨ha, ina⟩, blockOf?_eq_some_iff.2 ⟨hb, inb⟩, reached⟩
  · rintro ⟨a, b, foundA, foundB, reached⟩
    obtain ⟨ha, ina⟩ := blockOf?_eq_some_iff.1 foundA
    obtain ⟨hb, inb⟩ := blockOf?_eq_some_iff.1 foundB
    rcases reached with ⟨rfl, before⟩ | along
    · have step : Leads insts.toArray i (i + 1) := (ha.leads_inside ina.1 (by omega)).2 rfl
      have down := ha.run_down (show a.start ≤ i + 1 by omega) (j - (i + 1)) (by omega)
      rw [show i + 1 + (j - (i + 1)) = j by omega] at down
      exact .head' step down
    · exact transGen_of_edges along ha rfl hb rfl ina inb

end

/-- A block graph that shows the control flow of a body and nothing else. -/
structure Exact (g : BlockGraph) (insts : List Instruction) : Prop where
  /-- The graph is that of the body, -/
  body : g.body = insts.toArray
  /-- and leaves out none of its instructions. -/
  within : ∀ i < insts.length, ∃ a ∈ g.blocks, g.blockOf? i = some a ∧ a.start ≤ i ∧ i < a.stop
  /-- Blocks are not empty. -/
  last : ∀ a ∈ g.blocks, a.start < a.stop ∧ ∃ x, insts.toArray[a.stop - 1]? = some x
  /-- Inside a block control goes on and nowhere else. -/
  inside : ∀ a ∈ g.blocks, ∀ i j, a.start ≤ i → i + 1 < a.stop → (Leads insts.toArray i j ↔ j = i + 1)
  /-- The successors of a block are the blocks that its last instruction leads to. -/
  succ_iff : ∀ a ∈ g.blocks, ∀ b ∈ g.blocks,
    (∃ e ∈ a.succs, e.block = b.id) ↔ Leads insts.toArray (a.stop - 1) b.start
  succ_known : ∀ a ∈ g.blocks, ∀ e ∈ a.succs, ∃ b ∈ g.blocks, b.id = e.block
  /-- One edge for each target that leads to the other block. -/
  taken : ∀ a ∈ g.blocks, ∀ b ∈ g.blocks, ∀ x t, insts.toArray[a.stop - 1]? = some x → x.transfer? = some t →
    a.succs.count ⟨b.id, if t.isConditional then .taken else .always⟩ =
      x.targets.countP fun o => indexOf? insts.toArray o = some b.start
  /-- One more edge for a test that fails. -/
  otherwise : ∀ a ∈ g.blocks, ∀ b ∈ g.blocks, ∀ x, insts.toArray[a.stop - 1]? = some x →
    a.succs.count ⟨b.id, .otherwise⟩ = if x.isConditional ∧ a.stop = b.start then 1 else 0
  /-- One edge for going on. -/
  onward : ∀ a ∈ g.blocks, ∀ b ∈ g.blocks, ∀ x, insts.toArray[a.stop - 1]? = some x → x.transfer? = none →
    a.succs.count ⟨b.id, .always⟩ = if a.stop = b.start then 1 else 0
  /-- There are no other edges. -/
  total : ∀ a ∈ g.blocks, ∀ b ∈ g.blocks, ∀ x, insts.toArray[a.stop - 1]? = some x →
    a.succs.countP (·.block = b.id) = (x.targets.countP fun o => indexOf? insts.toArray o = some b.start) +
      if (x.transfer? = none ∨ x.isConditional) ∧ a.stop = b.start then 1 else 0
  /-- Incoming edges mirror outgoing ones. -/
  mirror : ∀ a ∈ g.blocks, ∀ b ∈ g.blocks, b.preds.count a.id = a.succs.countP (·.block = b.id)
  pred_known : ∀ b ∈ g.blocks, ∀ k ∈ b.preds, ∃ a ∈ g.blocks, a.id = k
  /-- Control leaves the body by returning, by throwing, or by branching out of it. -/
  terminal : ∀ a ∈ g.blocks, ∀ x, insts.toArray[a.stop - 1]? = some x →
    (a.isTerm = true ↔
      x.leavesBody = true ∨ ∃ t leave, x.action = .branch t leave ∧ indexOf? insts.toArray t = none)
  /-- What can be reached by one or more steps. -/
  reach : ∀ i j, i < insts.length → (Relation.TransGen (Leads insts.toArray) i j ↔ g.Below i j)
  /-- What can be reached at all. -/
  reach_refl : ∀ i j, i < insts.length →
    (Relation.ReflTransGen (Leads insts.toArray) i j ↔ i = j ∨ g.Below i j)

/-- **The block graph of a decoded body is exact**, whatever its entries. -/
theorem ofBody_exact {raw : List RawInstruction} {insts : List Instruction} (decoded : decode raw = .ok insts)
    (name : Text) (entries : List Int) : (ofBody name insts entries).Exact insts where
  body := ofBody_body
  within i bound := by
    obtain ⟨a, placed, inside⟩ := @exists_placed _ (resolve insts.toArray entries) _ bound
    exact ⟨a, mem_blocks_iff.2 placed, blockOf?_eq_some_iff.2 ⟨placed, inside⟩, inside⟩
  last a ha := ⟨(mem_blocks_iff.1 ha).start_lt_stop, (mem_blocks_iff.1 ha).exists_last⟩
  inside a ha i j low high := (mem_blocks_iff.1 ha).leads_inside low high
  succ_iff a ha b hb := (mem_blocks_iff.1 ha).succ_iff_leads (mem_blocks_iff.1 hb)
  succ_known a ha e edge := by
    obtain ⟨b, hb, same⟩ := (mem_blocks_iff.1 ha).succ_placed edge
    exact ⟨b, mem_blocks_iff.2 hb, same⟩
  taken a ha b hb x t last transfer := (mem_blocks_iff.1 ha).count_taken (mem_blocks_iff.1 hb) last transfer
  otherwise a ha b hb x last := (mem_blocks_iff.1 ha).count_otherwise (mem_blocks_iff.1 hb) last
  onward a ha b hb x last transfer := by
    rw [(mem_blocks_iff.1 ha).count_succs (mem_blocks_iff.1 hb) last, transfer]
    simp
  total a ha b hb x last := (mem_blocks_iff.1 ha).countP_succs (mem_blocks_iff.1 hb) last
  mirror a ha b hb := (mem_blocks_iff.1 ha).count_preds (mem_blocks_iff.1 hb)
  pred_known b hb k member := by
    obtain ⟨a, ha, same⟩ := (mem_blocks_iff.1 hb).pred_placed member
    exact ⟨a, mem_blocks_iff.2 ha, same⟩
  terminal a ha x last := (mem_blocks_iff.1 ha).isTerm_iff last (isDecoded_at decoded last)
  reach i j bound := transGen_leads_iff bound
  reach_refl i j bound := by
    rw [Relation.reflTransGen_iff_eq_or_transGen, eq_comm]
    exact or_congr_right (transGen_leads_iff bound)

/-- A body with a switch that names a target twice and one target outside, a loop of one
instruction, a branch out of the body, a handler and a test at the very end. -/
def tangle : List RawInstruction :=
  [⟨0, ⟨0x16⟩, .none⟩, ⟨1, ⟨0x45⟩, .offsets [0, 0, 14, 99]⟩, ⟨14, ⟨0x2D⟩, .int .int 14⟩,
   ⟨16, ⟨0x2B⟩, .int .int 50⟩, ⟨18, ⟨0xDC⟩, .none⟩, ⟨19, ⟨0x2C⟩, .int .int 16⟩]

/-- The blocks of `tangle` if its handler is an entry. -/
def tangleBlocks : Array Block :=
  #[⟨0, 0, 2, true, [⟨0, .taken⟩, ⟨0, .taken⟩, ⟨1, .taken⟩, ⟨1, .otherwise⟩], false, [0, 0]⟩,
    ⟨1, 2, 3, false, [⟨1, .taken⟩, ⟨2, .otherwise⟩], false, [0, 0, 1]⟩, ⟨2, 3, 4, false, [], true, [1, 4]⟩,
    ⟨3, 4, 5, true, [], true, []⟩, ⟨4, 5, 6, false, [⟨2, .taken⟩], false, []⟩]

/-- By its edges the test at the end of `tangle` leads to the branch out of the body, from where control
goes nowhere. -/
theorem ofBody_exact_tangle :
    ∃ insts, decode tangle = .ok insts ∧ (ofBody [] insts [18]).blocks = tangleBlocks ∧
      (ofBody [] insts [18]).Exact insts ∧ Leads insts.toArray 5 3 ∧ ¬ Leads insts.toArray 3 4 := by
  obtain ⟨insts, decoded, blocks⟩ : ∃ insts, decode tangle = .ok insts ∧ (ofBody [] insts [18]).blocks = tangleBlocks :=
    ⟨_, rfl, by decide +kernel⟩
  have exact := ofBody_exact decoded [] [18]
  have leads := exact.succ_iff
  rw [blocks] at leads
  simp only [tangleBlocks, List.mem_toArray, List.forall_mem_cons] at leads
  refine ⟨insts, decoded, blocks, exact, ?_, ?_⟩
  · exact leads.2.2.2.2.1.2.2.1.1 ⟨_, List.mem_singleton.2 rfl, rfl⟩
  · intro step
    obtain ⟨e, edge, -⟩ := leads.2.2.1.2.2.2.1.2 step
    cases edge

end CilAudit.BlockGraph
