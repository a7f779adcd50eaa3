import CilAudit.Proofs.BlockPaths

/-!
# Instructions entered from one side only

An instruction is on a straight line if control comes to it from the instruction before it and
from nowhere else: no branch, no entry, no other way. The test decides this from the blocks; the
main statement is that for a decoded body it decides it for the single steps of the instructions.
-/

set_option autoImplicit false

namespace CilAudit.BlockGraph

section

variable {body : Array Instruction} {entries : List Nat} {a b : Block}

/-- A block is a source of another exactly if its last instruction leads there. -/
theorem Placed.mem_preds_iff (ha : Placed body entries a) (hb : Placed body entries b) :
    a.id ∈ b.preds ↔ Leads body (a.stop - 1) b.start := by
  rw [← List.count_pos_iff, ha.count_preds hb, List.countP_pos_iff, ← ha.succ_iff_leads hb]
  simp only [decide_eq_true_eq]

/-- What leads to an instruction inside a block is the instruction before it. -/
theorem Placed.eq_of_leads_inside (hb : Placed body entries b) {i j : Nat} (low : b.start < i)
    (high : i < b.stop) (step : Leads body j i) : i = j + 1 := by
  obtain ⟨c, hc, lowc, highc⟩ : ∃ c, Placed body entries c ∧ c.start ≤ j ∧ j < c.stop :=
    exists_placed step.lt_left
  rcases hc.leads_cases lowc highc step with ⟨next, -⟩ | ⟨-, leader⟩
  · exact next
  · exact absurd leader (hb.not_leader_inside low high)

/-- What leads to the start of a block is the instruction before it or the end of a source. -/
theorem Placed.source_of_leads (hb : Placed body entries b) {j : Nat} (step : Leads body j b.start) :
    b.start = j + 1 ∨ ∃ c, Placed body entries c ∧ c.stop = j + 1 ∧ c.id ∈ b.preds := by
  obtain ⟨c, hc, lowc, highc⟩ : ∃ c, Placed body entries c ∧ c.start ≤ j ∧ j < c.stop :=
    exists_placed step.lt_left
  rcases hc.leads_cases lowc highc step with ⟨next, -⟩ | ⟨last, -⟩
  · exact .inl next
  · refine .inr ⟨c, hc, last.symm, (hc.mem_preds_iff hb).2 ?_⟩
    rwa [show c.stop - 1 = j by omega]

end

section

variable {name : Text} {insts : List Instruction} {entries : List Int}

/-- The ways into an instruction on a straight line: only from the one before. -/
structure OnlyFrom (body : Array Instruction) (entries : List Int) (prev : Nat) : Prop where
  noEntry : ∀ o ∈ entries, indexOf? body o ≠ some (prev + 1)
  step : Leads body prev (prev + 1)
  only : ∀ j, Leads body j (prev + 1) → j = prev

theorem mem_resolve {body : Array Instruction} {offsets : List Int} {j : Nat} :
    j ∈ resolve body offsets ↔ ∃ o ∈ offsets, indexOf? body o = some j := by
  simp [resolve]

/-- Inside a block there is no other way. -/
theorem Placed.onlyFrom_inside {b : Block} (hb : Placed insts.toArray (resolve insts.toArray entries) b)
    {prev : Nat} (low : b.start ≤ prev) (high : prev + 1 < b.stop) :
    OnlyFrom insts.toArray entries prev where
  noEntry o member found := by
    have unled := hb.not_leader_inside (Nat.lt_succ_of_le low) high
    exact unled (mem_leaders.2 ⟨indexOf?_lt found, .inr (.inl (mem_resolve.2 ⟨o, member, found⟩))⟩)
  step := (hb.leads_inside low high).2 rfl
  only j step := by
    have := hb.eq_of_leads_inside (Nat.lt_succ_of_le low) high step
    omega

/-- At the start of a block there is no other way if it is no entry and its sources are the block
above it. -/
theorem Placed.onlyFrom_start_iff {above b : Block} {prev : Nat}
    (ha : Placed insts.toArray (resolve insts.toArray entries) above)
    (hb : Placed insts.toArray (resolve insts.toArray entries) b)
    (stop : above.stop = prev + 1) (start : b.start = prev + 1) :
    (b.isEntry = false ∧ b.preds ≠ [] ∧ ∀ k ∈ b.preds, k = above.id) ↔ OnlyFrom insts.toArray entries prev := by
  have step_iff : above.id ∈ b.preds ↔ Leads insts.toArray prev (prev + 1) := by
    rw [ha.mem_preds_iff hb, stop, start, Nat.add_sub_cancel]
  have entry_iff : b.isEntry = false ↔ ∀ o ∈ entries, indexOf? insts.toArray o ≠ some (prev + 1) := by
    rw [hb.isEntry, start]
    simp [mem_resolve]
  constructor
  · rintro ⟨noEntry, some_pred, all_above⟩
    obtain ⟨k, member⟩ := List.exists_mem_of_ne_nil _ some_pred
    refine ⟨entry_iff.1 noEntry, step_iff.1 (all_above k member ▸ member), fun j step => ?_⟩
    rw [← start] at step
    rcases hb.source_of_leads step with next | ⟨c, hc, last, pred⟩
    · omega
    · have same : c = above := hc.eq_of_id ha (all_above _ pred)
      subst same
      omega
  · intro only
    refine ⟨entry_iff.2 only.noEntry, List.ne_nil_of_mem (step_iff.2 only.step), fun k member => ?_⟩
    obtain ⟨c, hc, rfl⟩ := hb.pred_placed member
    have step : Leads insts.toArray (c.stop - 1) (prev + 1) := start ▸ (hc.mem_preds_iff hb).1 member
    have last := only.only _ step
    have nonemptyC := hc.start_lt_stop
    have nonemptyA := ha.start_lt_stop
    rw [hc.eq_of_common ha (i := prev) ⟨by omega, by omega⟩ ⟨by omega, by omega⟩]

/-- The test for a straight line finds exactly the instructions with one way in. -/
theorem straightLine_succ_iff {prev : Nat} :
    (ofBody name insts entries).straightLine (prev + 1) = true ↔ OnlyFrom insts.toArray entries prev := by
  by_cases bound : prev + 1 < insts.toArray.size
  · obtain ⟨b, hb, inb⟩ : ∃ b, Placed insts.toArray (resolve insts.toArray entries) b ∧
      b.start ≤ prev + 1 ∧ prev + 1 < b.stop := exists_placed bound
    obtain ⟨above, ha, ina⟩ : ∃ a, Placed insts.toArray (resolve insts.toArray entries) a ∧
      a.start ≤ prev ∧ prev < a.stop := exists_placed (Nat.lt_of_succ_lt bound)
    have foundB : (ofBody name insts entries).blockOf? (prev + 1) = some b := blockOf?_eq_some_iff.2 ⟨hb, inb⟩
    have foundA : (ofBody name insts entries).blockOf? prev = some above := blockOf?_eq_some_iff.2 ⟨ha, ina⟩
    simp only [straightLine, foundA, foundB]
    by_cases start : b.start = prev + 1
    · have stop : above.stop = prev + 1 := by
        by_contra further
        have same := ha.eq_of_common hb (i := prev + 1) ⟨by omega, by omega⟩ inb
        subst same
        omega
      rw [← ha.onlyFrom_start_iff hb stop start]
      simp [start, and_assoc]
    · have inside := hb.onlyFrom_inside (show b.start ≤ prev by omega) inb.2
      simp [start, inside]
  · have outside : (ofBody name insts entries).blockOf? (prev + 1) = none := by
      rw [Option.eq_none_iff_forall_ne_some]
      intro b found
      obtain ⟨hb, -, high⟩ := blockOf?_eq_some_iff.1 found
      have := hb.stop_le_size
      omega
    have noWay : ¬ OnlyFrom insts.toArray entries prev := fun only => bound only.step.lt_right
    simp [straightLine, outside, noWay]

end

/-! ## Single steps -/

/-- Control passes from the instruction at `i` to the one at `j`: it falls through to the next
one, or it names an offset that is found there. -/
inductive StepsTo (body : Array Instruction) (i j : Nat) : Prop where
  | next {x : Instruction} (here : body[i]? = some x) (falls : x.fallsThrough = true) (next : j = i + 1)
      (bound : j < body.size)
  | target {x : Instruction} {o : Int} (here : body[i]? = some x) (named : o ∈ x.targets)
      (found : indexOf? body o = some j)

/-- A decoded instruction falls through if it ends no block, or ends one by a test. -/
theorem fallsThrough_iff {x : Instruction} (decoded : x.IsDecoded) :
    x.fallsThrough = true ↔ x.transfer? = none ∨ x.isConditional = true := by
  obtain ⟨transfer, falls, -⟩ | ⟨t, leave, -, transfer, falls, -⟩ | ⟨ts, transfer, falls, -⟩ |
    ⟨transfer, falls, -⟩ := decoded.transfer?_cases
  · simp [transfer, falls]
  · rw [Instruction.isConditional_eq transfer]
    simp [transfer, falls, Transfer.isConditional]
  · rw [Instruction.isConditional_eq transfer]
    simp [falls, Transfer.isConditional]
  · rw [Instruction.isConditional_eq transfer]
    simp [transfer, falls, Transfer.isConditional]

section

variable {raw : List RawInstruction} {insts : List Instruction}

/-- The single steps are the control flow that the edges of blocks are made from. -/
theorem stepsTo_iff_leads (decoded : decode raw = .ok insts) {i j : Nat} :
    StepsTo insts.toArray i j ↔ Leads insts.toArray i j := by
  constructor
  · intro step
    cases step with
    | next here falls next bound =>
      rcases (fallsThrough_iff (isDecoded_at decoded here)).1 falls with none | conditional
      · exact .onward here none next bound
      · exact .otherwise here conditional next bound
    | target here named found => exact .target here named found
  · intro leads
    cases leads with
    | onward here none next bound =>
      exact .next here ((fallsThrough_iff (isDecoded_at decoded here)).2 (.inl none)) next bound
    | target here named found => exact .target here named found
    | otherwise here conditional next bound =>
      exact .next here ((fallsThrough_iff (isDecoded_at decoded here)).2 (.inr conditional)) next bound

/-- **An instruction is on a straight line exactly if it is entered from the one before it and from
nowhere else**: it stands inside the body, no entry is found there, the instruction before it steps
to it, and no other instruction does. -/
theorem straightLine_iff_entered (decoded : decode raw = .ok insts) (name : Text) (entries : List Int) (i : Nat) :
    (ofBody name insts entries).straightLine i = true ↔
      (0 < i ∧ i < insts.length) ∧ (∀ o ∈ entries, indexOf? insts.toArray o ≠ some i) ∧
        StepsTo insts.toArray (i - 1) i ∧ ∀ j, StepsTo insts.toArray j i → j = i - 1 := by
  simp only [stepsTo_iff_leads decoded]
  cases i with
  | zero => simp [straightLine]
  | succ prev =>
    rw [straightLine_succ_iff, Nat.add_sub_cancel]
    constructor
    · intro way
      have bound : prev + 1 < insts.length := by simpa using way.step.lt_right
      exact ⟨⟨Nat.succ_pos prev, bound⟩, way.noEntry, way.step, way.only⟩
    · rintro ⟨-, noEntry, step, only⟩
      exact ⟨noEntry, step, only⟩

/-- A body with a branch to the next instruction, a switch that names the next instruction twice and
an offset that is nowhere, and an instruction behind a return. -/
def sidestep : List RawInstruction :=
  [⟨0, ⟨0x16⟩, .none⟩, ⟨1, ⟨0x2D⟩, .int .int 3⟩, ⟨3, ⟨0x16⟩, .none⟩, ⟨4, ⟨0x45⟩, .offsets [17, 99, 17]⟩,
   ⟨17, ⟨0x2A⟩, .none⟩, ⟨18, ⟨0x00⟩, .none⟩]

/-- In `sidestep` blocks start at 2, 4 and 5. The first two are on the line for all that, the third
is not, as nothing comes to it. -/
theorem straightLine_iff_entered_sidestep :
    ∃ insts, decode sidestep = .ok insts ∧
      (StepsTo insts.toArray 1 2 ∧ ∀ j, StepsTo insts.toArray j 2 → j = 1) ∧
      (StepsTo insts.toArray 3 4 ∧ ∀ j, StepsTo insts.toArray j 4 → j = 3) ∧
      ¬ (StepsTo insts.toArray 4 5 ∧ ∀ j, StepsTo insts.toArray j 5 → j = 4) := by
  obtain ⟨insts, decoded, six, straight, bent⟩ : ∃ insts, decode sidestep = .ok insts ∧ insts.length = 6 ∧
      (∀ i ∈ [2, 4], (ofBody [] insts []).straightLine i = true) ∧
      (ofBody [] insts []).straightLine 5 = false := ⟨_, rfl, rfl, by decide +kernel, by decide +kernel⟩
  have entered := straightLine_iff_entered decoded [] []
  have two := (entered 2).1 (straight 2 (by decide))
  have four := (entered 4).1 (straight 4 (by decide))
  refine ⟨insts, decoded, two.2.2, four.2.2, fun way => ?_⟩
  have five := (entered 5).2 ⟨⟨by decide, by omega⟩, by simp, way⟩
  rw [bent] at five
  cases five

end

end CilAudit.BlockGraph
