import CilAudit.Instruction
import CilAudit.Proofs.Halving

/-!
# Looking up an offset

The search by halving answers only with an instruction that stands at the offset it was asked
for, whatever the order of the body. Where the offsets ascend, as in every body that was
read or loaded, it finds each instruction.
-/

set_option autoImplicit false

namespace CilAudit

/-- The instruction at index `j` stands at `offset`. -/
def StandsAt (body : Array Instruction) (offset : Int) (j : Nat) : Prop :=
  ∃ x, body[j]? = some x ∧ x.offset = offset

/-- Each instruction stands at a higher offset than those before it. -/
def OffsetsAscend (body : Array Instruction) : Prop :=
  ∀ (i j : Nat) (x y : Instruction), i < j → body[i]? = some x → body[j]? = some y → x.offset < y.offset

theorem lt_size_of_getElem? {α : Type} {xs : Array α} {i : Nat} {x : α} (h : xs[i]? = some x) :
    i < xs.size :=
  (Array.getElem?_eq_some_iff.1 h).1

theorem standsAt_of_indexOf? {body : Array Instruction} {offset : Int} {j : Nat}
    (h : indexOf? body offset = some j) : StandsAt body offset j := by
  simp only [indexOf?] at h
  split at h
  · next x found =>
    split at h
    · next same =>
      cases h
      exact ⟨x, found, same⟩
    · cases h
  · cases h

theorem indexOf?_lt {body : Array Instruction} {offset : Int} {j : Nat}
    (h : indexOf? body offset = some j) : j < body.size := by
  obtain ⟨x, found, -⟩ := standsAt_of_indexOf? h
  exact lt_size_of_getElem? found

theorem standsBefore_of_getElem? {body : Array Instruction} {i : Nat} {x : Instruction} (h : body[i]? = some x)
    (offset : Int) : standsBefore body offset i = some (decide (x.offset < offset)) := by
  rw [standsBefore, h, Option.map_some]

/-- The search ends at the instruction that stands at the offset: all those in front of it, and no other, stand
before that offset. -/
theorem lowerBound_eq {body : Array Instruction} (ascend : OffsetsAscend body) {offset : Int} {j : Nat}
    (stands : StandsAt body offset j) : lowerBound body offset = j := by
  obtain ⟨y, hy, rfl⟩ := stands
  have bound := lt_size_of_getElem? hy
  have there : ∀ i < body.size, ∃ x, body[i]? = some x := fun i less => ⟨_, Array.getElem?_eq_getElem less⟩
  apply halve_eq (Nat.zero_le j) (Nat.le_of_lt bound)
  · intro i less
    obtain ⟨x, hx⟩ := there i (by omega)
    rw [standsBefore_of_getElem? hx, decide_eq_true (ascend i j x y less hx hy)]
  · intro i le less
    obtain ⟨x, hx⟩ := there i less
    rw [standsBefore_of_getElem? hx, decide_eq_false]
    rcases Nat.eq_or_lt_of_le le with rfl | after
    · obtain rfl : y = x := Option.some.inj (hy.symm.trans hx)
      exact Int.lt_irrefl _
    · have := ascend j i y x after hy hx
      omega

/-- In an ascending body the search finds exactly what stands at the offset. -/
theorem indexOf?_eq_some_iff {body : Array Instruction} (ascend : OffsetsAscend body) {offset : Int}
    {j : Nat} : indexOf? body offset = some j ↔ StandsAt body offset j := by
  refine ⟨standsAt_of_indexOf?, fun stands => ?_⟩
  obtain ⟨x, found, same⟩ := stands
  have search := lowerBound_eq ascend ⟨x, found, same⟩
  simp only [indexOf?, search, found, same, if_true]

end CilAudit
