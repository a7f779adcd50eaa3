import CilAudit.Proofs.Producer

/-!
# Merge points on the way to a producer

A walk back is meant to end at every target of a branch, at every entry and behind every
instruction that does not fall through. The test for a straight line asks for the sources of a
block instead, and so lets the walk through at one kind of merge point: the target of a branch that
stands right in front of it, if no other instruction names it. Main statement: no answer passes a
merge point of any other kind. A `leave` to the next instruction is of the one kind, though the
values in front of it are gone behind it.
-/

set_option autoImplicit false

namespace CilAudit

/-- The instruction at `i` names an offset that is found at `j`. -/
def Names (body : Array Instruction) (i j : Nat) : Prop :=
  ∃ x o, body[i]? = some x ∧ o ∈ x.targets ∧ indexOf? body o = some j

/-- The places where more than one way may come together, instruction by instruction. -/
inductive MergePoint (body : Array Instruction) (entries : List Int) (j : Nat) : Prop where
  | target {i : Nat} (named : Names body i j)
  | entry {o : Int} (member : o ∈ entries) (found : indexOf? body o = some j)
  | behind {i : Nat} {x : Instruction} (here : body[i]? = some x) (stops : x.fallsThrough = false)
      (next : j = i + 1)

/-- The instruction at `prev` names the one behind it, and that is the only way there. -/
structure StepsAside (body : Array Instruction) (entries : List Int) (prev : Nat) : Prop where
  named : Names body prev (prev + 1)
  alone : ∀ i, Names body i (prev + 1) → i = prev
  noEntry : ∀ o ∈ entries, indexOf? body o ≠ some (prev + 1)

namespace BlockGraph

variable {raw : List RawInstruction} {insts : List Instruction} {entries : List Int} {prev : Nat}

/-- An instruction has one way in exactly if it is no merge point or the one in front steps aside. -/
theorem onlyFrom_iff_mergePoint (decoded : decode raw = .ok insts) (bound : prev + 1 < insts.toArray.size) :
    OnlyFrom insts.toArray entries prev ↔
      ¬ MergePoint insts.toArray entries (prev + 1) ∨ StepsAside insts.toArray entries prev := by
  have before : insts.toArray[prev]? = some insts.toArray[prev] := Array.getElem?_eq_getElem _
  constructor
  · intro way
    have alone : ∀ i, Names insts.toArray i (prev + 1) → i = prev := by
      rintro i ⟨x, o, here, named, found⟩
      exact way.only i (.target here named found)
    refine or_iff_not_imp_right.2 fun keeps merge => ?_
    cases merge with
    | target named =>
      obtain rfl := alone _ named
      exact keeps ⟨named, alone, way.noEntry⟩
    | entry member found => exact way.noEntry _ member found
    | behind here stops next =>
      obtain rfl : prev = _ := Nat.succ.inj next
      -- The step there is not by falling through, so it is along a target.
      cases (stepsTo_iff_leads decoded).2 way.step with
      | next here' falls =>
        obtain rfl := Option.some.inj (here.symm.trans here')
        rw [stops] at falls
        cases falls
      | target here' named found => exact keeps ⟨⟨_, _, here', named, found⟩, alone, way.noEntry⟩
  · rintro (clear | aside)
    · have falls : insts.toArray[prev].fallsThrough = true := by
        by_contra stops
        exact clear (.behind before (Bool.eq_false_iff.2 stops) rfl)
      refine ⟨fun o member found => clear (.entry member found),
        (stepsTo_iff_leads decoded).1 (.next before falls rfl bound), fun j step => ?_⟩
      cases (stepsTo_iff_leads decoded).2 step with
      | next _ _ next => omega
      | target here named found => exact absurd (.target ⟨_, _, here, named, found⟩) clear
    · obtain ⟨x, o, here, named, found⟩ := aside.named
      refine ⟨aside.noEntry, .target here named found, fun j step => ?_⟩
      cases (stepsTo_iff_leads decoded).2 step with
      | next _ _ next => omega
      | target here named found => exact aside.alone j ⟨_, _, here, named, found⟩

end BlockGraph

namespace Provenance

variable {raw : List RawInstruction} {insts : List Instruction} {entries : List Int}

/-- Where a walk is let through. -/
theorem isStraight_succ_iff (decoded : decode raw = .ok insts) (entries : List Int) (prev : Nat) :
    (ofBody insts entries).isStraight (prev + 1) = true ↔
      prev + 1 < insts.length ∧
        (¬ MergePoint insts.toArray entries (prev + 1) ∨ StepsAside insts.toArray entries prev) := by
  rw [isStraight_eq_straightLine, BlockGraph.straightLine_succ_iff]
  constructor
  · intro way
    have bound := way.step.lt_right
    exact ⟨by simpa using bound, (BlockGraph.onlyFrom_iff_mergePoint decoded bound).1 way⟩
  · rintro ⟨bound, clear⟩
    exact (BlockGraph.onlyFrom_iff_mergePoint decoded (by simpa using bound)).2 clear

/-- Whatever the depth, a walk that ends at `q` was let through all the way from `q`. -/
theorem wordProducer?_straight {p : Provenance} {c a : Int} {q : Nat} (found : p.wordProducer? c a = some q) :
    ∀ j, q < j → (j : Int) ≤ c → p.isStraight j = true := by
  rw [wordProducer?] at found
  split at found
  case isFalse => cases found
  case isTrue =>
    intro j after before
    exact producer?_straight found j after (by omega)

/-- **Merge points that an answer passes.** Between a producer and its consumer a merge point can only
be the target of the instruction right in front of it and of no other, and is no entry; hence no
answer passes any merge point of a body in which no instruction steps aside. -/
theorem wordProducer?_merges (decoded : decode raw = .ok insts) {c a : Int} {q : Nat}
    (found : (ofBody insts entries).wordProducer? c a = some q) :
    (∀ j, q < j → (j : Int) ≤ c → MergePoint insts.toArray entries j →
      StepsAside insts.toArray entries (j - 1)) ∧
    ((∀ prev, ¬ StepsAside insts.toArray entries prev) →
      ∀ j, q < j → (j : Int) ≤ c → ¬ MergePoint insts.toArray entries j) := by
  have passes : ∀ j, q < j → (j : Int) ≤ c → MergePoint insts.toArray entries j →
      StepsAside insts.toArray entries (j - 1) := by
    intro j after before merge
    obtain ⟨prev, rfl⟩ : ∃ prev, j = prev + 1 := ⟨j - 1, by omega⟩
    have straight := wordProducer?_straight found (prev + 1) after before
    exact ((isStraight_succ_iff decoded entries prev).1 straight).2.resolve_left (not_not_intro merge)
  exact ⟨passes, fun none j after before merge => none _ (passes j after before merge)⟩

/-- A number, a `leave` to the next instruction, and a `pop` there. -/
def hurdle : List RawInstruction :=
  [⟨0, ⟨0x16⟩, .none⟩, ⟨1, ⟨0xDE⟩, .int .int 3⟩, ⟨3, ⟨0x26⟩, .none⟩, ⟨4, ⟨0x2A⟩, .none⟩]

/-- The body of `hurdle`, what is asked of it, and the merge point in it. -/
theorem hurdle_decoded :
    ∃ insts, decode hurdle = .ok insts ∧ (ofBody insts []).wordProducer? 2 0 = some 0 ∧
      insts[1]?.map Instruction.action = some (.branch 3 true) ∧ MergePoint insts.toArray [] 2 := by
  refine ⟨_, rfl, by decide +kernel, rfl, .behind (i := 1) rfl ?_ rfl⟩
  decide +kernel

/-- The merge point that the answer in `hurdle` passes is the target of the `leave` in front of it. -/
theorem wordProducer?_merges_hurdle :
    ∃ insts, decode hurdle = .ok insts ∧ (ofBody insts []).wordProducer? 2 0 = some 0 ∧
      MergePoint insts.toArray [] 2 ∧ StepsAside insts.toArray [] 1 := by
  obtain ⟨insts, decoded, found, -, merge⟩ := hurdle_decoded
  exact ⟨insts, decoded, found, merge, (wordProducer?_merges decoded found).1 2 (by decide) (by decide) merge⟩

/-- An answer passes a merge point behind a `leave`: the number that the `pop` of `hurdle` is said to take
is no longer on the stack there. -/
theorem wordProducer?_passes_leave :
    ∃ insts, decode hurdle = .ok insts ∧ insts[1]?.map Instruction.action = some (.branch 3 true) ∧
      ¬ ∀ q, (ofBody insts []).wordProducer? 2 0 = some q →
        ∀ j, q < j → j ≤ 2 → ¬ MergePoint insts.toArray [] j := by
  obtain ⟨insts, decoded, found, leave, merge⟩ := hurdle_decoded
  exact ⟨insts, decoded, leave, fun never => never 0 found 2 (by decide) (Nat.le_refl 2) merge⟩

end Provenance

end CilAudit
