import CilAudit.Proofs.StraightLine

/-!
# Machines that run a body

Where control goes is the same for every machine: on to the next instruction, along a target,
or, at any moment, to an entry. What an instruction does to the state is the machine's
own. The one fact the analyses need is that a visit to an instruction on a straight line follows
a visit to the instruction before it.
-/

set_option autoImplicit false

namespace CilAudit

/-- What a body does to a state of type `σ`. -/
structure Machine (σ : Type) where
  /-- The states in which the first instruction is reached. -/
  start : σ → Prop
  /-- Executing the instruction at an index may turn one state into the other. -/
  exec : Nat → Instruction → σ → σ → Prop
  /-- Entering from outside may turn one state into the other. -/
  enter : σ → σ → Prop

/-- What a machine runs: a body, the offsets at which it is entered from outside, and the
instructions an offset leads to. -/
structure Program where
  body : Array Instruction
  entries : List Int
  lands : Int → Nat → Prop

namespace Program

/-- Offsets lead to where the search finds them. -/
def searched (insts : List Instruction) (entries : List Int) : Program :=
  ⟨insts.toArray, entries, fun o j => indexOf? insts.toArray o = some j⟩

/-- Offsets lead to whatever stands there. -/
def standing (insts : List Instruction) (entries : List Int) : Program :=
  ⟨insts.toArray, entries, StandsAt insts.toArray⟩

/-- Whatever stands at an offset that control can go to is found there. -/
def Resolves (insts : List Instruction) (entries : List Int) : Prop :=
  ∀ o j, (o ∈ entries ∨ ∃ x ∈ insts, o ∈ x.targets) → StandsAt insts.toArray o j → indexOf? insts.toArray o = some j

theorem resolves_of_ascend {insts : List Instruction} (ascend : OffsetsAscend insts.toArray) (entries : List Int) :
    Resolves insts entries :=
  fun _ _ _ stands => (indexOf?_eq_some_iff ascend).2 stands

/-- Where control goes along no offset, there is none to resolve. -/
theorem resolves_of_untargeted {insts : List Instruction} (none : ∀ x ∈ insts, x.targets = []) : Resolves insts [] := by
  rintro o j (entry | ⟨x, member, named⟩) -
  · cases entry
  · rw [none x member] at named
    cases named

/-- The program follows the offsets of a body: to where they are found, or to whatever stands there in a
body that resolves them. -/
inductive Follows (insts : List Instruction) (entries : List Int) : Program → Prop where
  | searched : Follows insts entries (searched insts entries)
  | standing (resolves : Resolves insts entries) : Follows insts entries (standing insts entries)

end Program

namespace Machine

variable {σ : Type}

/-- One step of a run: from an index about to be executed, and a state, to the next. -/
inductive Step (m : Machine σ) (p : Program) : Nat × σ → Nat × σ → Prop where
  | next {i : Nat} {x : Instruction} {s t : σ} (here : p.body[i]? = some x) (exec : m.exec i x s t)
      (falls : x.fallsThrough = true) : Step m p (i, s) (i + 1, t)
  | jump {i j : Nat} {x : Instruction} {s t : σ} {o : Int} (here : p.body[i]? = some x)
      (exec : m.exec i x s t) (named : o ∈ x.targets) (lands : p.lands o j) : Step m p (i, s) (j, t)
  | enter {i j : Nat} {s t : σ} {o : Int} (entry : o ∈ p.entries) (lands : p.lands o j)
      (enters : m.enter s t) : Step m p (i, s) (j, t)

/-- Some run comes to index `i` in state `s`. -/
def Reached (m : Machine σ) (p : Program) (i : Nat) (s : σ) : Prop :=
  ∃ s₀, m.start s₀ ∧ Relation.ReflTransGen (m.Step p) (0, s₀) (i, s)

/-- In a body that resolves its offsets, going to what stands there is going to what is found. -/
theorem step_standing (m : Machine σ) {insts : List Instruction} {entries : List Int}
    (resolves : Program.Resolves insts entries) :
    m.Step (.standing insts entries) = m.Step (.searched insts entries) := by
  funext a b
  refine propext ⟨fun step => ?_, fun step => ?_⟩
  · cases step with
    | next here exec falls => exact .next here exec falls
    | jump here exec named lands =>
      have member := List.mem_of_getElem? (by simpa [Program.standing] using here)
      exact .jump here exec named (resolves _ _ (.inr ⟨_, member, named⟩) lands)
    | enter entry lands enters => exact .enter entry (resolves _ _ (.inl entry) lands) enters
  · cases step with
    | next here exec falls => exact .next here exec falls
    | jump here exec named lands => exact .jump here exec named (standsAt_of_indexOf? lands)
    | enter entry lands enters => exact .enter entry (standsAt_of_indexOf? lands) enters

theorem step_eq_of_follows (m : Machine σ) {insts : List Instruction} {entries : List Int} {p : Program}
    (follows : p.Follows insts entries) : m.Step p = m.Step (.searched insts entries) := by
  cases follows with
  | searched => rfl
  | standing resolves => exact m.step_standing resolves

theorem reached_iff_of_follows {m : Machine σ} {insts : List Instruction} {entries : List Int} {p : Program}
    (follows : p.Follows insts entries) {i : Nat} {s : σ} :
    m.Reached p i s ↔ m.Reached (.searched insts entries) i s := by
  rw [Reached, Reached, m.step_eq_of_follows follows]

theorem Reached.step {m : Machine σ} {p : Program} {i j : Nat} {s t : σ} (reached : m.Reached p i s)
    (step : m.Step p (i, s) (j, t)) : m.Reached p j t := by
  obtain ⟨s₀, start, run⟩ := reached
  exact ⟨s₀, start, run.tail step⟩

end Machine

/-- **Backward step.** On a straight line every visit comes from executing the instruction before, unless
the run begins there. -/
theorem Machine.path_before {σ : Type} {m : Machine σ} {insts : List Instruction} {entries : List Int}
    {first prev : Nat} {s₀ t : σ} (only : BlockGraph.OnlyFrom insts.toArray entries prev) (other : first ≠ prev + 1)
    (run : Relation.ReflTransGen (m.Step (.searched insts entries)) (first, s₀) (prev + 1, t)) :
    ∃ s x, Relation.ReflTransGen (m.Step (.searched insts entries)) (first, s₀) (prev, s) ∧
      insts.toArray[prev]? = some x ∧ m.exec prev x s t := by
  rcases Relation.ReflTransGen.cases_tail run with same | ⟨⟨i, s⟩, earlier, step⟩
  · exact absurd (congrArg Prod.fst same).symm other
  · cases step with
    | next here exec falls => exact ⟨s, _, earlier, here, exec⟩
    | jump here exec named lands =>
      obtain rfl := only.only i (.target here named lands)
      exact ⟨s, _, earlier, here, exec⟩
    | enter entry lands => exact absurd lands (only.noEntry _ entry)

theorem Machine.reached_before {σ : Type} {m : Machine σ} {insts : List Instruction} {entries : List Int}
    {prev : Nat} {t : σ} (only : BlockGraph.OnlyFrom insts.toArray entries prev)
    (reached : m.Reached (.searched insts entries) (prev + 1) t) :
    ∃ s x, m.Reached (.searched insts entries) prev s ∧ insts.toArray[prev]? = some x ∧ m.exec prev x s t := by
  obtain ⟨s₀, start, run⟩ := reached
  obtain ⟨s, x, earlier, here, exec⟩ := path_before only (Nat.zero_ne_add_one prev) run
  exact ⟨s, x, ⟨s₀, start, earlier⟩, here, exec⟩

/-- **Forward step.** On a straight line executing an instruction leads to the next one. -/
theorem Machine.step_onward {σ : Type} {m : Machine σ} {raw : List RawInstruction} {insts : List Instruction}
    {entries : List Int} (decoded : decode raw = .ok insts) {prev : Nat} {x : Instruction} {s t : σ}
    (only : BlockGraph.OnlyFrom insts.toArray entries prev) (here : insts.toArray[prev]? = some x)
    (exec : m.exec prev x s t) : m.Step (.searched insts entries) (prev, s) (prev + 1, t) := by
  cases (BlockGraph.stepsTo_iff_leads decoded).2 only.step with
  | next here' falls =>
    obtain rfl := Option.some.inj (here.symm.trans here')
    exact .next here exec falls
  | target here' named found =>
    obtain rfl := Option.some.inj (here.symm.trans here')
    exact .jump here exec named found

end CilAudit
