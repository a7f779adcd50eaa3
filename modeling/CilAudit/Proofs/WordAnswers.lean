import CilAudit.Proofs.ForwardRun
import CilAudit.Proofs.Origin

/-!
# Answers in machine numbers

Questions about a body are asked and answered in 64 bits. As long as the depths on the way back fit, these
walks are the ones that count exactly, and what they find is right on every run. Too great a depth
makes the count wrap, and then the answer is an instruction that has nothing to do with the question.
For that a body has to take more values than 64 signed bits can count, or the question has to
ask for a place that deep.
-/

set_option autoImplicit false

namespace CilAudit.Provenance

variable {insts : List Instruction} {entries : List Int} {c a i : Nat}

/-! ## Depths that fit -/

/-- All depths on the way back from a question are numbers of 64 bits. -/
def Fits (insts : List Instruction) (entries : List Int) (c a : Nat) : Prop :=
  ∀ s, IsGreatest {k | k ≤ c ∧ Ends insts entries k} s → DepthsFit insts.toArray s c a

/-- So are those on the way back from the copies that a value is followed through. -/
structure ValueFits (insts : List Instruction) (entries : List Int) (c a : Nat) : Prop where
  asked : Fits insts entries c a
  copies : ∀ k < c, Fits insts entries k 0

/-- How many values the instructions before index `c` take altogether. -/
def taken (body : Array Instruction) : Nat → Nat
  | 0 => 0
  | c + 1 => taken body c + (effectAt? body c).elim 0 Effect.pop

theorem taken_mono {body : Array Instruction} {c d : Nat} (le : c ≤ d) : taken body c ≤ taken body d := by
  induction le with
  | refl => exact Nat.le_refl _
  | step _ ih => exact Nat.le_trans ih (Nat.le_add_right _ _)

theorem taken_le_all (body : Array Instruction) (c : Nat) : taken body c ≤ taken body body.size := by
  rcases Nat.le_total c body.size with inside | behind
  · exact taken_mono inside
  · induction behind with
    | refl => exact Nat.le_refl _
    | step le ih =>
      have nothing : body[_]? = none := Array.getElem?_eq_none le
      rw [taken, effectAt?, nothing]
      exact ih

/-- What one instruction takes is counted among the rest. -/
theorem add_taken_le {body : Array Instruction} {c a : Nat} {e : Effect} (effect : effectAt? body c = some e)
    (taking : a ≤ e.pop) : a + taken body c ≤ taken body body.size := by
  have next := taken_le_all body (c + 1)
  rw [taken, effect, Option.elim_some] at next
  omega

/-- On the way back a depth grows by what is taken, at most. -/
theorem depthAt_le {body : Array Instruction} {depth : Nat} (le : i ≤ c) :
    depthAt body i c depth ≤ depth + taken body c := by
  induction c generalizing depth with
  | zero =>
    obtain rfl := Nat.le_zero.1 le
    rw [depthAt_self]
    exact Nat.le_add_right _ _
  | succ c ih =>
    rcases Nat.eq_or_lt_of_le le with rfl | before
    · rw [depthAt_self]
      exact Nat.le_add_right _ _
    · have front := @ih (depthInFront body c depth) (by omega)
      have grown : depthInFront body c depth ≤ depth + (effectAt? body c).elim 0 Effect.pop := by
        rw [depthInFront]
        cases effectAt? body c with
        | none => exact Nat.le_add_right _ _
        | some e => exact Nat.sub_le _ _
      have last : depthAt body i (c + 1) depth = depthAt body i c (depthInFront body c depth) := by
        rw [depthAt, range'_succ_sub (by omega), List.foldr_append]
        rfl
      rw [last, taken]
      omega

/-- A body that takes few values, asked for a place that is not deep, has no depths that do not fit. -/
theorem fits_of_taken (entries : List Int) (few : a + taken insts.toArray c < 0x8000000000000000) :
    Fits insts entries c a := by
  intro s _ i _ before _
  exact Nat.lt_of_le_of_lt (depthAt_le (Nat.le_of_lt before)) few

theorem valueFits_of_taken (entries : List Int) (few : a + taken insts.toArray c < 0x8000000000000000) :
    ValueFits insts entries c a where
  asked := fits_of_taken entries few
  copies k before := by
    have less : taken insts.toArray k ≤ taken insts.toArray c := taken_mono (Nat.le_of_lt before)
    exact fits_of_taken entries (by omega)

/-! ## The walks are the same -/

theorem Fits.producer?_eq (fits : Fits insts entries c a) (word : a < 0x8000000000000000) :
    ((ofBody insts entries).counted .word).producer? c a = (ofBody insts entries).producer? c a := by
  obtain ⟨s, greatest⟩ := exists_last_end insts entries c
  have walk := (stretch_of_isGreatest greatest).word_eq word (fits s greatest)
  rw [producer?, producer?, walk]
  rfl

theorem lastStore?_counted (p : Provenance) (counting : Counting) (slot i : Nat) :
    (p.counted counting).lastStore? slot i = p.lastStore? slot i := by
  induction i with
  | zero => rfl
  | succ i ih =>
    rw [lastStore?, lastStore?, ih]
    rfl

section

variable (fits : ∀ k ≤ i, Fits insts entries k 0)

include fits

theorem copySource?_word :
    ((ofBody insts entries).counted .word).copySource? i = (ofBody insts entries).copySource? i := by
  have top : ∀ k ≤ i, ((ofBody insts entries).counted .word).producer? k 0 = (ofBody insts entries).producer? k 0 :=
    fun k le => (fits k le).producer?_eq (by decide)
  have store (slot : Nat) :
      (((ofBody insts entries).lastStore? slot i).bind fun k => ((ofBody insts entries).counted .word).producer? k 0) =
        ((ofBody insts entries).lastStore? slot i).bind fun k => (ofBody insts entries).producer? k 0 := by
    cases stored : (ofBody insts entries).lastStore? slot i with
    | none => rfl
    | some k => exact top k (Nat.le_of_lt (lastStore?_lt stored))
  have body : ((ofBody insts entries).counted .word).body = (ofBody insts entries).body := rfl
  simp only [copySource?, body, top i (Nat.le_refl i), lastStore?_counted, store]

theorem origin?_word (hops : Nat) :
    ((ofBody insts entries).counted .word).origin? hops i = (ofBody insts entries).origin? hops i := by
  induction hops generalizing i with
  | zero => rfl
  | succ hops ih =>
    rw [origin?, origin?, copySource?_word fits]
    cases copied : (ofBody insts entries).copySource? i with
    | none => rfl
    | some source =>
      cases source with
      | none => rfl
      | some q =>
        have before := copySource?_lt copied
        exact ih fun k le => fits k (by omega)

end

theorem ValueFits.value?_eq (fits : ValueFits insts entries c a) (word : a < 0x8000000000000000) :
    ((ofBody insts entries).counted .word).value? c a = (ofBody insts entries).value? c a := by
  rw [value?, value?, fits.asked.producer?_eq word]
  cases produced : (ofBody insts entries).producer? c a with
  | none => rfl
  | some q =>
    have before := producer?_lt produced
    exact origin?_word (fun k le => fits.copies k (by omega)) maxHops

/-! ## On every run -/

/-- **A producer has pushed the value on every run.** The instruction found stands before the consumer. If the
depths fit, then whenever the consumer is reached, by whatever loops and entries, the entry asked
for is there and is its result. -/
theorem wordProducer?_sound {c a : Int} {q : Nat} (found : (ofBody insts entries).wordProducer? c a = some q) :
    0 ≤ a ∧ (q : Int) < c ∧
    (a < 0x8000000000000000 → Fits insts entries c.toNat a.toNat →
      ∀ p, Program.Follows insts entries p → ∀ s, tagging.Reached p c.toNat s → s[a.toNat]? = some (some q)) := by
  rw [wordProducer?] at found
  split at found
  case isFalse => cases found
  case isTrue natural =>
    have before := producer?_lt found
    refine ⟨natural.2, by omega, fun word fits p follows s reached => ?_⟩
    rw [fits.producer?_eq (by omega)] at found
    exact stack_of_producer? found ((Machine.reached_iff_of_follows follows).1 reached)

/-- A loop that tests a copied sum, entered from outside in its middle. -/
def tally : List RawInstruction :=
  [⟨0, ⟨0x16⟩, .none⟩, ⟨1, ⟨0x0A⟩, .none⟩, ⟨2, ⟨0x06⟩, .none⟩, ⟨3, ⟨0x17⟩, .none⟩, ⟨4, ⟨0x58⟩, .none⟩,
   ⟨5, ⟨0x25⟩, .none⟩, ⟨6, ⟨0x2D⟩, .int .int 2⟩, ⟨8, ⟨0x2A⟩, .none⟩]

/-- Behind the loop of `tally` the sum is still there, and some run comes that far. -/
theorem wordProducer?_sound_tally :
    ∃ insts, decode tally = .ok insts ∧ (ofBody insts [3]).wordProducer? 7 0 = some 5 ∧ Fits insts [3] 7 0 ∧
      (∃ s, tagging.Reached (.searched insts [3]) 7 s) ∧
      ∀ s, tagging.Reached (.searched insts [3]) 7 s → s[0]? = some (some 5) := by
  have fits : ∀ insts, decode tally = .ok insts → Fits insts [3] 7 0 := by
    rintro insts decoded
    obtain rfl := Except.ok.inj decoded
    exact fits_of_taken [3] (by decide +kernel)
  refine ⟨_, rfl, by decide +kernel, fits _ rfl, ⟨[some 5], ?_⟩, ?_⟩
  · refine tagging_next (i := 6) (s := [some 5, some 5]) ⟨1, 0⟩ ?_ rfl rfl (by decide) rfl
    refine tagging_next (i := 5) (s := [some 4]) ⟨1, 2⟩ ?_ rfl rfl (by decide) rfl
    refine tagging_next (i := 4) (s := [some 3, none]) ⟨2, 1⟩ ?_ rfl rfl (by decide) rfl
    refine tagging_next (i := 3) (s := [none]) ⟨0, 1⟩ ?_ rfl rfl (by decide) rfl
    refine .step (i := 0) (s := []) ⟨[], rfl, .refl⟩ ?_
    exact .enter (List.mem_singleton.2 rfl) (by simp only [Program.searched]; decide +kernel) trivial
  · exact (wordProducer?_sound (c := 7) (a := 0) (by decide +kernel)).2.2 (by decide) (fits _ rfl) _ .searched

theorem addition_resolves (decoded : decode addition = .ok insts) : Program.Resolves insts [] := by
  obtain rfl := Except.ok.inj decoded
  exact Program.resolves_of_untargeted (by decide +kernel)

/-- In `addition` the number above the sum is named as what lies at the greatest depth, though a run comes
there with nothing on the stack but the sum. -/
theorem wordProducer?_names_absent :
    ∃ insts, decode addition = .ok insts ∧ (ofBody insts []).wordProducer? 3 0x7FFFFFFFFFFFFFFF = some 1 ∧
      ∃ s, tagging.Reached (.searched insts []) 3 s ∧ tagging.Reached (.standing insts []) 3 s ∧
        s[0x7FFFFFFFFFFFFFFF]? = none := by
  have run (insts : List Instruction) (decoded : decode addition = .ok insts) :
      tagging.Reached (.searched insts []) 3 [some 2] := by
    obtain rfl := Except.ok.inj decoded
    refine tagging_next (i := 2) (s := [some 1, some 0]) ⟨2, 1⟩ ?_ rfl rfl (by decide) rfl
    refine tagging_next (i := 1) (s := [some 0]) ⟨0, 1⟩ ?_ rfl rfl (by decide) rfl
    exact tagging_next (i := 0) (s := []) ⟨0, 1⟩ ⟨[], rfl, .refl⟩ rfl rfl (by decide) rfl
  obtain ⟨insts, decoded, -, -, -, -, wrapped⟩ := addition_decoded
  have reached := run insts decoded
  refine ⟨insts, decoded, wrapped, [some 2], reached, ?_, by simp⟩
  exact (Machine.reached_iff_of_follows (.standing (addition_resolves decoded))).2 reached

/-- **The value found is the value on every run.** The instruction found stands before the consumer and is no
copy. If the depths fit, then whenever the consumer is reached, the entry asked for carries its mark.
No address of a local is excluded, as this machine writes through none. -/
theorem wordValue?_sound {raw : List RawInstruction} (decoded : decode raw = .ok insts) {c a : Int} {v : Nat}
    (found : (ofBody insts entries).wordValue? c a = some v) :
    0 ≤ a ∧ (v : Int) < c ∧
    (∃ x, insts[v]? = some x ∧ x.code ≠ .dup ∧ ∀ slot, x.action ≠ .loadLocal slot false) ∧
    (a < 0x8000000000000000 → ValueFits insts entries c.toNat a.toNat →
      ∀ p, Program.Follows insts entries p → ∀ s, moving.Reached p c.toNat s →
        s.stack[a.toNat]? = some (some v)) := by
  rw [wordValue?] at found
  split at found
  case isFalse => cases found
  case isTrue natural =>
    obtain ⟨before, noCopy⟩ := value?_noCopy decoded rfl found
    refine ⟨natural.2, by omega, noCopy, fun word fits p follows s reached => ?_⟩
    rw [fits.value?_eq (by omega)] at found
    exact stack_of_value? decoded found ((Machine.reached_iff_of_follows follows).1 reached)

/-- A loop in which a constant is copied, stored twice and loaded behind a test. -/
def relay : List RawInstruction :=
  [⟨0, ⟨0x1B⟩, .none⟩, ⟨1, ⟨0x25⟩, .none⟩, ⟨2, ⟨0x0B⟩, .none⟩, ⟨3, ⟨0x0A⟩, .none⟩, ⟨4, ⟨0x07⟩, .none⟩,
   ⟨5, ⟨0x2D⟩, .int .int 0⟩, ⟨7, ⟨0x07⟩, .none⟩, ⟨8, ⟨0x26⟩, .none⟩, ⟨9, ⟨0x2A⟩, .none⟩]

/-- The value loaded last in `relay` is the constant, and some run comes that far. -/
theorem wordValue?_sound_relay :
    ∃ insts, decode relay = .ok insts ∧ (ofBody insts [9]).wordValue? 7 0 = some 0 ∧ ValueFits insts [9] 7 0 ∧
      (∃ s, moving.Reached (.searched insts [9]) 7 s) ∧
      ∀ s, moving.Reached (.searched insts [9]) 7 s → s.stack[0]? = some (some 0) := by
  have fits : ∀ insts, decode relay = .ok insts → ValueFits insts [9] 7 0 := by
    rintro insts decoded
    obtain rfl := Except.ok.inj decoded
    exact valueFits_of_taken [9] (by decide +kernel)
  let once : Nat → Tag := Function.update (fun _ => none) 1 (some 0)
  let twice : Nat → Tag := Function.update once 0 (some 0)
  refine ⟨_, rfl, by decide +kernel, fits _ rfl, ⟨⟨[twice 1], twice⟩, ?_⟩, ?_⟩
  · refine moving_next (i := 6) (s := ⟨[], twice⟩) ?_ rfl (@Moves.load _ _ _ 1 rfl) rfl
    refine moving_next (i := 5) (s := ⟨[twice 1], twice⟩) ?_ rfl (.make (e := ⟨1, 0⟩) ?_ rfl (by simp)) rfl
    refine moving_next (i := 4) (s := ⟨[], twice⟩) ?_ rfl (@Moves.load _ _ _ 1 rfl) rfl
    refine moving_next (i := 3) (s := ⟨[some 0], once⟩) ?_ rfl (.store rfl rfl) rfl
    refine moving_next (i := 2) (s := ⟨[some 0, some 0], fun _ => none⟩) ?_ rfl (.store rfl rfl) rfl
    refine moving_next (i := 1) (s := ⟨[some 0], fun _ => none⟩) ?_ rfl (.dup rfl rfl) rfl
    refine moving_next (i := 0) (s := ⟨[], fun _ => none⟩) ⟨_, rfl, .refl⟩ rfl
      (.make (e := ⟨0, 1⟩) ?_ rfl (by simp)) rfl
    all_goals decide +kernel
  · exact (wordValue?_sound (show decode relay = _ from rfl) (c := 7) (a := 0) (by decide +kernel)).2.2.2
      (by decide) (fits _ rfl) _ .searched

/-- So it is with values: in `addition` the number is named as the value at the greatest depth, where a run
has nothing. -/
theorem wordValue?_names_absent :
    ∃ insts, decode addition = .ok insts ∧ (ofBody insts []).wordValue? 3 0x7FFFFFFFFFFFFFFF = some 1 ∧
      ∃ s, moving.Reached (.searched insts []) 3 s ∧ moving.Reached (.standing insts []) 3 s ∧
        s.stack[0x7FFFFFFFFFFFFFFF]? = none := by
  have run (insts : List Instruction) (decoded : decode addition = .ok insts) :
      moving.Reached (.searched insts []) 3 ⟨[some 2], fun _ => none⟩ := by
    obtain rfl := Except.ok.inj decoded
    refine moving_next (i := 2) (s := ⟨[some 1, some 0], fun _ => none⟩) ?_ rfl
      (.make (e := ⟨2, 1⟩) ?_ rfl (by simp)) rfl
    refine moving_next (i := 1) (s := ⟨[some 0], fun _ => none⟩) ?_ rfl (.make (e := ⟨0, 1⟩) ?_ rfl (by simp)) rfl
    refine moving_next (i := 0) (s := ⟨[], fun _ => none⟩) ⟨_, rfl, .refl⟩ rfl
      (.make (e := ⟨0, 1⟩) ?_ rfl (by simp)) rfl
    all_goals decide +kernel
  have named : ∃ insts, decode addition = .ok insts ∧
      (ofBody insts []).wordValue? 3 0x7FFFFFFFFFFFFFFF = some 1 := ⟨_, rfl, by decide +kernel⟩
  obtain ⟨insts, decoded, wrapped⟩ := named
  have reached := run insts decoded
  refine ⟨insts, decoded, wrapped, _, reached, ?_, by simp⟩
  exact (Machine.reached_iff_of_follows (.standing (addition_resolves decoded))).2 reached

end CilAudit.Provenance
