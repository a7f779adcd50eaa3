import CilAudit.Provenance
import CilAudit.Proofs.Machine

/-!
# The producer of a value, on every run

A machine that marks each stack entry with the instruction that pushed it says what a producer
is. The backward walk answers only from instructions with one way in, so each of its steps
undoes the last step of every run that comes to the consumer.
-/

set_option autoImplicit false

namespace CilAudit

/-- Where a value comes from: the index of an instruction, or `none` for the outside. -/
abbrev Tag : Type := Option Nat

/-- Executing an instruction of known effect turns `s` into what it leaves below its own results:
the number taken is there, and the rest stays in place. -/
structure Effect.Respects (e : Effect) (s t : List Tag) : Prop where
  room : e.pop ≤ s.length
  made : e.push ≤ t.length
  kept : t.drop e.push = s.drop e.pop

/-- Below the results, the entries are those that were there before. -/
theorem Effect.Respects.getElem?_below {e : Effect} {s t : List Tag} (h : e.Respects s t) {depth : Nat}
    (below : e.push ≤ depth) : t[depth]? = s[depth + e.pop - e.push]? := by
  calc t[depth]? = (t.drop e.push)[depth - e.push]? := by rw [List.getElem?_drop, Nat.add_sub_cancel' below]
    _ = (s.drop e.pop)[depth - e.push]? := by rw [h.kept]
    _ = s[depth + e.pop - e.push]? := by rw [List.getElem?_drop]; congr 1; omega

/-- Results on top of what is left respect the effect, whatever they are marked with. -/
theorem Effect.respects_results {e : Effect} {s : List Tag} (room : e.pop ≤ s.length) (v : Tag) :
    e.Respects s (List.replicate e.push v ++ s.drop e.pop) :=
  ⟨room, by simp, by simp⟩

theorem getElem?_results {n depth : Nat} (v : Tag) (rest : List Tag) (among : depth < n) :
    (List.replicate n v ++ rest)[depth]? = some v := by
  rw [List.getElem?_append_left (by simpa using among)]
  simp [among]

namespace Machine

variable {σ : Type}

/-- The states of `m` hold a stack that the instructions of the body treat by their effects. -/
def Stacked (m : Machine σ) (stack : σ → List Tag) (body : Array Instruction) : Prop :=
  ∀ {i x s t e}, body[i]? = some x → m.exec i x s t → x.effect? = some e → e.Respects (stack s) (stack t)

/-- Visits to the instructions from `low` on such that on a straight line each follows a visit to the
instruction before. -/
def Visits (m : Machine σ) (insts : List Instruction) (entries : List Int) (low : Nat) (V : Nat → σ → Prop) : Prop :=
  ∀ {prev t}, low ≤ prev → BlockGraph.OnlyFrom insts.toArray entries prev → V (prev + 1) t →
    ∃ s x, V prev s ∧ insts.toArray[prev]? = some x ∧ m.exec prev x s t

/-- The visits of all runs from the start. -/
theorem visits_reached (m : Machine σ) (insts : List Instruction) (entries : List Int) :
    m.Visits insts entries 0 (m.Reached (.searched insts entries)) :=
  fun _ only reached => reached_before only reached

/-- On some visit, instruction `i` has just left `v` among its results. -/
inductive Pushed (m : Machine σ) (stack : σ → List Tag) (body : Array Instruction) (V : Nat → σ → Prop) (i : Nat)
    (v : Tag) : Prop where
  | intro {x : Instruction} {e : Effect} {s t : σ} {depth : Nat} (visited : V i s)
      (here : body[i]? = some x) (exec : m.exec i x s t) (effect : x.effect? = some e)
      (among : depth < e.push) (value : (stack t)[depth]? = some v)

end Machine

namespace Provenance

variable {insts : List Instruction} {entries : List Int}

/-- What is kept for every instruction is the answer of the block graph. -/
theorem isStraight_eq_straightLine (i : Nat) :
    (ofBody insts entries).isStraight i = (BlockGraph.ofBody [] insts entries).straightLine i := by
  by_cases bound : i < insts.length
  · simp [isStraight, ofBody, bound]
  · have outside : (BlockGraph.ofBody [] insts entries).straightLine i = false := by
      cases i with
      | zero => rfl
      | succ prev =>
        rw [← Bool.not_eq_true, BlockGraph.straightLine_succ_iff]
        intro way
        exact bound (by simpa using way.step.lt_right)
    simp [isStraight, ofBody, bound, outside]

theorem isStraight_succ {prev : Nat} (h : (ofBody insts entries).isStraight (prev + 1) = true) :
    BlockGraph.OnlyFrom insts.toArray entries prev := by
  rw [isStraight_eq_straightLine] at h
  exact BlockGraph.straightLine_succ_iff.1 h

/-- Counted exactly, the depth in front of an instruction is what it is. -/
theorem below_exact {e : Effect} {depth : Nat} (below : e.push ≤ depth) :
    Counting.exact.below depth e = (depth + e.pop - e.push : Nat) := by
  simp only [Counting.below]
  omega

/-- One step of the backward walk. -/
theorem pusher?_succ_eq_some {p : Provenance} {depth : Int} {i q : Nat} :
    p.pusher? depth (i + 1) = some q ↔
      p.isStraight (i + 1) = true ∧ ∃ x e, p.body[i]? = some x ∧ x.effect? = some e ∧
        if depth < e.push then i = q else p.pusher? (p.counting.below depth e) i = some q := by
  rw [pusher?]
  by_cases straight : p.isStraight (i + 1) = true
  · cases here : p.body[i]? with
    | none => simp [straight]
    | some x =>
      cases effect : x.effect? with
      | none => simp [straight, effect]
      | some e => by_cases among : depth < e.push <;> simp [straight, effect, among]
  · simp [straight]

/-- The walk goes back. -/
theorem pusher?_lt {p : Provenance} {depth : Int} {i q : Nat} (found : p.pusher? depth i = some q) : q < i := by
  induction i generalizing depth with
  | zero => cases found
  | succ i ih =>
    obtain ⟨-, x, e, -, -, rest⟩ := pusher?_succ_eq_some.1 found
    split at rest
    · omega
    · exact Nat.lt_succ_of_lt (ih rest)

/-- The walk is let through everywhere behind its end. -/
theorem pusher?_straight {p : Provenance} {depth : Int} {i q : Nat} (found : p.pusher? depth i = some q) :
    ∀ k, q < k → k ≤ i → p.isStraight k = true := by
  induction i generalizing depth with
  | zero => cases found
  | succ i ih =>
    intro k after before
    obtain ⟨straight, x, e, -, -, rest⟩ := pusher?_succ_eq_some.1 found
    rcases Nat.eq_or_lt_of_le before with rfl | earlier
    · exact straight
    · split at rest
      · omega
      · exact ih rest k after (by omega)

theorem producer?_eq_some {p : Provenance} {c a q : Nat} :
    p.producer? c a = some q ↔ c < p.body.size ∧ p.pusher? a c = some q := by
  by_cases inside : c < p.body.size <;> simp [producer?, inside]

theorem producer?_lt {p : Provenance} {c a q : Nat} (found : p.producer? c a = some q) : q < c :=
  pusher?_lt (producer?_eq_some.1 found).2

theorem producer?_straight {p : Provenance} {c a q : Nat} (found : p.producer? c a = some q) :
    ∀ k, q < k → k ≤ c → p.isStraight k = true :=
  pusher?_straight (producer?_eq_some.1 found).2

variable {σ : Type} {m : Machine σ} {stack : σ → List Tag} {low : Nat} {V : Nat → σ → Prop}

/-- What the walk finds has pushed the entry, on every visit to where the walk began. -/
theorem pusher?_pushed_of (visits : m.Visits insts entries low V) (stacked : m.Stacked stack insts.toArray)
    {depth i q : Nat} {s : σ} (found : (ofBody insts entries).pusher? depth i = some q) (after : low ≤ q)
    (visited : V i s) : ∃ v, (stack s)[depth]? = some v ∧ m.Pushed stack insts.toArray V q v := by
  induction i generalizing depth s with
  | zero => cases found
  | succ i ih =>
    have back := pusher?_lt found
    obtain ⟨straight, x, e, here, effect, rest⟩ := pusher?_succ_eq_some.1 found
    -- The visit came from executing `i`; the walk undoes that step.
    obtain ⟨before, y, earlier, here', exec⟩ := visits (by omega) (isStraight_succ straight) visited
    obtain rfl : x = y := Option.some.inj (here.symm.trans here')
    have respects := stacked here' exec effect
    by_cases among : depth < e.push
    · rw [if_pos (by omega)] at rest
      subst rest
      have value := List.getElem?_eq_getElem (Nat.lt_of_lt_of_le among respects.made)
      exact ⟨_, value, .intro earlier here' exec effect among value⟩
    · have counting : (ofBody insts entries).counting = .exact := rfl
      rw [if_neg (by omega), counting, below_exact (Nat.le_of_not_lt among)] at rest
      rw [respects.getElem?_below (Nat.le_of_not_lt among)]
      exact ih rest earlier

theorem producer?_pushed_of (visits : m.Visits insts entries low V) (stacked : m.Stacked stack insts.toArray)
    {c a q : Nat} {s : σ} (found : (ofBody insts entries).producer? c a = some q) (after : low ≤ q)
    (visited : V c s) : ∃ v, (stack s)[a]? = some v ∧ m.Pushed stack insts.toArray V q v :=
  pusher?_pushed_of visits stacked (producer?_eq_some.1 found).2 after visited

theorem producer?_pushed (stacked : m.Stacked stack insts.toArray) {c a q : Nat} {s : σ}
    (found : (ofBody insts entries).producer? c a = some q)
    (reached : m.Reached (.searched insts entries) c s) :
    ∃ v, (stack s)[a]? = some v ∧ m.Pushed stack insts.toArray (m.Reached (.searched insts entries)) q v :=
  producer?_pushed_of (m.visits_reached insts entries) stacked found (Nat.zero_le q) reached

end Provenance

/-- The machine of origins: each instruction of known effect marks its results with its own index;
any other may leave any stack, as may an entry from outside. -/
def tagging : Machine (List Tag) where
  start s := s = []
  exec i x s t := ∀ e, x.effect? = some e →
    e.pop ≤ s.length ∧ t = List.replicate e.push (some i) ++ s.drop e.pop
  enter _ _ := True

/-- A run goes on by an instruction of known effect. -/
theorem tagging_next {p : Program} {i : Nat} {x : Instruction} {s : List Tag} (e : Effect)
    (reached : tagging.Reached p i s) (here : p.body[i]? = some x) (effect : x.effect? = some e)
    (room : e.pop ≤ s.length) (falls : x.fallsThrough = true) :
    tagging.Reached p (i + 1) (List.replicate e.push (some i) ++ s.drop e.pop) := by
  refine reached.step (.next here (fun e' effect' => ?_) falls)
  obtain rfl : e = e' := Option.some.inj (effect.symm.trans effect')
  exact ⟨room, rfl⟩

theorem tagging_stacked (body : Array Instruction) : tagging.Stacked id body := by
  intro i x s t e _ exec effect
  obtain ⟨room, rfl⟩ := exec e effect
  exact Effect.respects_results room _

theorem tag_of_pushed {body : Array Instruction} {V : Nat → List Tag → Prop} {i : Nat} {v : Tag}
    (pushed : tagging.Pushed id body V i v) : v = some i := by
  obtain ⟨-, -, exec, effect, among, value⟩ := pushed
  obtain ⟨-, rfl⟩ := exec _ effect
  exact Option.some.inj (value.symm.trans (getElem?_results _ _ among))

/-- What is found has pushed the value on every run. -/
theorem Provenance.stack_of_producer? {insts : List Instruction} {entries : List Int} {c a q : Nat}
    (found : (ofBody insts entries).producer? c a = some q) {s : List Tag}
    (reached : tagging.Reached (.searched insts entries) c s) : s[a]? = some (some q) := by
  obtain ⟨v, value, pushed⟩ := producer?_pushed (tagging_stacked _) found reached
  exact tag_of_pushed pushed ▸ value

end CilAudit
