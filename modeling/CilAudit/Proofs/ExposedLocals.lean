import CilAudit.Proofs.WordAnswers

/-!
# Values behind exposed locals

Once the address of a local is taken, the local may be written by what is no store to it. The
machine here keeps the locals exposed so far, and lets chosen instructions replace any of
them. The search for an origin gives up where the address is taken between a store and a load, but
not where it was taken before the store. Main statement: the value found is the value on every run
exactly if no local that the search goes through is exposed at its store, on a run that goes on
to the consumer, while something between the store and the load may write through an address.
-/

set_option autoImplicit false

namespace CilAudit

/-- The values at hand, and the locals of which the address was taken. -/
structure Exposure where
  frame : Frame
  exposed : List Nat

/-- The locals that an instruction takes the address of. -/
def Instruction.exposes (x : Instruction) : List Nat :=
  match x.action with
  | .loadLocal slot true => [slot]
  | _ => []

theorem Instruction.mem_exposes {x : Instruction} {slot : Nat} :
    slot ∈ x.exposes ↔ x.action = .loadLocal slot true := by
  rw [exposes]
  split
  case h_1 n action => simp [action, eq_comm]
  case h_2 other => simpa using other slot

/-- What instruction `x` may do if those that `writes` picks write through addresses: what it does to
the frame, after which exposed locals may hold anything. -/
inductive Aliases (writes : Instruction → Bool) (i : Nat) (x : Instruction) (s t : Exposure) : Prop where
  | intro {locals : Nat → Tag} (moves : Moves i x s.frame ⟨t.frame.stack, locals⟩)
      (written : ∀ slot, t.frame.locals slot ≠ locals slot → writes x = true ∧ slot ∈ s.exposed)
      (exposed : t.exposed = x.exposes ++ s.exposed)

/-- The machine of origins with exposed locals. Entering from outside exposes none and hides none. -/
def aliasing (writes : Instruction → Bool) : Machine Exposure where
  start s := s = ⟨⟨[], fun _ => none⟩, []⟩
  exec := Aliases writes
  enter s t := t.exposed = s.exposed

/-- A run goes on by one instruction. -/
theorem aliasing_next {writes : Instruction → Bool} {p : Program} {i : Nat} {x : Instruction} {s t : Exposure}
    (reached : (aliasing writes).Reached p i s) (here : p.body[i]? = some x) (exec : Aliases writes i x s t)
    (falls : x.fallsThrough = true) : (aliasing writes).Reached p (i + 1) t :=
  reached.step (.next here exec falls)

theorem aliasing_framed (writes : Instruction → Bool) : (aliasing writes).Framed Exposure.frame := by
  rintro i x s t ⟨moves, -, -⟩
  exact ⟨_, moves⟩

/-- An instruction that writes through no address. -/
theorem Aliases.of_moves {writes : Instruction → Bool} {i : Nat} {x : Instruction} {f g : Frame} (moves : Moves i x f g)
    (exposed : List Nat) : Aliases writes i x ⟨f, exposed⟩ ⟨g, x.exposes ++ exposed⟩ :=
  ⟨moves, fun _ changed => absurd rfl changed, rfl⟩

/-- An instruction that writes through an address may clear an exposed local on top of what it did. -/
theorem Aliases.clear {writes : Instruction → Bool} {i : Nat} {x : Instruction} {s t : Exposure}
    (h : Aliases writes i x s t) (picked : writes x = true) {slot : Nat} (member : slot ∈ s.exposed) :
    Aliases writes i x s ⟨⟨t.frame.stack, Function.update t.frame.locals slot none⟩, t.exposed⟩ := by
  obtain ⟨moves, written, exposed⟩ := h
  refine ⟨moves, fun other changed => ?_, exposed⟩
  by_cases same : other = slot
  · exact same ▸ ⟨picked, member⟩
  · exact written other (by simpa [Function.update_of_ne same] using changed)

/-- No local is hidden again. -/
theorem exposed_mono {writes : Instruction → Bool} {p : Program} {a b : Nat × Exposure} {slot : Nat}
    (run : Relation.ReflTransGen ((aliasing writes).Step p) a b) (before : slot ∈ a.2.exposed) :
    slot ∈ b.2.exposed := by
  induction run with
  | refl => exact before
  | tail _ step ih =>
    cases step with
    | next _ exec | jump _ exec =>
      obtain ⟨-, -, exposed⟩ := exec
      exact exposed ▸ List.mem_append_right _ ih
    | enter _ _ enters => exact enters ▸ ih

/-- An exposed local has had its address taken by an instruction of the body. -/
theorem exposed_taken {writes : Instruction → Bool} {p : Program} {i : Nat} {s : Exposure} {slot : Nat}
    (reached : (aliasing writes).Reached p i s) (member : slot ∈ s.exposed) :
    ∃ (j : Nat) (x : Instruction), p.body[j]? = some x ∧ x.action = .loadLocal slot true := by
  obtain ⟨s₀, rfl, run⟩ := reached
  generalize target : (i, s) = b at run
  induction run generalizing i s with
  | refl =>
    cases target
    cases member
  | tail _ step ih =>
    cases step with
    | next here exec | jump here exec =>
      cases target
      obtain ⟨-, -, exposed⟩ := exec
      rcases List.mem_append.1 (exposed ▸ member) with taken | earlier
      · exact ⟨_, _, here, Instruction.mem_exposes.1 taken⟩
      · exact ih earlier rfl
    | enter _ _ enters =>
      cases target
      exact ih (enters ▸ member) rfl

namespace Machine

variable {σ : Type}

/-- Some run comes to index `i` in state `s` and goes on to `c`. -/
def Toward (m : Machine σ) (p : Program) (c i : Nat) (s : σ) : Prop :=
  m.Reached p i s ∧ ∃ t, Relation.ReflTransGen (m.Step p) (i, s) (c, t)

theorem visits_toward (m : Machine σ) {raw : List RawInstruction} {insts : List Instruction}
    (decoded : decode raw = .ok insts) (entries : List Int) (c : Nat) : m.Visits insts entries 0 (m.Toward (.searched insts entries) c) := by
  rintro prev t - only ⟨reached, u, onward⟩
  obtain ⟨s, x, earlier, here, exec⟩ := reached_before only reached
  exact ⟨s, x, ⟨earlier, u, .head (step_onward decoded only here exec) onward⟩, here, exec⟩

/-- Executing one instruction after the other, from index `first` and state `s₀` on. -/
inductive Along (m : Machine σ) (body : Array Instruction) (first : Nat) (s₀ : σ) : Nat → σ → Prop where
  | start : Along m body first s₀ first s₀
  | next {i : Nat} {x : Instruction} {s t : σ} (before : Along m body first s₀ i s) (here : body[i]? = some x)
      (exec : m.exec i x s t) : Along m body first s₀ (i + 1) t

namespace Along

variable {m : Machine σ} {body : Array Instruction} {first i : Nat} {s₀ s : σ}

theorem le (along : m.Along body first s₀ i s) : first ≤ i := by
  induction along with
  | start => exact Nat.le_refl _
  | next _ _ _ ih => exact Nat.le_succ_of_le ih

/-- The first instruction, and then the others. -/
theorem head (along : m.Along body first s₀ i s) (after : first < i) :
    ∃ x t, body[first]? = some x ∧ m.exec first x s₀ t ∧ m.Along body (first + 1) t i s := by
  induction along with
  | start => exact absurd after (Nat.lt_irrefl _)
  | next before here exec ih =>
    rcases Nat.eq_or_lt_of_le before.le with rfl | later
    · cases before with
      | start => exact ⟨_, _, here, exec, .start⟩
      | next before' => exact absurd before'.le (Nat.not_succ_le_self _)
    · obtain ⟨x, t, here', exec', rest⟩ := ih later
      exact ⟨x, t, here', exec', .next rest here exec⟩

/-- On a straight line this is a run. -/
theorem run {raw : List RawInstruction} {insts : List Instruction} {entries : List Int}
    (decoded : decode raw = .ok insts) (along : m.Along insts.toArray first s₀ i s)
    (only : ∀ k, first ≤ k → k < i → BlockGraph.OnlyFrom insts.toArray entries k) :
    Relation.ReflTransGen (m.Step (.searched insts entries)) (first, s₀) (i, s) := by
  induction along with
  | start => exact .refl
  | next before here exec ih =>
    refine (ih fun k after earlier => only k after (by omega)).tail ?_
    exact step_onward decoded (only _ before.le (Nat.lt_succ_self _)) here exec

end Along

theorem visits_along (m : Machine σ) (insts : List Instruction) (entries : List Int) (first : Nat) (s₀ : σ) :
    m.Visits insts entries first (m.Along insts.toArray first s₀) := by
  intro prev t after _ along
  cases along with
  | start => omega
  | next before here exec => exact ⟨_, _, before, here, exec⟩

/-- A run that comes to the end of a straight line has come along all of it. -/
theorem exists_along {m : Machine σ} {insts : List Instruction} {entries : List Int} {first j c : Nat} {s₀ t : σ}
    (only : ∀ k, j ≤ k → k < c → BlockGraph.OnlyFrom insts.toArray entries k) (after : first ≤ j) (order : j ≤ c)
    (run : Relation.ReflTransGen (m.Step (.searched insts entries)) (first, s₀) (c, t)) :
    ∃ s, Relation.ReflTransGen (m.Step (.searched insts entries)) (first, s₀) (j, s) ∧
      m.Along insts.toArray j s c t := by
  induction c generalizing t with
  | zero =>
    obtain rfl := Nat.le_zero.1 order
    exact ⟨t, run, .start⟩
  | succ c ih =>
    rcases Nat.eq_or_lt_of_le order with rfl | earlier
    · exact ⟨t, run, .start⟩
    · have before : j ≤ c := Nat.lt_succ_iff.1 earlier
      obtain ⟨u, x, shorter, here, exec⟩ := path_before (only c before (Nat.lt_succ_self c)) (by omega) run
      obtain ⟨s, toLine, along⟩ := ih (fun k low high => only k low (by omega)) before shorter
      exact ⟨s, toLine, along.next here exec⟩

end Machine

/-- From a stack of the same height an instruction can do the same. -/
theorem Moves.exists_of_height {i : Nat} {x : Instruction} {s t : Frame} (h : Moves i x s t) {s' : Frame}
    (height : s'.stack.length = s.stack.length) : ∃ t', Moves i x s' t' ∧ t'.stack.length = t.stack.length := by
  cases h with
  | dup code top =>
    obtain ⟨v, rest, top'⟩ := List.exists_cons_of_length_eq_add_one (height.trans (congrArg List.length top))
    exact ⟨_, .dup code top', by simpa [top, top'] using height⟩
  | load action => exact ⟨_, .load action, by simpa using height⟩
  | store action top =>
    obtain ⟨v, rest, top'⟩ := List.exists_cons_of_length_eq_add_one (height.trans (congrArg List.length top))
    exact ⟨_, .store action top', by simpa [top, top'] using height⟩
  | make own effect room => exact ⟨_, .make own effect (height ▸ room), by simp [height]⟩
  | unknown own effect => exact ⟨_, .unknown own effect, rfl⟩

/-- Whatever is in the locals and on the stack, the same instructions can be executed, with nothing
written through an address. -/
theorem exists_moving_along {writes : Instruction → Bool} {body : Array Instruction} {first i : Nat} {s₀ s : Exposure}
    (along : (aliasing writes).Along body first s₀ i s) {f : Frame} (height : f.stack.length = s₀.frame.stack.length) :
    ∃ g, moving.Along body first f i g ∧ g.stack.length = s.frame.stack.length := by
  induction along with
  | start => exact ⟨f, .start, height⟩
  | next _ here exec ih =>
    obtain ⟨g, before, height'⟩ := ih
    obtain ⟨moves, -, -⟩ := exec
    obtain ⟨t', moves', height''⟩ := moves.exists_of_height height'
    exact ⟨t', before.next here moves', height''⟩

theorem exists_aliasing_along (writes : Instruction → Bool) {body : Array Instruction} {first i : Nat} {f g : Frame}
    (along : moving.Along body first f i g) (exposed : List Nat) :
    ∃ exposed', (aliasing writes).Along body first ⟨f, exposed⟩ i ⟨g, exposed'⟩ := by
  induction along with
  | start => exact ⟨exposed, .start⟩
  | next _ here exec ih =>
    obtain ⟨before, along⟩ := ih
    exact ⟨_, along.next here (.of_moves exec before)⟩

namespace Provenance

variable {raw : List RawInstruction} {insts : List Instruction} {entries : List Int}

/-- Between the store found and the load there is no other store to the local. -/
theorem lastStore?_noStore {p : Provenance} {slot i store : Nat} (found : p.lastStore? slot i = some store) :
    ∀ k, store < k → k < i → p.body[k]?.map Instruction.action ≠ some (.storeLocal slot) := by
  induction i with
  | zero => cases found
  | succ i ih =>
    intro k after before
    obtain ⟨-, ⟨rfl, -⟩ | ⟨further, other, -⟩⟩ := lastStore?_succ found
    · omega
    · rcases Nat.eq_or_lt_of_le (Nat.lt_succ_iff.1 before) with rfl | earlier
      · exact other
      · exact ih further k after earlier

section Sound

variable {writes : Instruction → Bool} {V : Nat → Exposure → Prop}
  (visits : (aliasing writes).Visits insts entries 0 V) {slot i store : Nat} {s : Exposure}

include visits

/-- A local exposed where the search for its store begins was exposed at the store. -/
theorem exposed_at_store (found : (ofBody insts entries).lastStore? slot i = some store) (visited : V i s)
    (member : slot ∈ s.exposed) : ∃ before, V store before ∧ slot ∈ before.exposed := by
  induction i generalizing s with
  | zero => cases found
  | succ i ih =>
    obtain ⟨straight, rest⟩ := lastStore?_succ found
    obtain ⟨before, x, earlier, here, -, -, exposed⟩ := visits (Nat.zero_le i) (isStraight_succ straight) visited
    have action : (ofBody insts entries).body[i]?.map Instruction.action = some x.action := by
      simpa [ofBody] using ⟨x, by simpa using here, rfl⟩
    rw [action] at rest
    rcases List.mem_append.1 (exposed ▸ member) with taken | already
    · -- An address taken here would have ended the search.
      rw [Instruction.mem_exposes] at taken
      obtain ⟨-, stores⟩ | ⟨-, -, other⟩ := rest
      · rw [taken] at stores
        cases stores
      · exact absurd (congrArg some taken) other
    · obtain ⟨rfl, -⟩ | ⟨further, -⟩ := rest
      · exact ⟨before, earlier, already⟩
      · exact ih further earlier already

/-- A local that is not exposed at its store, or that nothing can write up to the load, holds at the load
what was stored. -/
theorem lastStore?_stored_of (decoded : decode raw = .ok insts)
    (found : (ofBody insts entries).lastStore? slot i = some store)
    (calm : ∀ j x, store ≤ j → j < i → insts[j]? = some x → writes x = true →
      ∀ before, V store before → slot ∉ before.exposed)
    (visited : V i s) : ∃ before, V store before ∧ before.frame.stack[0]? = some (s.frame.locals slot) := by
  induction i generalizing s with
  | zero => cases found
  | succ i ih =>
    have back := lastStore?_lt found
    obtain ⟨straight, rest⟩ := lastStore?_succ found
    obtain ⟨before, x, earlier, here, @⟨locals, moves, written, -⟩⟩ :=
      visits (Nat.zero_le i) (isStraight_succ straight) visited
    have action : (ofBody insts entries).body[i]?.map Instruction.action = some x.action := by
      simpa [ofBody] using ⟨x, by simpa using here, rfl⟩
    rw [action] at rest
    -- If the local was written through an address here, it was exposed at the store.
    have kept : s.frame.locals slot = locals slot := by
      by_contra changed
      obtain ⟨picked, member⟩ := written slot changed
      have never := calm i x (by omega) (Nat.lt_succ_self i) (by simpa using here) picked
      obtain ⟨rfl, -⟩ | ⟨further, -⟩ := rest
      · exact never before earlier member
      · obtain ⟨atStore, visitedStore, memberStore⟩ := exposed_at_store visits further earlier member
        exact never atStore visitedStore memberStore
    obtain ⟨rfl, stores⟩ | ⟨further, other, -⟩ := rest
    · exact ⟨before, earlier, kept ▸ Moves.of_store moves (isDecoded_at decoded here) (Option.some.inj stores)⟩
    · rw [kept, show locals slot = _ from Moves.locals_kept moves fun same => other (congrArg some same)]
      exact ih further (fun j y low high => calm j y low (by omega)) earlier

end Sound

/-- What the search goes through reaches its end: the value pushed there is the one that the local held
at the load. -/
theorem Passes.loaded (decoded : decode raw = .ok insts) {low : Nat} {V : Nat → Frame → Prop}
    (visits : moving.Visits insts entries low V) {slot store load i : Nat} {w : Tag}
    (passes : (ofBody insts entries).Passes slot store load i) (after : low ≤ load)
    (pushed : moving.Pushed Frame.stack insts.toArray V i w) : ∃ s, V load s ∧ w = s.locals slot := by
  induction passes generalizing w with
  | load here action stored =>
    obtain @⟨x, e, s, t, depth, visited, here', moves, effect, among, value⟩ := pushed
    obtain rfl := Option.some.inj (here.symm.trans here')
    have isDecoded := isDecoded_at decoded here'
    obtain rfl := Option.some.inj ((isDecoded.effect?_of_load action).symm.trans effect)
    obtain rfl : depth = 0 := Nat.lt_one_iff.1 among
    exact ⟨s, visited, Option.some.inj (value.symm.trans (Moves.of_load moves isDecoded action))⟩
  | dup here code produced rest ih =>
    obtain @⟨x, e, s, t, depth, visited, here', moves, effect, among, value⟩ := pushed
    obtain rfl := Option.some.inj (here.symm.trans here')
    have isDecoded := isDecoded_at decoded here'
    obtain rfl := Option.some.inj ((isDecoded.dup code).2.symm.trans effect)
    have copied := Moves.of_dup moves isDecoded code among
    obtain ⟨u, top, earlier⟩ :=
      producer?_pushed_of visits (moving_stacked decoded) produced (Nat.le_trans after rest.load_le) visited
    obtain rfl : u = w := Option.some.inj (top.symm.trans (copied.symm.trans value))
    exact ih earlier
  | relay here action stored produced rest ih =>
    obtain @⟨x, e, s, t, depth, visited, here', moves, effect, among, value⟩ := pushed
    obtain rfl := Option.some.inj (here.symm.trans here')
    have isDecoded := isDecoded_at decoded here'
    obtain rfl := Option.some.inj ((isDecoded.effect?_of_load action).symm.trans effect)
    obtain rfl : depth = 0 := Nat.lt_one_iff.1 among
    have loaded := Moves.of_load moves isDecoded action
    have source := Nat.le_trans after rest.load_le
    obtain ⟨before, atStore, stackTop⟩ :=
      lastStore?_stored decoded visits stored (Nat.le_trans source (Nat.le_of_lt (producer?_lt produced))) visited
    obtain ⟨u, top, earlier⟩ := producer?_pushed_of visits (moving_stacked decoded) produced source atStore
    obtain rfl : u = w := Option.some.inj (top.symm.trans (stackTop.trans (loaded.symm.trans value)))
    exact ih earlier

/-- A local keeps its value from behind the store found up to the load. -/
theorem locals_along {slot store load first i : Nat} {f g : Frame}
    (found : (ofBody insts entries).lastStore? slot load = some store) (behind : store < first)
    (along : moving.Along insts.toArray first f i g) (before : i ≤ load) : g.locals slot = f.locals slot := by
  induction along with
  | start => rfl
  | @next i x s t along here moves ih =>
    have other := lastStore?_noStore found i (Nat.lt_of_lt_of_le behind along.le) (by omega)
    have action : (ofBody insts entries).body[i]?.map Instruction.action = some x.action := by
      simpa [ofBody] using ⟨x, by simpa using here, rfl⟩
    rw [action] at other
    rw [Moves.locals_kept moves fun same => other (congrArg some same), ih (by omega)]

/-- The search for a value goes through local `slot`, and between its store and its load stands an instruction
that may write through an address. -/
structure Disturbed (writes : Instruction → Bool) (insts : List Instruction) (entries : List Int)
    (c a slot store load : Nat) : Prop where
  passes : ∃ q, (ofBody insts entries).producer? c a = some q ∧ (ofBody insts entries).Passes slot store load q
  between : ∃ j x, store ≤ j ∧ j < load ∧ insts[j]? = some x ∧ writes x = true

variable {writes : Instruction → Bool} {c a v slot store load : Nat}

theorem value?_of_unexposed (decoded : decode raw = .ok insts) (found : (ofBody insts entries).value? c a = some v)
    (hidden : ∀ slot store load, Disturbed writes insts entries c a slot store load →
      ∀ s, (aliasing writes).Toward (.searched insts entries) c store s → slot ∉ s.exposed)
    {s : Exposure} (reached : (aliasing writes).Reached (.searched insts entries) c s) :
    s.frame.stack[a]? = some (some v) := by
  obtain ⟨q, produced, origin⟩ := Option.bind_eq_some_iff.1 found
  have visits : (aliasing writes).Visits insts entries 0 ((aliasing writes).Toward (.searched insts entries) c) :=
    (aliasing writes).visits_toward decoded entries c
  obtain ⟨w, value, pushed⟩ := producer?_pushed_of visits (framed_stacked (aliasing_framed writes) decoded) produced
    (Nat.zero_le q) ⟨reached, s, .refl⟩
  rw [value, origin?_pushed_of decoded (aliasing_framed writes) visits ?_ origin pushed]
  intro slot store load passes t visited
  refine lastStore?_stored_of visits decoded passes.lastStore? (fun j x low high here picked => ?_) visited
  exact hidden slot store load ⟨⟨q, produced, passes⟩, j, x, low, high, here, picked⟩

/-- If the local is exposed at its store after all, some run brings the consumer a value from outside. -/
theorem exists_outside_of_exposed (decoded : decode raw = .ok insts)
    (disturbed : Disturbed writes insts entries c a slot store load) {s : Exposure}
    (toward : (aliasing writes).Toward (.searched insts entries) c store s) (member : slot ∈ s.exposed) :
    ∃ t, (aliasing writes).Reached (.searched insts entries) c t ∧ t.frame.stack[a]? = some none := by
  obtain ⟨⟨q, produced, passes⟩, j, x, low, high, here, picked⟩ := disturbed
  obtain ⟨⟨s₀, start, toStore⟩, t, onward⟩ := toward
  have loadLe := passes.load_le
  have back := producer?_lt produced
  have straight : ∀ k, store ≤ k → k < c → BlockGraph.OnlyFrom insts.toArray entries k := by
    intro k after before
    refine isStraight_succ ?_
    rcases Nat.lt_or_ge q (k + 1) with behind | front
    · exact producer?_straight produced _ behind before
    · exact passes.straight _ (Nat.lt_succ_of_le after) front
  -- Follow the run up to the writing instruction, and clear the local there.
  obtain ⟨u, toWrite, along⟩ :=
    Machine.exists_along (fun k after => straight k (by omega)) low (by omega) onward
  obtain ⟨y, u', here', exec, rest⟩ := along.head (by omega)
  obtain rfl : x = y := Option.some.inj (here.symm.trans (by simpa using here'))
  have cleared := exec.clear picked (exposed_mono toWrite member)
  -- From there on the same instructions can be executed.
  obtain ⟨g, quiet, -⟩ :=
    exists_moving_along rest (f := ⟨u'.frame.stack, Function.update u'.frame.locals slot none⟩) rfl
  obtain ⟨exposed', noisy⟩ := exists_aliasing_along writes quiet u'.exposed
  have toEnd := noisy.run decoded fun k after before => straight k (by omega) before
  have step := Machine.step_onward (m := aliasing writes) decoded (straight j low (by omega)) here' cleared
  refine ⟨⟨g, exposed'⟩, ⟨s₀, start, (toStore.trans toWrite).trans (.head step toEnd)⟩, ?_⟩
  -- What the consumer gets is what the local held at the load, and that is what it was cleared to.
  have visits : moving.Visits insts entries (j + 1) (moving.Along insts.toArray (j + 1) _) :=
    moving.visits_along insts entries (j + 1) ⟨u'.frame.stack, Function.update u'.frame.locals slot none⟩
  obtain ⟨w, value, pushed⟩ := producer?_pushed_of visits (moving_stacked decoded) produced (by omega) quiet
  obtain ⟨f, atLoad, rfl⟩ := passes.loaded decoded visits (by omega) pushed
  rw [value, locals_along passes.lastStore? (Nat.lt_succ_of_le low) atLoad (Nat.le_refl _)]
  simp

/-- The value is found, by a walk that counts exactly or by one in 64 bits whose depths fit. -/
inductive FindsValue (insts : List Instruction) (entries : List Int) (c a v : Nat) : Prop where
  | exact (found : (ofBody insts entries).value? c a = some v)
  | word (small : a < 0x8000000000000000) (fits : ValueFits insts entries c a)
      (found : (ofBody insts entries).wordValue? c a = some v)

theorem FindsValue.value?_eq (finds : FindsValue insts entries c a v) : (ofBody insts entries).value? c a = some v := by
  cases finds with
  | exact found => exact found
  | word small fits found =>
    rw [← fits.value?_eq small]
    simpa [wordValue?] using found

/-- **Values and exposed locals.** The value found is the value on every run exactly if no local that the
search goes through, with something that may write through an address between its store and its load, is exposed at
the store on a run that goes on to the consumer. That is so whenever the body takes the address of no such local. -/
theorem value?_sound_iff_unexposed (decoded : decode raw = .ok insts) (finds : FindsValue insts entries c a v)
    (writes : Instruction → Bool) {p : Program} (follows : Program.Follows insts entries p) :
    ((∀ s, (aliasing writes).Reached p c s → s.frame.stack[a]? = some (some v)) ↔
      ∀ slot store load, Disturbed writes insts entries c a slot store load →
        ∀ s, (aliasing writes).Toward p c store s → slot ∉ s.exposed) ∧
    ((∀ slot store load, Disturbed writes insts entries c a slot store load →
        ∀ x ∈ insts, x.action ≠ .loadLocal slot true) →
      ∀ s, (aliasing writes).Reached p c s → s.frame.stack[a]? = some (some v)) := by
  have found := finds.value?_eq
  simp only [Machine.Toward, Machine.reached_iff_of_follows follows, (aliasing writes).step_eq_of_follows follows]
  refine ⟨⟨fun always slot store load disturbed s toward member => ?_,
    fun hidden s reached => value?_of_unexposed decoded found hidden reached⟩, fun untaken s reached => ?_⟩
  · obtain ⟨t, reached, outside⟩ := exists_outside_of_exposed decoded disturbed toward member
    cases outside.symm.trans (always t reached)
  · refine value?_of_unexposed decoded found (fun slot store load disturbed t toward member => ?_) reached
    obtain ⟨j, x, here, taken⟩ := exposed_taken toward.1 member
    exact untaken slot store load disturbed x (List.mem_of_getElem? (by simpa [Program.searched] using here)) taken

/-- The opcodes that store through an address. -/
def indirectStores : List Code :=
  [⟨0x51⟩, ⟨0x52⟩, ⟨0x53⟩, ⟨0x54⟩, ⟨0x55⟩, ⟨0x56⟩, ⟨0x57⟩, ⟨0xDF⟩, ⟨0x81⟩, ⟨0xFE15⟩]

/-- Calls, stores through an address, and instructions of unknown effect. -/
def writesThrough (x : Instruction) : Bool :=
  x.callee?.isSome || indirectStores.contains x.code || x.effect?.isNone

/-- A local is written through its address, then stored to and loaded. -/
def repaid : List RawInstruction :=
  [⟨0, ⟨0x12⟩, .int .int 0⟩, ⟨2, ⟨0x1D⟩, .none⟩, ⟨3, ⟨0x54⟩, .none⟩, ⟨4, ⟨0x17⟩, .none⟩, ⟨5, ⟨0x0A⟩, .none⟩,
   ⟨6, ⟨0x06⟩, .none⟩, ⟨7, ⟨0x26⟩, .none⟩, ⟨8, ⟨0x2A⟩, .none⟩]

/-- The same instructions, but the write through the address comes last before the load. -/
def lent : List RawInstruction :=
  [⟨0, ⟨0x12⟩, .int .int 0⟩, ⟨2, ⟨0x17⟩, .none⟩, ⟨3, ⟨0x0A⟩, .none⟩, ⟨4, ⟨0x1D⟩, .none⟩, ⟨5, ⟨0x54⟩, .none⟩,
   ⟨6, ⟨0x06⟩, .none⟩, ⟨7, ⟨0x26⟩, .none⟩, ⟨8, ⟨0x2A⟩, .none⟩]

/-- In `repaid` nothing writes through an address between the store and the load. -/
theorem repaid_calm {insts : List Instruction} (decoded : decode repaid = .ok insts) (slot store load : Nat) :
    ¬ Disturbed writesThrough insts [] 6 0 slot store load := by
  obtain rfl := Except.ok.inj decoded
  rintro ⟨⟨q, produced, passes⟩, j, x, low, high, here, picked⟩
  obtain rfl : q = 5 := Option.some.inj (produced.symm.trans (by decide +kernel))
  have late : 4 ≤ store := by
    cases passes with
    | load here' action stored =>
      cases here'
      cases action
      exact Nat.le_of_eq (Option.some.inj (stored.symm.trans (by decide +kernel))).symm
    | dup here' code =>
      cases here'
      cases code
    | relay here' action stored produced' rest =>
      cases here'
      cases action
      obtain rfl : _ = 4 := Option.some.inj (stored.symm.trans (by decide +kernel))
      obtain rfl : _ = 3 := Option.some.inj (produced'.symm.trans (by decide +kernel))
      cases rest with
      | load here' action =>
        cases here'
        cases action
      | dup here' code =>
        cases here'
        cases code
      | relay here' action =>
        cases here'
        cases action
  obtain rfl : j = 4 := by have := passes.load_le; omega
  cases here
  revert picked
  decide +kernel

/-- The value loaded in `repaid` is the one stored, whichever way offsets are followed, and some run comes
that far. -/
theorem value?_sound_iff_unexposed_repaid :
    ∃ insts, decode repaid = .ok insts ∧ (ofBody insts []).wordValue? 6 0 = some 3 ∧ ValueFits insts [] 6 0 ∧
      (∃ s, (aliasing writesThrough).Reached (.searched insts []) 6 s ∧ 0 ∈ s.exposed) ∧
      ∀ p, Program.Follows insts [] p →
        ∀ s, (aliasing writesThrough).Reached p 6 s → s.frame.stack[0]? = some (some 3) := by
  let once : Nat → Tag := Function.update (fun _ => none) 0 (some 3)
  have fits : ∀ insts, decode repaid = .ok insts → ValueFits insts [] 6 0 := by
    rintro insts decoded
    obtain rfl := Except.ok.inj decoded
    exact valueFits_of_taken [] (by decide +kernel)
  have found : ∀ insts, decode repaid = .ok insts → (ofBody insts []).wordValue? 6 0 = some 3 := by
    rintro insts decoded
    obtain rfl := Except.ok.inj decoded
    decide +kernel
  refine ⟨_, rfl, found _ rfl, fits _ rfl, ⟨⟨⟨[once 0], once⟩, [0]⟩, ?_, by simp⟩, fun p follows =>
    (value?_sound_iff_unexposed (show decode repaid = _ from rfl) (.word (by decide) (fits _ rfl) (found _ rfl))
      writesThrough follows).1.2 fun slot store load disturbed => absurd disturbed (repaid_calm rfl slot store load)⟩
  refine aliasing_next (i := 5) (s := ⟨⟨[], once⟩, [0]⟩) ?_ rfl (.of_moves (@Moves.load _ _ _ 0 rfl) [0]) rfl
  refine aliasing_next (i := 4) (s := ⟨⟨[some 3], fun _ => none⟩, [0]⟩) ?_ rfl (.of_moves (.store rfl rfl) [0]) rfl
  refine aliasing_next (i := 3) (s := ⟨⟨[], fun _ => none⟩, [0]⟩) ?_ rfl
    (.of_moves (.make (e := ⟨0, 1⟩) ?_ rfl (by simp)) [0]) rfl
  refine aliasing_next (i := 2) (s := ⟨⟨[some 1, some 0], fun _ => none⟩, [0]⟩) ?_ rfl
    (.of_moves (.make (e := ⟨2, 0⟩) ?_ rfl (by simp)) [0]) rfl
  refine aliasing_next (i := 1) (s := ⟨⟨[some 0], fun _ => none⟩, [0]⟩) ?_ rfl
    (.of_moves (.make (e := ⟨0, 1⟩) ?_ rfl (by simp)) [0]) rfl
  refine aliasing_next (i := 0) (s := ⟨⟨[], fun _ => none⟩, []⟩) ⟨_, rfl, .refl⟩ rfl
    (.of_moves (.make (e := ⟨0, 1⟩) ?_ rfl (by simp)) []) rfl
  all_goals decide +kernel

/-- In `lent` the value found is not the value on every run: the number written through the address comes between. -/
theorem value?_misses_write :
    ∃ insts, decode lent = .ok insts ∧ (ofBody insts []).wordValue? 6 0 = some 1 ∧
      (ofBody insts []).value? 6 0 = some 1 ∧
      ∃ s, (aliasing writesThrough).Reached (.searched insts []) 6 s ∧
        (aliasing writesThrough).Reached (.standing insts []) 6 s ∧ s.frame.stack[0]? ≠ some (some 1) := by
  let once : Nat → Tag := Function.update (fun _ => none) 0 (some 1)
  let cleared : Nat → Tag := Function.update once 0 none
  have run (insts : List Instruction) (decoded : decode lent = .ok insts) :
      (aliasing writesThrough).Reached (.searched insts []) 6 ⟨⟨[cleared 0], cleared⟩, [0]⟩ := by
    obtain rfl := Except.ok.inj decoded
    refine aliasing_next (i := 5) (s := ⟨⟨[], cleared⟩, [0]⟩) ?_ rfl (.of_moves (@Moves.load _ _ _ 0 rfl) [0]) rfl
    refine aliasing_next (i := 4) (s := ⟨⟨[some 3, some 0], once⟩, [0]⟩) ?_ rfl
      (.clear (t := ⟨⟨[], once⟩, [0]⟩) (.of_moves (.make (e := ⟨2, 0⟩) ?_ rfl (by simp)) [0]) (by decide +kernel)
        (by simp)) rfl
    refine aliasing_next (i := 3) (s := ⟨⟨[some 0], once⟩, [0]⟩) ?_ rfl
      (.of_moves (.make (e := ⟨0, 1⟩) ?_ rfl (by simp)) [0]) rfl
    refine aliasing_next (i := 2) (s := ⟨⟨[some 1, some 0], fun _ => none⟩, [0]⟩) ?_ rfl
      (.of_moves (.store rfl rfl) [0]) rfl
    refine aliasing_next (i := 1) (s := ⟨⟨[some 0], fun _ => none⟩, [0]⟩) ?_ rfl
      (.of_moves (.make (e := ⟨0, 1⟩) ?_ rfl (by simp)) [0]) rfl
    refine aliasing_next (i := 0) (s := ⟨⟨[], fun _ => none⟩, []⟩) ⟨_, rfl, .refl⟩ rfl
      (.of_moves (.make (e := ⟨0, 1⟩) ?_ rfl (by simp)) []) rfl
    all_goals decide +kernel
  refine ⟨_, rfl, by decide +kernel, by decide +kernel, _, run _ rfl, ?_, by simp [cleared]⟩
  exact (Machine.reached_iff_of_follows (.standing (Program.resolves_of_untargeted (by decide +kernel)))).2 (run _ rfl)

end Provenance

end CilAudit
