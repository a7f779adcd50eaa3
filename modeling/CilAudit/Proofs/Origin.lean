import CilAudit.Proofs.Producer
import Mathlib.Logic.Function.Basic

/-!
# The origin of a value, on every run

Copies hand a value on: `dup` on the stack, a store and a load through a local. The machine here
carries the mark of a value along with it, through the stack and the locals. The search for an
origin goes from each copy to what was copied, and so meets the instruction whose mark it is.
-/

set_option autoImplicit false

namespace CilAudit

/-- The values at hand: the evaluation stack and the locals. -/
structure Frame where
  stack : List Tag
  locals : Nat → Tag

/-- The instruction hands a value on rather than making one. -/
inductive Instruction.HandsOn (x : Instruction) : Prop where
  | dup (code : x.code = .dup)
  | load {slot : Nat} (action : x.action = .loadLocal slot false)
  | store {slot : Nat} (action : x.action = .storeLocal slot)

/-- Reads or writes the value of a local. -/
def Action.movesLocal : Action → Bool
  | .loadLocal _ false | .storeLocal _ => true
  | _ => false

theorem Instruction.handsOn_iff {x : Instruction} :
    x.HandsOn ↔ x.code = .dup ∨ x.action.movesLocal = true := by
  constructor
  · rintro (code | action | action)
    · exact .inl code
    · exact .inr (by rw [action]; rfl)
    · exact .inr (by rw [action]; rfl)
  · rintro (code | moves)
    · exact .dup code
    · unfold Action.movesLocal at moves
      split at moves
      case h_1 action => exact .load action
      case h_2 action => exact .store action
      case h_3 => cases moves

instance (x : Instruction) : Decidable x.HandsOn := decidable_of_iff _ Instruction.handsOn_iff.symm

/-- What instruction `x`, at index `i`, may do to a frame. Nothing but a store writes a local. -/
inductive Moves (i : Nat) (x : Instruction) (s : Frame) : Frame → Prop where
  | dup {v : Tag} {rest : List Tag} (code : x.code = .dup) (top : s.stack = v :: rest) :
      Moves i x s ⟨v :: v :: rest, s.locals⟩
  | load {slot : Nat} (action : x.action = .loadLocal slot false) :
      Moves i x s ⟨s.locals slot :: s.stack, s.locals⟩
  | store {slot : Nat} {v : Tag} {rest : List Tag} (action : x.action = .storeLocal slot)
      (top : s.stack = v :: rest) : Moves i x s ⟨rest, Function.update s.locals slot v⟩
  | make {e : Effect} (own : ¬ x.HandsOn) (effect : x.effect? = some e) (room : e.pop ≤ s.stack.length) :
      Moves i x s ⟨List.replicate e.push (some i) ++ s.stack.drop e.pop, s.locals⟩
  | unknown {stack : List Tag} (own : ¬ x.HandsOn) (effect : x.effect? = none) :
      Moves i x s ⟨stack, s.locals⟩

/-- The machine of origins with locals: it starts with none of them written. -/
def moving : Machine Frame where
  start s := s = ⟨[], fun _ => none⟩
  exec := Moves
  enter _ _ := True

/-- The machine treats the stack of a frame as `Moves` says; to the locals it may do more. -/
def Machine.Framed {σ : Type} (m : Machine σ) (frame : σ → Frame) : Prop :=
  ∀ {i x s t}, m.exec i x s t → ∃ locals, Moves i x (frame s) ⟨(frame t).stack, locals⟩

theorem moving_framed : moving.Framed id := fun {_ _ _ t} moves => ⟨t.locals, moves⟩

/-- A run goes on by one instruction. -/
theorem moving_next {p : Program} {i : Nat} {x : Instruction} {s t : Frame} (reached : moving.Reached p i s)
    (here : p.body[i]? = some x) (moves : Moves i x s t) (falls : x.fallsThrough = true) :
    moving.Reached p (i + 1) t :=
  reached.step (.next here moves falls)

namespace Moves

variable {i : Nat} {x : Instruction} {s t : Frame}

theorem respects (h : Moves i x s t) (decoded : x.IsDecoded) {e : Effect} (effect : x.effect? = some e) :
    e.Respects s.stack t.stack := by
  cases h with
  | dup code top =>
    obtain rfl : ⟨1, 2⟩ = e := Option.some.inj ((decoded.dup code).2.symm.trans effect)
    exact ⟨by simp [top], by simp, by simp [top]⟩
  | load action =>
    obtain rfl : ⟨0, 1⟩ = e := Option.some.inj ((decoded.effect?_of_load action).symm.trans effect)
    exact ⟨by simp, by simp, by simp⟩
  | store action top =>
    obtain rfl : ⟨1, 0⟩ = e := Option.some.inj ((decoded.effect?_of_store action).symm.trans effect)
    exact ⟨by simp [top], by simp, by simp [top]⟩
  | make _ known room =>
    obtain rfl := Option.some.inj (known.symm.trans effect)
    exact Effect.respects_results room _
  | unknown _ none =>
    rw [none] at effect
    cases effect

/-- A local keeps its value but for a store to it. -/
theorem locals_kept (h : Moves i x s t) {slot : Nat} (other : x.action ≠ .storeLocal slot) :
    t.locals slot = s.locals slot := by
  cases h with
  | store action top =>
    refine Function.update_of_ne ?_ _ _
    rintro rfl
    exact other action
  | dup | load | make | unknown => rfl

/-- A store takes the top of the stack. -/
theorem of_store (h : Moves i x s t) (decoded : x.IsDecoded) {slot : Nat} (action : x.action = .storeLocal slot) :
    s.stack[0]? = some (t.locals slot) := by
  cases h with
  | dup code => exact absurd code (decoded.code_ne_dup (by simp [action]))
  | load other => simp [other] at action
  | store same top =>
    obtain rfl : _ = slot := by simpa using same.symm.trans action
    simp [top]
  | make own | unknown own => exact absurd (.store action) own

/-- A `dup` leaves two copies of the top. -/
theorem of_dup (h : Moves i x s t) (decoded : x.IsDecoded) (code : x.code = .dup) {depth : Nat} (copy : depth < 2) :
    t.stack[depth]? = s.stack[0]? := by
  cases h with
  | dup _ top =>
    rw [top]
    match depth with
    | 0 | 1 => rfl
  | load action | store action => exact absurd code (decoded.code_ne_dup (by simp [action]))
  | make own | unknown own => exact absurd (.dup code) own

/-- A load pushes the local. -/
theorem of_load (h : Moves i x s t) (decoded : x.IsDecoded) {slot : Nat} (action : x.action = .loadLocal slot false) :
    t.stack[0]? = some (s.locals slot) := by
  cases h with
  | dup code => exact absurd code (decoded.code_ne_dup (by simp [action]))
  | load same =>
    obtain rfl : _ = slot := by simpa using same.symm.trans action
    rfl
  | store other => simp [other] at action
  | make own | unknown own => exact absurd (.load action) own

/-- What is made is marked. -/
theorem of_make (h : Moves i x s t) (own : ¬ x.HandsOn) {e : Effect} (effect : x.effect? = some e) {depth : Nat}
    (among : depth < e.push) : t.stack[depth]? = some (some i) := by
  cases h with
  | dup code => exact absurd (.dup code) own
  | load action => exact absurd (.load action) own
  | store action => exact absurd (.store action) own
  | make _ known =>
    obtain rfl := Option.some.inj (known.symm.trans effect)
    exact getElem?_results _ _ among
  | unknown _ none =>
    rw [none] at effect
    cases effect

end Moves

namespace Provenance

variable {raw : List RawInstruction} {insts : List Instruction} {entries : List Int}

theorem framed_stacked {σ : Type} {m : Machine σ} {frame : σ → Frame} (framed : m.Framed frame)
    (decoded : decode raw = .ok insts) : m.Stacked (fun s => (frame s).stack) insts.toArray := by
  intro i x s t e here exec effect
  obtain ⟨locals, moves⟩ := framed exec
  exact moves.respects (isDecoded_at decoded here) effect

theorem moving_stacked (decoded : decode raw = .ok insts) : moving.Stacked Frame.stack insts.toArray :=
  framed_stacked moving_framed decoded

/-- One step of the search for a store: it is here, or further back past what neither writes the
local nor takes its address. -/
theorem lastStore?_succ {p : Provenance} {slot i store : Nat} (found : p.lastStore? slot (i + 1) = some store) :
    p.isStraight (i + 1) = true ∧
      ((store = i ∧ p.body[i]?.map Instruction.action = some (.storeLocal slot)) ∨
        (p.lastStore? slot i = some store ∧ p.body[i]?.map Instruction.action ≠ some (.storeLocal slot) ∧
          p.body[i]?.map Instruction.action ≠ some (.loadLocal slot true))) := by
  rw [lastStore?] at found
  split at found
  case isFalse => cases found
  case isTrue straight =>
    refine ⟨straight, ?_⟩
    split at found
    case h_1 n action =>
      split at found
      case isTrue same => exact .inl ⟨by simpa using found.symm, same ▸ action⟩
      case isFalse other => exact .inr ⟨found, by simp [action, other], by simp [action]⟩
    case h_2 n action =>
      split at found
      case isTrue => cases found
      case isFalse other => exact .inr ⟨found, by simp [action], by simp [action, other]⟩
    case h_3 noStore noAddress => exact .inr ⟨found, noStore slot, noAddress slot⟩

theorem lastStore?_lt {p : Provenance} {slot i store : Nat} (found : p.lastStore? slot i = some store) :
    store < i := by
  induction i with
  | zero => cases found
  | succ i ih =>
    obtain ⟨-, ⟨rfl, -⟩ | ⟨further, -⟩⟩ := lastStore?_succ found
    · exact Nat.lt_succ_self _
    · exact Nat.lt_succ_of_lt (ih further)

theorem lastStore?_straight {p : Provenance} {slot i store : Nat} (found : p.lastStore? slot i = some store) :
    ∀ k, store < k → k ≤ i → p.isStraight k = true := by
  induction i with
  | zero => cases found
  | succ i ih =>
    intro k after before
    obtain ⟨straight, ⟨rfl, -⟩ | ⟨further, -⟩⟩ := lastStore?_succ found
    · obtain rfl : k = store + 1 := by omega
      exact straight
    · rcases Nat.eq_or_lt_of_le before with rfl | earlier
      · exact straight
      · exact ih further k after (by omega)

/-- What is in the local was on top of the stack when the store that is found was visited. -/
theorem lastStore?_stored (decoded : decode raw = .ok insts) {low : Nat} {V : Nat → Frame → Prop}
    (visits : moving.Visits insts entries low V) {slot i store : Nat} {s : Frame}
    (found : (ofBody insts entries).lastStore? slot i = some store) (after : low ≤ store) (visited : V i s) :
    ∃ before, V store before ∧ before.stack[0]? = some (s.locals slot) := by
  induction i generalizing s with
  | zero => cases found
  | succ i ih =>
    have back := lastStore?_lt found
    obtain ⟨straight, rest⟩ := lastStore?_succ found
    obtain ⟨before, x, earlier, here, moves⟩ := visits (by omega) (isStraight_succ straight) visited
    have action : (ofBody insts entries).body[i]?.map Instruction.action = some x.action := by
      simpa [ofBody] using ⟨x, by simpa using here, rfl⟩
    rw [action] at rest
    obtain ⟨rfl, stores⟩ | ⟨further, other, -⟩ := rest
    · exact ⟨before, earlier, Moves.of_store moves (isDecoded_at decoded here) (Option.some.inj stores)⟩
    · rw [Moves.locals_kept moves fun same => other (congrArg some same)]
      exact ih further earlier

/-- A decoded instruction is no copy, or copies what one of the two walks finds. -/
theorem copySource?_cases {p : Provenance} {i : Nat} {x : Instruction} {source : Option Nat}
    (decoded : x.IsDecoded) (here : p.body[i]? = some x) (found : p.copySource? i = some source) :
    (source = none ∧ x.code ≠ .dup ∧ ∀ slot, x.action ≠ .loadLocal slot false) ∨
    (∃ q, source = some q ∧ x.code = .dup ∧ p.producer? i 0 = some q) ∨
    (∃ q slot store, source = some q ∧ x.action = .loadLocal slot false ∧
      p.lastStore? slot i = some store ∧ p.producer? store 0 = some q) := by
  rw [copySource?, here] at found
  split at found
  case h_1 index offset code operand same =>
    obtain rfl := Option.some.inj same
    split at found
    case isTrue dup =>
      obtain ⟨q, produced, rfl⟩ := Option.map_eq_some_iff.1 found
      exact .inr (.inl ⟨q, rfl, dup, produced⟩)
    case isFalse other => exact .inl ⟨(Option.some.inj found).symm, other, by simp⟩
  case h_2 index offset code slot same =>
    obtain rfl := Option.some.inj same
    obtain ⟨q, both, rfl⟩ := Option.map_eq_some_iff.1 found
    obtain ⟨store, stored, produced⟩ := Option.bind_eq_some_iff.1 both
    exact .inr (.inr ⟨q, slot, store, rfl, rfl, stored, produced⟩)
  case h_3 noOther noLoad =>
    refine .inl ⟨(Option.some.inj found).symm, fun dup => ?_, fun slot load => ?_⟩
    · exact decoded.code_ne_dup (fun operand action => noOther x.index x.offset x.code operand (by rw [← action])) dup
    · exact noLoad x.index x.offset x.code slot (by rw [← load])

/-- One step of the search for an origin: it ends at what is no copy, and goes on from what was
copied otherwise. -/
theorem origin?_succ {p : Provenance} {hops i v : Nat} {x : Instruction} (decoded : x.IsDecoded)
    (here : p.body[i]? = some x) (found : p.origin? (hops + 1) i = some v) :
    (v = i ∧ x.code ≠ .dup ∧ ∀ slot, x.action ≠ .loadLocal slot false) ∨
    (∃ q, x.code = .dup ∧ p.producer? i 0 = some q ∧ p.origin? hops q = some v) ∨
    (∃ q slot store, x.action = .loadLocal slot false ∧ p.lastStore? slot i = some store ∧
      p.producer? store 0 = some q ∧ p.origin? hops q = some v) := by
  rw [origin?] at found
  cases copied : p.copySource? i with
  | none => simp [copied] at found
  | some source =>
    obtain ⟨rfl, noCopy⟩ | ⟨q, rfl, dup, produced⟩ | ⟨q, slot, store, rfl, load, stored, produced⟩ :=
      copySource?_cases decoded here copied
    · exact .inl ⟨by simpa [copied] using found.symm, noCopy⟩
    · exact .inr (.inl ⟨q, dup, produced, by simpa [copied] using found⟩)
    · exact .inr (.inr ⟨q, slot, store, load, stored, produced, by simpa [copied] using found⟩)

/-- What a value was copied from stands before the copy. -/
theorem copySource?_lt {p : Provenance} {i q : Nat} (found : p.copySource? i = some (some q)) : q < i := by
  rw [copySource?] at found
  split at found
  case h_1 =>
    split at found
    case isTrue =>
      obtain ⟨source, produced, same⟩ := Option.map_eq_some_iff.1 found
      exact Option.some.inj same ▸ producer?_lt produced
    case isFalse => cases found
  case h_2 =>
    obtain ⟨source, both, same⟩ := Option.map_eq_some_iff.1 found
    obtain ⟨store, stored, produced⟩ := Option.bind_eq_some_iff.1 both
    exact Option.some.inj same ▸ Nat.lt_trans (producer?_lt produced) (lastStore?_lt stored)
  case h_3 => cases found

/-- An origin stands no later than where the search began, and is no copy. -/
theorem origin?_noCopy (decoded : decode raw = .ok insts) {p : Provenance} (body : p.body = insts.toArray)
    {hops i v : Nat} (bound : i < insts.length) (found : p.origin? hops i = some v) :
    v ≤ i ∧ ∃ x, insts[v]? = some x ∧ x.code ≠ .dup ∧ ∀ slot, x.action ≠ .loadLocal slot false := by
  induction hops generalizing i with
  | zero => cases found
  | succ hops ih =>
    have here : insts[i]? = some insts[i] := List.getElem?_eq_getElem bound
    obtain ⟨rfl, noCopy⟩ | ⟨q, -, produced, rest⟩ | ⟨q, slot, store, -, stored, produced, rest⟩ :=
      origin?_succ (isDecoded_of_decode decoded (List.getElem_mem bound)) (by simp [body]) found
    · exact ⟨Nat.le_refl _, _, here, noCopy⟩
    · have back := producer?_lt produced
      obtain ⟨le, noCopy⟩ := ih (by omega) rest
      exact ⟨by omega, noCopy⟩
    · have back := producer?_lt produced
      have further := lastStore?_lt stored
      obtain ⟨le, noCopy⟩ := ih (by omega) rest
      exact ⟨by omega, noCopy⟩

/-- The search that comes to an index goes on from a load of `slot` to the store before it. -/
inductive Passes (p : Provenance) (slot store load : Nat) : Nat → Prop where
  | load {x : Instruction} (here : p.body[load]? = some x) (action : x.action = .loadLocal slot false)
      (stored : p.lastStore? slot load = some store) : Passes p slot store load load
  | dup {i source : Nat} {x : Instruction} (here : p.body[i]? = some x) (code : x.code = .dup)
      (produced : p.producer? i 0 = some source) (rest : Passes p slot store load source) :
      Passes p slot store load i
  | relay {i between via source : Nat} {x : Instruction} (here : p.body[i]? = some x)
      (action : x.action = .loadLocal via false) (stored : p.lastStore? via i = some between)
      (produced : p.producer? between 0 = some source) (rest : Passes p slot store load source) :
      Passes p slot store load i

/-- **Following copies.** A value pushed where the search begins carries the mark of its origin, if each
local that the search goes through holds at the load what was stored in it. -/
theorem origin?_pushed_of {σ : Type} {m : Machine σ} {frame : σ → Frame} {V : Nat → σ → Prop}
    (decoded : decode raw = .ok insts) (framed : m.Framed frame) (visits : m.Visits insts entries 0 V)
    {hops i v : Nat} {w : Tag}
    (stored : ∀ {slot store load}, (ofBody insts entries).Passes slot store load i → ∀ {s}, V load s →
      ∃ before, V store before ∧ (frame before).stack[0]? = some ((frame s).locals slot))
    (found : (ofBody insts entries).origin? hops i = some v)
    (pushed : m.Pushed (fun s => (frame s).stack) insts.toArray V i w) : w = some v := by
  induction hops generalizing i w with
  | zero => cases found
  | succ hops ih =>
    obtain @⟨x, e, s, t, depth, visited, here, exec, effect, among, value⟩ := pushed
    obtain ⟨locals, moves⟩ := framed exec
    have isDecoded := isDecoded_at decoded here
    obtain ⟨rfl, noDup, noLoad⟩ | ⟨q, dup, produced, rest⟩ | ⟨q, slot, store, load, last, produced, rest⟩ :=
      origin?_succ isDecoded here found
    · have own : ¬ x.HandsOn := by
        rintro (code | action | action)
        · exact noDup code
        · exact noLoad _ action
        · -- A store pushes nothing.
          obtain rfl := Option.some.inj ((isDecoded.effect?_of_store action).symm.trans effect)
          exact absurd among (Nat.not_lt_zero _)
      exact Option.some.inj (value.symm.trans (Moves.of_make moves own effect among))
    · obtain rfl := Option.some.inj ((isDecoded.dup dup).2.symm.trans effect)
      have copied := Moves.of_dup moves isDecoded dup among
      obtain ⟨u, top, earlier⟩ := producer?_pushed_of visits (framed_stacked framed decoded) produced (Nat.zero_le q) visited
      obtain rfl : u = w := Option.some.inj (top.symm.trans (copied.symm.trans value))
      exact ih (fun passes => stored (.dup here dup produced passes)) rest earlier
    · obtain rfl := Option.some.inj ((isDecoded.effect?_of_load load).symm.trans effect)
      obtain rfl : depth = 0 := Nat.lt_one_iff.1 among
      have loaded := Moves.of_load moves isDecoded load
      obtain ⟨before, atStore, stackTop⟩ := stored (.load here load last) visited
      obtain ⟨u, top, earlier⟩ :=
        producer?_pushed_of visits (framed_stacked framed decoded) produced (Nat.zero_le q) atStore
      obtain rfl : u = w := Option.some.inj (top.symm.trans (stackTop.trans (loaded.symm.trans value)))
      exact ih (fun passes => stored (.relay here load last produced passes)) rest earlier

namespace Passes

variable {p : Provenance} {slot store load i : Nat}

theorem lastStore? (passes : p.Passes slot store load i) : p.lastStore? slot load = some store := by
  induction passes with
  | load _ _ stored => exact stored
  | dup _ _ _ _ ih | relay _ _ _ _ _ ih => exact ih

theorem load_le (passes : p.Passes slot store load i) : load ≤ i := by
  induction passes with
  | load => exact Nat.le_refl _
  | dup _ _ produced _ ih => exact Nat.le_of_lt (Nat.lt_of_le_of_lt ih (producer?_lt produced))
  | relay _ _ stored produced _ ih =>
    exact Nat.le_of_lt (Nat.lt_of_le_of_lt ih (Nat.lt_trans (producer?_lt produced) (lastStore?_lt stored)))

/-- The search is let through everywhere behind the store. -/
theorem straight (passes : p.Passes slot store load i) : ∀ k, store < k → k ≤ i → p.isStraight k = true := by
  induction passes with
  | load _ _ stored => exact lastStore?_straight stored
  | @dup i source _ _ _ produced _ ih =>
    intro k after before
    rcases Nat.lt_or_ge source k with behind | front
    · exact producer?_straight produced k behind before
    · exact ih k after front
  | @relay i between via source _ _ _ stored produced _ ih =>
    intro k after before
    rcases Nat.lt_or_ge between k with behind | front
    · exact lastStore?_straight stored k behind before
    · rcases Nat.lt_or_ge source k with behind | front'
      · exact producer?_straight produced k behind front
      · exact ih k after front'

end Passes

theorem origin?_pushed (decoded : decode raw = .ok insts) {hops i v : Nat} {w : Tag}
    (found : (ofBody insts entries).origin? hops i = some v)
    (pushed : moving.Pushed Frame.stack insts.toArray (moving.Reached (.searched insts entries)) i w) : w = some v :=
  origin?_pushed_of decoded moving_framed (moving.visits_reached insts entries)
    (fun passes _ visited => lastStore?_stored decoded (moving.visits_reached insts entries) passes.lastStore?
      (Nat.zero_le _) visited) found pushed

/-- What is found made the value, on every run. -/
theorem stack_of_value? (decoded : decode raw = .ok insts) {c a v : Nat}
    (found : (ofBody insts entries).value? c a = some v) {s : Frame}
    (reached : moving.Reached (.searched insts entries) c s) : s.stack[a]? = some (some v) := by
  obtain ⟨q, produced, origin⟩ := Option.bind_eq_some_iff.1 found
  obtain ⟨w, value, pushed⟩ := producer?_pushed (moving_stacked decoded) produced reached
  rw [value, origin?_pushed decoded origin pushed]

/-- However depths are counted, it stands before the consumer and is no copy. -/
theorem value?_noCopy (decoded : decode raw = .ok insts) {p : Provenance} (body : p.body = insts.toArray) {c a v : Nat}
    (found : p.value? c a = some v) :
    v < c ∧ ∃ x, insts[v]? = some x ∧ x.code ≠ .dup ∧ ∀ slot, x.action ≠ .loadLocal slot false := by
  obtain ⟨q, produced, origin⟩ := Option.bind_eq_some_iff.1 found
  have before := producer?_lt produced
  have inside : c < insts.length := by simpa [body] using (producer?_eq_some.1 produced).1
  obtain ⟨le, noCopy⟩ := origin?_noCopy decoded body (Nat.lt_trans before inside) origin
  exact ⟨Nat.lt_of_le_of_lt le before, noCopy⟩

end Provenance

end CilAudit
