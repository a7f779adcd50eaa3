import CilAudit.Proofs.Registration
import Mathlib.Logic.Function.Basic

/-!
# The deliveries of a pass

A pass is a sequence of moves: it gives something off itself, or calls a rule with an event. A
record of the calls that reach their rules is kept beside the pass and takes no part in it. What
is recorded depends only on the rules that still listen, the roster, so the record can be told
without the pass: rule by rule, each one alone with the events that are meant for it.
-/

set_option autoImplicit false

namespace CilAudit

/-! ## One rule -/

/-- An event that reached a rule, and what the rule made of it. -/
structure Delivery where
  check : Text
  entity : Entity
  event : Event
  emissions : List Emission
  fault : Option Text

namespace Delivery

def violations (x : Delivery) : List Violation := x.emissions.filterMap Emission.violation?

/-- The failure it ended in, as a pass records it. -/
def fault? (x : Delivery) : Option Fault :=
  x.fault.map fun value => ⟨x.check, x.event.kind, x.entity, value⟩

end Delivery

/-- What an event is about. -/
def Event.entity : Event → Entity
  | beginModule m | endModule m => ⟨.module, m.name⟩
  | beginType _ t | endType _ t | field t _ | beginMethods _ t | endMethods _ t => ⟨.type, t.fullName⟩
  | method _ m => ⟨.method, m.fullName⟩
  | beginMethod c | endMethod c | visit c _ => ⟨.method, c.method.fullName⟩

namespace LiveRule

def hear (live : LiveRule) (entity : Entity) (event : Event) : Delivery :=
  let r := live.rule.react live.state event
  ⟨live.rule.id, entity, event, r.emissions, r.fault⟩

/-- The rule in the state the event leaves it in. -/
def next (live : LiveRule) (event : Event) : LiveRule :=
  ⟨live.rule, (live.rule.react live.state event).state⟩

/-- The rule as it goes on after an event, unless it failed. -/
def onward? (live : LiveRule) (event : Event) : Option LiveRule :=
  if (live.rule.react live.state event).fault.isSome then none else some (live.next event)

/-- What a rule makes of events when nothing else is there: it gets them one by one, up to and
including the first it fails on. -/
def alone (live : LiveRule) : List Event → List Delivery
  | [] => []
  | event :: rest => live.hear event.entity event :: (live.onward? event).elim [] fun next => next.alone rest

/-- The rule in the state it has come to behind them. -/
def final (live : LiveRule) : List Event → LiveRule
  | [] => live
  | event :: rest => (live.onward? event).elim (live.next event) fun next => next.final rest

@[simp] theorem rule_next (live : LiveRule) (event : Event) : (live.next event).rule = live.rule := rfl

theorem onward?_eq_none_iff {live : LiveRule} {event : Event} (entity : Entity) :
    live.onward? event = none ↔ (live.hear entity event).fault?.isSome = true := by
  simp [onward?, hear, Delivery.fault?, Option.isSome_iff_ne_none]

theorem onward?_eq_some {live next : LiveRule} {event : Event} (h : live.onward? event = some next) :
    live.next event = next := by
  rw [onward?] at h
  split at h
  · cases h
  · exact Option.some.inj h

/-- A rule that does not fail goes on. -/
theorem onward?_of_fine {live : LiveRule} {event : Event} (fine : (live.rule.react live.state event).fault = none) :
    live.onward? event = some (live.next event) := by
  simp [onward?, fine]

theorem alone_cons_of_fine {live : LiveRule} {event : Event} (fine : (live.rule.react live.state event).fault = none)
    (rest : List Event) :
    live.alone (event :: rest) = live.hear event.entity event :: (live.next event).alone rest := by
  rw [alone, onward?_of_fine fine, Option.elim_some]

@[simp] theorem rule_final (live : LiveRule) (events : List Event) : (live.final events).rule = live.rule := by
  induction events generalizing live with
  | nil => rfl
  | cons event rest ih =>
    rw [final]
    cases later : live.onward? event with
    | none => rfl
    | some next => rw [Option.elim_some, ih, ← onward?_eq_some later, rule_next]

/-- The events that reach the rule tell what it answers, -/
theorem alone_map_event (live : LiveRule) (events : List Event) :
    live.alone ((live.alone events).map (·.event)) = live.alone events := by
  induction events generalizing live with
  | nil => rfl
  | cons event rest ih =>
    rw [alone, List.map_cons]
    change live.alone (event :: _) = _
    rw [alone]
    cases live.onward? event with
    | none => rfl
    | some next => rw [Option.elim_some, Option.elim_some, ih]

/-- and the state that it comes to. -/
theorem final_eq_foldl (live : LiveRule) (events : List Event) :
    live.final events = ((live.alone events).map (·.event)).foldl next live := by
  induction events generalizing live with
  | nil => rfl
  | cons event rest ih =>
    rw [final, alone, List.map_cons, List.foldl_cons]
    change _ = List.foldl next (live.next event) _
    cases later : live.onward? event with
    | none => rfl
    | some after => rw [Option.elim_some, Option.elim_some, ih, onward?_eq_some later]

/-- Alone with the events the rule does not fail. -/
def Quiet (live : LiveRule) (events : List Event) : Prop := ∀ x ∈ live.alone events, x.fault = none

theorem quiet_cons {live : LiveRule} {event : Event} {rest : List Event} :
    live.Quiet (event :: rest) ↔
      (live.rule.react live.state event).fault = none ∧ (live.next event).Quiet rest := by
  by_cases fine : (live.rule.react live.state event).fault = none
  · simp [Quiet, alone_cons_of_fine fine, hear, fine]
  · simp [Quiet, alone, hear, fine]

theorem quiet_of_calm {r : Rule} (never : ∀ s e, (r.react s e).fault = none) {s : r.State} (events : List Event) :
    Quiet ⟨r, s⟩ events := by
  induction events generalizing s with
  | nil => simp [Quiet, alone]
  | cons event rest ih => exact quiet_cons.2 ⟨never s event, ih⟩

/-- A rule that does not fail hears all events, -/
theorem Quiet.map_event {live : LiveRule} {events : List Event} (quiet : live.Quiet events) :
    (live.alone events).map (·.event) = events := by
  induction events generalizing live with
  | nil => rfl
  | cons event rest ih =>
    obtain ⟨fine, later⟩ := quiet_cons.1 quiet
    rw [alone_cons_of_fine fine, List.map_cons, ih later]
    rfl

/-- and takes up others where it left off. -/
theorem Quiet.alone_append {live : LiveRule} {events : List Event} (quiet : live.Quiet events) (more : List Event) :
    live.alone (events ++ more) = live.alone events ++ (live.final events).alone more := by
  induction events generalizing live with
  | nil => rfl
  | cons event rest ih =>
    obtain ⟨fine, later⟩ := quiet_cons.1 quiet
    rw [List.cons_append, alone_cons_of_fine fine, alone_cons_of_fine fine, ih later, final, onward?_of_fine fine]
    rfl

theorem Quiet.append {live : LiveRule} {events more : List Event} (quiet : live.Quiet events)
    (later : (live.final events).Quiet more) : live.Quiet (events ++ more) := by
  intro x heard
  rw [quiet.alone_append, List.mem_append] at heard
  exact heard.elim (quiet x) (later x)

/-- A rule fails once at most: it hears nothing afterwards. -/
theorem length_faults_alone (live : LiveRule) (events : List Event) :
    ((live.alone events).filterMap Delivery.fault?).length ≤ 1 := by
  induction events generalizing live with
  | nil => simp [alone]
  | cons event rest ih =>
    rw [alone]
    cases later : live.onward? event with
    | none =>
      -- It ends here, with its only failure.
      rw [Option.elim_none]
      cases failed : (live.hear event.entity event).fault? <;> simp [failed]
    | some next =>
      have fine : (live.hear event.entity event).fault? = none := by
        rw [← Option.not_isSome_iff_eq_none, ← onward?_eq_none_iff, later]
        simp
      rw [Option.elim_some, List.filterMap_cons, fine]
      exact ih next

end LiveRule

namespace Dispatcher

/-! ## Moves of a pass -/

/-- One move of a pass. -/
inductive Move where
  | count (what : Counted)
  | give (emission : Emission)
  | call (place : Nat) (entity : Entity) (event : Event)

/-- What a dispatcher does when something occurs. -/
def moves (d : Dispatcher) : Occurrence → List Move
  | .count what => [.count what]
  | .announce name => [.give (.announce name)]
  | .log entry => [.give (.log entry)]
  | .deliver entity event => (d.subscribers event.kind).map (.call · entity event)

namespace Pass

def move (p : Pass) : Move → Pass
  | .count what => { p with counts := p.counts.add what }
  | .give emission => p.emit [emission]
  | .call place entity event => p.deliver entity event place

/-- The rules that still listen, by their places. -/
def roster (p : Pass) (place : Nat) : Option LiveRule :=
  if place ∈ p.failed then none else p.rules[place]?

def violations (p : Pass) : List Violation := p.emissions.filterMap Emission.violation?

theorem roster_eq_some_iff {p : Pass} {place : Nat} {live : LiveRule} :
    p.roster place = some live ↔ place ∉ p.failed ∧ p.rules[place]? = some live := by
  by_cases failed : place ∈ p.failed <;> simp [roster, failed]

theorem occur_eq (d : Dispatcher) (p : Pass) (o : Occurrence) : p.occur d o = (d.moves o).foldl move p := by
  cases o with
  | count what => rfl
  | announce name => rfl
  | log entry => rfl
  | deliver entity event => simp [occur, moves, move, List.foldl_map]

theorem foldl_occur (d : Dispatcher) (p : Pass) (os : List Occurrence) :
    os.foldl (occur d) p = (os.flatMap d.moves).foldl move p := by
  induction os generalizing p with
  | nil => rfl
  | cons o os ih => rw [List.foldl_cons, ih, occur_eq, List.flatMap_cons, List.foldl_append]

/-- All that a call can do. A rule that does not listen is passed over; any other takes the event,
and its place, its findings and its failure are all that changes. -/
theorem deliver_cases (p : Pass) (entity : Entity) (event : Event) (place : Nat) :
    (p.roster place = none ∧ p.deliver entity event place = p) ∨
    ∃ live, p.roster place = some live ∧
      (p.deliver entity event place).rules = p.rules.set place (live.next event) ∧
      (p.deliver entity event place).failed =
        (if (live.onward? event).isSome then p.failed else place :: p.failed) ∧
      (p.deliver entity event place).faults = p.faults ++ (live.hear entity event).fault?.toList ∧
      (p.deliver entity event place).violations = p.violations ++ (live.hear entity event).violations := by
  unfold deliver roster
  by_cases failed : place ∈ p.failed
  · exact .inl (by simp [failed])
  · cases here : p.rules[place]? with
    | none => exact .inl (by simp [failed])
    | some live =>
      refine .inr ⟨live, by simp [failed], ?_⟩
      cases fault : (live.rule.react live.state event).fault with
      | none =>
        simp [failed, fault, emit, violations, LiveRule.next, LiveRule.onward?, LiveRule.hear, Delivery.fault?,
          Delivery.violations]
      | some value =>
        simp [failed, fault, emit, violations, LiveRule.next, LiveRule.onward?, LiveRule.hear, Delivery.fault?,
          Delivery.violations, Emission.violation?]

end Pass

/-! ## The record -/

/-- A pass with the record of the calls that reached their rules. -/
structure Traced where
  pass : Pass
  trace : List (Nat × Delivery)

/-- The call at a place that reaches its rule. -/
def heardAt (ρ : Nat → Option LiveRule) (place : Nat) (entity : Entity) (event : Event) : List (Nat × Delivery) :=
  ((ρ place).map fun live => (place, live.hear entity event)).toList

namespace Traced

def move (t : Traced) : Move → Traced
  | .count what => ⟨t.pass.move (.count what), t.trace⟩
  | .give emission => ⟨t.pass.move (.give emission), t.trace⟩
  | .call place entity event =>
    ⟨t.pass.move (.call place entity event), t.trace ++ heardAt t.pass.roster place entity event⟩

end Traced

/-- A pass before its first move. -/
def start (d : Dispatcher) : Pass := ⟨d.rules, [], [], {}, []⟩

/-- A pass over a module, recorded. -/
def traced (d : Dispatcher) (m : Module) : Traced := (m.schedule.flatMap d.moves).foldl Traced.move ⟨d.start, []⟩

/-- The events that a pass delivers, with the places of the rules that they reach. -/
def deliveries (d : Dispatcher) (m : Module) : List (Nat × Delivery) := (d.traced m).trace

/-- What reaches the rule at a place. -/
def deliveriesTo (d : Dispatcher) (m : Module) (place : Nat) : List Delivery :=
  ((d.deliveries m).filter (·.1 = place)).map (·.2)

theorem pass_move (t : Traced) (v : Move) : (t.move v).pass = t.pass.move v := by
  cases v <;> rfl

theorem pass_foldl_move (t : Traced) (vs : List Move) : (vs.foldl Traced.move t).pass = vs.foldl Pass.move t.pass := by
  induction vs generalizing t with
  | nil => rfl
  | cons v vs ih => rw [List.foldl_cons, ih, pass_move, List.foldl_cons]

/-- **The record takes no part in the pass.** -/
theorem pass_traced (d : Dispatcher) (m : Module) :
    (d.traced m).pass = m.schedule.foldl (Pass.occur d) d.start := by
  rw [traced, pass_foldl_move, Pass.foldl_occur]

/-! ## What a pass reports -/

/-- The findings and failures of a pass are those on record. -/
structure Traced.Accounted (t : Traced) : Prop where
  violations : t.pass.violations = t.trace.flatMap (·.2.violations)
  faults : t.pass.faults = t.trace.filterMap (·.2.fault?)

/-- What a dispatcher gives off by itself is no finding. -/
def Move.Silent : Move → Prop
  | .give emission => emission.violation? = none
  | .count _ | .call .. => True

theorem silent_moves (d : Dispatcher) (o : Occurrence) : ∀ v ∈ d.moves o, v.Silent := by
  cases o with
  | count what => simp [moves, Move.Silent]
  | announce name => simp [moves, Move.Silent, Emission.violation?]
  | log entry => simp [moves, Move.Silent, Emission.violation?]
  | deliver entity event => simp [moves, Move.Silent]

theorem Traced.Accounted.move {t : Traced} (h : t.Accounted) {v : Move} (silent : v.Silent) : (t.move v).Accounted := by
  cases v with
  | count what => exact ⟨h.violations, h.faults⟩
  | give emission =>
    have none : emission.violation? = none := silent
    refine ⟨?_, h.faults⟩
    simpa [Traced.move, Pass.move, Pass.emit, Pass.violations, none] using h.violations
  | call place entity event =>
    obtain ⟨deaf, same⟩ | ⟨live, listening, -, -, faults, violations⟩ := t.pass.deliver_cases entity event place
    · simp only [Traced.move, Pass.move, same, heardAt, deaf, Option.map_none, Option.toList_none, List.append_nil]
      exact h
    · constructor
      · simp [Traced.move, Pass.move, violations, heardAt, listening, h.violations]
      · simp only [Traced.move, Pass.move, faults, heardAt, listening, h.faults, Option.map_some, Option.toList_some,
          List.filterMap_append, List.filterMap_cons, List.filterMap_nil]
        cases (live.hear entity event).fault? <;> rfl

theorem accounted_traced (d : Dispatcher) (m : Module) : (d.traced m).Accounted := by
  have run (vs : List Move) (t : Traced) (h : t.Accounted) (silent : ∀ v ∈ vs, v.Silent) :
      (vs.foldl Traced.move t).Accounted := by
    induction vs generalizing t with
    | nil => exact h
    | cons v vs ih =>
      exact ih _ (h.move (silent v List.mem_cons_self)) fun w member => silent w (List.mem_cons_of_mem _ member)
  refine run _ _ ⟨rfl, rfl⟩ fun v member => ?_
  obtain ⟨o, -, moved⟩ := List.mem_flatMap.1 member
  exact d.silent_moves o v moved

theorem faults_run (d : Dispatcher) (m : Module) :
    (d.run m).2.stats.faults = (d.deliveries m).filterMap (·.2.fault?) := by
  rw [deliveries, ← (d.accounted_traced m).faults, pass_traced]
  rfl

theorem violations_run (d : Dispatcher) (m : Module) :
    (d.run m).2.violations = (d.deliveries m).flatMap (·.2.violations) := by
  rw [deliveries, ← (d.accounted_traced m).violations, pass_traced]
  simp [run, start, Report.violations, Pass.violations, Emission.violation?]

/-! ## The roster -/

/-- The roster after a call: nobody else is concerned. -/
def rosterAfter (ρ : Nat → Option LiveRule) (place : Nat) (event : Event) : Nat → Option LiveRule :=
  Function.update ρ place ((ρ place).bind (·.onward? event))

/-- The calls that reach their rules, told from the roster alone. -/
def traceFrom (ρ : Nat → Option LiveRule) : List (Nat × Event) → List (Nat × Delivery)
  | [] => []
  | (place, event) :: rest => heardAt ρ place event.entity event ++ traceFrom (rosterAfter ρ place event) rest

theorem rosterAfter_self (ρ : Nat → Option LiveRule) (place : Nat) (event : Event) :
    rosterAfter ρ place event place = (ρ place).bind (·.onward? event) :=
  Function.update_self ..

theorem rosterAfter_of_ne (ρ : Nat → Option LiveRule) {place k : Nat} (other : k ≠ place) (event : Event) :
    rosterAfter ρ place event k = ρ k :=
  Function.update_of_ne other ..

theorem Pass.roster_deliver (p : Pass) (entity : Entity) (event : Event) (place : Nat) :
    (p.deliver entity event place).roster = rosterAfter p.roster place event := by
  obtain ⟨deaf, same⟩ | ⟨live, listening, rules, failed, -, -⟩ := p.deliver_cases entity event place
  · rw [same, rosterAfter, deaf, Option.bind_none, ← deaf, Function.update_eq_self]
  · obtain ⟨open_, here⟩ := roster_eq_some_iff.1 listening
    have bound : place < p.rules.length := (List.getElem?_eq_some_iff.1 here).1
    funext k
    by_cases same : k = place
    · subst same
      rw [rosterAfter_self, listening, Option.bind_some]
      simp only [Pass.roster, rules, failed]
      cases later : live.onward? event with
      | none => simp
      | some next => simp [open_, bound, LiveRule.onward?_eq_some later]
    · rw [rosterAfter_of_ne _ same]
      simp only [Pass.roster, rules, failed, List.getElem?_set_ne (Ne.symm same)]
      cases (live.onward? event).isSome <;> simp [same]

/-- The calls among moves. -/
def Move.call? : Move → Option (Nat × Event)
  | .count _ | .give _ => none
  | .call place _ event => some (place, event)

/-- A call names the entity its event is about. -/
def Move.Proper : Move → Prop
  | .count _ | .give _ => True
  | .call _ entity event => entity = event.entity

theorem trace_foldl_move (t : Traced) (vs : List Move) (proper : ∀ v ∈ vs, v.Proper) :
    (vs.foldl Traced.move t).trace = t.trace ++ traceFrom t.pass.roster (vs.filterMap Move.call?) := by
  induction vs generalizing t with
  | nil => simp [traceFrom]
  | cons v vs ih =>
    have later : ∀ w ∈ vs, w.Proper := fun w member => proper w (List.mem_cons_of_mem _ member)
    rw [List.foldl_cons, ih _ later]
    cases v with
    | count what => rfl
    | give emission => rfl
    | call place entity event =>
      obtain rfl : entity = event.entity := proper _ List.mem_cons_self
      simp [Traced.move, Move.call?, traceFrom, Pass.move, Pass.roster_deliver]

/-- The events that moves call the rule at a place with. -/
def eventsAt (place : Nat) (calls : List (Nat × Event)) : List Event := (calls.filter (·.1 = place)).map (·.2)

/-- What one move does to the rule at a place: a call to it brings it on, unless it has failed; nothing
else touches it. -/
theorem Pass.rule_move {p : Pass} {place : Nat} {live : LiveRule} (here : p.rules[place]? = some live) (v : Move) :
    ((v.call?.map (·.1) ≠ some place ∨ place ∈ p.failed) ∧ (p.move v).rules[place]? = some live ∧
      (place ∈ (p.move v).failed ↔ place ∈ p.failed)) ∨
    ∃ event, v.call? = some (place, event) ∧ place ∉ p.failed ∧
      (p.move v).rules[place]? = some (live.next event) ∧
      (place ∈ (p.move v).failed ↔ live.onward? event = none) := by
  cases v with
  | count what => exact .inl ⟨.inl (by simp [Move.call?]), here, Iff.rfl⟩
  | give emission => exact .inl ⟨.inl (by simp [Move.call?]), here, Iff.rfl⟩
  | call other entity event =>
    have deliver := p.deliver_cases entity event other
    by_cases same : other = place
    · subst same
      obtain ⟨deaf, kept⟩ | ⟨live', listening, rules, failed, -, -⟩ := deliver
      · have gone : other ∈ p.failed := by
          by_contra open_
          rw [roster_eq_some_iff.2 ⟨open_, here⟩] at deaf
          cases deaf
        exact .inl ⟨.inr gone, by rw [Pass.move, kept]; exact here, by rw [Pass.move, kept]⟩
      · obtain ⟨open_, here'⟩ := roster_eq_some_iff.1 listening
        obtain rfl : live = live' := Option.some.inj (here.symm.trans here')
        have bound : other < p.rules.length := (List.getElem?_eq_some_iff.1 here).1
        refine .inr ⟨event, rfl, open_, by simp [Pass.move, rules, bound], ?_⟩
        cases later : live.onward? event <;> simp [Pass.move, failed, later, open_]
    · refine .inl ⟨.inl (by simpa [Move.call?] using same), ?_⟩
      obtain ⟨-, kept⟩ | ⟨live', -, rules, failed, -, -⟩ := deliver
      · exact ⟨by rw [Pass.move, kept]; exact here, by rw [Pass.move, kept]⟩
      · refine ⟨by rw [Pass.move, rules, List.getElem?_set_ne same]; exact here, ?_⟩
        rw [Pass.move, failed]
        split <;> simp [Ne.symm same]

theorem Pass.rules_foldl_move (vs : List Move) {p : Pass} {place : Nat} {live : LiveRule}
    (here : p.rules[place]? = some live) :
    (vs.foldl Pass.move p).rules[place]? =
      some (if place ∈ p.failed then live else live.final (eventsAt place (vs.filterMap Move.call?))) := by
  induction vs generalizing p live with
  | nil => simp [eventsAt, LiveRule.final, here]
  | cons v vs ih =>
    rw [List.foldl_cons]
    -- Either the move passes the rule by, or it is a call that the rule still hears.
    obtain ⟨passed, kept, same⟩ | ⟨event, called, open_, moved, failed⟩ := p.rule_move here v
    · rw [ih kept]
      simp only [same]
      by_cases gone : place ∈ p.failed
      · simp [gone]
      · have other : v.call?.map (·.1) ≠ some place := passed.resolve_right gone
        cases call : v.call? with
        | none => simp [gone, call]
        | some c =>
          have differs : c.1 ≠ place := by simpa [call] using other
          simp [gone, call, eventsAt, differs]
    · rw [ih moved]
      simp only [failed, open_, ↓reduceIte, Option.some.injEq]
      rw [List.filterMap_cons, called]
      simp only [eventsAt, decide_true, List.filter_cons_of_pos, List.map_cons, LiveRule.final]
      cases later : live.onward? event with
      | none => simp
      | some next => simp [LiveRule.onward?_eq_some later]

theorem Pass.length_rules_move (p : Pass) (v : Move) : (p.move v).rules.length = p.rules.length := by
  cases v with
  | count what => rfl
  | give emission => rfl
  | call place entity event =>
    obtain ⟨-, kept⟩ | ⟨live, -, rules, -, -, -⟩ := p.deliver_cases entity event place
    · rw [Pass.move, kept]
    · rw [Pass.move, rules, List.length_set]

theorem Pass.length_rules_foldl_move (vs : List Move) (p : Pass) :
    (vs.foldl Pass.move p).rules.length = p.rules.length := by
  induction vs generalizing p with
  | nil => rfl
  | cons v vs ih => rw [List.foldl_cons, ih, length_rules_move]

/-! ## Rules one by one -/

section Alone

variable {ρ σ : Nat → Option LiveRule}

/-- Whatever reaches a rule is an answer of that rule, in some state it has come to. -/
theorem mem_traceFrom {P : Nat → Rule → Prop} (all : ∀ place live, ρ place = some live → P place live.rule)
    {calls : List (Nat × Event)} {x : Nat × Delivery} (member : x ∈ traceFrom ρ calls) :
    ∃ (live : LiveRule) (event : Event), P x.1 live.rule ∧ x.2 = live.hear event.entity event := by
  induction calls generalizing ρ with
  | nil => cases member
  | cons c calls ih =>
    obtain ⟨place, event⟩ := c
    rw [traceFrom, List.mem_append] at member
    rcases member with now | later
    · obtain ⟨live, listening, rfl⟩ : ∃ live, ρ place = some live ∧ (place, live.hear event.entity event) = x := by
        simpa [heardAt] using now
      exact ⟨live, event, all place live listening, rfl⟩
    · refine ih (fun k live after => ?_) later
      by_cases same : k = place
      · subst same
        rw [rosterAfter_self] at after
        obtain ⟨before, listening, onward⟩ := Option.bind_eq_some_iff.1 after
        rw [← LiveRule.onward?_eq_some onward]
        exact all k before listening
      · rw [rosterAfter_of_ne _ same] at after
        exact all k live after

/-- What is delivered to a rule is what it would make of its events alone. -/
theorem traceFrom_at (calls : List (Nat × Event)) (ρ : Nat → Option LiveRule) (place : Nat) :
    ((traceFrom ρ calls).filter (·.1 = place)).map (·.2) =
      (ρ place).elim [] fun live => live.alone (eventsAt place calls) := by
  induction calls generalizing ρ with
  | nil => cases ρ place <;> rfl
  | cons c calls ih =>
    obtain ⟨other, event⟩ := c
    rw [traceFrom, List.filter_append, List.map_append, ih]
    by_cases same : other = place
    · subst same
      rw [rosterAfter_self]
      cases listening : ρ other with
      | none => simp [heardAt, listening]
      | some live =>
        simp only [heardAt, listening, eventsAt, Option.map_some, Option.toList_some, decide_true, Option.bind_some,
          List.filter_cons_of_pos, List.filter_nil, List.map_cons, List.map_nil, Option.elim_some, LiveRule.alone]
        cases live.onward? event <;> rfl
    · have silent : (heardAt ρ other event.entity event).filter (·.1 = place) = [] := by
        cases listening : ρ other <;> simp [heardAt, listening, same]
      rw [rosterAfter_of_ne _ (Ne.symm same), silent]
      simp [eventsAt, same]

/-- Rules that are left out change nothing for the others. -/
theorem traceFrom_filter {keep : Nat → Bool} (agree : ∀ place, keep place = true → ρ place = σ place)
    (calls : List (Nat × Event)) :
    (traceFrom ρ calls).filter (keep ·.1) = traceFrom σ (calls.filter (keep ·.1)) := by
  induction calls generalizing ρ σ with
  | nil => rfl
  | cons c calls ih =>
    obtain ⟨place, event⟩ := c
    rw [traceFrom, List.filter_append]
    cases kept : keep place with
    | true =>
      have same : ρ place = σ place := agree place kept
      have heard : (heardAt ρ place event.entity event).filter (keep ·.1) = heardAt σ place event.entity event := by
        rw [heardAt, heardAt, same]
        cases σ place <;> simp [kept]
      have still : ∀ k, keep k = true → rosterAfter ρ place event k = rosterAfter σ place event k := by
        intro k keptToo
        by_cases at_ : k = place
        · rw [at_, rosterAfter_self, rosterAfter_self, same]
        · rw [rosterAfter_of_ne _ at_, rosterAfter_of_ne _ at_, agree k keptToo]
      rw [heard, ih still, List.filter_cons_of_pos (by exact kept), traceFrom]
    | false =>
      -- The call goes with its rule, and no rule that stays sees what it does to the roster.
      have silent : (heardAt ρ place event.entity event).filter (keep ·.1) = [] := by
        cases listening : ρ place <;> simp [heardAt, listening, kept]
      have still : ∀ k, keep k = true → rosterAfter ρ place event k = σ k := by
        intro k keptToo
        have other : k ≠ place := by
          rintro rfl
          rw [kept] at keptToo
          cases keptToo
        rw [rosterAfter_of_ne _ other, agree k keptToo]
      rw [silent, ih still, List.nil_append, List.filter_cons_of_neg (by simp [kept])]

/-- Rules may stand at other places. -/
theorem traceFrom_rename {place : Nat → Nat} {n : Nat}
    (distinct : ∀ i j, i < n → j < n → place i = place j → i = j) (agree : ∀ i < n, σ i = ρ (place i))
    {calls : List (Nat × Event)} (inside : ∀ c ∈ calls, c.1 < n) :
    (traceFrom σ calls).map (fun x => (place x.1, x.2)) = traceFrom ρ (calls.map fun c => (place c.1, c.2)) := by
  induction calls generalizing ρ σ with
  | nil => rfl
  | cons c calls ih =>
    obtain ⟨i, event⟩ := c
    have bound : i < n := inside (i, event) List.mem_cons_self
    have heard : (heardAt σ i event.entity event).map (fun x => (place x.1, x.2)) =
        heardAt ρ (place i) event.entity event := by
      rw [heardAt, heardAt, agree i bound]
      cases ρ (place i) <;> rfl
    have still : ∀ j < n, rosterAfter σ i event j = rosterAfter ρ (place i) event (place j) := by
      intro j boundToo
      by_cases same : j = i
      · rw [same, rosterAfter_self, rosterAfter_self, agree i bound]
      · have other : place j ≠ place i := fun h => same (distinct j i boundToo bound h)
        rw [rosterAfter_of_ne _ same, rosterAfter_of_ne _ other, agree j boundToo]
    rw [traceFrom, List.map_append, heard, ih still fun c member => inside c (List.mem_cons_of_mem _ member),
      List.map_cons, traceFrom]

end Alone

end Dispatcher

end CilAudit
