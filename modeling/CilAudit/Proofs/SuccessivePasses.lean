import CilAudit.Proofs.AnalysedBodies

/-!
# One pass after another

Rules keep their states from one pass to the next. Each of them starts over at the event that opens
what it looks at, a type, the methods of a type or a body, and in a module no other event that it
hears comes before the first of these. So what was left behind is never seen, and a pass reports
what it would report as the first one.
-/

set_option autoImplicit false

namespace CilAudit

namespace Rule

/-- The rule answers the event, and goes on from it, without regard to its state. -/
def Forgets (r : Rule) (event : Event) : Prop := ∀ s s', r.react s event = r.react s' event

/-- Of the events, the first that the rule hears makes it forget its state. -/
def StartsOver (r : Rule) (events : List Event) : Prop :=
  ∀ event ∈ (events.filter (r.subscribes ·.kind)).head?, r.Forgets event

section StartsOver

variable {r : Rule} {events : List Event}

theorem startsOver_of_deaf (deaf : ∀ e ∈ events, r.subscribes e.kind = false) : r.StartsOver events := by
  have none : events.filter (r.subscribes ·.kind) = [] := by simpa using deaf
  intro e first
  simp [none] at first

theorem startsOver_of_head {e : Event} (hears : r.subscribes e.kind = true) (forgets : r.Forgets e) :
    r.StartsOver (e :: events) := by
  intro e' first
  obtain rfl : e = e' := by simpa [hears] using first
  exact forgets

theorem StartsOver.append {more : List Event} (h : r.StartsOver events) (h' : r.StartsOver more) :
    r.StartsOver (events ++ more) := by
  intro e first
  rw [List.filter_append, List.head?_append] at first
  rcases Option.or_eq_some_iff.1 first with here | ⟨-, later⟩
  · exact h e here
  · exact h' e later

theorem startsOver_flatMap {α : Type} {l : List α} {f : α → List Event} (each : ∀ a, r.StartsOver (f a)) :
    r.StartsOver (l.flatMap f) := by
  induction l with
  | nil => exact startsOver_of_deaf (by simp)
  | cons a l ih => exact (each a).append ih

/-- The state before the events does not matter to a rule that starts over. -/
theorem StartsOver.alone_eq (h : r.StartsOver events) (s s' : r.State) :
    LiveRule.alone ⟨r, s⟩ (events.filter (r.subscribes ·.kind)) =
      LiveRule.alone ⟨r, s'⟩ (events.filter (r.subscribes ·.kind)) := by
  unfold StartsOver at h
  cases heard : events.filter (r.subscribes ·.kind) with
  | nil => rfl
  | cons e rest =>
    rw [heard] at h
    have answer := h e rfl s s'
    simp only [LiveRule.alone, LiveRule.hear, LiveRule.onward?, LiveRule.next, answer]

end StartsOver

/-! ## Where rules start over -/

section Scopes

variable {r : Rule} (m : Module)

/-- A module is its types, between an event before them and one after. -/
theorem startsOver_events (before : r.subscribes .beginModule = false) (after : r.subscribes .endModule = false)
    (types : ∀ t, r.StartsOver (m.typeEvents t)) : r.StartsOver m.events := by
  refine .append (.append (startsOver_of_deaf ?_) (startsOver_flatMap types)) (startsOver_of_deaf ?_)
  · simpa [Event.kind] using before
  · simpa [Event.kind] using after

/-- A rule on bodies, which starts over when a method begins. -/
theorem startsOver_of_beginMethod (hears : r.subscribes .beginMethod = true)
    (outside : ∀ e : Event, e.context? = none → r.subscribes e.kind = false)
    (forgets : ∀ c, r.Forgets (.beginMethod c)) : r.StartsOver m.events := by
  have sites : r.StartsOver (m.bodySites.flatMap (·.events m)) := by
    refine startsOver_flatMap fun s => ?_
    unfold BodySite.events
    cases s.body.instructions? with
    | none => exact startsOver_of_deaf (by simp)
    | some instructions => exact startsOver_of_head hears (forgets _)
  rw [StartsOver, List.filter_flatMap, ← m.filter_events outside] at sites
  exact sites

end Scopes

/-- A rule on methods keeps nothing from one method to the next. -/
theorem startsOver_onMethods (m : Module) (id name : Text) (kinds : List Kind) (watches : MethodContext → Bool)
    (offends : MethodContext → Instruction → Except Text (Option Finding)) :
    (onMethods id name kinds watches offends).StartsOver m.events := by
  refine startsOver_of_beginMethod m ?_ (deaf_onMethods id name kinds watches offends) fun c s s' => rfl
  simp [subscribes, accepts, onMethods, methodEvents]

/-- Whatever the rules of the analyser were doing before a module, it is lost on them. -/
theorem startsOver_all (m : Module) : ∀ r ∈ all, r.StartsOver m.events := by
  have withoutState (id name : Text) (requests : List EventKind) (react : Event → List Emission) :
      (stateless id name requests react).StartsOver m.events := fun _ _ _ _ => rfl
  have arrays : readOnlyArray.StartsOver m.events :=
    startsOver_events m rfl rfl fun t => startsOver_of_head rfl fun s s' => rfl
  have serialization : serializableMethods.StartsOver m.events := by
    refine startsOver_events m rfl rfl fun t => ?_
    have fields : serializableMethods.StartsOver ([.beginType m t] ++ t.fields.map (.field t)) :=
      startsOver_of_deaf (by simp [Event.kind, subscribes, serializableMethods])
    rw [Module.typeEvents, List.append_assoc, List.append_assoc]
    exact fields.append (startsOver_of_head rfl fun s s' => rfl)
  simp only [all, List.forall_mem_cons, List.not_mem_nil, false_imp_iff, implies_true, and_true]
  have methods := startsOver_onMethods m
  exact ⟨methods _ _ _ _ _, methods _ _ _ _ _, methods _ _ _ _ _, methods _ _ _ _ _, methods _ _ _ _ _,
    withoutState _ _ _ _, withoutState _ _ _ _, withoutState _ _ _ _, withoutState _ _ _ _, serialization, arrays,
    methods _ _ _ _ _, withoutState _ _ _ _, methods _ _ _ _ _⟩

end Rule

namespace Dispatcher

variable {rules : List Rule} {d d' : Dispatcher} {ρ σ : Nat → Option LiveRule} {place : Nat} {event : Event}

/-! ## What a call gives off -/

/-- What a pass gives off when an event has reached a rule: what the rule does and, if it failed, a
word on that. -/
def given (x : Delivery) : List Emission :=
  x.emissions ++ (x.fault?.map fun fault =>
    .log ⟨.error, Module.engineLogger, fault.message ++ "; rule disabled for the rest of the module"⟩).toList

theorem Pass.emissions_deliver (p : Pass) (entity : Entity) (event : Event) (place : Nat) :
    (p.deliver entity event place).emissions =
      p.emissions ++ (heardAt p.roster place entity event).flatMap (given ·.2) := by
  unfold deliver heardAt roster
  by_cases failed : place ∈ p.failed
  · simp [failed]
  · cases here : p.rules[place]? with
    | none => simp [failed]
    | some live =>
      cases fault : (live.rule.react live.state event).fault <;>
        simp [failed, fault, emit, given, LiveRule.hear, Delivery.fault?]

theorem Pass.faults_deliver (p : Pass) (entity : Entity) (event : Event) (place : Nat) :
    (p.deliver entity event place).faults =
      p.faults ++ (heardAt p.roster place entity event).filterMap (·.2.fault?) := by
  obtain ⟨deaf, same⟩ | ⟨live, listening, -, -, faults, -⟩ := p.deliver_cases entity event place
  · simp [same, heardAt, deaf]
  · rw [faults, heardAt, listening]
    cases fault : (live.hear entity event).fault? <;> simp [fault]

/-! ## Passes in which rules answer alike -/

/-- Two rules at a place that the coming events do not tell apart: alone with them, both answer the same. -/
def AnswersAlike (coming : List Event) : Option LiveRule → Option LiveRule → Prop :=
  Option.Rel fun live live' => live.alone coming = live'.alone coming

section AnswersAlike

variable {later : List Event} {live live' : LiveRule}

/-- Rules that answer alike give the same answer now, -/
theorem hear_eq_of_alone (same : live.alone (event :: later) = live'.alone (event :: later)) (entity : Entity) :
    live.hear entity event = live'.hear entity event := by
  have now : live.hear event.entity event = live'.hear event.entity event := (List.cons.inj same).1
  simp only [LiveRule.hear, Delivery.mk.injEq, true_and] at now ⊢
  exact now

/-- and go on to answer alike. -/
theorem answersAlike_onward? (same : live.alone (event :: later) = live'.alone (event :: later)) :
    AnswersAlike later (live.onward? event) (live'.onward? event) := by
  have now := hear_eq_of_alone same event.entity
  have rest := (List.cons.inj same).2
  have stops : live.onward? event = none ↔ live'.onward? event = none := by
    rw [LiveRule.onward?_eq_none_iff event.entity, LiveRule.onward?_eq_none_iff event.entity, now]
  cases next : live.onward? event with
  | none =>
    rw [stops.1 next]
    exact .none
  | some live =>
    cases next' : live'.onward? event with
    | none => simp [stops.2 next'] at next
    | some live' =>
      rw [next, next'] at rest
      exact .some rest

theorem AnswersAlike.heardAt_eq (h : AnswersAlike (event :: later) (ρ place) (σ place)) (entity : Entity) :
    heardAt ρ place entity event = heardAt σ place entity event := by
  unfold heardAt
  generalize ρ place = x at h
  generalize σ place = y at h
  cases h with
  | none => rfl
  | some same => rw [Option.map_some, Option.map_some, hear_eq_of_alone same]

theorem AnswersAlike.bind_onward? {x y : Option LiveRule} (h : AnswersAlike (event :: later) x y) :
    AnswersAlike later (x.bind (·.onward? event)) (y.bind (·.onward? event)) := by
  cases h with
  | none => exact .none
  | some same => exact answersAlike_onward? same

end AnswersAlike

theorem answersAlike_rosterAfter {calls : List (Nat × Event)}
    (alike : ∀ k, AnswersAlike (eventsAt k ((place, event) :: calls)) (ρ k) (σ k)) (k : Nat) :
    AnswersAlike (eventsAt k calls) (rosterAfter ρ place event k) (rosterAfter σ place event k) := by
  have before := alike k
  by_cases same : k = place
  · subst same
    have called : eventsAt k ((k, event) :: calls) = event :: eventsAt k calls := by simp [eventsAt]
    rw [called] at before
    rw [rosterAfter_self, rosterAfter_self]
    exact before.bind_onward?
  · have passed : eventsAt k ((place, event) :: calls) = eventsAt k calls := by simp [eventsAt, Ne.symm same]
    rw [passed] at before
    rwa [rosterAfter_of_ne _ same, rosterAfter_of_ne _ same]

/-- Two passes whose rules answer alike, place by place, give off the same, and the same rules fail. -/
theorem Pass.foldl_move_eq {p q : Pass} {vs : List Move} (emissions : p.emissions = q.emissions)
    (faults : p.faults = q.faults)
    (alike : ∀ k, AnswersAlike (eventsAt k (vs.filterMap Move.call?)) (p.roster k) (q.roster k)) :
    (vs.foldl Pass.move p).emissions = (vs.foldl Pass.move q).emissions ∧
      (vs.foldl Pass.move p).faults = (vs.foldl Pass.move q).faults := by
  induction vs generalizing p q with
  | nil => exact ⟨emissions, faults⟩
  | cons v vs ih =>
    rw [List.foldl_cons, List.foldl_cons]
    cases v with
    | count what => exact ih emissions faults alike
    | give emission => exact ih (by simp [Pass.move, Pass.emit, emissions]) faults alike
    | call place entity event =>
      have now : AnswersAlike (event :: eventsAt place (vs.filterMap Move.call?)) (p.roster place)
          (q.roster place) := by
        simpa [Move.call?, eventsAt] using alike place
      have heard := now.heardAt_eq entity
      refine ih ?_ ?_ fun k => ?_
      · rw [Pass.move, Pass.move, emissions_deliver, emissions_deliver, emissions, heard]
      · rw [Pass.move, Pass.move, faults_deliver, faults_deliver, faults, heard]
      · rw [Pass.move, Pass.move, roster_deliver, roster_deliver]
        exact answersAlike_rosterAfter alike k

/-! ## Whole passes -/

/-- A pass by its moves. -/
theorem report_run (d : Dispatcher) (m : Module) :
    (d.run m).2 =
      ⟨⟨m.counts, ((m.schedule.flatMap d.moves).foldl Pass.move d.start).faults⟩,
        ((m.schedule.flatMap d.moves).foldl Pass.move d.start).emissions ++
          [.log ⟨.info, Module.engineLogger,
            summary m ⟨m.counts, ((m.schedule.flatMap d.moves).foldl Pass.move d.start).faults⟩⟩]⟩ := by
  rw [← counts_run d, ← Pass.foldl_occur]
  rfl

/-- **Rules in place of others.** Let each rule of a dispatcher have a counterpart in another, at the same place,
that hears the same events and answers them alike. Then a pass reports the same. -/
theorem Holds.report_eq_of_pairs {m : Module} {pairs : List (Rule × Rule)} (holds : d.Holds (pairs.map (·.1)))
    (holds' : d'.Holds (pairs.map (·.2))) (hears : ∀ p ∈ pairs, ∀ k, p.2.subscribes k = p.1.subscribes k)
    (alike : ∀ p ∈ pairs, ∀ s s', LiveRule.alone ⟨p.1, s⟩ (m.events.filter (p.1.subscribes ·.kind)) =
      LiveRule.alone ⟨p.2, s'⟩ (m.events.filter (p.1.subscribes ·.kind))) : (d.run m).2 = (d'.run m).2 := by
  have subscribers (k : EventKind) : d.subscribers k = d'.subscribers k := by
    rw [holds.subscribers_eq, holds'.subscribers_eq, List.length_map, List.length_map]
    apply List.filter_congr
    intro place _
    rw [List.getElem?_map, List.getElem?_map]
    cases here : pairs[place]? with
    | none => rfl
    | some p => exact (hears p (List.mem_of_getElem? here) k).symm
  have moves : d.moves = d'.moves := by
    funext o
    cases o with
    | count what => rfl
    | announce name => rfl
    | log entry => rfl
    | deliver entity event => rw [Dispatcher.moves, Dispatcher.moves, subscribers]
  have roster (d : Dispatcher) (k : Nat) : d.start.roster k = d.rules[k]? := by simp [start, Pass.roster]
  have places (k : Nat) : AnswersAlike (eventsAt k ((m.schedule.flatMap d.moves).filterMap Move.call?))
      (d.start.roster k) (d'.start.roster k) := by
    rw [call?_schedule, roster, roster]
    have rule : d.rules[k]?.map (·.rule) = pairs[k]?.map (·.1) := by
      rw [← List.getElem?_map, ← List.getElem?_map, holds.held]
    have rule' : d'.rules[k]?.map (·.rule) = pairs[k]?.map (·.2) := by
      rw [← List.getElem?_map, ← List.getElem?_map, holds'.held]
    cases pair : pairs[k]? with
    | none =>
      rw [pair] at rule rule'
      rw [Option.map_eq_none_iff.1 rule, Option.map_eq_none_iff.1 rule']
      exact .none
    | some p =>
      rw [pair] at rule rule'
      obtain ⟨⟨r, s⟩, here, rfl⟩ := Option.map_eq_some_iff.1 rule
      obtain ⟨⟨r', s'⟩, here', rfl⟩ := Option.map_eq_some_iff.1 rule'
      rw [holds.eventsAt_calls here, here, here']
      exact .some (alike p (List.mem_of_getElem? pair) s s')
  obtain ⟨emissions, faults⟩ := Pass.foldl_move_eq (p := d.start) (q := d'.start) rfl rfl places
  rw [report_run, report_run, ← moves, emissions, faults]

/-- Rules that start over can be in any state when a pass begins. -/
theorem Holds.report_eq {m : Module} (holds : d.Holds rules) (holds' : d'.Holds rules)
    (restarts : ∀ r ∈ rules, r.StartsOver m.events) : (d.run m).2 = (d'.run m).2 := by
  have twice (f : Rule × Rule → Rule) (same : ∀ r, f (r, r) = r) : (rules.map fun r => (r, r)).map f = rules := by
    simp [Function.comp_def, same]
  have first : d.Holds ((rules.map fun r => (r, r)).map (·.1)) := by rwa [twice _ fun _ => rfl]
  have second : d'.Holds ((rules.map fun r => (r, r)).map (·.2)) := by rwa [twice _ fun _ => rfl]
  refine first.report_eq_of_pairs second ?_ ?_
  · intro p member k
    obtain ⟨r, -, rfl⟩ := List.mem_map.1 member
    rfl
  · intro p member s s'
    obtain ⟨r, known, rfl⟩ := List.mem_map.1 member
    exact (restarts r known).alone_eq s s'

/-- Passes over modules in turn, each with the rules as the one before left them; what they report. -/
def runAll (d : Dispatcher) : List Module → List Report
  | [] => []
  | m :: rest => (d.run m).2 :: (d.run m).1.runAll rest

theorem Holds.runAll_eq (holds : d.Holds rules) (restarts : ∀ m : Module, ∀ r ∈ rules, r.StartsOver m.events)
    (modules : List Module) : d.runAll modules = modules.map fun m => ((ofRules rules).1.run m).2 := by
  induction modules generalizing d with
  | nil => rfl
  | cons m rest ih =>
    rw [runAll, List.map_cons, holds.report_eq (holds_ofRules rules) (restarts m), ih (holds.run m)]

/-- **Modules are checked independently.** A dispatcher with any of the rules of the analyser that
goes through modules in turn reports on each of them, findings, counts and log, what a new dispatcher
with new rules would report on it. -/
theorem runAll_fresh {rules : List Rule} (chosen : ∀ r ∈ rules, r ∈ Rule.all) (modules : List Module) :
    (ofRules rules).1.runAll modules = modules.map fun m => ((ofRules rules).1.run m).2 :=
  (holds_ofRules rules).runAll_eq (fun m r member => Rule.startsOver_all m r (chosen r member)) modules

/-- A module of one type with a read-only array, a method that locks its object and one without a
body. -/
def crate (name : Text) (isPublic : Bool) (locked : RawInstruction) : Module :=
  let method (name : Text) (body : Option (List RawInstruction)) : Method :=
    { name, declaringType := "C", returnType := [], params := [], genericParams := [], isPublic := true,
      isStatic := false, isVirtual := false, isNewSlot := false, isAbstract := false, nativeImport := none,
      body := body.map fun is => ⟨.raw is, [], []⟩ }
  let enter : MethodRef := { declaringType := "System.Threading.Monitor", name := "Enter", params := ["System.Object"] }
  { name
    types :=
      [{ fullName := "C", base := [], interfaces := [], isPublic, isSealed := false, isAbstract := false,
         isValueType := false, isInterface := false, isMarkedGenerated := false, isExternal := false,
         fields := [⟨"sizes", "System.Int32[]", true, false, false, true⟩], properties := [],
         methods :=
          [method "Plan" none, method "Hold" (some [locked, ⟨1, ⟨0x28⟩, .method enter⟩, ⟨6, ⟨0x2A⟩, .none⟩])] }] }

/-- The rules on arrays and locks. -/
def wardens : List Rule := [.readOnlyArray, .lockThis]

/-- A module that is reported, one that is not though the rules come to it with what they noted of
the first, and the first again. -/
theorem runAll_fresh_crates :
    (∀ r ∈ wardens, r ∈ Rule.all) ∧
    ((ofRules wardens).1.runAll [crate "A" true ⟨0, ⟨0x02⟩, .none⟩, crate "B" false ⟨0, ⟨0x14⟩, .none⟩,
        crate "A" true ⟨0, ⟨0x02⟩, .none⟩]).map (fun r => (r.violations.map (·.check), r.stats.methods)) =
      [([Text.ofString "MS1003", "S1002"], 2), ([], 2), (["MS1003", "S1002"], 2)] := by
  have chosen : ∀ r ∈ wardens, r ∈ Rule.all := by simp [wardens, Rule.all]
  refine ⟨chosen, ?_⟩
  rw [runAll_fresh chosen]
  decide +kernel

end Dispatcher

end CilAudit
