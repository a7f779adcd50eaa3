import CilAudit.Proofs.Deliveries
import Mathlib.Algebra.Ring.Nat

/-!
# The order of events

A module lays down which events there are and in what order: its scopes nest, each opened and
closed by an event of its own, and a body that cannot be analysed has none. A pass delivers this
sequence, every event to its subscribers in turn, and on its way counts what it comes to, whoever
listens.
-/

set_option autoImplicit false

namespace CilAudit

/-- The instructions of a body, if it can be read and then decoded. -/
def MethodBody.instructions? (b : MethodBody) : Option (List Instruction) :=
  match b.rawInstructions with
  | .error _ => none
  | .ok raw =>
    match decode raw with
    | .error _ => none
    | .ok instructions => some instructions

namespace Module

/-- The events of a body: each instruction between the begin and the end of the method. -/
def bodyEvents (c : MethodContext) (instructions : List Instruction) : List Event :=
  [.beginMethod c] ++ instructions.map (.visit c) ++ [.endMethod c]

def methodEvents (m : Module) (t : TypeDef) (method : Method) : List Event :=
  .method t method ::
    method.body.elim [] fun body =>
      body.instructions?.elim [] fun instructions =>
        bodyEvents ⟨m, t, method, .ofBody instructions body.entries⟩ instructions

def typeEvents (m : Module) (t : TypeDef) : List Event :=
  [.beginType m t] ++ t.fields.map (.field t) ++ [.beginMethods m t] ++ t.methods.flatMap (m.methodEvents t) ++
    [.endMethods m t, .endType m t]

/-- The events of a module, from its begin to its end. -/
def events (m : Module) : List Event :=
  [.beginModule m] ++ (m.types.filter (!·.isExternal)).flatMap m.typeEvents ++ [.endModule m]

/-- The bodies of the methods of the module's own types. -/
def ownBodies (m : Module) : List MethodBody :=
  (m.types.filter (!·.isExternal)).flatMap fun t => t.methods.filterMap (·.body)

/-- How many there are of all that is counted. -/
def counts (m : Module) : Counts where
  types := m.types.countP (!·.isExternal)
  methods := ((m.types.filter (!·.isExternal)).flatMap (·.methods)).length
  instructions := (m.ownBodies.flatMap fun b => b.instructions?.getD []).length
  skipped := m.ownBodies.countP (·.instructions?.isNone)

end Module

namespace Occurrence

/-- The event that an occurrence delivers, with the entity it names. -/
def delivery? : Occurrence → Option (Entity × Event)
  | deliver entity event => some (entity, event)
  | _ => none

def counted? : Occurrence → Option Counted
  | count what => some what
  | announce _ | log _ | deliver .. => none

end Occurrence

/-! ## The schedule -/

theorem MethodBody.instructions?_eq (b : MethodBody) : b.instructions? = b.decoded.toOption := by
  unfold decoded instructions?
  cases b.rawInstructions with
  | error cause => rfl
  | ok raw => cases made : decode raw <;> simp [made, Except.toOption]

namespace Module

theorem deliveries_methodSchedule (m : Module) (t : TypeDef) (method : Method) :
    (m.methodSchedule t method).filterMap Occurrence.delivery? =
      (m.methodEvents t method).map fun e => (e.entity, e) := by
  unfold methodSchedule methodEvents
  cases method.body with
  | none => rfl
  | some body =>
    simp only [Option.elim_some, body.instructions?_eq]
    cases body.decoded with
    | error cause => rfl
    | ok instructions =>
      simp only [Except.toOption, bodyEvents, List.cons_append, List.filterMap_cons, List.filterMap_append,
        List.filterMap_map, Function.comp_def, Occurrence.delivery?, List.filterMap_eq_map', Option.elim_some,
        List.map_cons, List.map_append, List.map_map, List.nil_append]
      rfl

theorem deliveries_typeSchedule (m : Module) (t : TypeDef) :
    (m.typeSchedule t).filterMap Occurrence.delivery? = (m.typeEvents t).map fun e => (e.entity, e) := by
  simp only [typeSchedule, typeEvents, List.cons_append, List.nil_append, List.filterMap_cons, List.filterMap_append,
    List.filterMap_map, List.filterMap_flatMap, deliveries_methodSchedule, Function.comp_def, Occurrence.delivery?,
    List.filterMap_eq_map', List.map_cons, List.map_append, List.map_map, List.map_flatMap]
  rfl

/-- The schedule delivers the events of the module, each under the entity that it is about. -/
theorem deliveries_schedule (m : Module) :
    m.schedule.filterMap Occurrence.delivery? = m.events.map fun e => (e.entity, e) := by
  simp only [schedule, events, ownTypes, List.cons_append, List.nil_append, List.filterMap_cons, List.filterMap_append,
    List.filterMap_flatMap, deliveries_typeSchedule, Occurrence.delivery?, List.map_cons, List.map_append,
    List.map_flatMap]
  rfl

end Module

namespace Dispatcher

/-- The calls that events lead to. -/
def calls (d : Dispatcher) (events : List Event) : List (Nat × Event) :=
  events.flatMap fun e => (d.subscribers e.kind).map (·, e)

theorem call?_moves (d : Dispatcher) (o : Occurrence) :
    (d.moves o).filterMap Move.call? = d.calls (o.delivery?.map (·.2)).toList := by
  cases o <;> simp [moves, Move.call?, calls, Occurrence.delivery?, List.filterMap_map, Function.comp_def]

theorem call?_flatMap_moves (d : Dispatcher) (os : List Occurrence) :
    (os.flatMap d.moves).filterMap Move.call? = d.calls ((os.filterMap Occurrence.delivery?).map (·.2)) := by
  induction os with
  | nil => rfl
  | cons o os ih =>
    rw [List.flatMap_cons, List.filterMap_append, ih, call?_moves, List.filterMap_cons]
    cases o.delivery? <;> simp [calls]

theorem call?_schedule (d : Dispatcher) (m : Module) :
    (m.schedule.flatMap d.moves).filterMap Move.call? = d.calls m.events := by
  rw [call?_flatMap_moves, m.deliveries_schedule, List.map_map]
  simp [Function.comp_def]

theorem proper_schedule (d : Dispatcher) (m : Module) : ∀ v ∈ m.schedule.flatMap d.moves, v.Proper := by
  intro v member
  obtain ⟨o, scheduled, moved⟩ := List.mem_flatMap.1 member
  cases o with
  | count what => simp_all [moves, Move.Proper]
  | announce name => simp_all [moves, Move.Proper]
  | log entry => simp_all [moves, Move.Proper]
  | deliver entity event =>
    have listed : (entity, event) ∈ m.schedule.filterMap Occurrence.delivery? :=
      List.mem_filterMap.2 ⟨_, scheduled, rfl⟩
    rw [m.deliveries_schedule] at listed
    obtain ⟨e, -, same⟩ := List.mem_map.1 listed
    obtain ⟨rfl, rfl⟩ : e.entity = entity ∧ e = event := by simpa using same
    obtain ⟨p, -, rfl⟩ := List.mem_map.1 moved
    rfl

/-- **The deliveries, told from the module.** The rules answer the events of the module one by one. -/
theorem deliveries_eq (d : Dispatcher) (m : Module) :
    d.deliveries m = traceFrom (d.rules[·]?) (d.calls m.events) := by
  have fresh : d.start.roster = (d.rules[·]?) := by
    funext k
    simp [start, Pass.roster]
  rw [deliveries, traced, trace_foldl_move _ _ (d.proper_schedule m), call?_schedule, fresh, List.nil_append]

/-- A pass leaves each rule in the state that the calls to it bring it to. -/
theorem rules_run (d : Dispatcher) (m : Module) (place : Nat) :
    (d.run m).1.rules[place]? = d.rules[place]?.map (·.final (eventsAt place (d.calls m.events))) := by
  have last : (d.run m).1.rules = ((m.schedule.flatMap d.moves).foldl Pass.move d.start).rules := by
    rw [← Pass.foldl_occur]
    rfl
  rw [last]
  cases here : d.rules[place]? with
  | none =>
    rw [List.getElem?_eq_none_iff] at here
    rw [List.getElem?_eq_none_iff.2 (by rw [Pass.length_rules_foldl_move]; exact here), Option.map_none]
  | some live =>
    rw [Pass.rules_foldl_move _ (p := d.start) here, call?_schedule]
    simp [start]

/-! ## Nobody fails -/

/-- Never does the rule fail, in no state and on no event. -/
def Calm (r : Rule) : Prop := ∀ s e, (r.react s e).fault = none

theorem faults_of_calm {ρ : Nat → Option LiveRule} (calm : ∀ p live, ρ p = some live → Calm live.rule)
    (calls : List (Nat × Event)) : (traceFrom ρ calls).filterMap (·.2.fault?) = [] := by
  rw [List.filterMap_eq_nil_iff]
  intro x member
  obtain ⟨live, event, never, answer⟩ := mem_traceFrom (P := fun _ r => Calm r) calm member
  simp [answer, LiveRule.hear, Delivery.fault?, never live.state event]

/-- Where no failure is on record, every call reached its rule. -/
theorem traceFrom_unfailed {ρ : Nat → Option LiveRule} {calls : List (Nat × Event)}
    (present : ∀ c ∈ calls, (ρ c.1).isSome = true) (fine : (traceFrom ρ calls).filterMap (·.2.fault?) = []) :
    (traceFrom ρ calls).map (fun x => (x.2.event, x.1)) = calls.map fun c => (c.2, c.1) := by
  induction calls generalizing ρ with
  | nil => rfl
  | cons c calls ih =>
    obtain ⟨p, event⟩ := c
    obtain ⟨live, listening⟩ := Option.isSome_iff_exists.1 (present (p, event) List.mem_cons_self)
    have heard : heardAt ρ p event.entity event = [(p, live.hear event.entity event)] := by simp [heardAt, listening]
    rw [traceFrom, heard, List.filterMap_append, List.append_eq_nil_iff] at fine
    obtain ⟨next, onward⟩ : ∃ next, live.onward? event = some next := by
      refine Option.ne_none_iff_exists'.1 fun ended => ?_
      rw [LiveRule.onward?_eq_none_iff event.entity] at ended
      simp [Option.isSome_iff_ne_none.1 ended] at fine
    rw [traceFrom, heard, List.map_append, List.map_cons, List.map_cons, ih ?_ fine.2]
    · rfl
    · intro c member
      by_cases same : c.1 = p
      · rw [same, rosterAfter_self, listening, Option.bind_some, onward]
        rfl
      · rw [rosterAfter_of_ne _ same]
        exact present c (List.mem_cons_of_mem _ member)

/-! ## The record and the pass -/

/-- The record of deliveries is one of the pass: each rule answers what is delivered to it and ends in the state that
this leads to, and the findings and failures of the pass are those of the answers. -/
structure Accounted (d : Dispatcher) (m : Module) : Prop where
  answers : ∀ place live, d.rules[place]? = some live →
    d.deliveriesTo m place = live.alone ((d.deliveriesTo m place).map (·.event))
  states : ∀ place live, d.rules[place]? = some live →
    (d.run m).1.rules[place]? = some (((d.deliveriesTo m place).map (·.event)).foldl LiveRule.next live)
  violations : (d.run m).2.violations = (d.deliveries m).flatMap (·.2.violations)
  faults : (d.run m).2.stats.faults = (d.deliveries m).filterMap (·.2.fault?)

theorem accounted (d : Dispatcher) (m : Module) : d.Accounted m where
  answers place live here := by
    rw [deliveriesTo, deliveries_eq, traceFrom_at, here, Option.elim_some, LiveRule.alone_map_event]
  states place live here := by
    rw [rules_run, deliveriesTo, deliveries_eq, traceFrom_at, here, Option.elim_some, Option.map_some,
      LiveRule.final_eq_foldl]
  violations := violations_run d m
  faults := faults_run d m

/-! ## Counts -/

/-- What a thing that is counted adds to the counts. -/
def share (what : Counted) : Counts := Counts.add {} what

theorem foldl_add (whats : List Counted) (c : Counts) :
    whats.foldl Counts.add c =
      ⟨c.types + (whats.map (share · |>.types)).sum, c.methods + (whats.map (share · |>.methods)).sum,
        c.instructions + (whats.map (share · |>.instructions)).sum, c.skipped + (whats.map (share · |>.skipped)).sum⟩ := by
  induction whats generalizing c with
  | nil => rfl
  | cons what whats ih =>
    rw [List.foldl_cons, ih]
    cases what <;> simp [share, Counts.add, Nat.add_assoc]

theorem Pass.counts_deliver (p : Pass) (entity : Entity) (event : Event) (place : Nat) :
    (p.deliver entity event place).counts = p.counts := by
  unfold deliver
  split
  · rfl
  · split
    · rfl
    · dsimp only
      split <;> rfl

/-- Only what is counted changes the counts: no rule does. -/
theorem Pass.counts_occur (d : Dispatcher) (p : Pass) (o : Occurrence) :
    (p.occur d o).counts = o.counted?.toList.foldl Counts.add p.counts := by
  cases o with
  | deliver entity event =>
    rw [occur]
    induction d.subscribers event.kind generalizing p with
    | nil => rfl
    | cons place places ih => rw [List.foldl_cons, ih, counts_deliver]
  | _ => rfl

theorem toCounts_run (d : Dispatcher) (m : Module) :
    (d.run m).2.stats.toCounts = (m.schedule.filterMap Occurrence.counted?).foldl Counts.add {} := by
  have run (os : List Occurrence) (p : Pass) :
      (os.foldl (Pass.occur d) p).counts = (os.filterMap Occurrence.counted?).foldl Counts.add p.counts := by
    induction os generalizing p with
    | nil => rfl
    | cons o os ih =>
      rw [List.foldl_cons, ih, Pass.counts_occur, ← List.foldl_append, List.filterMap_cons]
      cases o.counted? <;> rfl
  exact run m.schedule d.start

/-- What a pass counts of a body: its instructions or, if it cannot be analysed, the body as skipped. -/
def countedBody (b : MethodBody) : Counted := b.instructions?.elim .skipped (.instructions ·.length)

/-- What a pass counts of a module. -/
theorem counted_schedule (m : Module) :
    m.schedule.filterMap Occurrence.counted? =
      m.ownTypes.flatMap fun t => .type :: t.methods.flatMap fun x => .method :: (x.body.map countedBody).toList := by
  have method (t : TypeDef) (x : Method) : (m.methodSchedule t x).filterMap Occurrence.counted? =
      .method :: (x.body.map countedBody).toList := by
    unfold Module.methodSchedule
    cases x.body with
    | none => rfl
    | some b =>
      simp only [Option.map_some, countedBody, b.instructions?_eq]
      cases b.decoded with
      | error cause => rfl
      | ok instructions =>
        simp [Except.toOption, Occurrence.counted?, List.filterMap_cons, List.filterMap_map, Function.comp_def]
  have type (t : TypeDef) : (m.typeSchedule t).filterMap Occurrence.counted? =
      .type :: t.methods.flatMap fun x => .method :: (x.body.map countedBody).toList := by
    simp [Module.typeSchedule, Occurrence.counted?, List.filterMap_cons, List.filterMap_map, List.filterMap_flatMap,
      method, Function.comp_def]
  simp [Module.schedule, Occurrence.counted?, List.filterMap_cons, List.filterMap_flatMap, type]

/-- What is counted of a module, weighed in any way. -/
theorem sum_counted (m : Module) (weight : Counted → Nat) :
    ((m.schedule.filterMap Occurrence.counted?).map weight).sum =
      m.ownTypes.length * weight .type + (m.ownTypes.flatMap (·.methods)).length * weight .method +
        (m.ownBodies.map fun b => weight (countedBody b)).sum := by
  have methods (l : List Method) :
      ((l.flatMap fun x => .method :: (x.body.map countedBody).toList).map weight).sum =
        l.length * weight .method + ((l.filterMap (·.body)).map fun b => weight (countedBody b)).sum := by
    induction l with
    | nil => simp
    | cons x l ih =>
      cases body : x.body <;>
        simp only [List.flatMap_cons, List.map_append, List.map_cons, List.sum_append, List.sum_cons, ih, body,
          List.length_cons, Nat.succ_mul, List.filterMap_cons, Option.map_none, Option.map_some, Option.toList_none,
          Option.toList_some, List.map_nil, List.sum_nil] <;>
        omega
  rw [counted_schedule, Module.ownBodies, ← Module.ownTypes]
  induction m.ownTypes with
  | nil => simp
  | cons t ts ih =>
    simp only [List.flatMap_cons, List.map_append, List.map_cons, List.sum_append, List.sum_cons, ih, methods,
      List.length_cons, List.length_append, Nat.succ_mul, Nat.add_mul]
    omega

theorem share_countedBody (b : MethodBody) :
    share (countedBody b) = ⟨0, 0, (b.instructions?.getD []).length, if b.instructions?.isNone then 1 else 0⟩ := by
  rw [countedBody]
  cases b.instructions? with
  | none => rfl
  | some instructions => simp [share, Counts.add]

/-- **The counts, told from the module.** -/
theorem counts_run (d : Dispatcher) (m : Module) : (d.run m).2.stats.toCounts = m.counts := by
  have ones (l : List MethodBody) :
      (l.map fun b => if b.instructions?.isNone then 1 else 0).sum = l.countP (·.instructions?.isNone) := by
    induction l with
    | nil => rfl
    | cons b l ih => rw [List.map_cons, List.sum_cons, ih, List.countP_cons, Nat.add_comm]
  rw [toCounts_run, foldl_add, Module.counts, List.countP_eq_length_filter, ← Module.ownTypes]
  simp only [sum_counted, share_countedBody, ones, List.length_flatMap, List.map_const', List.sum_replicate_nat]
  simp [share, Counts.add]

/-- **A pass goes by the book.** If no rule fails, as when none ever does, each event of the module
is delivered in its order to the rules that subscribed to its kind, in theirs, and nothing else
is; and what is on record as delivered is what the rules of the pass answer, report and end with. The counts
are those of the module's own types, their methods, the instructions of the bodies that can be analysed
and the bodies that cannot, whatever the rules do. -/
theorem run_documented {rules : List Rule} {d : Dispatcher} (holds : d.Holds rules) (m : Module) :
    ((∀ r ∈ rules, Calm r) → (d.run m).2.stats.faults = []) ∧
    ((d.run m).2.stats.faults = [] →
      (d.deliveries m).map (fun x => (x.2.event, x.1)) =
        m.events.flatMap fun e =>
          ((List.range rules.length).filter fun p => rules[p]?.any (·.subscribes e.kind)).map (e, ·)) ∧
    d.Accounted m ∧
    (d.run m).2.stats.types = m.types.countP (!·.isExternal) ∧
    (d.run m).2.stats.methods = ((m.types.filter (!·.isExternal)).flatMap (·.methods)).length ∧
    (d.run m).2.stats.instructions = (m.ownBodies.flatMap fun b => b.instructions?.getD []).length ∧
    (d.run m).2.stats.skipped = m.ownBodies.countP (·.instructions?.isNone) := by
  have counts := d.counts_run m
  refine ⟨fun calm => ?_, fun fine => ?_, d.accounted m, ?_, ?_, ?_, ?_⟩
  · rw [faults_run, deliveries_eq]
    exact faults_of_calm (fun p live here => calm _ (List.mem_of_getElem? (holds.rule_eq here))) _
  · have present : ∀ c ∈ d.calls m.events, (d.rules[c.1]?).isSome = true := by
      intro c called
      obtain ⟨e, -, subscribed⟩ := List.mem_flatMap.1 called
      obtain ⟨p, member, rfl⟩ := List.mem_map.1 subscribed
      rw [holds.subscribers_eq] at member
      have bound := List.mem_range.1 (List.mem_filter.1 member).1
      simpa [holds.length_eq] using bound
    rw [faults_run, deliveries_eq] at fine
    rw [deliveries_eq, traceFrom_unfailed present fine, calls, List.map_flatMap]
    simp only [List.map_map, Function.comp_def, holds.subscribers_eq]
  all_goals
    rw [counts]
    rfl

/-- A type from elsewhere; a type with a field, a method without a body, one with, and one whose
operand does not fit. -/
def outing : Module :=
  let method (name : Text) (body : Option (List RawInstruction)) : Method :=
    { name, declaringType := "C", returnType := [], params := [], genericParams := [], isPublic := true,
      isStatic := true, isVirtual := false, isNewSlot := false, isAbstract := false, nativeImport := none,
      body := body.map fun is => ⟨.raw is, [], []⟩ }
  let type (fullName : Text) (isExternal : Bool) (fields : List Field) (methods : List Method) : TypeDef :=
    { fullName, base := [], interfaces := [], isPublic := true, isSealed := false, isAbstract := false,
      isValueType := false, isInterface := false, isMarkedGenerated := false, isExternal, fields, properties := [],
      methods }
  { name := "M"
    types :=
      [type "Object" true [] [method "Hash" (some [⟨0, ⟨0x2A⟩, .none⟩])],
        type "C" false [⟨"f", "T", true, false, false, false⟩]
          [method "Plan" none, method "Go" (some [⟨0, ⟨0x16⟩, .none⟩, ⟨1, ⟨0x26⟩, .none⟩, ⟨2, ⟨0x2A⟩, .none⟩]),
            method "Lost" (some [⟨0, ⟨0x72⟩, .int .int 42⟩, ⟨5, ⟨0x2A⟩, .none⟩])]] }

/-- A rule that keeps the kinds of what it hears of scopes and returns. -/
def scribe : Rule where
  id := "A"
  name := "Scopes"
  State := List EventKind
  start := []
  handles _ := true
  requests := [.beginModule, .beginType, .beginMethod, .visit .ret, .endMethod, .endType, .endModule]
  react heard e := { state := heard ++ [e.kind] }

theorem foldl_scribe (events : List Event) (heard : List EventKind) :
    events.foldl LiveRule.next ⟨scribe, heard⟩ = ⟨scribe, heard ++ events.map (·.kind)⟩ := by
  induction events generalizing heard with
  | nil => simp
  | cons e events ih =>
    have later := ih (heard ++ [e.kind])
    rw [List.append_assoc] at later
    exact later

/-- Two rules that look on: that one, and one that reports the methods it hears of. -/
def onlookers : List Rule :=
  [scribe,
    .stateless "B" "Members" [.visit .ret, .visit .loadConst, .field, .method] fun
      | .method _ m => [.report (.ofMethod "B" m 0 [])]
      | _ => []]

/-- The deliveries, and what comes of them: the state of the first rule and the findings of the second. -/
theorem run_documented_outing :
    ((ofRules onlookers).1.deliveries outing).map (fun x => (x.2.event.kind, x.1)) =
      [(.beginModule, 0), (.beginType, 0), (.field, 1), (.method, 1), (.method, 1), (.beginMethod, 0),
        (.visit .loadConst, 1), (.visit .ret, 0), (.visit .ret, 1), (.endMethod, 0), (.method, 1), (.endType, 0),
        (.endModule, 0)] ∧
    ((ofRules onlookers).1.run outing).1.rules[0]? =
      some ⟨scribe, [EventKind.beginModule, .beginType, .beginMethod, .visit .ret, .endMethod, .endType, .endModule]⟩ ∧
    ((ofRules onlookers).1.run outing).2.violations.map (·.entity.name) =
      [Text.ofString "System.Void C::Plan()", "System.Void C::Go()", "System.Void C::Lost()"] ∧
    ((ofRules onlookers).1.run outing).2.stats.skipped = 1 := by
  have book := run_documented (holds_ofRules onlookers) outing
  have calm : ∀ r ∈ onlookers, Calm r := by simp [onlookers, scribe, Rule.stateless, Calm]
  have kinds := congrArg (List.map fun x => (x.1.kind, x.2)) (book.2.1 (book.1 calm))
  rw [List.map_map] at kinds
  obtain ⟨-, -, record, -, -, -, skipped⟩ := book
  refine ⟨kinds.trans rfl, ?_, ?_, skipped.trans rfl⟩
  · rw [record.states 0 ⟨scribe, []⟩ rfl, foldl_scribe]
    rfl
  · rw [record.violations]
    rfl

end Dispatcher

end CilAudit
