import CilAudit.Proofs.EventOrder
import CilAudit.Rule.All
import Mathlib.Data.List.Nodup

/-!
# Rules do not disturb each other

Each rule gets the events that it asked for, in the order of the module, until it first fails, and
ends where it would end alone. So neither the others nor their failures are anything to it, and to
leave rules out is to leave out what they report.
-/

set_option autoImplicit false

namespace CilAudit

namespace Dispatcher

variable {d d' : Dispatcher} {rules : List Rule} {place : Nat} {live : LiveRule}

/-! ## One rule among others -/

theorem Holds.nodup_subscribers (holds : d.Holds rules) (k : EventKind) : (d.subscribers k).Nodup := by
  rw [holds.subscribers_eq]
  exact List.nodup_range.filter _

/-- Of all calls, those to a rule are the events that it gets. -/
theorem Holds.eventsAt_calls (holds : d.Holds rules) (here : d.rules[place]? = some live) (events : List Event) :
    eventsAt place (d.calls events) = events.filter (live.rule.subscribes ·.kind) := by
  have subscribed (e : Event) : place ∈ d.subscribers e.kind ↔ live.rule.subscribes e.kind = true := by
    have bound := (List.getElem?_eq_some_iff.1 (holds.rule_eq here)).1
    rw [holds.subscribers_eq, List.mem_filter, List.mem_range, holds.rule_eq here]
    simp [bound]
  induction events with
  | nil => rfl
  | cons e events ih =>
    have once : ((d.subscribers e.kind).map (·, e)).filter (·.1 = place) =
        if live.rule.subscribes e.kind then [(place, e)] else [] := by
      rw [List.filter_map, Function.comp_def, List.filter_eq, (holds.nodup_subscribers _).count]
      simp only [subscribed]
      split <;> rfl
    rw [calls, List.flatMap_cons, eventsAt, List.filter_append, List.map_append, once]
    rw [eventsAt, calls] at ih
    rw [ih, List.filter_cons]
    split <;> rfl

/-- **A rule hears what it is subscribed to.** -/
theorem Holds.deliveriesTo_eq (holds : d.Holds rules) (here : d.rules[place]? = some live) (m : Module) :
    d.deliveriesTo m place = live.alone (m.events.filter (live.rule.subscribes ·.kind)) := by
  rw [deliveriesTo, deliveries_eq, traceFrom_at, here, Option.elim_some, holds.eventsAt_calls here]

/-- Each rule comes to the state that it would come to alone. -/
theorem Holds.rules_run_eq (holds : d.Holds rules) (m : Module) :
    (d.run m).1.rules = d.rules.map fun live => live.final (m.events.filter (live.rule.subscribes ·.kind)) := by
  refine List.ext_getElem? fun place => ?_
  rw [rules_run, List.getElem?_map]
  cases here : d.rules[place]? with
  | none => rfl
  | some live => rw [Option.map_some, Option.map_some, holds.eventsAt_calls here]

/-- A pass changes nothing but states. -/
theorem Holds.run (holds : d.Holds rules) (m : Module) : (d.run m).1.Holds rules where
  held := by
    rw [holds.rules_run_eq, List.map_map, ← holds.held]
    exact List.map_congr_left fun live _ => live.rule_final _
  subscribed := holds.subscribed

/-- A place without a rule gets nothing. -/
theorem deliveriesTo_eq_nil (m : Module) (absent : d.rules[place]? = none) : d.deliveriesTo m place = [] := by
  rw [deliveriesTo, deliveries_eq, traceFrom_at, absent, Option.elim_none]

/-- Where no rule fails alone, the pass has no failures. -/
theorem Holds.faults_eq_nil (holds : d.Holds rules) {m : Module}
    (quiet : ∀ (place : Nat) (live : LiveRule), d.rules[place]? = some live →
      live.Quiet (m.events.filter (live.rule.subscribes ·.kind))) : (d.run m).2.stats.faults = [] := by
  rw [faults_run, List.filterMap_eq_nil_iff]
  intro x delivered
  have heard : x.2 ∈ d.deliveriesTo m x.1 := List.mem_map.2 ⟨x, List.mem_filter.2 ⟨delivered, by simp⟩, rfl⟩
  cases here : d.rules[x.1]? with
  | none => simp [deliveriesTo_eq_nil m here] at heard
  | some live =>
    rw [holds.deliveriesTo_eq here] at heard
    rw [Delivery.fault?, quiet x.1 live here x.2 heard, Option.map_none]

theorem Holds.length_faults_le (holds : d.Holds rules) (m : Module) (place : Nat) :
    ((d.deliveriesTo m place).filterMap Delivery.fault?).length ≤ 1 := by
  cases here : d.rules[place]? with
  | none => simp [deliveriesTo_eq_nil m here]
  | some live =>
    rw [holds.deliveriesTo_eq here]
    exact live.length_faults_alone _

/-! ## Some rules left out -/

/-- The members of a list at the places that are kept. -/
def kept {α : Type*} (keep : Nat → Bool) (l : List α) : List α :=
  ((List.range l.length).filter keep).filterMap (l[·]?)

theorem getElem?_filterMap_of_isSome {α β : Type*} {f : α → Option β} {l : List α}
    (all : ∀ a ∈ l, (f a).isSome = true) (j : Nat) : (l.filterMap f)[j]? = l[j]?.bind f := by
  induction l generalizing j with
  | nil => simp
  | cons a l ih =>
    obtain ⟨b, made⟩ := Option.isSome_iff_exists.1 (all a List.mem_cons_self)
    rw [List.filterMap_cons_some made]
    cases j with
    | zero => simp [made]
    | succ j => simpa using ih (fun a member => all a (List.mem_cons_of_mem _ member)) j

theorem flatMap_filter {α β : Type*} (p : α → Bool) (f : α → List β) (l : List α) :
    (l.filter p).flatMap f = l.flatMap fun a => if p a then f a else [] := by
  induction l with
  | nil => rfl
  | cons a l ih => cases holds : p a <;> simp [holds, ih]

section Kept

variable {α β : Type*} (keep : Nat → Bool) (l : List α)

/-- The place that the member at a place of the kept ones had before. -/
def origin (n j : Nat) : Nat := (((List.range n).filter keep)[j]?).getD 0

theorem getElem?_kept (j : Nat) : (kept keep l)[j]? = ((List.range l.length).filter keep)[j]?.bind (l[·]?) := by
  refine getElem?_filterMap_of_isSome (fun k member => ?_) j
  have bound := List.mem_range.1 (List.mem_filter.1 member).1
  simpa using bound

theorem length_kept : (kept keep l).length = ((List.range l.length).filter keep).length := by
  refine List.filterMap_length_eq_length.2 fun k member => ?_
  have bound := List.mem_range.1 (List.mem_filter.1 member).1
  simpa using bound

theorem map_kept (f : α → β) : (kept keep l).map f = kept keep (l.map f) := by
  simp [kept, List.map_filterMap]

/-- To keep the places of the members with a property is to keep these members. -/
theorem kept_any (p : α → Bool) : kept (fun k => l[k]?.any p) l = l.filter p := by
  induction l with
  | nil => rfl
  | cons a l ih =>
    rw [kept, List.length_cons, List.range_succ_eq_map, List.filter_cons, List.filter_map]
    rw [kept] at ih
    cases holds : p a <;> simp [holds, List.filterMap_map, Function.comp_def, ← ih]

variable {keep l}

theorem getElem?_kept_of_lt {j : Nat} (bound : j < (kept keep l).length) :
    (kept keep l)[j]? = l[origin keep l.length j]? := by
  rw [length_kept] at bound
  rw [getElem?_kept, origin, List.getElem?_eq_getElem bound]
  rfl

theorem map_origin (n : Nat) :
    (List.range ((List.range n).filter keep).length).map (origin keep n) = (List.range n).filter keep := by
  refine List.ext_getElem? fun j => ?_
  by_cases bound : j < ((List.range n).filter keep).length
  · simp [origin, bound]
  · simp [bound]

theorem origin_inj {n i j : Nat} (hi : i < ((List.range n).filter keep).length)
    (hj : j < ((List.range n).filter keep).length) (same : origin keep n i = origin keep n j) : i = j := by
  have distinct : ((List.range n).filter keep).Nodup := List.nodup_range.filter _
  rw [origin, origin, List.getElem?_eq_getElem hi, List.getElem?_eq_getElem hj] at same
  exact (distinct.getElem_inj_iff).1 same

end Kept

/-- The kept rules are subscribed as they were, at new places. -/
theorem Holds.map_subscribers {keep : Nat → Bool} (holds : d.Holds rules) (holds' : d'.Holds (kept keep rules))
    (k : EventKind) :
    (d'.subscribers k).map (origin keep rules.length) = (d.subscribers k).filter keep := by
  have moved : d'.subscribers k = (List.range ((List.range rules.length).filter keep).length).filter fun j =>
      rules[origin keep rules.length j]?.any (·.subscribes k) := by
    rw [holds'.subscribers_eq, length_kept]
    refine List.filter_congr fun j member => ?_
    rw [getElem?_kept_of_lt (by rw [length_kept]; exact List.mem_range.1 member)]
  calc (d'.subscribers k).map (origin keep rules.length)
      = ((List.range ((List.range rules.length).filter keep).length).map (origin keep rules.length)).filter fun p =>
          rules[p]?.any (·.subscribes k) := by rw [moved, List.filter_map]; rfl
    _ = ((List.range rules.length).filter keep).filter fun p => rules[p]?.any (·.subscribes k) := by rw [map_origin]
    _ = (d.subscribers k).filter keep := by
      rw [holds.subscribers_eq, List.filter_filter, List.filter_filter]
      simp only [Bool.and_comm]

theorem Holds.map_calls {keep : Nat → Bool} (holds : d.Holds rules) (holds' : d'.Holds (kept keep rules))
    (events : List Event) :
    (d'.calls events).map (fun c => (origin keep rules.length c.1, c.2)) = (d.calls events).filter (keep ·.1) := by
  have each (e : Event) : ((d'.subscribers e.kind).map (·, e)).map (fun c => (origin keep rules.length c.1, c.2)) =
      ((d.subscribers e.kind).map (·, e)).filter (keep ·.1) := by
    rw [List.filter_map, Function.comp_def, ← holds.map_subscribers holds']
    simp [Function.comp_def]
  simp only [calls, List.map_flatMap, List.filter_flatMap, each]

/-- **Leaving rules out.** What the others get stays as it is. -/
theorem Holds.deliveries_kept {keep : Nat → Bool} (holds : d.Holds rules) (holds' : d'.Holds (kept keep rules))
    (same : d'.rules = kept keep d.rules) (m : Module) :
    (d'.deliveries m).map (fun x => (origin keep rules.length x.1, x.2)) =
      (d.deliveries m).filter (keep ·.1) := by
  have length : d'.rules.length = ((List.range rules.length).filter keep).length := by
    rw [same, length_kept, holds.length_eq]
  have agree : ∀ i < ((List.range rules.length).filter keep).length,
      d'.rules[i]? = d.rules[origin keep rules.length i]? := by
    intro i bound
    rw [same, getElem?_kept_of_lt (by rw [← same, length]; exact bound), holds.length_eq]
  have inside : ∀ c ∈ d'.calls m.events, c.1 < ((List.range rules.length).filter keep).length := by
    intro c called
    obtain ⟨e, -, subscribed⟩ := List.mem_flatMap.1 called
    obtain ⟨p, member, rfl⟩ := List.mem_map.1 subscribed
    rw [holds'.subscribers_eq, length_kept] at member
    exact List.mem_range.1 (List.mem_filter.1 member).1
  rw [deliveries_eq, deliveries_eq,
    traceFrom_rename (ρ := (d.rules[·]?)) (fun i j hi hj => origin_inj hi hj) agree inside,
    holds.map_calls holds', traceFrom_filter (fun _ _ => rfl)]

theorem Holds.violations_kept {keep : Nat → Bool} (holds : d.Holds rules) (holds' : d'.Holds (kept keep rules))
    (same : d'.rules = kept keep d.rules) (m : Module) :
    (d'.run m).2.violations = ((d.deliveries m).filter (keep ·.1)).flatMap (·.2.violations) := by
  rw [violations_run, ← holds.deliveries_kept holds' same, List.flatMap_map]

/-- The kept rules come to the states that they come to among the others. -/
theorem Holds.rules_kept {keep : Nat → Bool} (holds : d.Holds rules) (holds' : d'.Holds (kept keep rules))
    (same : d'.rules = kept keep d.rules) (m : Module) : (d'.run m).1.rules = kept keep (d.run m).1.rules := by
  rw [holds.rules_run_eq, holds'.rules_run_eq, same, map_kept]

end Dispatcher

/-! ## Rules that sign what they report -/

namespace Rule

/-- Every finding of the rule bears its id. -/
def Signs (r : Rule) : Prop := ∀ s e v, .report v ∈ (r.react s e).emissions → v.check = r.id

theorem Signs.check_eq {live : LiveRule} (signs : live.rule.Signs) {entity : Entity} {event : Event} {v : Violation}
    (reported : v ∈ (live.hear entity event).violations) : v.check = live.rule.id := by
  obtain ⟨emission, given, isReport⟩ := List.mem_filterMap.1 reported
  cases emission with
  | report w =>
    obtain rfl : w = v := Option.some.inj isReport
    exact signs live.state event w given
  | _ => cases isReport

theorem signs_stateless {id name : Text} {requests : List EventKind} {react : Event → List Emission}
    (signed : ∀ e v, .report v ∈ react e → v.check = id) : (stateless id name requests react).Signs :=
  fun _ e v => signed e v

theorem signs_onMethods (id name : Text) (kinds : List Kind) (watches : MethodContext → Bool)
    (offends : MethodContext → Instruction → Except Text (Option Finding)) :
    (onMethods id name kinds watches offends).Signs := by
  intro (s : Scope) e v reported
  cases e with
  | visit c i =>
    simp only [onMethods] at reported
    split at reported
    · cases reported
    · split at reported
      case h_3 => split at reported <;> simp [debugEntry] at reported
      all_goals cases reported
  | endMethod c =>
    simp only [onMethods] at reported
    split at reported
    · split at reported
      case h_2 under _ =>
        obtain rfl : v = .ofMethod id under.method s.offset s.detail := by simpa using reported
        rfl
      case h_1 => cases reported
    · cases reported
  | _ => cases reported

theorem signs_all : ∀ r ∈ all, r.Signs := by
  simp only [all, List.forall_mem_cons, List.not_mem_nil, false_imp_iff, implies_true, and_true]
  refine ⟨signs_onMethods _ _ _ _ _, signs_onMethods _ _ _ _ _, signs_onMethods _ _ _ _ _, signs_onMethods _ _ _ _ _,
    signs_onMethods _ _ _ _ _, signs_stateless ?_, signs_stateless ?_, signs_stateless ?_, signs_stateless ?_, ?_, ?_,
    signs_onMethods _ _ _ _ _, signs_stateless ?_, signs_onMethods _ _ _ _ _⟩
  case refine_1 | refine_2 | refine_3 | refine_4 | refine_7 =>
    intro e v
    cases e <;> grind [Violation.ofMethod, Violation.ofType, debugEntry]
  · intro ⟨isSerializable, hasMethod⟩ e v
    cases e <;> cases isSerializable <;> cases hasMethod <;> grind [serializableMethods, Violation.ofType, debugEntry]
  · intro s e v
    grind [readOnlyArray, Violation.ofType]

end Rule

namespace Dispatcher

/-- What reaches rules of the analyser leads to findings under the id of the rule it reaches. -/
theorem Holds.check_eq {rules : List Rule} {d : Dispatcher} (holds : d.Holds rules)
    (chosen : ∀ r ∈ rules, r ∈ Rule.all) {m : Module} {x : Nat × Delivery} (member : x ∈ d.deliveries m) :
    ∃ r, rules[x.1]? = some r ∧ ∀ v ∈ x.2.violations, v.check = r.id := by
  rw [deliveries_eq] at member
  obtain ⟨live, event, here, answer⟩ :=
    mem_traceFrom (P := fun p r => rules[p]? = some r) (fun p live here => holds.rule_eq here) member
  refine ⟨live.rule, here, fun v reported => ?_⟩
  rw [answer] at reported
  exact (Rule.signs_all _ (chosen _ (List.mem_of_getElem? here))).check_eq reported

/-- Does the rule at a place of the full list stay when others are disabled? -/
def stays (disabled : List Text) (place : Nat) : Bool := Rule.all[place]?.any (!Rule.isListed disabled ·)

theorem Holds.kept_stays {full : Dispatcher} (holds : full.Holds Rule.all) (disabled : List Text) :
    kept (stays disabled) full.rules = full.rules.filter (!Rule.isListed disabled ·.rule) := by
  have same : stays disabled = fun p => full.rules[p]?.any (!Rule.isListed disabled ·.rule) := by
    funext p
    rw [stays, ← holds.held, List.getElem?_map]
    cases full.rules[p]? <;> rfl
  rw [same, kept_any]

/-- Disabling rules of the analyser takes away the findings under their ids. -/
theorem Holds.violations_enabled {full chosen : Dispatcher} {disabled : List Text} (holds : full.Holds Rule.all)
    (holds' : chosen.Holds (Rule.enabled disabled))
    (same : chosen.rules = full.rules.filter (!Rule.isListed disabled ·.rule)) (m : Module) :
    (chosen.run m).2.violations =
      (full.run m).2.violations.filter fun v => !(disabled.map Rule.normalId).contains v.check.upper := by
  have enabled : kept (stays disabled) Rule.all = Rule.enabled disabled := kept_any _ _
  rw [holds.violations_kept (enabled ▸ holds') (same.trans (holds.kept_stays disabled).symm), violations_run,
    List.filter_flatMap, flatMap_filter]
  refine List.flatMap_congr fun x member => ?_
  -- Where a rule stays all its findings pass, and otherwise none does: they bear its id.
  obtain ⟨r, here, signed⟩ := holds.check_eq (fun _ => id) member
  have passes : ∀ v ∈ x.2.violations,
      (!(disabled.map Rule.normalId).contains v.check.upper) = stays disabled x.1 := by
    intro v reported
    rw [signed v reported, stays, here]
    rfl
  rw [List.filter_congr passes]
  cases stays disabled x.1 <;> simp

/-- **Rules do not interfere.** Take rules that were registered without error, in any states. Each
gets the events of the module that it asked for, cut behind the first it fails on, so that in any
other company and at any other place it gets the same and comes to the same state. A rule fails
once at most. With only some of the rules the findings are those of the others left out, in the
same order; for the rules of the analyser, those whose ids are disabled. All this is so again of the
pass after. -/
theorem rules_isolated {rules : List Rule} {d : Dispatcher} (clean : (ofRules rules).2 = []) (holds : d.Holds rules)
    (m : Module) :
    (∀ place live, d.rules[place]? = some live →
      d.deliveriesTo m place = live.alone (m.events.filter fun e => live.rule.requests.contains e.kind)) ∧
    (∀ (others : List Rule) (d' : Dispatcher) (place place' : Nat), d'.Holds others →
      d'.rules[place']? = d.rules[place]? →
      d'.deliveriesTo m place' = d.deliveriesTo m place ∧ (d'.run m).1.rules[place']? = (d.run m).1.rules[place]?) ∧
    (d.run m).2.stats.faults = (d.deliveries m).filterMap (·.2.fault?) ∧
    (∀ place, ((d.deliveriesTo m place).filterMap Delivery.fault?).length ≤ 1) ∧
    (d.run m).2.violations = (d.deliveries m).flatMap (·.2.violations) ∧
    (∀ (keep : Nat → Bool) (d' : Dispatcher), d'.Holds (kept keep rules) → d'.rules = kept keep d.rules →
      (d'.run m).2.violations = ((d.deliveries m).filter (keep ·.1)).flatMap (·.2.violations) ∧
      (d'.run m).1.rules = kept keep (d.run m).1.rules) ∧
    (∀ (disabled : List Text) (full chosen : Dispatcher), full.Holds Rule.all → chosen.Holds (Rule.enabled disabled) →
      chosen.rules = full.rules.filter (!Rule.isListed disabled ·.rule) →
      (chosen.run m).2.violations =
        (full.run m).2.violations.filter fun v => !(disabled.map Rule.normalId).contains v.check.upper) ∧
    (d.run m).1.Holds rules := by
  refine ⟨fun place live here => ?_, fun others d' place place' holds' same => ⟨?_, ?_⟩, faults_run d m,
    holds.length_faults_le m, violations_run d m,
    fun keep d' holds' same => ⟨holds.violations_kept holds' same m, holds.rules_kept holds' same m⟩,
    fun disabled full chosen whole part same => whole.violations_enabled part same m, holds.run m⟩
  · rw [holds.deliveriesTo_eq here]
    simp only [holds.subscribes_eq clean here]
  · cases here : d.rules[place]? with
    | none => rw [deliveriesTo_eq_nil m here, deliveriesTo_eq_nil m (same.trans here)]
    | some live => rw [holds.deliveriesTo_eq here, holds'.deliveriesTo_eq (same.trans here)]
  · rw [holds.rules_run_eq, holds'.rules_run_eq, List.getElem?_map, List.getElem?_map, same]

/-- Three rules that report methods. The second counts them and fails on its second one. -/
def reporters : List Rule :=
  let report (id : Text) : Event → List Emission
    | .method _ m => [.report (.ofMethod id m 0 [])]
    | _ => []
  [.stateless "A" "First" [.method] (report "A"),
    { id := "B", name := "Second", State := Nat, start := 0, handles := (· = .method), requests := [.method],
      react := fun s e =>
        { state := s + 1, emissions := report "B" e, fault := if s = 1 then some "enough" else none } },
    .stateless "C" "Third" [.method, .endModule] (report "C")]

/-- The failure ends the deliveries to the second rule only; without the first, the others report
the same. -/
theorem rules_isolated_reporters :
    (ofRules reporters).2 = [] ∧
    (List.range 3).map (fun p => ((ofRules reporters).1.deliveriesTo outing p).map (·.event.kind)) =
      [[.method, .method, .method], [.method, .method], [.method, .method, .method, .endModule]] ∧
    ((ofRules reporters).1.run outing).2.stats.faults.length = 1 ∧
    ((ofRules (reporters.drop 1)).1.run outing).2.violations.map (·.check) = ["B", "C", "B", "C", "C"] := by
  have clean : (ofRules reporters).2 = [] := rfl
  have isolated := rules_isolated clean (holds_ofRules reporters) outing
  refine ⟨clean, ?_, ?_, ?_⟩
  · simp only [List.range, List.range.loop, List.map_cons, List.map_nil]
    rw [isolated.1 0 _ rfl, isolated.1 1 _ rfl, isolated.1 2 _ rfl]
    rfl
  · rw [isolated.2.2.1]
    rfl
  · rw [(isolated.2.2.2.2.2.1 (· ≠ 0) _ (holds_ofRules (reporters.drop 1)) rfl).1]
    rfl

end Dispatcher

end CilAudit
