import CilAudit.Dispatcher

/-!
# Who is subscribed

Registration goes through the rules in order and takes each request that the rule can answer,
once. So the subscribers of a kind of event are the rules that ask for it and can react to it,
in the order of the rules. Where no request was refused, asking is enough.
-/

set_option autoImplicit false

namespace CilAudit

namespace Rule

/-- Can a subscription of the rule to the kind be accepted at all? -/
def accepts (r : Rule) (kind : EventKind) : Bool := kind ≠ .unknown && r.handles kind

/-- Does the rule get the events of a kind? -/
def subscribes (r : Rule) (kind : EventKind) : Bool := r.requests.contains kind && r.accepts kind

end Rule

namespace Dispatcher

variable {d next : Dispatcher} {place : Nat} {kind k : EventKind}

/-- The dispatcher has these rules, in states they have come to, and the subscriptions that they
were given at the start. -/
structure Holds (d : Dispatcher) (rules : List Rule) : Prop where
  held : d.rules.map (·.rule) = rules
  subscribed : d.subscriptions = (ofRules rules).1.subscriptions

theorem mem_subscribers : place ∈ d.subscribers kind ↔ (place, kind) ∈ d.subscriptions := by
  simp [subscribers]

/-! ## One subscription -/

/-- A subscription is accepted exactly if the rule can have it and has it not yet. -/
theorem register_eq (kind : EventKind) {live : LiveRule} (here : d.rules[place]? = some live) :
    (live.rule.accepts kind = true ∧ place ∉ d.subscribers kind ∧
      d.register place kind = .ok { d with subscriptions := d.subscriptions ++ [(place, kind)] }) ∨
    (¬ (live.rule.accepts kind = true ∧ place ∉ d.subscribers kind) ∧
      ∃ cause, d.register place kind = .error ⟨live.rule.id, kind, cause⟩) := by
  unfold register
  simp only [here, mem_subscribers, Rule.accepts]
  by_cases unknown : kind = .unknown
  · exact .inr ⟨by simp [unknown], .unknownEvent, by simp [unknown]⟩
  · cases handled : live.rule.handles kind with
    | false => exact .inr ⟨by simp, .notHandled, by simp [unknown]⟩
    | true =>
      by_cases twice : (place, kind) ∈ d.subscriptions
      · exact .inr ⟨by simp [twice], .twice, by simp [unknown, twice]⟩
      · exact .inl ⟨by simp [unknown], twice, by simp [unknown, twice]⟩

theorem subscribers_snoc (rules : List LiveRule) (subs : List (Nat × EventKind)) :
    (Dispatcher.mk rules (subs ++ [(place, kind)])).subscribers k =
      (Dispatcher.mk rules subs).subscribers k ++ if kind = k then [place] else [] := by
  by_cases same : kind = k <;> simp [subscribers, same]

/-! ## All subscriptions of a rule -/

theorem rules_registerAll (d : Dispatcher) (place : Nat) (kinds : List EventKind) :
    (d.registerAll place kinds).1.rules = d.rules := by
  induction kinds generalizing d with
  | nil => rfl
  | cons kind kinds ih =>
    rw [registerAll]
    cases here : d.rules[place]? with
    | none =>
      have kept : d.register place kind = .ok d := by simp [register, here]
      simp only [kept, ih]
    | some live =>
      obtain ⟨-, -, done⟩ | ⟨-, cause, refused⟩ := register_eq kind here
      · simp only [done, ih]
      · simp only [refused, ih]

/-- Of the kinds asked for, the rule is added to the subscribers of those that it can have and
has not yet. -/
theorem subscribers_registerAll {live : LiveRule} (here : d.rules[place]? = some live)
    (kinds : List EventKind) (k : EventKind) :
    (d.registerAll place kinds).1.subscribers k =
      d.subscribers k ++
        if k ∈ kinds ∧ live.rule.accepts k = true ∧ place ∉ d.subscribers k then [place] else [] := by
  induction kinds generalizing d with
  | nil => simp [registerAll]
  | cons kind kinds ih =>
    rw [registerAll]
    obtain ⟨accepted, fresh, done⟩ | ⟨not, cause, refused⟩ := register_eq kind here
    · simp only [done]
      rw [ih (d := { d with subscriptions := d.subscriptions ++ [(place, kind)] }) here, subscribers_snoc]
      by_cases same : kind = k
      · subst same
        simp [accepted, fresh]
      · simp [same, Ne.symm same]
    · simp only [refused, ih here]
      congr 1
      by_cases same : k = kind
      · subst same
        simp [not]
      · simp [same]

theorem accepts_of_registerAll {live : LiveRule} (here : d.rules[place]? = some live) {kinds : List EventKind}
    (clean : (d.registerAll place kinds).2 = []) (asked : k ∈ kinds) : live.rule.accepts k = true := by
  induction kinds generalizing d with
  | nil => cases asked
  | cons kind kinds ih =>
    rw [registerAll] at clean
    obtain ⟨accepted, -, done⟩ | ⟨-, cause, refused⟩ := register_eq kind here
    · simp only [done] at clean
      rcases List.mem_cons.1 asked with rfl | later
      · exact accepted
      · exact ih (d := { d with subscriptions := d.subscriptions ++ [(place, kind)] }) here clean later
    · simp [refused] at clean

/-! ## All rules -/

/-- Would the rule at a place get the events of a kind? -/
def subscribesAt (rules : List LiveRule) (place : Nat) (kind : EventKind) : Bool :=
  rules[place]?.any (·.rule.subscribes kind)

theorem rules_enrol (d : Dispatcher) (places : List Nat) : (d.enrol places).1.rules = d.rules := by
  induction places generalizing d with
  | nil => rfl
  | cons place places ih =>
    rw [enrol]
    simp only [ih, rules_registerAll]

/-- One rule after the other comes in behind those that are there. -/
theorem subscribers_enrol {places : List Nat} (distinct : places.Nodup)
    (fresh : ∀ p ∈ places, ∀ k, p ∉ d.subscribers k) (k : EventKind) :
    (d.enrol places).1.subscribers k =
      d.subscribers k ++ places.filter fun p => subscribesAt d.rules p k := by
  induction places generalizing d with
  | nil => simp [enrol]
  | cons place places ih =>
    obtain ⟨notLater, distinctLater⟩ := List.nodup_cons.1 distinct
    rw [enrol]
    cases here : d.rules[place]? with
    | none =>
      have later : ∀ p ∈ places, ∀ k, p ∉ d.subscribers k := fun p member => fresh p (List.mem_cons_of_mem _ member)
      simp only [Option.map_none, Option.getD_none, registerAll, ih distinctLater later]
      simp [subscribesAt, here]
    | some live =>
      have added := subscribers_registerAll here live.rule.requests
      have later : ∀ p ∈ places, ∀ k, p ∉ (d.registerAll place live.rule.requests).1.subscribers k := by
        intro p member k
        have other : p ≠ place := by
          rintro rfl
          exact notLater member
        rw [added, List.mem_append, not_or]
        refine ⟨fresh p (List.mem_cons_of_mem _ member) k, ?_⟩
        split <;> simp [other]
      simp only [Option.map_some, Option.getD_some, ih distinctLater later, added, rules_registerAll]
      have new : place ∉ d.subscribers k := fresh place List.mem_cons_self k
      by_cases asked : live.rule.subscribes k = true
      · have both : k ∈ live.rule.requests ∧ live.rule.accepts k = true := by simpa [Rule.subscribes] using asked
        simp [subscribesAt, here, asked, both, new]
      · have notBoth : ¬ (k ∈ live.rule.requests ∧ live.rule.accepts k = true) := by
          simpa [Rule.subscribes] using asked
        have dropped : ¬ (k ∈ live.rule.requests ∧ live.rule.accepts k = true ∧ place ∉ d.subscribers k) :=
          fun h => notBoth ⟨h.1, h.2.1⟩
        simp [subscribesAt, here, asked, dropped]

theorem accepts_of_enrol {places : List Nat} (clean : (d.enrol places).2 = []) {live : LiveRule}
    (member : place ∈ places) (here : d.rules[place]? = some live) {kind : EventKind}
    (asked : kind ∈ live.rule.requests) : live.rule.accepts kind = true := by
  induction places generalizing d with
  | nil => cases member
  | cons p places ih =>
    rw [enrol] at clean
    simp only [List.append_eq_nil_iff] at clean
    rcases List.mem_cons.1 member with rfl | later
    · rw [here] at clean
      exact accepts_of_registerAll here clean.1 asked
    · exact ih clean.2 later (by rw [rules_registerAll]; exact here)

/-! ## The rules of a dispatcher -/

section Held

variable {rules : List Rule}

theorem rules_ofRules (rules : List Rule) : (ofRules rules).1.rules = rules.map Rule.live :=
  rules_enrol _ _

theorem holds_ofRules (rules : List Rule) : (ofRules rules).1.Holds rules where
  held := by simp [rules_ofRules, Rule.live, Function.comp_def]
  subscribed := rfl

theorem Holds.rule_eq (holds : d.Holds rules) {live : LiveRule} (here : d.rules[place]? = some live) :
    rules[place]? = some live.rule := by
  rw [← holds.held, List.getElem?_map, here]
  rfl

theorem Holds.length_eq (holds : d.Holds rules) : d.rules.length = rules.length := by
  rw [← holds.held, List.length_map]

/-- **Subscribers.** The rules that ask for a kind and can react to it, in the order of the rules. -/
theorem Holds.subscribers_eq (holds : d.Holds rules) (k : EventKind) :
    d.subscribers k = (List.range rules.length).filter fun p => rules[p]?.any (·.subscribes k) := by
  have start : d.subscribers k = (ofRules rules).1.subscribers k := by
    rw [subscribers, subscribers, holds.subscribed]
  have same (p : Nat) : subscribesAt (idle rules).rules p k = rules[p]?.any (·.subscribes k) := by
    rw [subscribesAt, idle, List.getElem?_map]
    cases rules[p]? <;> rfl
  rw [start, ofRules, subscribers_enrol List.nodup_range (by simp [idle, subscribers]) k]
  simp only [same]
  simp [idle, subscribers]

/-- A rule whose requests were all accepted gets the kinds that it asks for, and no others. -/
theorem Holds.subscribes_eq (holds : d.Holds rules) (clean : (ofRules rules).2 = []) {live : LiveRule}
    (here : d.rules[place]? = some live) (k : EventKind) :
    live.rule.subscribes k = live.rule.requests.contains k := by
  have known := holds.rule_eq here
  have bound : place < rules.length := (List.getElem?_eq_some_iff.1 known).1
  have started : (idle rules).rules[place]? = some live.rule.live := by simp [idle, known]
  rw [Rule.subscribes]
  cases asked : live.rule.requests.contains k with
  | false => rfl
  | true =>
    exact accepts_of_enrol clean (List.mem_range.2 bound) started (List.contains_iff_mem.1 asked)

end Held

end Dispatcher

end CilAudit
