import CilAudit.Proofs.Registration
import CilAudit.Proofs.SignalRoles
import Mathlib.Data.List.Induction
import Mathlib.Logic.Function.Basic

/-!
# Rules and handlers by index

A table enters each rule at the first kind it can handle and lists the handlers of a kind by the indexes
of their rules. A rule is entered before the handlers are searched for it, so a refusal could leave a
rule behind that handles nothing. It never does: a rule that is not entered handles nothing yet, and
then the search fails. So at every time the table shows the subscriptions and nothing else.
-/

set_option autoImplicit false

namespace CilAudit

/-- The rules that were entered, by their places; the index of each; the indexes under each kind. -/
@[ext]
structure RuleTable where
  rules : List Nat
  index : Nat → Option Nat
  handlers : EventKind → List Nat

namespace RuleTable

def empty : RuleTable := ⟨[], fun _ => none, fun _ => []⟩

/-- The index of a rule, which is entered if it is new. -/
def enter (t : RuleTable) (place : Nat) : RuleTable × Nat :=
  match t.index place with
  | some i => (t, i)
  | none =>
    ({ t with rules := t.rules ++ [place], index := Function.update t.index place (some t.rules.length) },
      t.rules.length)

def addHandler (t : RuleTable) (kind : EventKind) (i : Nat) : RuleTable :=
  { t with handlers := Function.update t.handlers kind (t.handlers kind ++ [i]) }

/-- Makes the rule a handler of the kind. Only a rule that has been entered is looked for. -/
def register (t : RuleTable) (rule : Rule) (place : Nat) (kind : EventKind) : RuleTable × Option RegistrationError :=
  if kind = .unknown then (t, some ⟨rule.id, kind, .unknownEvent⟩)
  else if !rule.handles kind then (t, some ⟨rule.id, kind, .notHandled⟩)
  else
    let (entered, i) := t.enter place
    if i ∈ entered.handlers kind then (entered, some ⟨rule.id, kind, .twice⟩)
    else (entered.addHandler kind i, none)

/-- The table is in order, and shows these subscriptions. -/
structure Shows (t : RuleTable) (taken : List (Nat × EventKind)) : Prop where
  once : ∀ k, (t.handlers k).Nodup
  inOrder : ∀ k, (t.handlers k).map (t.rules[·]?) = (taken.filter (·.2 = k)).map fun c => some c.1
  inRange : ∀ k, ∀ i ∈ t.handlers k, i < t.rules.length
  indexed : ∀ place i, t.index place = some i ↔ t.rules[i]? = some place
  distinct : t.rules.Nodup
  listed : t.rules = (taken.map (·.1)).eraseDups

end RuleTable

namespace Dispatcher

variable {d next : Dispatcher} {place : Nat} {kind : EventKind}

/-- The subscriptions as a table. -/
def table (d : Dispatcher) : RuleTable where
  rules := d.active
  index place := if place ∈ d.active then some (d.active.idxOf place) else none
  handlers kind := (d.subscribers kind).map (d.active.idxOf ·)

/-! ## What a table shows -/

theorem mem_active : place ∈ d.active ↔ ∃ kind, (place, kind) ∈ d.subscriptions := by
  simp [active]

theorem nodup_active (d : Dispatcher) : d.active.Nodup := nodup_eraseDups _

theorem mem_active_of_subscribers (member : place ∈ d.subscribers kind) : place ∈ d.active :=
  mem_active.2 ⟨kind, mem_subscribers.1 member⟩

theorem mem_handlers_table : d.active.idxOf place ∈ d.table.handlers kind ↔ (place, kind) ∈ d.subscriptions := by
  constructor
  · intro member
    obtain ⟨other, subscribed, same⟩ := List.mem_map.1 member
    obtain rfl : other = place := (List.idxOf_inj (mem_active_of_subscribers subscribed)).1 same
    exact mem_subscribers.1 subscribed
  · intro subscribed
    exact List.mem_map_of_mem (mem_subscribers.2 subscribed)

theorem lt_length_of_mem_handlers {i : Nat} (member : i ∈ d.table.handlers kind) : i < d.active.length := by
  obtain ⟨place, subscribed, rfl⟩ := List.mem_map.1 member
  apply List.idxOf_lt_length_of_mem
  exact mem_active_of_subscribers subscribed

theorem index_table_eq_some_iff {i : Nat} : d.table.index place = some i ↔ d.active[i]? = some place := by
  constructor
  · intro found
    simp only [table, Option.ite_none_right_eq_some, Option.some.injEq] at found
    obtain ⟨member, rfl⟩ := found
    exact List.getElem?_idxOf member
  · intro here
    obtain ⟨bound, rfl⟩ := List.getElem?_eq_some_iff.1 here
    simp only [table, List.getElem_mem, if_true]
    rw [d.nodup_active.idxOf_getElem i bound]

theorem nodup_subscribers_of_nodup (distinct : d.subscriptions.Nodup) (k : EventKind) : (d.subscribers k).Nodup := by
  apply List.Nodup.map_on _ (distinct.filter _)
  intro x memberX y memberY same
  have kindX : x.2 = k := by simpa using (List.mem_filter.1 memberX).2
  have kindY : y.2 = k := by simpa using (List.mem_filter.1 memberY).2
  exact Prod.ext same (kindX.trans kindY.symm)

/-- **Tables in order.** As long as no subscription is there twice, its table is in order. -/
theorem shows_table (distinct : d.subscriptions.Nodup) : d.table.Shows d.subscriptions where
  once k := by
    apply List.Nodup.map_on _ (nodup_subscribers_of_nodup distinct k)
    intro p memberP q _ same
    exact (List.idxOf_inj (mem_active_of_subscribers memberP)).1 same
  inOrder k := by
    have back : ∀ p ∈ d.subscribers k, d.active[d.active.idxOf p]? = some p := by
      intro p member
      exact List.getElem?_idxOf (mem_active_of_subscribers member)
    calc (d.table.handlers k).map (d.active[·]?)
        = (d.subscribers k).map fun p => d.active[d.active.idxOf p]? := List.map_map
      _ = (d.subscribers k).map some := List.map_congr_left back
      _ = (d.subscriptions.filter (·.2 = k)).map fun c => some c.1 := List.map_map
  inRange _ _ := lt_length_of_mem_handlers
  indexed _ _ := index_table_eq_some_iff
  distinct := d.nodup_active
  listed := rfl

/-! ## One call -/

theorem enter_table_of_mem (known : place ∈ d.active) : d.table.enter place = (d.table, d.active.idxOf place) := by
  simp only [RuleTable.enter, table, known, if_true]

theorem enter_table_of_notMem (new : place ∉ d.active) :
    d.table.enter place =
      (⟨d.active ++ [place], Function.update d.table.index place (some d.active.length), d.table.handlers⟩,
        d.active.length) := by
  simp only [RuleTable.enter, table, new, if_false]

/-- A rule without the subscription is not found, be it entered now or before. -/
theorem fresh_of_notMem (fresh : (place, kind) ∉ d.subscriptions) :
    (d.table.enter place).2 ∉ (d.table.enter place).1.handlers kind := by
  by_cases known : place ∈ d.active
  · rw [enter_table_of_mem known]
    exact fun found => fresh (mem_handlers_table.1 found)
  · rw [enter_table_of_notMem known]
    exact fun found => Nat.lt_irrefl _ (lt_length_of_mem_handlers found)

/-- The dispatcher with one subscription more. -/
def subscribed (d : Dispatcher) (place : Nat) (kind : EventKind) : Dispatcher :=
  { d with subscriptions := d.subscriptions ++ [(place, kind)] }

theorem active_subscribed (d : Dispatcher) (place : Nat) (kind : EventKind) :
    (d.subscribed place kind).active = d.active ++ if place ∈ d.active then [] else [place] := by
  have removed : [place].removeAll (d.subscriptions.map (·.1)) = if place ∈ d.active then [] else [place] := by
    simp only [List.removeAll, active, List.mem_eraseDups, List.elem_eq_mem]
    by_cases known : place ∈ d.subscriptions.map (·.1) <;> simp only [List.filter_cons, known] <;> rfl
  rw [active, subscribed, List.map_append, List.eraseDups_append, List.map_singleton, removed]
  split <;> rfl

/-- A rule keeps its index when another is entered. -/
theorem idxOf_subscribed (member : place ∈ d.active) (other : Nat) (kind : EventKind) :
    (d.subscribed other kind).active.idxOf place = d.active.idxOf place := by
  rw [active_subscribed, List.idxOf_append_of_mem member]

theorem handlers_subscribed (d : Dispatcher) (place : Nat) (kind : EventKind) :
    (d.subscribed place kind).table.handlers =
      Function.update d.table.handlers kind
        (d.table.handlers kind ++ [(d.subscribed place kind).active.idxOf place]) := by
  funext k
  have kept : ∀ p ∈ d.subscribers k, (d.subscribed place kind).active.idxOf p = d.active.idxOf p := by
    intro p member
    exact idxOf_subscribed (mem_active_of_subscribers member) place kind
  have before : (d.subscribers k).map ((d.subscribed place kind).active.idxOf ·) = d.table.handlers k :=
    List.map_congr_left kept
  have subscribers : (d.subscribed place kind).subscribers k = d.subscribers k ++ if kind = k then [place] else [] :=
    subscribers_snoc d.rules d.subscriptions
  rw [table]
  simp only [subscribers, List.map_append, before]
  by_cases same : kind = k
  · subst same
    simp
  · simp [same, Function.update_of_ne (Ne.symm same)]

theorem index_subscribed (d : Dispatcher) (place : Nat) (kind : EventKind) :
    (d.subscribed place kind).table.index =
      Function.update d.table.index place (some ((d.subscribed place kind).active.idxOf place)) := by
  have active := active_subscribed d place kind
  funext p
  by_cases same : p = place
  · subst same
    have entered : p ∈ (d.subscribed p kind).active := by
      rw [active]
      split <;> simp_all
    rw [Function.update_self]
    exact if_pos entered
  · have members : p ∈ (d.subscribed place kind).active ↔ p ∈ d.active := by
      rw [active]
      split <;> simp [same]
    rw [Function.update_of_ne same]
    by_cases known : p ∈ d.active
    · simp only [table, members, known, if_true, idxOf_subscribed known]
    · simp only [table, members, known, if_false]

/-- To enter a rule and make it a handler is to subscribe it, whether it was there or not. -/
theorem addHandler_enter (d : Dispatcher) (place : Nat) (kind : EventKind) :
    (d.table.enter place).1.addHandler kind (d.table.enter place).2 = (d.subscribed place kind).table := by
  have active := active_subscribed d place kind
  have index := index_subscribed d place kind
  have handlers := handlers_subscribed d place kind
  by_cases known : place ∈ d.active
  · have entered := enter_table_of_mem known
    rw [if_pos known, List.append_nil] at active
    rw [active] at index handlers
    rw [entered]
    refine RuleTable.ext active.symm ?_ handlers.symm
    rw [index]
    exact (Function.update_eq_self_iff.2 (if_pos known).symm).symm
  · have last : (d.subscribed place kind).active.idxOf place = d.active.length := by
      rw [active, if_neg known, List.idxOf_append_of_notMem known]
      simp
    rw [if_neg known] at active
    rw [last] at index handlers
    rw [enter_table_of_notMem known]
    exact RuleTable.ext active.symm index.symm handlers.symm

/-- **One call.** The dispatcher and the table take it or refuse it together, and a refusal leaves the table as
it is. -/
theorem register_table {live : LiveRule} (here : d.rules[place]? = some live) :
    (live.rule.accepts kind = true ∧ (place, kind) ∉ d.subscriptions ∧
      d.register place kind = .ok (d.subscribed place kind) ∧
        d.table.register live.rule place kind = ((d.subscribed place kind).table, none)) ∨
    (¬ (live.rule.accepts kind = true ∧ (place, kind) ∉ d.subscriptions) ∧
      ∃ e, d.register place kind = .error e ∧ d.table.register live.rule place kind = (d.table, some e)) := by
  simp only [register, RuleTable.register, here, Rule.accepts]
  by_cases unknown : kind = .unknown
  · right
    exact ⟨by simp [unknown], ⟨live.rule.id, kind, .unknownEvent⟩, by simp [unknown], by simp [unknown]⟩
  · cases handled : live.rule.handles kind with
    | false =>
      right
      exact ⟨by simp, ⟨live.rule.id, kind, .notHandled⟩, by simp [unknown], by simp [unknown]⟩
    | true =>
      by_cases twice : (place, kind) ∈ d.subscriptions
      · -- The rule was entered when it was subscribed, so that nothing is entered now.
        have entered := enter_table_of_mem (mem_active.2 ⟨kind, twice⟩)
        have found := mem_handlers_table.2 twice
        right
        exact ⟨by simp [twice], ⟨live.rule.id, kind, .twice⟩, by simp [unknown, twice],
          by simp [unknown, entered, found]⟩
      · have fresh := fresh_of_notMem twice
        have added := addHandler_enter d place kind
        left
        exact ⟨by simp [unknown], twice, by simp [unknown, twice, subscribed], by simp [unknown, fresh, added]⟩

end Dispatcher

/-! ## All calls -/

/-- A call to subscribe one of the rules to a kind. -/
structure RegistrationCall (rules : List Rule) where
  place : Fin rules.length
  kind : EventKind
  deriving DecidableEq

namespace RegistrationCall

variable {rules : List Rule}

def rule (c : RegistrationCall rules) : Rule := rules[c.place]

def pair (c : RegistrationCall rules) : Nat × EventKind := (c.place, c.kind)

theorem pair_injective : Function.Injective (@pair rules) := by
  rintro ⟨place, kind⟩ ⟨place', kind'⟩ same
  obtain ⟨places, rfl⟩ := Prod.mk.inj same
  obtain rfl : place = place' := Fin.ext places
  rfl

end RegistrationCall

variable {rules : List Rule}

namespace RuleTable

/-- The table after the calls. -/
def registerEach (t : RuleTable) (calls : List (RegistrationCall rules)) : RuleTable :=
  calls.foldl (fun t c => (t.register c.rule c.place c.kind).1) t

/-- Those of the calls that are answered without an error. -/
def succeeded (t : RuleTable) : List (RegistrationCall rules) → List (RegistrationCall rules)
  | [] => []
  | c :: calls =>
    let (next, error) := t.register c.rule c.place c.kind
    if error.isNone then c :: next.succeeded calls else next.succeeded calls

theorem succeeded_concat (t : RuleTable) (calls : List (RegistrationCall rules)) (c : RegistrationCall rules) :
    t.succeeded (calls ++ [c]) = t.succeeded calls ++
      if ((t.registerEach calls).register c.rule c.place c.kind).2.isNone then [c] else [] := by
  induction calls generalizing t with
  | nil => rfl
  | cons first calls ih =>
    simp only [List.cons_append, succeeded, ih]
    split <;> rfl

end RuleTable

namespace Dispatcher

variable {d : Dispatcher} {t : RuleTable} {calls : List (RegistrationCall rules)}

/-- The dispatcher after the calls. One that is refused leaves it as it is. -/
def registerEach (d : Dispatcher) (calls : List (RegistrationCall rules)) : Dispatcher :=
  calls.foldl (fun d c => (d.register c.place c.kind).toOption.getD d) d

/-- The dispatcher holds the rules it started with and the subscriptions that were taken, and the table shows it. -/
structure Recorded (taken : List (RegistrationCall rules)) (d : Dispatcher) (t : RuleTable) : Prop where
  held : d.rules = rules.map Rule.live
  subscriptions : d.subscriptions = taken.map RegistrationCall.pair
  distinct : taken.Nodup
  table : d.table = t

theorem recorded_idle (rules : List Rule) : @Recorded rules [] (idle rules) RuleTable.empty where
  held := rfl
  subscriptions := rfl
  distinct := .nil
  table := rfl

section Step

variable {taken : List (RegistrationCall rules)}

/-- A call is answered by both in the same way, and an error leaves both as they are. -/
theorem Recorded.answer (h : Recorded taken d t) (c : RegistrationCall rules) :
    (c.rule.accepts c.kind = true ∧ c ∉ taken ∧ d.register c.place c.kind = .ok (d.subscribed c.place c.kind) ∧
        t.register c.rule c.place c.kind = ((d.subscribed c.place c.kind).table, none)) ∨
    (¬ (c.rule.accepts c.kind = true ∧ c ∉ taken) ∧
      ∃ e, d.register c.place c.kind = .error e ∧ t.register c.rule c.place c.kind = (t, some e)) := by
  have here : d.rules[(c.place : Nat)]? = some c.rule.live := by
    simp [h.held, RegistrationCall.rule]
  have before : (↑c.place, c.kind) ∈ d.subscriptions ↔ c ∈ taken := by
    rw [h.subscriptions]
    exact List.mem_map_of_injective RegistrationCall.pair_injective
  rw [← h.table, ← before]
  exact register_table here

/-- **One more call.** It is taken or it changes nothing. -/
theorem Recorded.step (h : Recorded taken d t) (c : RegistrationCall rules) :
    Recorded (taken ++ if (t.register c.rule c.place c.kind).2.isNone then [c] else [])
      ((d.register c.place c.kind).toOption.getD d) (t.register c.rule c.place c.kind).1 := by
  obtain ⟨-, new, done, entered⟩ | ⟨-, e, refused, left⟩ := h.answer c
  · rw [done, entered]
    refine ⟨h.held, ?_, ?_, rfl⟩
    · simp [Except.toOption, subscribed, h.subscriptions, RegistrationCall.pair]
    · exact List.nodup_append.2 ⟨h.distinct, by simp, by grind⟩
  · rw [refused, left]
    simpa [Except.toOption] using h

end Step

/-- **All calls.** -/
theorem recorded (calls : List (RegistrationCall rules)) :
    Recorded (RuleTable.empty.succeeded calls) ((idle rules).registerEach calls)
      (RuleTable.empty.registerEach calls) := by
  induction calls using List.reverseRec with
  | nil => exact recorded_idle rules
  | append_singleton calls c ih =>
    rw [RuleTable.succeeded_concat]
    simp only [registerEach, RuleTable.registerEach, List.foldl_concat]
    exact ih.step c

/-- **Registration is atomic.** Whatever calls were made, the table is in order and shows those that succeeded,
and it is the dispatcher's. The next call succeeds exactly if its kind is known, its rule handles the kind and
no such call succeeded before; if it does not succeed, nothing has changed. -/
theorem registration_atomic (rules : List Rule) (calls : List (RegistrationCall rules)) :
    (RuleTable.empty.registerEach calls).Shows ((RuleTable.empty.succeeded calls).map RegistrationCall.pair) ∧
    ((idle rules).registerEach calls).table = RuleTable.empty.registerEach calls ∧
    ((idle rules).registerEach calls).activeRules =
      (RuleTable.empty.registerEach calls).rules.filterMap (rules[·]?) ∧
    ∀ c : RegistrationCall rules,
      ((c.kind ≠ .unknown ∧ c.rule.handles c.kind = true ∧ c ∉ RuleTable.empty.succeeded calls) ∧
        ((idle rules).registerEach calls).register c.place c.kind = .ok ((idle rules).registerEach (calls ++ [c])) ∧
        (RuleTable.empty.registerEach calls).register c.rule c.place c.kind =
          (RuleTable.empty.registerEach (calls ++ [c]), none)) ∨
      (¬ (c.kind ≠ .unknown ∧ c.rule.handles c.kind = true ∧ c ∉ RuleTable.empty.succeeded calls) ∧
        ∃ e, ((idle rules).registerEach calls).register c.place c.kind = .error e ∧
          (RuleTable.empty.registerEach calls).register c.rule c.place c.kind =
            (RuleTable.empty.registerEach calls, some e)) := by
  have h := recorded calls
  have distinct : ((idle rules).registerEach calls).subscriptions.Nodup := by
    rw [h.subscriptions]
    exact h.distinct.map RegistrationCall.pair_injective
  refine ⟨?_, h.table, ?_, ?_⟩
  · rw [← h.table, ← h.subscriptions]
    exact shows_table distinct
  · rw [← h.table, activeRules, h.held]
    congr 1
    funext place
    rw [List.getElem?_map, Option.map_map]
    exact Option.map_id'
  · intro c
    have condition : (c.rule.accepts c.kind = true ∧ c ∉ RuleTable.empty.succeeded calls) ↔
        c.kind ≠ .unknown ∧ c.rule.handles c.kind = true ∧ c ∉ RuleTable.empty.succeeded calls := by
      simp [Rule.accepts, and_assoc]
    have laterTable : RuleTable.empty.registerEach (calls ++ [c]) =
        ((RuleTable.empty.registerEach calls).register c.rule c.place c.kind).1 := List.foldl_concat _ _ _ _
    have later : (idle rules).registerEach (calls ++ [c]) =
        (((idle rules).registerEach calls).register c.place c.kind).toOption.getD ((idle rules).registerEach calls) :=
      List.foldl_concat _ _ _ _
    obtain ⟨accepted, new, done, entered⟩ | ⟨refusal, answer⟩ := h.answer c
    · left
      rw [laterTable, later, done, entered]
      exact ⟨condition.1 ⟨accepted, new⟩, rfl, rfl⟩
    · right
      exact ⟨fun met => refusal (condition.2 met), answer⟩

end Dispatcher

end CilAudit
