import CilAudit.Proofs.EventOrder
import CilAudit.Proofs.Reencoding
import CilAudit.Rule.All

/-!
# Rules on one method

Most rules look at the instructions of a method until one of them offends, and report that one
when the method ends. What they look at are actions, positions and the origins of values, so they
come to the same verdict on a body in another encoding, at the same instruction.
-/

set_option autoImplicit false

namespace CilAudit

namespace Rule

/-- What a rule reports while the instructions go by, in a method whose context is given. -/
def bodyReports (r : Rule) (s : r.State) (c : MethodContext) (insts : List Instruction) : List Violation :=
  (LiveRule.alone ⟨r, s⟩ ((Module.bodyEvents c insts).filter fun e => r.requests.contains e.kind)).flatMap
    (·.violations)

/-! ## The first offence -/

/-- The offence that is noted of the method under way. -/
def Scope.noted? (s : Scope) : Option (Int × Text) := if 0 ≤ s.offset then some (s.offset, s.detail) else none

section FirstInMethod

variable (id name : Text) (kinds : List Kind) (watches : MethodContext → Bool)
variable (offends : MethodContext → Instruction → Option Finding) (c : MethodContext)

/-- What offends the rule in an instruction, if the rule looks at it. -/
def offence? (i : Instruction) : Option Text :=
  if watches c && kinds.contains i.kind then (offends c i).map (·.detail) else none

/-- What the rule notes of the instruction. It cannot note what stands at an offset below zero. -/
def found? (i : Instruction) : Option (Int × Text) :=
  if 0 ≤ i.offset then (offence? kinds watches offends c i).map (i.offset, ·) else none

theorem filter_bodyEvents (insts : List Instruction) :
    ((Module.bodyEvents c insts).filter fun e => (methodEvents kinds).contains e.kind) =
      Module.bodyEvents c (insts.filter fun i => kinds.contains i.kind) := by
  have visited (k : Kind) : (methodEvents kinds).contains (.visit k) = kinds.contains k := by
    simp [methodEvents]
  simp only [Module.bodyEvents, List.filter_append, List.filter_map, Function.comp_def, Event.kind, visited]
  simp [methodEvents]

variable {s : Scope} {under : MethodContext}

/-- All that can come of an instruction while a method is under way. -/
theorem visit_cases (context : s.context = some under) (i : Instruction) :
    ((s.isWatched = false ∨ 0 ≤ s.offset ∨ offends c i = none) ∧
      (firstInMethod id name kinds watches offends).react s (.visit c i) = { state := s }) ∨
    ∃ f what, s.isWatched = true ∧ s.offset < 0 ∧ offends c i = some f ∧
      (firstInMethod id name kinds watches offends).react s (.visit c i) =
        { state := { s with offset := i.offset, detail := f.detail }, emissions := [debugEntry id what] } := by
  simp only [firstInMethod, onMethods, context]
  by_cases looks : s.isWatched = true ∧ s.offset < 0
  · have asked : (!s.isWatched || decide (0 ≤ s.offset)) = false := by simpa using looks
    simp only [asked]
    cases offends c i with
    | none => exact .inl ⟨.inr (.inr rfl), rfl⟩
    | some f => exact .inr ⟨f, _, looks.1, looks.2, rfl, rfl⟩
  · have passed : (!s.isWatched || decide (0 ≤ s.offset)) = true := by
      by_cases watched : s.isWatched = true <;> simp_all
    refine .inl ⟨?_, if_pos passed⟩
    by_cases watched : s.isWatched = true <;> simp_all

/-- What an instruction adds to what is noted. -/
theorem noted?_visit (context : s.context = some under) (i : Instruction) :
    ∃ (next : Scope) (emissions : List Emission),
      (firstInMethod id name kinds watches offends).react s (.visit c i) = { state := next, emissions } ∧
      emissions.filterMap Emission.violation? = [] ∧ next.context = some under ∧ next.isWatched = s.isWatched ∧
      next.noted? =
        s.noted?.or (if s.isWatched && 0 ≤ i.offset then (offends c i).map fun f => (i.offset, f.detail) else none) := by
  obtain ⟨passed, same⟩ | ⟨f, what, watched, unfound, offending, found⟩ :=
    visit_cases id name kinds watches offends c context i
  · refine ⟨s, [], same, rfl, context, rfl, ?_⟩
    rcases passed with unwatched | found | fine
    · simp [unwatched]
    · simp [Scope.noted?, found]
    · simp [fine]
  · refine ⟨_, _, found, rfl, context, rfl, ?_⟩
    simp [Scope.noted?, Int.not_le.2 unfound, watched, offending]

/-- At the end of the method, what is noted is reported. -/
theorem react_endMethod (context : s.context = some under) :
    (firstInMethod id name kinds watches offends).react s (.endMethod c) =
      { state := s
        emissions := (s.noted?.map fun found => .report (.ofMethod id under.method found.1 found.2)).toList } := by
  simp only [firstInMethod, onMethods, context, Scope.noted?]
  split <;> rfl

/-- The rest of a method under way is gone through without a failure, and what is noted already or comes first is
reported. -/
theorem reports_underway (insts : List Instruction) {s : Scope} (context : s.context = some c) :
    LiveRule.Quiet ⟨firstInMethod id name kinds watches offends, s⟩ (insts.map (.visit c) ++ [.endMethod c]) ∧
      (LiveRule.alone ⟨firstInMethod id name kinds watches offends, s⟩
        (insts.map (.visit c) ++ [.endMethod c])).flatMap (·.violations) =
        ((s.noted?.or (insts.findSome? fun i =>
          if s.isWatched && 0 ≤ i.offset then (offends c i).map fun f => (i.offset, f.detail) else none)).map fun found =>
            .ofMethod id c.method found.1 found.2).toList := by
  induction insts generalizing s with
  | nil =>
    have answer := react_endMethod id name kinds watches offends c context
    have fine : ((firstInMethod id name kinds watches offends).react s (.endMethod c)).fault = none := by rw [answer]
    refine ⟨LiveRule.quiet_cons.2 ⟨fine, by simp [LiveRule.Quiet, LiveRule.alone]⟩, ?_⟩
    rw [List.map_nil, List.nil_append, LiveRule.alone_cons_of_fine fine]
    simp only [LiveRule.hear, answer, LiveRule.alone, Delivery.violations, List.findSome?_nil, Option.or_none]
    cases s.noted? <;> simp [Emission.violation?]
  | cons i insts ih =>
    obtain ⟨next, emissions, answer, silent, stays, watched, noted⟩ :=
      noted?_visit id name kinds watches offends c context i
    have fine : ((firstInMethod id name kinds watches offends).react s (.visit c i)).fault = none := by rw [answer]
    obtain ⟨quiet, reports⟩ := ih stays
    have onward : LiveRule.next ⟨firstInMethod id name kinds watches offends, s⟩ (.visit c i) =
        ⟨firstInMethod id name kinds watches offends, next⟩ := by
      rw [LiveRule.next, answer]
    refine ⟨LiveRule.quiet_cons.2 ⟨fine, by rw [onward]; exact quiet⟩, ?_⟩
    rw [List.map_cons, List.cons_append, LiveRule.alone_cons_of_fine fine, onward, List.flatMap_cons, reports, noted,
      watched, List.findSome?_cons]
    simp only [LiveRule.hear, answer, Delivery.violations, silent, List.nil_append]
    -- What is noted of this instruction comes before what the others would add.
    cases (if s.isWatched && 0 ≤ i.offset then (offends c i).map fun f => (i.offset, f.detail) else none) <;>
      simp

theorem findSome?_visited (insts : List Instruction) :
    ((insts.filter fun i => kinds.contains i.kind).findSome? fun i =>
      if watches c && 0 ≤ i.offset then (offends c i).map fun f => (i.offset, f.detail) else none) =
      insts.findSome? (found? kinds watches offends c) := by
  induction insts with
  | nil => rfl
  | cons i insts ih =>
    rw [List.filter_cons, List.findSome?_cons, found?, offence?]
    cases kinds.contains i.kind with
    | true =>
      rw [if_pos rfl, List.findSome?_cons, ih]
      cases watches c <;> by_cases nonneg : 0 ≤ i.offset <;> simp [nonneg, Function.comp_def]
    | false => simpa using ih

/-- Alone with a body, the rule does not fail, whatever it was doing before, -/
theorem quiet_body (s : Scope) (insts : List Instruction) :
    LiveRule.Quiet ⟨firstInMethod id name kinds watches offends, s⟩
      ((Module.bodyEvents c insts).filter fun e => (methodEvents kinds).contains e.kind) := by
  rw [filter_bodyEvents, Module.bodyEvents, List.append_assoc, List.singleton_append]
  exact LiveRule.quiet_cons.2 ⟨rfl, (reports_underway id name kinds watches offends c _ rfl).1⟩

/-- and its **verdict on the method** is the first offence that it can note. -/
theorem bodyReports_firstInMethod (s : Scope) (insts : List Instruction) :
    bodyReports (firstInMethod id name kinds watches offends) s c insts =
      ((insts.findSome? (found? kinds watches offends c)).map fun found =>
        .ofMethod id c.method found.1 found.2).toList := by
  have asked : (firstInMethod id name kinds watches offends).requests = methodEvents kinds := rfl
  unfold bodyReports
  rw [asked, filter_bodyEvents, Module.bodyEvents, List.append_assoc, List.singleton_append,
    LiveRule.alone_cons_of_fine rfl, ← findSome?_visited]
  exact (reports_underway id name kinds watches offends c _ rfl).2

end FirstInMethod

end Rule

/-! ## What rules look at -/

namespace Instruction.Alike

variable {find find' : Int → Option Nat} {x y : Instruction}

theorem isZero_eq (h : x.Alike find find' y) : x.isZero = y.isZero := by
  cases x
  cases y
  cases h.action <;> rfl

theorem isIndexOf_eq (h : x.Alike find find' y) : x.isIndexOf = y.isIndexOf := by
  cases x
  cases y
  cases h.action <;> rfl

theorem callee?_eq (h : x.Alike find find' y) : x.callee? = y.callee? := by
  cases x
  cases y
  cases h.action <;> rfl

theorem storesFor_eq {u v : Instruction} (h : x.Alike find find' y) (h' : u.Alike find find' v) :
    x.storesFor u = y.storesFor v := by
  obtain ⟨_, _, _, a⟩ := x
  cases y
  cases u
  cases v
  cases h'.action with
  | refl => cases h.action <;> rfl
  | _ =>
    -- Nothing is stored for a branch.
    cases h.action with
    | refl => cases a <;> rfl
    | _ => rfl

end Instruction.Alike

/-- Two methods under way that do the same, and differ in nothing else that rules look at. -/
structure MethodContext.Alike (insts insts' : List Instruction) (c c' : MethodContext) : Prop where
  valueType : c.type.isValueType = c'.type.isValueType
  method : ∃ body, c'.method = { c.method with body := body }
  provenance : ∃ entries entries', Reencoded insts insts' entries entries' ∧
    c.provenance = .ofBody insts entries ∧ c'.provenance = .ofBody insts' entries'

namespace MethodContext.Alike

variable {insts insts' : List Instruction} {c c' : MethodContext}

/-- What stands at a position, if one is given. -/
theorem lookup (h : Alike insts insts' c c') (place : Option Nat) :
    Option.Rel (Instruction.Twinned insts insts') (place.bind (c.provenance.body[·]?))
      (place.bind (c'.provenance.body[·]?)) := by
  obtain ⟨entries, entries', reencoded, here, here'⟩ := h.provenance
  rw [here, here']
  cases place with
  | none => exact .none
  | some k =>
    obtain ⟨there, there'⟩ | ⟨x, y, there, there', twins⟩ := rel_cases (reencoded.twins k)
    · simp only [Option.bind_some, Provenance.body_ofBody, there, there']
      exact .none
    · simp only [Option.bind_some, Provenance.body_ofBody, there, there']
      exact .some ⟨k, twins⟩

theorem back? (h : Alike insts insts' c c') (i distance : Nat) :
    Option.Rel (Instruction.Twinned insts insts') (c.back? i distance) (c'.back? i distance) := by
  unfold MethodContext.back?
  split
  · exact h.lookup (some (i - distance))
  · exact .none

theorem producer? (h : Alike insts insts' c c') (consumer arg : Nat) :
    Option.Rel (Instruction.Twinned insts insts') (c.producer? consumer arg) (c'.producer? consumer arg) := by
  have same : c.provenance.producer? consumer arg = c'.provenance.producer? consumer arg := by
    obtain ⟨entries, entries', reencoded, here, here'⟩ := h.provenance
    rw [here, here']
    exact reencoded.producer?_eq .exact consumer arg
  rw [MethodContext.producer?, MethodContext.producer?, same]
  exact h.lookup _

theorem value? (h : Alike insts insts' c c') (consumer arg : Nat) :
    Option.Rel (Instruction.Twinned insts insts') (c.value? consumer arg) (c'.value? consumer arg) := by
  have same : c.provenance.value? consumer arg = c'.provenance.value? consumer arg := by
    obtain ⟨entries, entries', reencoded, here, here'⟩ := h.provenance
    rw [here, here']
    exact reencoded.value?_eq .exact consumer arg
  rw [MethodContext.value?, MethodContext.value?, same]
  exact h.lookup _

end MethodContext.Alike

/-! ## The rules, one by one -/

namespace Rule

open MethodContext (Alike)
open Instruction (Twinned)

variable {insts insts' : List Instruction} {c c' : MethodContext} {x y : Instruction} {k : Nat}

theorem holdsBack_eq (h : Alike insts insts' c c') (i distance : Nat) {p : Instruction → Bool}
    (blind : ∀ {x y}, x.Alike (indexOf? insts.toArray) (indexOf? insts'.toArray) y → p x = p y) :
    holdsBack c i distance p = holdsBack c' i distance p := by
  unfold holdsBack
  obtain ⟨here, here'⟩ | ⟨x, y, here, here', k, twins⟩ := rel_cases (h.back? i distance)
  · rw [here, here']
  · rw [here, here', Option.any_some, Option.any_some, blind twins.toAlike]

theorem storedAndRead_eq (h : Alike insts insts' c c') (i store load : Nat) :
    storedAndRead c i store load = storedAndRead c' i store load := by
  unfold storedAndRead
  obtain ⟨here, here'⟩ | ⟨x, y, here, here', k, twins⟩ := rel_cases (h.back? i store)
  · simp only [here, here']
  · obtain ⟨there, there'⟩ | ⟨u, v, there, there', k', twins'⟩ := rel_cases (h.back? i load)
    · simp only [here, here', there, there']
    · simp only [here, here', there, there', twins.storesFor_eq twins'.toAlike]

theorem comparesIndexOf_eq (h : Alike insts insts' c c') (twinned : Twinned insts insts' x y) :
    comparesIndexOf c x = comparesIndexOf c' y := by
  obtain ⟨k, twins⟩ := twinned
  simp only [comparesIndexOf, twins.index, twins.index', storedAndRead_eq h,
    holdsBack_eq h _ _ Instruction.Alike.isZero_eq, holdsBack_eq h _ _ Instruction.Alike.isIndexOf_eq]
  cases x
  cases y
  cases twins.action with
  | branchIf t t' cond unsigned => cases cond <;> rfl
  | _ => rfl

theorem isReferenceEquality_eq (h : Alike insts insts' c c') : isReferenceEquality c = isReferenceEquality c' := by
  obtain ⟨body, method⟩ := h.method
  have name : c'.method.name = c.method.name := by rw [method]
  simp only [isReferenceEquality, h.valueType, name]

theorem callsItself_eq (h : Alike insts insts' c c') (twinned : Twinned insts insts' x y) :
    callsItself c x = callsItself c' y := by
  obtain ⟨k, twins⟩ := twinned
  obtain ⟨body, method⟩ := h.method
  have fullName : c'.method.fullName = c.method.fullName := by rw [method]; rfl
  simp only [callsItself, fullName]
  cases x
  cases y
  cases twins.action <;> rfl

theorem sleepsZero_eq (h : Alike insts insts' c c') (twinned : Twinned insts insts' x y) :
    sleepsZero c x = sleepsZero c' y := by
  obtain ⟨k, twins⟩ := twinned
  have zero (arg : Nat) : (c.value? k arg).any Instruction.isZero = (c'.value? k arg).any Instruction.isZero := by
    obtain ⟨here, here'⟩ | ⟨x, y, here, here', k, twins⟩ := rel_cases (h.value? k arg)
    · rw [here, here']
    · rw [here, here', Option.any_some, Option.any_some, twins.isZero_eq]
  simp only [sleepsZero, twins.index, twins.index', zero]
  cases x
  cases y
  cases twins.action <;> rfl

theorem concatsPath_eq (h : Alike insts insts' c c') (twinned : Twinned insts insts' x y) :
    concatsPath c x = concatsPath c' y := by
  obtain ⟨k, twins⟩ := twinned
  have literal (r : MethodRef) : pathLiteral? c x r = pathLiteral? c' y r := by
    unfold pathLiteral?
    rw [twins.index, twins.index']
    congr 1
    funext n
    obtain ⟨here, here'⟩ | ⟨x, y, here, here', k, twins⟩ := rel_cases (h.producer? k (r.depthOfParam n))
    · simp only [here, here']
    · simp only [here, here']
      cases x
      cases y
      cases twins.action <;> rfl
  simp only [concatsPath, literal]
  cases x
  cases y
  cases twins.action <;> rfl

theorem createsNamedLock_eq (twinned : Twinned insts insts' x y) : createsNamedLock c x = createsNamedLock c' y := by
  obtain ⟨k, twins⟩ := twinned
  cases x
  cases y
  cases twins.action <;> rfl

theorem locksThis_eq (h : Alike insts insts' c c') (twinned : Twinned insts insts' x y) :
    locksThis c x = locksThis c' y := by
  obtain ⟨k, twins⟩ := twinned
  obtain ⟨body, method⟩ := h.method
  have static : c'.method.isStatic = c.method.isStatic := by rw [method]
  simp only [locksThis, twins.index, twins.index', static]
  obtain ⟨_, _, _, a⟩ := x
  cases y
  cases twins.action with
  | refl =>
    cases a with
    | call r virtual =>
      obtain ⟨here, here'⟩ | ⟨u, v, here, here', j, same⟩ := rel_cases (h.value? k (r.depthOfParam 0))
      · simp only [here, here']
      · simp only [here, here']
        cases u
        cases v
        cases same.action <;> rfl
    | _ => rfl
  | _ => rfl

theorem literal?_eq (h : Alike insts insts' c c') (consumer arg : Nat) :
    literal? c consumer arg = literal? c' consumer arg := by
  unfold literal?
  obtain ⟨here, here'⟩ | ⟨u, v, here, here', j, twins⟩ := rel_cases (h.value? consumer arg)
  · simp only [here, here']
  · simp only [here, here']
    obtain ⟨i, _, _, a⟩ := u
    obtain ⟨i', _, _, b⟩ := v
    obtain rfl : i = j := twins.index
    obtain rfl : i' = i := twins.index'
    cases twins.action with
    | refl =>
      cases a with
      | call r virtual =>
        -- A call that decodes text passes on the one behind its last argument.
        obtain ⟨there, there'⟩ | ⟨u, v, there, there', j, same⟩ := rel_cases (h.value? i' 0)
        · simp only [there, there']
        · simp only [there, there']
          cases u
          cases v
          cases same.action <;> rfl
      | _ => rfl
    | _ => rfl

theorem passesKey_eq (h : Alike insts insts' c c') (twinned : Twinned insts insts' x y) :
    passesKey c x = passesKey c' y := by
  obtain ⟨k, twins⟩ := twinned
  simp only [passesKey, twins.callee?_eq, twins.index, twins.index', literal?_eq h]

/-! ## Verdicts -/

/-- The rule finds nothing in the body, however far it goes. -/
def Silent (r : Rule) (s : r.State) (c : MethodContext) (insts : List Instruction) : Prop :=
  ∀ n, bodyReports r s c (insts.take n) = []

/-- The rule reports the instruction at a position: as soon as the method goes beyond it, and then
nothing else. -/
def ReportsAt (r : Rule) (s : r.State) (c : MethodContext) (insts : List Instruction) (k : Nat) (detail : Text) :
    Prop :=
  ∃ x, insts[k]? = some x ∧
    ∀ n, bodyReports r s c (insts.take n) = if k < n then [.ofMethod r.id c.method x.offset detail] else []

section Verdict

variable {id name : Text} {kinds : List Kind} {watches : MethodContext → Bool}
variable {offends : MethodContext → Instruction → Option Finding} {s : Scope} {rest : List Instruction}

theorem bodyReports_cons (s : Scope) (x : Instruction) (rest : List Instruction) :
    bodyReports (firstInMethod id name kinds watches offends) s c (x :: rest) =
      (found? kinds watches offends c x).elim (bodyReports (firstInMethod id name kinds watches offends) s c rest)
        fun found => [.ofMethod id c.method found.1 found.2] := by
  rw [bodyReports_firstInMethod, bodyReports_firstInMethod, List.findSome?_cons]
  cases found? kinds watches offends c x <;> rfl

theorem found?_eq_none (fine : offence? kinds watches offends c x = none) :
    found? kinds watches offends c x = none := by
  rw [found?, fine, Option.map_none, ite_self]

theorem silent_nil : Silent (firstInMethod id name kinds watches offends) s c [] := by
  intro n
  rw [List.take_nil, bodyReports_firstInMethod]
  rfl

theorem Silent.cons (silent : Silent (firstInMethod id name kinds watches offends) s c rest)
    (fine : offence? kinds watches offends c x = none) :
    Silent (firstInMethod id name kinds watches offends) s c (x :: rest) := by
  intro n
  cases n with
  | zero => exact silent 0
  | succ n => rw [List.take_succ_cons, bodyReports_cons, found?_eq_none fine, Option.elim_none, silent n]

theorem ReportsAt.cons {detail : Text}
    (reports : ReportsAt (firstInMethod id name kinds watches offends) s c rest k detail)
    (fine : offence? kinds watches offends c x = none) :
    ReportsAt (firstInMethod id name kinds watches offends) s c (x :: rest) (k + 1) detail := by
  obtain ⟨y, there, found⟩ := reports
  refine ⟨y, by simpa using there, fun n => ?_⟩
  cases n with
  | zero => exact found 0
  | succ n =>
    rw [List.take_succ_cons, bodyReports_cons, found?_eq_none fine, Option.elim_none, found n]
    simp

theorem reportsAt_zero {detail : Text} (offence : offence? kinds watches offends c x = some detail)
    (nonneg : 0 ≤ x.offset) : ReportsAt (firstInMethod id name kinds watches offends) s c (x :: rest) 0 detail := by
  refine ⟨x, rfl, fun n => ?_⟩
  cases n with
  | zero => exact silent_nil 0
  | succ n =>
    rw [List.take_succ_cons, bodyReports_cons, found?, if_pos nonneg, offence, Option.map_some, Option.elim_some,
      if_pos n.succ_pos]
    rfl

/-- Where the same offends in each instruction and its twin, so is the verdict. -/
theorem verdicts_eq {l l' : List Instruction} (nonneg : ∀ x ∈ l, 0 ≤ x.offset) (nonneg' : ∀ x ∈ l', 0 ≤ x.offset)
    (same : List.Forall₂ (fun x y => offence? kinds watches offends c x = offence? kinds watches offends c' y) l l')
    (s s' : Scope) :
    (Silent (firstInMethod id name kinds watches offends) s c l ∧
        Silent (firstInMethod id name kinds watches offends) s' c' l') ∨
      ∃ k detail, ReportsAt (firstInMethod id name kinds watches offends) s c l k detail ∧
        ReportsAt (firstInMethod id name kinds watches offends) s' c' l' k detail := by
  induction same with
  | nil => exact .inl ⟨silent_nil, silent_nil⟩
  | @cons x y l l' first _ ih =>
    obtain ⟨here, later⟩ := List.forall_mem_cons.1 nonneg
    obtain ⟨here', later'⟩ := List.forall_mem_cons.1 nonneg'
    cases noted : offence? kinds watches offends c x with
    | some detail =>
      exact .inr ⟨0, detail, reportsAt_zero noted here, reportsAt_zero (first.symm.trans noted) here'⟩
    | none =>
      have noted' : offence? kinds watches offends c' y = none := first.symm.trans noted
      obtain ⟨silent, silent'⟩ | ⟨k, detail, reports, reports'⟩ := ih later later'
      · exact .inl ⟨silent.cons noted, silent'.cons noted'⟩
      · exact .inr ⟨k + 1, detail, reports.cons noted, reports'.cons noted'⟩

/-- A rule that does not look at the encoding comes to the same verdict. -/
theorem verdicts_reencoded {entries entries' : List Int} (h : Reencoded insts insts' entries entries')
    (nonneg : ∀ x ∈ insts, 0 ≤ x.offset) (nonneg' : ∀ x ∈ insts', 0 ≤ x.offset) (watched : watches c = watches c')
    (blind : ∀ {x y}, Twinned insts insts' x y → offends c x = offends c' y) (s s' : Scope) :
    (Silent (firstInMethod id name kinds watches offends) s c insts ∧
        Silent (firstInMethod id name kinds watches offends) s' c' insts') ∨
      ∃ k detail, ReportsAt (firstInMethod id name kinds watches offends) s c insts k detail ∧
        ReportsAt (firstInMethod id name kinds watches offends) s' c' insts' k detail := by
  refine verdicts_eq nonneg nonneg' (h.twinned.imp fun x y twinned => ?_) s s'
  have kind : x.kind = y.kind := twinned.elim fun _ twins => twins.kind_eq
  rw [offence?, offence?, blind twinned, kind, watched]

end Verdict

end Rule

/-- **Analysis does not depend on the encoding.** Of two decoded bodies that do the same, up to
offsets and the spelling of opcodes, the block graphs have the same blocks, and every question
about straight lines and the origin of values has the same answer, with depths counted exactly or in 64
bits. Where no offset is below zero, every rule on the instructions of a method is silent on both or reports both,
at the same position. -/
theorem analysis_reencoded {insts insts' : List Instruction} {entries entries' : List Int}
    (h : Reencoded insts insts' entries entries') :
    (∀ name name', (BlockGraph.ofBody name insts entries).blocks = (BlockGraph.ofBody name' insts' entries').blocks) ∧
    (∀ name name' i, (BlockGraph.ofBody name insts entries).straightLine i =
      (BlockGraph.ofBody name' insts' entries').straightLine i) ∧
    (∀ c a, (Provenance.ofBody insts entries).producer? c a = (Provenance.ofBody insts' entries').producer? c a) ∧
    (∀ c a, (Provenance.ofBody insts entries).value? c a = (Provenance.ofBody insts' entries').value? c a) ∧
    (∀ c a, (Provenance.ofBody insts entries).wordProducer? c a =
      (Provenance.ofBody insts' entries').wordProducer? c a) ∧
    (∀ c a, (Provenance.ofBody insts entries).wordValue? c a = (Provenance.ofBody insts' entries').wordValue? c a) ∧
    ((∀ x ∈ insts, 0 ≤ x.offset) → (∀ x ∈ insts', 0 ≤ x.offset) →
      ∀ (m m' : Module) (t t' : TypeDef) (method : Method) (body' : Option MethodBody), t.isValueType = t'.isValueType →
      ∀ r ∈ [Rule.arrayIndexOf, .recursiveEquality, .zeroSleep, .pathCombine, .preferMonitor, .lockThis, .hardcodedKey],
      ∀ s s' : r.State,
        (r.Silent s ⟨m, t, method, .ofBody insts entries⟩ insts ∧
          r.Silent s' ⟨m', t', { method with body := body' }, .ofBody insts' entries'⟩ insts') ∨
        ∃ k detail, r.ReportsAt s ⟨m, t, method, .ofBody insts entries⟩ insts k detail ∧
          r.ReportsAt s' ⟨m', t', { method with body := body' }, .ofBody insts' entries'⟩ insts' k detail) := by
  refine ⟨h.blocks_eq, h.straightLine_eq, h.producer?_eq .exact, h.value?_eq .exact, h.wordProducer?_eq,
    h.wordValue?_eq, fun nonneg nonneg' m m' t t' method body' valueType => ?_⟩
  have alike : MethodContext.Alike insts insts' ⟨m, t, method, .ofBody insts entries⟩
      ⟨m', t', { method with body := body' }, .ofBody insts' entries'⟩ :=
    ⟨valueType, ⟨body', rfl⟩, entries, entries', h, rfl, rfl⟩
  simp only [List.forall_mem_cons, List.not_mem_nil, false_imp_iff, implies_true, and_true]
  refine ⟨?_, ?_, ?_, ?_, ?_, ?_, ?_⟩
  · exact Rule.verdicts_reencoded h nonneg nonneg' rfl (Rule.comparesIndexOf_eq alike)
  · exact Rule.verdicts_reencoded h nonneg nonneg' (Rule.isReferenceEquality_eq alike) (Rule.callsItself_eq alike)
  · exact Rule.verdicts_reencoded h nonneg nonneg' rfl (Rule.sleepsZero_eq alike)
  · exact Rule.verdicts_reencoded h nonneg nonneg' rfl (Rule.concatsPath_eq alike)
  · exact Rule.verdicts_reencoded h nonneg nonneg' rfl Rule.createsNamedLock_eq
  · exact Rule.verdicts_reencoded h nonneg nonneg' rfl (Rule.locksThis_eq alike)
  · exact Rule.verdicts_reencoded h nonneg nonneg' rfl (Rule.passesKey_eq alike)

/-- A method of an object. -/
def hold : Method :=
  { name := "Hold", declaringType := "C", returnType := [], params := [], genericParams := [], isPublic := true,
    isStatic := false, isVirtual := false, isNewSlot := false, isAbstract := false, nativeImport := none,
    body := none }

/-- The type of the object. -/
def holder : TypeDef :=
  { fullName := "C", base := [], interfaces := [], isPublic := true, isSealed := false, isAbstract := false,
    isValueType := false, isInterface := false, isMarkedGenerated := false, isExternal := false, fields := [],
    properties := [], methods := [hold] }

def monitorEnter : MethodRef :=
  { declaringType := "System.Threading.Monitor", name := "Enter", params := ["System.Object"] }

/-- The method locks its object and then waits in a loop. -/
def latch : List RawInstruction :=
  [⟨0, ⟨0x02⟩, .none⟩, ⟨1, .dup, .none⟩, ⟨2, ⟨0x0A⟩, .none⟩, ⟨3, ⟨0x28⟩, .method monitorEnter⟩, ⟨8, ⟨0x06⟩, .none⟩,
    ⟨9, ⟨0x2D⟩, .int .int 8⟩, ⟨11, ⟨0x2A⟩, .none⟩]

/-- The same in full. -/
def longLatch : List RawInstruction :=
  [⟨0, ⟨0xFE09⟩, .int .int 0⟩, ⟨4, .dup, .none⟩, ⟨5, ⟨0xFE0E⟩, .int .int 0⟩, ⟨9, ⟨0x28⟩, .method monitorEnter⟩,
    ⟨14, ⟨0xFE0C⟩, .int .int 0⟩, ⟨18, ⟨0x3A⟩, .int .int 14⟩, ⟨23, ⟨0x2A⟩, .none⟩]

/-- The object locked comes from the same instruction in both spellings, and both are reported. -/
theorem analysis_reencoded_latch :
    ∃ insts insts', decode latch = .ok insts ∧ decode longLatch = .ok insts' ∧
      (Provenance.ofBody insts [8]).value? 3 0 = some 0 ∧ (Provenance.ofBody insts' [14]).value? 3 0 = some 0 ∧
      (Provenance.ofBody insts [8]).wordValue? 3 0 = some 0 ∧ (Provenance.ofBody insts' [14]).wordValue? 3 0 = some 0 ∧
      ∃ k detail,
        Rule.lockThis.ReportsAt Rule.lockThis.start ⟨⟨"M", [holder]⟩, holder, hold, .ofBody insts [8]⟩ insts k detail ∧
        Rule.lockThis.ReportsAt Rule.lockThis.start ⟨⟨"M", [holder]⟩, holder, hold, .ofBody insts' [14]⟩ insts' k
          detail := by
  have same : Reencoded _ _ [8] [14] := {
    decoded := ⟨latch, rfl⟩
    decoded' := ⟨longLatch, rfl⟩
    alike := by
      refine .cons ⟨.refl _, ?_, ?_⟩ (.cons ⟨.refl _, ?_, ?_⟩ (.cons ⟨.refl _, ?_, ?_⟩ (.cons ⟨.refl _, ?_, ?_⟩
        (.cons ⟨.refl _, ?_, ?_⟩ (.cons ⟨.branchIf _ _ _ _, ?_, ?_⟩ (.cons ⟨.refl _, ?_, ?_⟩ .nil))))))
      all_goals decide +kernel
    entries := fun i => Iff.of_eq (congrArg (i ∈ ·) (by decide +kernel)) }
  obtain ⟨-, -, -, value, -, wordValue, verdicts⟩ := analysis_reencoded same
  refine ⟨_, _, rfl, rfl, by decide +kernel, ?_, by decide +kernel, ?_, ?_⟩
  · rw [← value]
    decide +kernel
  · rw [← wordValue]
    decide +kernel
  · have both := verdicts (by decide +kernel) (by decide +kernel) ⟨"M", [holder]⟩ ⟨"M", [holder]⟩ holder holder hold none
      rfl Rule.lockThis (by simp) Rule.lockThis.start Rule.lockThis.start
    refine both.resolve_left fun silent => ?_
    have reported := silent.1 7
    revert reported
    decide +kernel

end CilAudit
