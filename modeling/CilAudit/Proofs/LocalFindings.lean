import CilAudit.Proofs.LoadedBodies
import CilAudit.Proofs.MethodFindings
import CilAudit.Proofs.WordAnswers

/-!
# Findings on instructions are local

Seven rules of the analyser test single instructions. The test may look around in the body and at a
few facts of the method, but has no memory. So although such a rule carries a state from event to
event, what it reports of a method is settled by these facts: it is the first instruction of the body
that fails the test. Nothing else in the module, no method before and no body that was skipped has a
part in it.
-/

set_option autoImplicit false

namespace CilAudit

/-! ## What a test can know -/

/-- The facts of a method that a test on instructions may use: the name and kind of its type, its own
name and signature, and its body without the types of the locals. -/
structure MethodFacts where
  typeName : Text
  isValueType : Bool
  name : Text
  returnType : Text
  params : List Text
  genericParams : List Text
  isStatic : Bool
  body : Option (Instructions × List Handler)

/-- The facts of a method of a type. -/
def TypeDef.facts (t : TypeDef) (x : Method) : MethodFacts where
  typeName := t.fullName
  isValueType := t.isValueType
  name := x.name
  returnType := x.returnType
  params := x.params.map (·.type)
  genericParams := x.genericParams
  isStatic := x.isStatic
  body := x.body.map fun b => (b.instructions, b.handlers)

namespace MethodFacts

def body? (f : MethodFacts) : Option MethodBody := f.body.map fun b => ⟨b.1, b.2, []⟩

/-- A method with these facts. All else about it is made up. -/
def method (f : MethodFacts) : Method where
  name := f.name
  declaringType := f.typeName
  returnType := f.returnType
  params := f.params.map (⟨[], ·⟩)
  genericParams := f.genericParams
  isPublic := false
  isStatic := f.isStatic
  isVirtual := false
  isNewSlot := false
  isAbstract := false
  nativeImport := none
  body := f.body?

/-- A type that has only the method with these facts. -/
def type (f : MethodFacts) : TypeDef where
  fullName := f.typeName
  base := []
  interfaces := []
  isPublic := false
  isSealed := false
  isAbstract := false
  isValueType := f.isValueType
  isInterface := false
  isMarkedGenerated := false
  isExternal := false
  fields := []
  properties := []
  methods := [f.method]

/-- The method under way in a module that has nothing else. -/
def context (f : MethodFacts) (b : MethodBody) (insts : List Instruction) : MethodContext :=
  BodySite.context ⟨f.type, f.method, b⟩ ⟨[], [f.type]⟩ insts

end MethodFacts

/-- Two methods under way that a test on instructions cannot tell apart. -/
structure MethodContext.Resembles (c c' : MethodContext) : Prop where
  valueType : c.type.isValueType = c'.type.isValueType
  name : c.method.name = c'.method.name
  fullName : c.method.fullName = c'.method.fullName
  isStatic : c.method.isStatic = c'.method.isStatic
  provenance : c.provenance = c'.provenance

theorem MethodFacts.fullName_method {t : TypeDef} {x : Method} (declared : x.declaringType = t.fullName) :
    (t.facts x).method.fullName = x.fullName := by
  simp [Method.fullName, Method.ref, method, TypeDef.facts, declared, Function.comp_def]

/-- Where a method knows its type, its facts make up for the method. -/
theorem MethodFacts.resembles {t : TypeDef} {x : Method} (declared : x.declaringType = t.fullName) (m : Module)
    (b : MethodBody) (insts : List Instruction) :
    ((t.facts x).context ⟨b.instructions, b.handlers, []⟩ insts).Resembles (BodySite.context ⟨t, x, b⟩ m insts) where
  valueType := rfl
  name := rfl
  fullName := fullName_method declared
  isStatic := rfl
  provenance := rfl

/-! ## The checks -/

/-- A test on instructions of some kinds in the methods that are watched, and the id and name of the rule that applies
it. -/
structure InstructionCheck where
  id : Text
  name : Text
  kinds : List Kind
  watches : MethodContext → Bool
  offends : MethodContext → Instruction → Option Rule.Finding

namespace InstructionCheck

/-- The checks of the analyser. -/
def all : List InstructionCheck :=
  [⟨"C1013", "ArrayIndexOf", [.branchIf, .compare], Rule.everyMethod, Rule.comparesIndexOf⟩,
    ⟨"C1021", "RecursiveEquality", [.call], Rule.isReferenceEquality, Rule.callsItself⟩,
    ⟨"R1017", "ZeroSleep", [.call], Rule.everyMethod, Rule.sleepsZero⟩,
    ⟨"PO1006", "PathCombine", [.call], Rule.everyMethod, Rule.concatsPath⟩,
    ⟨"D1056", "PreferMonitor", [.newObject], Rule.everyMethod, Rule.createsNamedLock⟩,
    ⟨"MS1003", "LockThis", [.call], Rule.everyMethod, Rule.locksThis⟩,
    ⟨"S1030", "HardcodedKey", [.call, .newObject], Rule.everyMethod, Rule.passesKey⟩]

def rule (k : InstructionCheck) : Rule := .firstInMethod k.id k.name k.kinds k.watches k.offends

/-- What is to be said of an instruction that fails the test. -/
def detail? (k : InstructionCheck) (c : MethodContext) (i : Instruction) : Option Text :=
  Rule.offence? k.kinds k.watches k.offends c i

/-- The verdict on the instructions of a body: the first that fails the test, if any does. -/
def report (k : InstructionCheck) (c : MethodContext) (insts : List Instruction) : List Violation :=
  ((insts.findSome? fun i => (k.detail? c i).map (i.offset, ·)).map fun found =>
    .ofMethod k.id c.method found.1 found.2).toList

/-- The verdict on a method, from the facts alone. -/
def verdict (k : InstructionCheck) (f : MethodFacts) : List Violation :=
  f.body?.elim [] fun b => b.instructions?.elim [] fun insts => k.report (f.context b insts) insts

variable {k : InstructionCheck} {c c' : MethodContext}

theorem watches_eq (known : k ∈ all) (same : c.Resembles c') : k.watches c = k.watches c' := by
  simp only [all, List.mem_cons, List.not_mem_nil, or_false] at known
  obtain rfl | rfl | rfl | rfl | rfl | rfl | rfl := known
  case inr.inl =>
    dsimp only [Rule.isReferenceEquality]
    rw [same.valueType, same.name]
  all_goals rfl

theorem offends_eq (known : k ∈ all) (same : c.Resembles c') (i : Instruction) : k.offends c i = k.offends c' i := by
  obtain ⟨-, -, fullName, isStatic, provenance⟩ := same
  obtain ⟨m, t, x, p⟩ := c
  obtain ⟨m', t', x', p'⟩ := c'
  obtain rfl : p = p' := provenance
  simp only [all, List.mem_cons, List.not_mem_nil, or_false] at known
  obtain rfl | rfl | rfl | rfl | rfl | rfl | rfl := known
  case inr.inl =>
    dsimp only [Rule.callsItself] at *
    rw [fullName]
  case inr.inr.inr.inr.inr.inl =>
    dsimp only [Rule.locksThis] at *
    rw [isStatic]
    rfl
  all_goals rfl

theorem detail?_eq (known : k ∈ all) (same : c.Resembles c') (i : Instruction) : k.detail? c i = k.detail? c' i := by
  rw [detail?, detail?, Rule.offence?, Rule.offence?, watches_eq known same, offends_eq known same]

theorem report_eq (known : k ∈ all) (same : c.Resembles c') (insts : List Instruction) :
    k.report c insts = k.report c' insts := by
  simp only [report, detail?_eq known same, Violation.ofMethod, same.fullName]

/-! ## Verdicts -/

/-- At most one finding comes of a body. -/
theorem length_report_le (insts : List Instruction) : (k.report c insts).length ≤ 1 := by
  unfold report
  cases insts.findSome? fun i => (k.detail? c i).map (i.offset, ·) <;> simp

theorem report_eq_nil_iff {insts : List Instruction} : k.report c insts = [] ↔ ∀ i ∈ insts, k.detail? c i = none := by
  simp [report]

/-- A finding is at an instruction that fails the test, and no earlier one does. -/
theorem exists_first_of_mem_report {insts : List Instruction} {v : Violation} (reported : v ∈ k.report c insts) :
    ∃ before i after detail, insts = before ++ i :: after ∧ (∀ j ∈ before, k.detail? c j = none) ∧
      k.detail? c i = some detail ∧ v = .ofMethod k.id c.method i.offset detail := by
  obtain ⟨found, first, rfl⟩ := Option.map_eq_some_iff.1 (Option.mem_toList.1 reported)
  obtain ⟨before, i, after, rfl, here, passed⟩ := List.findSome?_eq_some_iff.1 first
  obtain ⟨detail, failed, rfl⟩ := Option.map_eq_some_iff.1 here
  exact ⟨before, i, after, detail, rfl, fun j member => Option.map_eq_none_iff.1 (passed j member), failed, rfl⟩

/-- What is found of a method in its module: nothing if it has no body, or none that can be analysed,
or no instruction that fails the test; and otherwise the first that does. -/
structure Judges (k : InstructionCheck) (m : Module) (t : TypeDef) (x : Method) (vs : List Violation) : Prop where
  length_le : vs.length ≤ 1
  eq_nil_iff : vs = [] ↔
    x.body = none ∨ ∃ b, x.body = some b ∧
      (b.instructions? = none ∨ ∃ insts, b.instructions? = some insts ∧
        ∀ i ∈ insts, k.detail? (BodySite.context ⟨t, x, b⟩ m insts) i = none)
  first : ∀ v ∈ vs, ∃ b insts before i after detail,
    x.body = some b ∧ b.instructions? = some insts ∧ insts = before ++ i :: after ∧
    (∀ j ∈ before, k.detail? (BodySite.context ⟨t, x, b⟩ m insts) j = none) ∧
    k.detail? (BodySite.context ⟨t, x, b⟩ m insts) i = some detail ∧
    0 ≤ i.offset ∧ v = .ofMethod k.id x i.offset detail

/-- The verdict from the facts is that in any module. -/
theorem verdict_eq (known : k ∈ all) {t : TypeDef} {x : Method} (declared : x.declaringType = t.fullName) (m : Module) :
    k.verdict (t.facts x) = x.body.elim [] fun b => b.instructions?.elim [] fun insts =>
      k.report (BodySite.context ⟨t, x, b⟩ m insts) insts := by
  have made : (t.facts x).body? = x.body.map fun b => ⟨b.instructions, b.handlers, []⟩ := by
    simp only [MethodFacts.body?, TypeDef.facts, Option.map_map, Function.comp_def]
  rw [verdict, made, Option.elim_map]
  congr 1
  funext b
  -- The types of the locals are not used in decoding.
  have decoded : MethodBody.instructions? ⟨b.instructions, b.handlers, []⟩ = b.instructions? := rfl
  rw [Function.comp_apply, decoded]
  congr 1
  funext insts
  exact report_eq known (MethodFacts.resembles declared m b insts) insts

theorem judges_verdict (known : k ∈ all) {dump : Dump} {m : Module} (built : dump.build = .ok m) {t : TypeDef}
    (type : t ∈ m.types) {x : Method} (method : x ∈ t.methods) : k.Judges m t x (k.verdict (t.facts x)) := by
  rw [verdict_eq known (Dump.declaringType_of_build built type method) m]
  cases bodied : x.body with
  | none => exact ⟨by simp, by simp [bodied], by simp⟩
  | some b =>
    cases decoded : b.instructions? with
    | none => exact ⟨by simp [decoded], by simp [bodied, decoded], by simp [decoded]⟩
    | some insts =>
      simp only [Option.elim_some, decoded]
      refine ⟨length_report_le insts, by simp [report_eq_nil_iff, bodied, decoded], fun v reported => ?_⟩
      obtain ⟨before, i, after, detail, split, passed, failed, rfl⟩ := exists_first_of_mem_report reported
      have nonneg : 0 ≤ i.offset := Dump.nonneg_of_build built type method bodied decoded i (by simp [split])
      exact ⟨b, insts, before, i, after, detail, bodied, decoded, split, passed, failed, nonneg, rfl⟩

/-- Where no offset is below zero, what the rule can note is every instruction that fails the test. -/
theorem bodyReports_rule (k : InstructionCheck) (c : MethodContext) (s : Rule.Scope) {insts : List Instruction}
    (nonneg : ∀ i ∈ insts, 0 ≤ i.offset) : k.rule.bodyReports s c insts = k.report c insts := by
  have noted : insts.findSome? (Rule.found? k.kinds k.watches k.offends c) =
      insts.findSome? fun i => (k.detail? c i).map (i.offset, ·) := by
    induction insts with
    | nil => rfl
    | cons i insts ih =>
      obtain ⟨here, later⟩ := List.forall_mem_cons.1 nonneg
      rw [List.findSome?_cons, List.findSome?_cons, ih later, Rule.found?, if_pos here]
      rfl
  exact (Rule.bodyReports_firstInMethod k.id k.name k.kinds k.watches k.offends c s insts).trans (by rw [noted]; rfl)

theorem siteReports_rule (k : InstructionCheck) {dump : Dump} {m : Module} (built : dump.build = .ok m)
    {site : BodySite} (placed : site ∈ m.bodySites) :
    k.rule.siteReports m site =
      site.body.instructions?.elim [] fun insts => k.report (site.context m insts) insts := by
  obtain ⟨type, -, method, bodied⟩ := Module.mem_bodySites.1 placed
  unfold Rule.siteReports
  cases decoded : site.body.instructions? with
  | none => rfl
  | some insts =>
    exact k.bodyReports_rule (site.context m insts) _ (Dump.nonneg_of_build built type method bodied decoded)

end InstructionCheck

/-! ## Depths in machine numbers -/

/-- The method under way, with depths counted in the given way. -/
def MethodContext.counted (c : MethodContext) (counting : Counting) : MethodContext :=
  { c with provenance := c.provenance.counted counting }

theorem Instruction.params_le_pop {x : Instruction} {r : MethodRef} (calls : x.callee? = some r) :
    ∃ e, x.effect? = some e ∧ r.params.length ≤ e.pop := by
  obtain ⟨index, offset, code, action⟩ := x
  cases action with
  | call m isVirtual =>
    obtain rfl : m = r := Option.some.inj calls
    exact ⟨_, rfl, by simp only [MethodRef.argCount]; omega⟩
  | newObject m =>
    obtain rfl : m = r := Option.some.inj calls
    exact ⟨_, rfl, Nat.le_refl _⟩
  | _ => cases calls

section Word

variable {c : MethodContext} {insts : List Instruction} {entries : List Int}

theorem MethodContext.value?_word (walked : c.provenance = .ofBody insts entries) {j a : Nat}
    (few : a + Provenance.taken insts.toArray j < 0x8000000000000000) : (c.counted .word).value? j a = c.value? j a := by
  have same := (Provenance.valueFits_of_taken entries few).value?_eq (by omega)
  rw [← walked] at same
  rw [value?, value?, ← same]
  rfl

theorem MethodContext.producer?_word (walked : c.provenance = .ofBody insts entries) {j a : Nat}
    (few : a + Provenance.taken insts.toArray j < 0x8000000000000000) :
    (c.counted .word).producer? j a = c.producer? j a := by
  have same := (Provenance.fits_of_taken entries few).producer?_eq (by omega)
  rw [← walked] at same
  rw [producer?, producer?, ← same]
  rfl

/-- A test asks for what a call is given, and that lies no deeper than what the body takes altogether. -/
theorem InstructionCheck.offends_word {k : InstructionCheck} (known : k ∈ all)
    (walked : c.provenance = .ofBody insts entries)
    (few : Provenance.taken insts.toArray insts.length < 0x8000000000000000) {i : Instruction}
    (here : insts[i.index]? = some i) : k.offends (c.counted .word) i = k.offends c i := by
  have asked {r : MethodRef} (calls : i.callee? = some r) (n : Nat) :
      r.depthOfParam n + Provenance.taken insts.toArray i.index < 0x8000000000000000 := by
    obtain ⟨e, effect, params⟩ := Instruction.params_le_pop calls
    have there : Provenance.effectAt? insts.toArray i.index = some e := by
      rw [Provenance.effectAt?, List.getElem?_toArray, here]
      exact effect
    have depth : r.depthOfParam n ≤ e.pop := by
      rw [MethodRef.depthOfParam]
      omega
    exact Nat.lt_of_le_of_lt (Provenance.add_taken_le there depth) few
  have value {r : MethodRef} (calls : i.callee? = some r) (n : Nat) :
      (c.counted .word).value? i.index (r.depthOfParam n) = c.value? i.index (r.depthOfParam n) :=
    c.value?_word walked (asked calls n)
  have producer {r : MethodRef} (calls : i.callee? = some r) (n : Nat) :
      (c.counted .word).producer? i.index (r.depthOfParam n) = c.producer? i.index (r.depthOfParam n) :=
    c.producer?_word walked (asked calls n)
  have top (j : Nat) : (c.counted .word).value? j 0 = c.value? j 0 := by
    have whole := Provenance.taken_le_all insts.toArray j
    rw [List.size_toArray] at whole
    exact c.value?_word walked (by omega)
  have literal {r : MethodRef} (calls : i.callee? = some r) (n : Nat) :
      Rule.literal? (c.counted .word) i.index (r.depthOfParam n) = Rule.literal? c i.index (r.depthOfParam n) := by
    simp only [Rule.literal?, value calls, top]
  obtain ⟨index, offset, code, action⟩ := i
  simp only [all, List.mem_cons, List.not_mem_nil, or_false] at known
  obtain rfl | rfl | rfl | rfl | rfl | rfl | rfl := known
  case inr.inr.inl =>
    cases action with
    | call r isVirtual => simp only [Rule.sleepsZero, value rfl]
    | _ => rfl
  case inr.inr.inr.inl =>
    cases action with
    | call r isVirtual => simp only [Rule.concatsPath, Rule.pathLiteral?, producer rfl]
    | _ => rfl
  case inr.inr.inr.inr.inr.inl =>
    cases action with
    | call r isVirtual =>
      simp only [Rule.locksThis, value rfl]
      rfl
    | _ => rfl
  case inr.inr.inr.inr.inr.inr =>
    simp only [Rule.passesKey]
    split
    case h_1 r calls => simp only [literal calls]
    case h_2 => rfl
  all_goals rfl

/-- **Counting in 64 bits changes no test** of a body that takes fewer values altogether than these can count. -/
theorem InstructionCheck.detail?_word {k : InstructionCheck} (known : k ∈ all) {site : BodySite} {m : Module}
    (analysed : site.body.instructions? = some insts)
    (few : Provenance.taken insts.toArray insts.length < 0x8000000000000000) {i : Instruction} (listed : i ∈ insts) :
    k.detail? ((site.context m insts).counted .word) i = k.detail? (site.context m insts) i := by
  obtain ⟨raw, -, decoded⟩ := MethodBody.instructions?_eq_some_iff.1 analysed
  obtain ⟨j, there⟩ := List.getElem?_of_mem listed
  have here : insts[i.index]? = some i := by rw [index_of_decode decoded there, there]
  have watched : k.watches ((site.context m insts).counted .word) = k.watches (site.context m insts) := by
    simp only [all, List.mem_cons, List.not_mem_nil, or_false] at known
    obtain rfl | rfl | rfl | rfl | rfl | rfl | rfl := known <;> rfl
  rw [detail?, detail?, Rule.offence?, Rule.offence?, watched, offends_word known rfl few here]

end Word


/-! ## A pass -/

/-- What is found of the methods of the module's own types, one after the other, where each is judged
by its facts. -/
def Module.findings (m : Module) (judge : MethodFacts → List Violation) : List Violation :=
  m.ownTypes.flatMap fun t => t.methods.flatMap fun x => judge (t.facts x)

theorem Module.flatMap_siteReports {dump : Dump} {m : Module} (built : dump.build = .ok m) {k : InstructionCheck}
    (known : k ∈ InstructionCheck.all) : m.bodySites.flatMap (k.rule.siteReports m) = m.findings k.verdict := by
  rw [List.flatMap_congr fun site placed => k.siteReports_rule built placed]
  simp only [bodySites, findings, ownTypes, List.flatMap_assoc]
  refine List.flatMap_congr fun t own => List.flatMap_congr fun x method => ?_
  have declared := Dump.declaringType_of_build built (List.mem_filter.1 own).1 method
  rw [InstructionCheck.verdict_eq known declared m]
  cases x.body with
  | none => rfl
  | some b => simp

namespace Dispatcher

variable {rules : List Rule} {d : Dispatcher} {place : Nat} {live : LiveRule}

/-- Among rules of the analyser, each chosen once, the findings under the id of a rule are those that
it reports. -/
theorem Holds.ofCheck_run (holds : d.Holds rules) (chosen : ∀ r ∈ rules, r ∈ Rule.all)
    (distinct : (rules.map (·.id)).Nodup) (here : d.rules[place]? = some live) (m : Module) :
    Violation.ofCheck live.rule.id (d.run m).2.violations = (d.deliveriesTo m place).flatMap (·.violations) := by
  rw [violations_run, Violation.ofCheck, List.filter_flatMap, deliveriesTo, List.flatMap_map, flatMap_filter]
  refine List.flatMap_congr fun x member => ?_
  obtain ⟨r, there, signed⟩ := holds.check_eq chosen member
  -- What is delivered at the place bears the id, and what is delivered elsewhere bears another.
  have mine : (rules.map (·.id))[place]? = some live.rule.id := by rw [List.getElem?_map, holds.rule_eq here]; rfl
  have its : (rules.map (·.id))[x.1]? = some r.id := by rw [List.getElem?_map, there]; rfl
  by_cases placed : x.1 = place
  · have same : r.id = live.rule.id := Option.some.inj (by rw [← its, placed, mine])
    rw [if_pos (decide_eq_true placed)]
    exact List.filter_eq_self.2 fun v reported => decide_eq_true ((signed v reported).trans same)
  · have differ : r.id ≠ live.rule.id := fun same =>
      placed ((List.getElem?_inj (List.getElem?_eq_some_iff.1 its).1 distinct).1 (by rw [its, mine, same]))
    rw [if_neg (by simpa using placed)]
    exact List.filter_eq_nil_iff.2 fun v reported => by rw [signed v reported]; simpa using differ

/-- **Findings on instructions are local, and each is the first of its method.** Take a module that is
built from a dump, and rules in any states. What one of the seven checks reports in a pass is, over the
methods of the module's own types in order, what its verdict on the facts of each says. The verdict has
one finding at most: none if the method has no body, or one that cannot be decoded, or no instruction
that fails the test, and otherwise the first that does, at its offset. Among rules of the analyser,
each chosen once, these are the findings under the id of the check. With depths counted in 64 bits the
test comes out the same on every body that takes fewer values altogether than these can count. -/
theorem findings_local {dump : Dump} {m : Module} (built : dump.build = .ok m) (holds : d.Holds rules)
    {k : InstructionCheck} (known : k ∈ InstructionCheck.all) (here : d.rules[place]? = some live)
    (applied : live.rule = k.rule) :
    (d.deliveriesTo m place).flatMap (·.violations) = m.findings k.verdict ∧
    (∀ t ∈ m.types, ∀ x ∈ t.methods, k.Judges m t x (k.verdict (t.facts x))) ∧
    ((∀ r ∈ rules, r ∈ Rule.all) → (rules.map (·.id)).Nodup →
      Violation.ofCheck k.id (d.run m).2.violations = m.findings k.verdict) ∧
    ∀ site ∈ m.bodySites, ∀ insts, site.body.instructions? = some insts →
      Provenance.taken insts.toArray insts.length < 0x8000000000000000 → ∀ i ∈ insts,
        k.detail? ((site.context m insts).counted .word) i = k.detail? (site.context m insts) i := by
  have reports : (d.deliveriesTo m place).flatMap (·.violations) = m.findings k.verdict := by
    rw [holds.deliveriesTo_eq here, (Rule.reports_module _ _ _ _ _ applied m).2]
    exact Module.flatMap_siteReports built known
  refine ⟨reports, fun t type x method => k.judges_verdict known built type method, fun chosen distinct => ?_,
    fun site _ insts analysed few i listed => InstructionCheck.detail?_word known analysed few listed⟩
  have named : live.rule.id = k.id := by rw [applied]; rfl
  rw [← named, holds.ofCheck_run chosen distinct here, reports]

/-- Methods of two types, one of which is external: some create locks with a name, one of them at the
very start and once more, and some have no body or one that breaks off. -/
def locksmiths : Dump :=
  let mutex : MethodRef :=
    { declaringType := "System.Threading.Mutex", name := ".ctor", params := ["System.String"], hasThis := true }
  let twice : Dump.Method :=
    { name := "Twice"
      lines := some [⟨0, "newobj", .text "0x1"⟩, ⟨5, "newobj", .text "0x1"⟩, ⟨10, "ret", .null⟩] }
  let late : Dump.Method :=
    { name := "Late"
      lines := some [⟨0, "ldstr", .text "gate"⟩, ⟨5, "newobj", .text "0x1"⟩, ⟨10, "pop", .null⟩,
        ⟨11, "ret", .null⟩] }
  let calm : Dump.Method := { name := "Calm", lines := some [⟨0, "ret", .null⟩] }
  { types := some
      [{ name := "C", methods := [twice, { name := "Bare" }, calm, { name := "Torn", code := "16FE" }, late] },
        { name := "D", isExternal := true, methods := [twice] }]
    tokens := { methods := [(Text.ofString "0x1", mutex)] } }

/-- In a second pass as in the first, the two methods are reported that create such a lock. -/
theorem findings_local_locksmiths :
    ∃ m, locksmiths.build = .ok m ∧
      Violation.ofCheck "D1056" (((ofRules [.zeroSleep, .preferMonitor]).1.run m).1.run m).2.violations =
        [⟨"D1056", ⟨.method, "System.Void C::Twice()"⟩, 0, []⟩,
          ⟨"D1056", ⟨.method, "System.Void C::Late()"⟩, 5, []⟩] := by
  have verdicts : locksmiths.build.toOption.map
      (fun m => m.findings (InstructionCheck.all.get ⟨4, by decide⟩).verdict) =
      some [⟨"D1056", ⟨.method, "System.Void C::Twice()"⟩, 0, []⟩,
        ⟨"D1056", ⟨.method, "System.Void C::Late()"⟩, 5, []⟩] := by
    decide +kernel
  have chosen : ∀ r ∈ [Rule.zeroSleep, .preferMonitor], r ∈ Rule.all := by simp [Rule.all]
  cases built : locksmiths.build with
  | error e => simp [built, Except.toOption] at verdicts
  | ok m =>
    have holds := (holds_ofRules [.zeroSleep, .preferMonitor]).run m
    have placed : (((ofRules [.zeroSleep, .preferMonitor]).1.run m).1.rules.map (·.rule))[1]? =
        some (InstructionCheck.all.get ⟨4, by decide⟩).rule := by
      rw [holds.held]
      rfl
    rw [List.getElem?_map] at placed
    obtain ⟨live, here, applied⟩ := Option.map_eq_some_iff.1 placed
    rw [built] at verdicts
    refine ⟨m, rfl, ?_⟩
    rw [← Option.some.inj verdicts]
    exact (findings_local built holds (List.get_mem _ _) here applied).2.2.1 chosen (by decide +kernel)

end Dispatcher

end CilAudit
