import CilAudit.Proofs.AnalysedBodies
import CilAudit.Proofs.MethodRules

/-!
# The findings of rules on methods

A rule on methods sees nothing of a module but its sites, one after the other, and at each of them
comes to its verdict afresh. So the findings of a pass under its id are the verdicts on the sites, and
each of them goes back to an instruction that offends.
-/

set_option autoImplicit false

namespace CilAudit

namespace LiveRule

variable {live : LiveRule}

theorem check_of_alone (signs : live.rule.Signs) {events : List Event} {x : Delivery} (heard : x ∈ live.alone events)
    {v : Violation} (reported : v ∈ x.violations) : v.check = live.rule.id := by
  induction events generalizing live with
  | nil => cases heard
  | cons event rest ih =>
    rw [alone] at heard
    rcases List.mem_cons.1 heard with rfl | later
    · exact signs.check_eq reported
    · cases onward : live.onward? event with
      | none => simp [onward] at later
      | some next =>
        rw [onward, Option.elim_some] at later
        have same : next.rule = live.rule := by rw [← onward?_eq_some onward, rule_next]
        rw [← same]
        exact ih (same ▸ signs) later

end LiveRule

namespace Rule

section FirstInMethod

variable (id name : Text) (kinds : List Kind) (watches : MethodContext → Bool)
variable (offends : MethodContext → Instruction → Option Finding)

theorem subscribes_firstInMethod (k : EventKind) :
    (firstInMethod id name kinds watches offends).subscribes k = (methodEvents kinds).contains k := by
  cases k <;> simp [subscribes, accepts, firstInMethod, onMethods, methodEvents]

/-- What the rule has to say of a site. -/
def siteReports (r : Rule) (m : Module) (site : BodySite) : List Violation :=
  site.body.instructions?.elim [] fun insts => r.bodyReports r.start (site.context m insts) insts

/-- A site is gone through without a failure, whatever the rule was doing before, and what is reported depends on the
site alone. -/
theorem reports_site {live : LiveRule} (is : live.rule = firstInMethod id name kinds watches offends) (m : Module)
    (site : BodySite) :
    live.Quiet ((site.events m).filter (live.rule.subscribes ·.kind)) ∧
      (live.alone ((site.events m).filter (live.rule.subscribes ·.kind))).flatMap (·.violations) =
        (firstInMethod id name kinds watches offends).siteReports m site := by
  obtain ⟨r, s⟩ := live
  obtain rfl : r = firstInMethod id name kinds watches offends := is
  simp only [subscribes_firstInMethod, BodySite.events, siteReports]
  cases site.body.instructions? with
  | none => exact ⟨by simp [LiveRule.Quiet, LiveRule.alone], rfl⟩
  | some insts =>
    have verdict := bodyReports_firstInMethod id name kinds watches offends (site.context m insts)
    exact ⟨quiet_body id name kinds watches offends _ s insts, (verdict s insts).trans (verdict _ insts).symm⟩

/-- **The findings in a module** are those at its sites. There too the rule does not fail, whatever it was doing
before. -/
theorem reports_module {live : LiveRule} (is : live.rule = firstInMethod id name kinds watches offends) (m : Module) :
    live.Quiet (m.events.filter (live.rule.subscribes ·.kind)) ∧
      (live.alone (m.events.filter (live.rule.subscribes ·.kind))).flatMap (·.violations) =
        m.bodySites.flatMap ((firstInMethod id name kinds watches offends).siteReports m) := by
  have deaf (e : Event) (outside : e.context? = none) : live.rule.subscribes e.kind = false :=
    is ▸ deaf_onMethods id name kinds watches _ e outside
  rw [m.filter_events deaf]
  clear deaf
  induction m.bodySites generalizing live with
  | nil => exact ⟨by simp [LiveRule.Quiet, LiveRule.alone], rfl⟩
  | cons site sites ih =>
    obtain ⟨quiet, reports⟩ := reports_site id name kinds watches offends is m site
    have later := ih ((live.rule_final ((site.events m).filter (live.rule.subscribes ·.kind))).trans is)
    rw [LiveRule.rule_final] at later
    rw [List.flatMap_cons, List.flatMap_cons, quiet.alone_append, List.flatMap_append, reports, later.2]
    exact ⟨quiet.append later.1, rfl⟩

variable {id name kinds watches offends}

/-- A finding goes back to an instruction that offends. -/
theorem exists_offence {s : Scope} {c : MethodContext} {insts : List Instruction} {v : Violation}
    (reported : v ∈ bodyReports (firstInMethod id name kinds watches offends) s c insts) :
    ∃ i ∈ insts, kinds.contains i.kind = true ∧
      ∃ f, offends c i = some f ∧ v = .ofMethod id c.method i.offset f.detail := by
  rw [bodyReports_firstInMethod, Option.mem_toList, Option.map_eq_some_iff] at reported
  obtain ⟨found, first, rfl⟩ := reported
  obtain ⟨i, listed, noted⟩ := List.exists_of_findSome?_eq_some first
  obtain ⟨-, noted⟩ := Option.ite_none_right_eq_some.1 noted
  obtain ⟨detail, offence, rfl⟩ := Option.map_eq_some_iff.1 noted
  obtain ⟨looked, offence⟩ := Option.ite_none_right_eq_some.1 offence
  obtain ⟨f, offending, rfl⟩ := Option.map_eq_some_iff.1 offence
  exact ⟨i, listed, (Bool.and_eq_true_iff.1 looked).2, f, offending, rfl⟩

end FirstInMethod

/-- The rules of the analyser are told apart by their ids. -/
theorem eq_of_id_eq {r r' : Rule} (member : r ∈ all) (member' : r' ∈ all) (same : r.id = r'.id) : r = r' := by
  have distinct : (all.map (·.id)).Nodup := by decide +kernel
  exact List.inj_on_of_nodup_map distinct member member' same

end Rule

namespace Dispatcher

variable {rules : List Rule} {d : Dispatcher} {m : Module} {v : Violation}

/-- A finding is one of the rule with its id, which would have found it alone. -/
theorem Holds.exists_finding (holds : d.Holds rules) (signs : ∀ r ∈ rules, r.Signs)
    (found : v ∈ (d.run m).2.violations) :
    ∃ live ∈ d.rules, live.rule ∈ rules ∧ v.check = live.rule.id ∧
      v ∈ (live.alone (m.events.filter (live.rule.subscribes ·.kind))).flatMap (·.violations) := by
  rw [violations_run] at found
  obtain ⟨⟨place, x⟩, delivered, reported⟩ := List.mem_flatMap.1 found
  have heard : x ∈ d.deliveriesTo m place :=
    List.mem_map.2 ⟨(place, x), List.mem_filter.2 ⟨delivered, by simp⟩, rfl⟩
  cases here : d.rules[place]? with
  | none => simp [deliveriesTo_eq_nil m here] at heard
  | some live =>
    rw [holds.deliveriesTo_eq here] at heard
    have member : live.rule ∈ rules := List.mem_of_getElem? (holds.rule_eq here)
    exact ⟨live, List.mem_of_getElem? here, member, live.check_of_alone (signs _ member) heard reported,
      List.mem_flatMap.2 ⟨x, heard, reported⟩⟩

/-- Of the rules of the analyser, one on methods reports nothing but instructions that offend it. -/
theorem Holds.exists_offence (holds : d.Holds rules) (chosen : ∀ r ∈ rules, r ∈ Rule.all)
    {id name : Text} {kinds : List Kind} {watches : MethodContext → Bool}
    {offends : MethodContext → Instruction → Option Rule.Finding}
    (known : Rule.firstInMethod id name kinds watches offends ∈ Rule.all) (found : v ∈ (d.run m).2.violations)
    (check : v.check = id) :
    ∃ site ∈ m.bodySites, ∃ insts, site.body.instructions? = some insts ∧
      ∃ i ∈ insts, kinds.contains i.kind = true ∧
        ∃ f, offends (site.context m insts) i = some f ∧ v = .ofMethod id site.method i.offset f.detail := by
  obtain ⟨live, -, member, signed, reported⟩ :=
    holds.exists_finding (fun r member => Rule.signs_all r (chosen r member)) found
  have is : live.rule = Rule.firstInMethod id name kinds watches offends :=
    Rule.eq_of_id_eq (chosen _ member) known (signed.symm.trans check)
  rw [(Rule.reports_module _ _ _ _ _ is m).2] at reported
  obtain ⟨site, placed, reported⟩ := List.mem_flatMap.1 reported
  unfold Rule.siteReports at reported
  cases analysed : site.body.instructions? with
  | none => simp [analysed] at reported
  | some insts =>
    rw [analysed, Option.elim_some] at reported
    exact ⟨site, placed, insts, analysed, Rule.exists_offence reported⟩

end Dispatcher

end CilAudit
