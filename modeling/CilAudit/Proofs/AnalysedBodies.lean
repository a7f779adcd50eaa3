import CilAudit.CallGraph
import CilAudit.Module.Listing
import CilAudit.Proofs.Isolation

/-!
# Which bodies can be analysed

A pass, the collection for call graphs and the listings each go through a module on their own. All
three come to the same sites, the bodies of the module's own types, and at each of them to the same
verdict: the body can be read and then decoded, or the first of the two that fails says why not.
-/

set_option autoImplicit false

namespace CilAudit

/-- What is wrong with a body: with its reading or, where that goes well, with its decoding. -/
def MethodBody.complaint? (b : MethodBody) : Option Text :=
  match b.rawInstructions with
  | .error cause => some cause.message
  | .ok raw =>
    match decode raw with
    | .error cause => some cause.message
    | .ok _ => none

theorem MethodBody.decoded_cases (b : MethodBody) :
    (∃ instructions, b.decoded = .ok instructions ∧ b.instructions? = some instructions ∧ b.complaint? = none) ∨
      ∃ cause, b.decoded = .error cause ∧ b.instructions? = none ∧ b.complaint? = some cause.message := by
  unfold decoded instructions? complaint?
  cases b.rawInstructions with
  | error cause => exact .inr ⟨.read cause, rfl, rfl, rfl⟩
  | ok raw =>
    cases made : decode raw with
    | error cause => exact .inr ⟨.decode cause, by simp [made], by simp [made], by simp [made, BodyError.message]⟩
    | ok instructions => exact .inl ⟨instructions, by simp [made], by simp [made], by simp [made]⟩

/-! ## Sites -/

/-- A body, with its method and the type of that. -/
structure BodySite where
  type : TypeDef
  method : Method
  body : MethodBody

namespace BodySite

def context (s : BodySite) (m : Module) (instructions : List Instruction) : MethodContext :=
  ⟨m, s.type, s.method, .ofBody instructions s.body.entries⟩

/-- The events of the body, if it can be analysed. -/
def events (s : BodySite) (m : Module) : List Event :=
  s.body.instructions?.elim [] fun instructions => Module.bodyEvents (s.context m instructions) instructions

/-- What is collected of a body that can be analysed. -/
def analysed? (s : BodySite) : Option AnalysedMethod :=
  s.body.instructions?.map fun instructions => ⟨s.method.fullName, s.type.fullName, instructions, s.body.entries⟩

/-- What is said on collecting a body that cannot. -/
def skipped? (s : BodySite) : Option LogEntry :=
  s.body.complaint?.map fun complaint =>
    ⟨.warning, "cilscan.callgraph", "skipping " ++ s.method.fullName ++ ": " ++ complaint⟩

/-- What is listed of a body: below a header its instructions, or a line with the complaint. -/
def listed (s : BodySite) (annotators : List Annotator) : Text :=
  "// " ++ s.method.fullName ++ "\n" ++
    s.body.instructions?.elim ("// skipped: " ++ s.body.complaint?.getD [] ++ "\n\n") fun instructions =>
      listing annotators instructions ++ "\n"

end BodySite

/-- The method under way when a body is gone through. -/
def Event.context? : Event → Option MethodContext
  | beginMethod c | endMethod c | visit c _ => some c
  | _ => none

/-- The method that begins. -/
def Event.begun? : Event → Option MethodContext
  | beginMethod c => some c
  | _ => none

namespace Module

variable (m : Module)

/-- The bodies of the module's own types, in order. -/
def bodySites : List BodySite :=
  (m.types.filter (!·.isExternal)).flatMap fun t => t.methods.flatMap fun x => (x.body.map (.mk t x)).toList

variable {m}

theorem mem_bodySites {s : BodySite} :
    s ∈ m.bodySites ↔
      s.type ∈ m.types ∧ s.type.isExternal = false ∧ s.method ∈ s.type.methods ∧ s.method.body = some s.body := by
  obtain ⟨t, x, b⟩ := s
  simp only [bodySites, List.mem_flatMap, List.mem_filter, Option.mem_toList, Option.map_eq_some_iff,
    BodySite.mk.injEq, Bool.not_eq_true']
  constructor
  · rintro ⟨t, ⟨listed, own⟩, x, has, b, body, rfl, rfl, rfl⟩
    exact ⟨listed, own, has, body⟩
  · rintro ⟨listed, own, has, body⟩
    exact ⟨t, ⟨listed, own⟩, x, has, b, body, rfl, rfl, rfl⟩

variable (m)

theorem map_body_bodySites : m.bodySites.map (·.body) = m.ownBodies := by
  have each (t : TypeDef) (x : Method) : (x.body.map (BodySite.mk t x)).toList.map (·.body) = x.body.toList := by
    cases x.body <;> rfl
  simp only [bodySites, ownBodies, List.map_flatMap, each, List.filterMap_eq_flatMap_toList]

/-! ## The pass -/

/-- What is only of interest inside bodies comes from the sites. -/
theorem flatMap_events {β : Type} {f : Event → List β} (outside : ∀ e, e.context? = none → f e = []) :
    m.events.flatMap f = m.bodySites.flatMap fun s => (s.events m).flatMap f := by
  -- No scope adds to what lies inside it, so the nesting can be undone from the methods outwards.
  have method (t : TypeDef) (x : Method) : (m.methodEvents t x).flatMap f =
      (x.body.map (BodySite.mk t x)).toList.flatMap fun s => (s.events m).flatMap f := by
    rw [methodEvents, List.flatMap_cons, outside _ rfl, List.nil_append]
    cases x.body with
    | none => rfl
    | some b => simp [BodySite.events, BodySite.context]
  have type (t : TypeDef) : (m.typeEvents t).flatMap f = t.methods.flatMap fun x => (m.methodEvents t x).flatMap f := by
    have fields : (t.fields.map (Event.field t)).flatMap f = [] := by
      rw [List.flatMap_map, List.flatMap_eq_nil_iff]
      exact fun field _ => outside (.field t field) rfl
    simp only [typeEvents, List.flatMap_append, List.flatMap_cons, List.flatMap_nil, List.flatMap_assoc, fields,
      outside (.beginType m t) rfl, outside (.beginMethods m t) rfl, outside (.endMethods m t) rfl,
      outside (.endType m t) rfl, List.nil_append, List.append_nil]
  simp only [events, bodySites, List.flatMap_append, List.flatMap_singleton, List.flatMap_assoc, type, method,
    outside (.beginModule m) rfl, outside (.endModule m) rfl, List.nil_append, List.append_nil]

theorem filter_events {hears : EventKind → Bool} (outside : ∀ e : Event, e.context? = none → hears e.kind = false) :
    m.events.filter (hears ·.kind) = m.bodySites.flatMap fun s => (s.events m).filter (hears ·.kind) := by
  have split (l : List Event) :
      l.filter (hears ·.kind) = l.flatMap fun e => if hears e.kind then [e] else [] := by
    rw [← Dispatcher.flatMap_filter, List.flatMap_singleton']
  simp only [split]
  exact m.flatMap_events fun e h => by simp [outside e h]

/-- The methods that begin are those of the sites that can be analysed. -/
theorem begun_events :
    m.events.filterMap Event.begun? = m.bodySites.filterMap fun s => s.body.instructions?.map (s.context m) := by
  have each (s : BodySite) :
      (s.events m).flatMap (·.begun?.toList) = (s.body.instructions?.map (s.context m)).toList := by
    unfold BodySite.events
    cases s.body.instructions? with
    | none => rfl
    | some instructions => simp [bodyEvents, Event.begun?]
  have outside (e : Event) (h : e.context? = none) : e.begun?.toList = [] := by
    cases e <;> first | rfl | cases h
  rw [List.filterMap_eq_flatMap_toList, List.filterMap_eq_flatMap_toList]
  simp only [m.flatMap_events outside, each]

end Module

/-- Rules on methods hear nothing outside of bodies. -/
theorem Rule.deaf_onMethods (id name : Text) (kinds : List Kind) (watches : MethodContext → Bool)
    (offends : MethodContext → Instruction → Except Text (Option Finding)) (e : Event) (outside : e.context? = none) :
    (onMethods id name kinds watches offends).subscribes e.kind = false := by
  cases e with
  | beginMethod | endMethod | visit => cases outside
  | _ => simp [subscribes, onMethods, methodEvents, Event.kind]

/-- What is collected of a method is what a pass begins it with. -/
structure AnalysedMethod.Shows (f : AnalysedMethod) (c : MethodContext) : Prop where
  name : f.name = c.method.fullName
  owner : f.owner = c.type.fullName
  body : ∃ body, c.method.body = some body ∧ body.instructions? = some f.instructions ∧ body.entries = f.entries
  provenance : c.provenance = .ofBody f.instructions f.entries

/-! ## The collection -/

namespace Collected

def addSite (c : Collected) (s : BodySite) : Collected :=
  ⟨c.methods ++ s.analysed?.toList, c.skipped ++ s.skipped?.toList⟩

/-- A method adds the site it is, if it is one. -/
theorem add_eq (c : Collected) (t : TypeDef) (x : Method) :
    c.add t x = (x.body.map (BodySite.mk t x)).toList.foldl addSite c := by
  unfold add
  cases x.body with
  | none => rfl
  | some b =>
    obtain ⟨instructions, made, analysed, fine⟩ | ⟨cause, made, analysed, complaint⟩ := b.decoded_cases
    · simp [made, addSite, BodySite.analysed?, BodySite.skipped?, analysed, fine]
    · simp [made, addSite, BodySite.analysed?, BodySite.skipped?, analysed, complaint, skippingMessage]

theorem foldl_addSite (c : Collected) (sites : List BodySite) :
    sites.foldl addSite c =
      ⟨c.methods ++ sites.filterMap BodySite.analysed?, c.skipped ++ sites.filterMap BodySite.skipped?⟩ := by
  induction sites generalizing c with
  | nil => simp
  | cons s sites ih =>
    rw [List.foldl_cons, ih, addSite, List.filterMap_eq_flatMap_toList, List.filterMap_eq_flatMap_toList]
    simp only [List.append_assoc, List.filterMap_eq_flatMap_toList, List.flatMap_cons]

end Collected

namespace Module

variable (m : Module)

theorem collect_eq :
    m.collect = ⟨m.bodySites.filterMap BodySite.analysed?, m.bodySites.filterMap BodySite.skipped?⟩ := by
  have walk : m.collect = m.bodySites.foldl Collected.addSite {} := by
    simp only [collect, Collected.add_eq, bodySites, List.foldl_flatMap, List.foldl_filter, Bool.not_eq_true']
    congr
    funext c t
    cases t.isExternal <;> rfl
  rw [walk, Collected.foldl_addSite]
  simp

theorem shows_begun : List.Forall₂ AnalysedMethod.Shows m.analysed (m.events.filterMap Event.begun?) := by
  have run (sites : List BodySite) (known : ∀ s ∈ sites, s.method.body = some s.body) :
      List.Forall₂ AnalysedMethod.Shows (sites.filterMap BodySite.analysed?)
        (sites.filterMap fun s => s.body.instructions?.map (s.context m)) := by
    induction sites with
    | nil => exact .nil
    | cons s sites ih =>
      have later := ih fun s member => known s (List.mem_cons_of_mem _ member)
      -- Either both walks pass over the site, or both add to what they have.
      cases analysed : s.body.instructions? with
      | none => simpa [BodySite.analysed?, analysed] using later
      | some instructions =>
        have shows : AnalysedMethod.Shows ⟨s.method.fullName, s.type.fullName, instructions, s.body.entries⟩
            (s.context m instructions) :=
          ⟨rfl, rfl, ⟨s.body, known s List.mem_cons_self, analysed, rfl⟩, rfl⟩
        simpa [BodySite.analysed?, analysed] using ⟨shows, later⟩
  rw [analysed, collect_eq, begun_events]
  exact run _ fun s member => (mem_bodySites.1 member).2.2.2

/-! ## The listings -/

theorem listings_eq (annotators : List Annotator) :
    m.listings [] annotators = m.bodySites.flatMap (·.listed annotators) := by
  have all (t : Text) : t.contains [] = true := by cases t <;> rfl
  simp only [listings, ownTypes, bodySites, List.flatMap_assoc]
  refine List.flatMap_congr fun t _ => List.flatMap_congr fun x _ => ?_
  cases x.body with
  | none => rfl
  | some b =>
    obtain ⟨instructions, made, analysed, -⟩ | ⟨cause, made, analysed, complaint⟩ := b.decoded_cases
    · simp [all, made, bodyListing, BodySite.listed, analysed]
    · simp [all, made, bodyListing, BodySite.listed, analysed, complaint]

end Module

namespace Dispatcher

variable {rules : List Rule} {d : Dispatcher}

/-- A rule that listens for the begin of methods and does not fail is told of each. -/
theorem Holds.begun_deliveriesTo (holds : d.Holds rules) {m : Module} {place : Nat} {live : LiveRule}
    (here : d.rules[place]? = some live) (hears : live.rule.subscribes .beginMethod = true)
    (fine : ∀ x ∈ d.deliveriesTo m place, x.fault = none) :
    (d.deliveriesTo m place).filterMap (·.event.begun?) = m.events.filterMap Event.begun? := by
  rw [holds.deliveriesTo_eq here] at fine ⊢
  have heard := LiveRule.Quiet.map_event fine
  have kept (e : Event) : (if live.rule.subscribes e.kind then e.begun? else none) = e.begun? := by
    cases e with
    | beginMethod c => exact if_pos hears
    | _ => exact ite_self _
  calc (live.alone (m.events.filter (live.rule.subscribes ·.kind))).filterMap (·.event.begun?)
      = ((live.alone (m.events.filter (live.rule.subscribes ·.kind))).map (·.event)).filterMap Event.begun? := by
        rw [List.filterMap_map]; rfl
    _ = (m.events.filter (live.rule.subscribes ·.kind)).filterMap Event.begun? := by rw [heard]
    _ = m.events.filterMap Event.begun? := by rw [List.filterMap_filter]; simp only [kept]

theorem length_skippedLog (d : Dispatcher) (m : Module) : m.skippedLog.length = (d.run m).2.stats.skipped := by
  have same (s : BodySite) : s.skipped?.isSome = s.body.instructions?.isNone := by
    unfold BodySite.skipped?
    obtain ⟨instructions, -, analysed, fine⟩ | ⟨cause, -, analysed, complaint⟩ := s.body.decoded_cases
    · simp [analysed, fine]
    · simp [analysed, complaint]
  calc m.skippedLog.length = m.bodySites.countP (·.body.instructions?.isNone) := by
        rw [Module.skippedLog, m.collect_eq, List.length_filterMap_eq_countP]
        simp only [same]
    _ = m.ownBodies.countP (·.instructions?.isNone) := by rw [← m.map_body_bodySites, List.countP_map]; rfl
    _ = (d.run m).2.stats.skipped := by rw [counts_run]; rfl

theorem length_instructions_analysed (d : Dispatcher) (m : Module) :
    (m.analysed.flatMap (·.instructions)).length = (d.run m).2.stats.instructions := by
  have each (s : BodySite) :
      s.analysed?.toList.flatMap (·.instructions) = s.body.instructions?.getD [] := by
    unfold BodySite.analysed?
    cases s.body.instructions? <;> simp
  calc (m.analysed.flatMap (·.instructions)).length
      = (m.bodySites.flatMap fun s => s.body.instructions?.getD []).length := by
        rw [Module.analysed, m.collect_eq, List.filterMap_eq_flatMap_toList, List.flatMap_assoc]
        simp only [each]
    _ = (m.ownBodies.flatMap fun b => b.instructions?.getD []).length := by
        rw [← m.map_body_bodySites, List.flatMap_map]
    _ = (d.run m).2.stats.instructions := by rw [counts_run]; rfl

/-- **All agree on which bodies can be analysed.** A rule that listens for the begin of methods, and does not fail, is
told by a pass of the methods that the collection holds, in order: under their names, with the instructions and entries
that the pass has for them. What is on record as delivered is what the rules of the pass answer, report and end with.
The collection leaves out as many bodies as the pass skips, and has as many instructions as the pass goes through.
Without a filter, a listing has each body of the module's own types below a header of its own: the same instructions if
it is in the collection, and otherwise what is wrong with its reading or decoding. -/
theorem walks_agree (holds : d.Holds rules) (m : Module) :
    (∀ place live, d.rules[place]? = some live → live.rule.subscribes .beginMethod = true →
      (∀ x ∈ d.deliveriesTo m place, x.fault = none) →
      List.Forall₂ AnalysedMethod.Shows m.analysed ((d.deliveriesTo m place).filterMap (·.event.begun?))) ∧
    d.Accounted m ∧
    m.skippedLog.length = (d.run m).2.stats.skipped ∧
    (m.analysed.flatMap (·.instructions)).length = (d.run m).2.stats.instructions ∧
    m.analysed = m.bodySites.filterMap (·.analysed?) ∧
    m.skippedLog = m.bodySites.filterMap (·.skipped?) ∧
    ∀ annotators, m.listings [] annotators = m.bodySites.flatMap (·.listed annotators) := by
  refine ⟨fun place live here hears fine => ?_, d.accounted m, d.length_skippedLog m, d.length_instructions_analysed m,
    ?_, ?_, m.listings_eq⟩
  · rw [holds.begun_deliveriesTo here hears fine]
    exact m.shows_begun
  · rw [Module.analysed, m.collect_eq]
  · rw [Module.skippedLog, m.collect_eq]

/-- The outing, with one more method in each type whose code breaks off. -/
def ragged : Module :=
  { outing with
    types := outing.types.map fun t =>
      { t with
        methods := t.methods ++
          (t.methods.take 1).map fun x => { x with name := "Torn", body := some ⟨.encoded [0x16, 0xFE] {}, [], []⟩ } } }

/-- One body can be analysed, one cannot be decoded and one not be read. The first rule is told of the one, and keeps
that it was. -/
theorem walks_agree_ragged :
    ((ofRules onlookers).1.deliveriesTo ragged 0).filterMap (·.event.begun?.map (·.method.fullName)) =
      ["System.Void C::Go()"] ∧
    ((ofRules onlookers).1.run ragged).1.rules[0]? =
      some ⟨scribe, [EventKind.beginModule, .beginType, .beginMethod, .visit .ret, .endMethod, .endType, .endModule]⟩ ∧
    ragged.analysed.map (·.name) = ["System.Void C::Go()"] ∧
    ((ofRules onlookers).1.run ragged).2.stats.skipped = 2 ∧
    ((ofRules onlookers).1.run ragged).2.stats.instructions = 3 ∧
    ragged.listings [] [] =
      "// System.Void C::Go()\nIL_0000: ldc.i4.0\nIL_0001: pop\nIL_0002: ret\n\n" ++
      "// System.Void C::Lost()\n// skipped: il: IL_0000 ldstr: operand int (42), want string\n\n" ++
      "// System.Void C::Torn()\n// skipped: il: read at 0x0001: truncated two-byte opcode\n\n" := by
  obtain ⟨told, record, skipped, instructions, analysed, -, listings⟩ := walks_agree (holds_ofRules onlookers) ragged
  have names : ragged.analysed.map (·.name) = ["System.Void C::Go()"] := by rw [analysed]; decide +kernel
  have kinds : ((ofRules onlookers).1.deliveriesTo ragged 0).map (·.event.kind) =
      [.beginModule, .beginType, .beginMethod, .visit .ret, .endMethod, .endType, .endModule] := by decide +kernel
  refine ⟨?_, ?_, names, by rw [← skipped]; decide +kernel, by rw [← instructions]; decide +kernel,
    by rw [listings]; decide +kernel⟩
  · have shown := told 0 scribe.live rfl rfl (by decide +kernel)
    have same : ragged.analysed.map (·.name) =
        (((ofRules onlookers).1.deliveriesTo ragged 0).filterMap (·.event.begun?)).map (·.method.fullName) := by
      rw [← List.forall₂_eq_eq_eq, List.forall₂_map_left_iff, List.forall₂_map_right_iff]
      exact shown.imp fun f c shows => shows.name
    rw [List.map_filterMap] at same
    exact same.symm.trans names
  · rw [record.states 0 ⟨scribe, []⟩ rfl, foldl_scribe, List.map_map, List.nil_append]
    exact congrArg (fun heard : List EventKind => some (LiveRule.mk scribe heard)) kinds

end Dispatcher

end CilAudit
