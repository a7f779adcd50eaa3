import CilAudit.Proofs.LoadedBodies
import CilAudit.Proofs.MethodFindings
import CilAudit.Proofs.SuccessivePasses
import CilAudit.Proofs.UnguardedAccess

/-!
# No rule fails on a loaded module

The rules of the analyser once more, with bare accesses: their tests are those with bare accesses, and the
links from a type to its module and from a method to its type are followed before anything else. They are
set by a step that goes through the module before the pass. On a loaded module none of these rules fails,
and each answers as the rule that it stands for.
-/

set_option autoImplicit false

namespace CilAudit

/-! ## Events of a loaded module -/

/-- The method under way is one of the module, in the type that it knows, and its body is at hand. -/
structure MethodContext.Attached (m : Module) (c : MethodContext) : Prop where
  module : c.module = m
  type : c.type ∈ m.types
  method : c.method ∈ c.type.methods
  declared : c.method.declaringType = c.type.fullName
  analysed : ∃ body insts, c.method.body = some body ∧ body.instructions? = some insts ∧
    c.provenance = .ofBody insts body.entries
  ready : Unguarded.Ready c
  nonneg : ∀ (k : Nat) (x : Instruction), c.provenance.body[k]? = some x → 0 ≤ x.offset

/-- Everything that an event leads to is part of the module. -/
def Event.Attached (m : Module) : Event → Prop
  | beginModule m' | endModule m' => m' = m
  | beginType m' t | endType m' t | beginMethods m' t | endMethods m' t => m' = m ∧ t ∈ m.types
  | field t f => t ∈ m.types ∧ f ∈ t.fields
  | method t x => t ∈ m.types ∧ x ∈ t.methods ∧ x.declaringType = t.fullName
  | beginMethod c | endMethod c => c.Attached m
  | visit c i => c.Attached m ∧ c.provenance.body[i.index]? = some i

section Attached

variable {dump : Dump} {m : Module}

theorem attached_context (built : dump.build = .ok m) {site : BodySite} (placed : site ∈ m.bodySites)
    {insts : List Instruction} (analysed : site.body.instructions? = some insts) :
    (site.context m insts).Attached m := by
  obtain ⟨type, -, method, bodied⟩ := Module.mem_bodySites.1 placed
  obtain ⟨raw, -, decoded⟩ := MethodBody.instructions?_eq_some_iff.1 analysed
  have nonneg := Dump.nonneg_of_build built type method bodied analysed
  have listed {k : Nat} {x : Instruction} (here : (site.context m insts).provenance.body[k]? = some x) :
      insts[k]? = some x := by
    rw [BodySite.context, Provenance.body_ofBody, List.getElem?_toArray] at here
    exact here
  refine ⟨rfl, type, method, Dump.declaringType_of_build built type method, ⟨_, _, bodied, analysed, rfl⟩,
    ⟨?_, fun k x here => index_of_decode decoded (listed here)⟩, ?_⟩
  · have body : (site.context m insts).method.body = some site.body := bodied
    rw [Unguarded.tracker, body]
    exact Unguarded.provenance_eq insts site.body.entries
  · intro k x here
    exact nonneg x (List.mem_of_getElem? (listed here))

/-- An instruction of a body stands at its index. -/
theorem getElem?_index {site : BodySite} {insts : List Instruction} (analysed : site.body.instructions? = some insts)
    {i : Instruction} (listed : i ∈ insts) : (site.context m insts).provenance.body[i.index]? = some i := by
  obtain ⟨raw, -, decoded⟩ := MethodBody.instructions?_eq_some_iff.1 analysed
  obtain ⟨k, here⟩ := List.getElem?_of_mem listed
  rw [BodySite.context, Provenance.body_ofBody, List.getElem?_toArray, index_of_decode decoded here]
  exact here

theorem attached_site (built : dump.build = .ok m) {site : BodySite} (placed : site ∈ m.bodySites) :
    ∀ e ∈ site.events m, e.Attached m := by
  intro e member
  rw [BodySite.events] at member
  cases analysed : site.body.instructions? with
  | none => simp [analysed] at member
  | some insts =>
    have context := attached_context built placed analysed
    simp only [analysed, Option.elim_some, Module.bodyEvents, List.mem_append, List.mem_singleton,
      List.mem_map] at member
    rcases member with (rfl | ⟨i, listed, rfl⟩) | rfl
    · exact context
    · exact ⟨context, getElem?_index analysed listed⟩
    · exact context

/-- **Events lead nowhere else.** -/
theorem attached_events (built : dump.build = .ok m) : ∀ e ∈ m.events, e.Attached m := by
  intro e member
  simp only [Module.events, List.mem_append, List.mem_singleton, List.mem_flatMap, List.mem_filter] at member
  rcases member with (rfl | ⟨t, ⟨type, own⟩, member⟩) | rfl
  · rfl
  · simp only [Module.typeEvents, List.mem_append, List.mem_map, List.mem_flatMap, List.mem_cons, List.not_mem_nil,
      or_false] at member
    rcases member with (((rfl | ⟨f, field, rfl⟩) | rfl) | ⟨x, method, member⟩) | (rfl | rfl)
    · exact ⟨rfl, type⟩
    · exact ⟨type, field⟩
    · exact ⟨rfl, type⟩
    · rw [Module.methodEvents] at member
      rcases List.mem_cons.1 member with rfl | member
      · exact ⟨type, method, Dump.declaringType_of_build built type method⟩
      · cases bodied : x.body with
        | none => simp [bodied] at member
        | some body =>
          rw [bodied] at member
          have placed : BodySite.mk t x body ∈ m.bodySites :=
            Module.mem_bodySites.2 ⟨type, by simpa using own, method, bodied⟩
          exact attached_site built placed e member
    · exact ⟨rfl, type⟩
    · exact ⟨rfl, type⟩
  · rfl

end Attached

namespace Unguarded

/-! ## Links -/

/-- The pointers from types to their modules and from the methods of types to these, as far as they are set. -/
structure Links where
  module : TypeDef → Option Module
  type : TypeDef → Method → Option TypeDef

namespace Links

def unset : Links := ⟨fun _ => none, fun _ _ => none⟩

def setModule (l : Links) (t : TypeDef) (m : Module) : Links :=
  { l with module := Function.update l.module t (some m) }

def setType (l : Links) (t : TypeDef) (x : Method) : Links :=
  { l with type := Function.update l.type t (Function.update (l.type t) x (some t)) }

/-- Goes through a type. -/
def indexType (m : Module) (l : Links) (t : TypeDef) : Links := t.methods.foldl (·.setType t ·) (l.setModule t m)

/-- Goes through a module and sets the links in it. -/
def index (l : Links) (m : Module) : Links := m.types.foldl (indexType m) l

end Links

/-- A method, with the name of its type as the link has it. -/
def reachMethod (l : Links) (t : TypeDef) (x : Method) : Except Text (TypeDef × Method) := do
  let type ← follow (l.type t x)
  return (type, { x with declaringType := type.fullName })

def reachContext (l : Links) (c : MethodContext) : Except Text MethodContext := do
  let module ← follow (l.module c.type)
  let (type, method) ← reachMethod l c.type c.method
  return { c with module, type, method }

/-- The event, with what it leads to by links. -/
def reach (l : Links) : Event → Except Text Event
  | .beginModule m => .ok (.beginModule m)
  | .endModule m => .ok (.endModule m)
  | .beginType _ t => do return .beginType (← follow (l.module t)) t
  | .endType _ t => do return .endType (← follow (l.module t)) t
  | .field t f => .ok (.field t f)
  | .beginMethods _ t => do return .beginMethods (← follow (l.module t)) t
  | .endMethods _ t => do return .endMethods (← follow (l.module t)) t
  | .method t x => do
    let (type, method) ← reachMethod l t x
    return .method type method
  | .beginMethod c => do return .beginMethod (← reachContext l c)
  | .endMethod c => do return .endMethod (← reachContext l c)
  | .visit c i => do return .visit (← reachContext l c) i

/-! ## Rules -/

/-- A step that may break off. -/
def attempt {State : Type} (s : State) : Except Text (State × List Emission) → Reaction State
  | .ok (next, emissions) => { state := next, emissions }
  | .error value => { state := s, fault := some value }

/-- The rule, which follows the links of an event first. -/
def linked (l : Links) (r : Rule) : Rule :=
  { r with
    react := fun s e =>
      match reach l e with
      | .ok e => r.react s e
      | .error value => { state := s, fault := some value } }

/-- The import of a native function is a pointer. -/
def dllImportExtension : Rule :=
  { Rule.dllImportExtension with
    react := fun s e => attempt s <|
      match e with
      | .method _ x =>
        if x.nativeImport.isNone then .ok (s, [])
        else do
          let imported ← follow x.nativeImport
          return (s,
            if imported.library.contains "." then
              [Rule.debugEntry "PO1002" ("library " ++ imported.library.quoted ++ " has an extension"),
                .report (.ofMethod "PO1002" x (-1) imported.library)]
            else [])
      | _ => .ok (s, []) }

/-- Are these the types of the parameters? They are compared one by one where there are as many. -/
def paramsAre (x : Method) (types : List Text) : Except Text Bool :=
  if x.params.length = types.length then
    types.zipIdx.allM fun p => do return (← fetch x.params.toArray p.2).type = p.1
  else .ok false

def serializationMethod (x : Method) : Except Text (Option Text) := do
  let serializes ← paramsAre x Rule.serializationParams
  return if x.name = ".ctor" && serializes then some "serialization constructor"
    else if x.name = "GetObjectData" && x.returns = voidType && serializes then some "GetObjectData"
    else none

/-- The parameters of a method are taken by index. -/
def serializableMethods : Rule :=
  { Rule.serializableMethods with
    react := fun s e =>
      match s, e with
      | ⟨false, false⟩, .beginMethod c => attempt s do
        match ← serializationMethod c.method with
        | none => return (s, [])
        | some what => return (⟨false, true⟩, [Rule.debugEntry "R1041" (what ++ " in " ++ c.type.fullName)])
      | s, e => Rule.serializableMethods.react s e }

/-- The rules of the analyser, with bare accesses and the given links. -/
def all (l : Links) : List Rule :=
  [.onMethods "C1013" "ArrayIndexOf" [.branchIf, .compare] Rule.everyMethod comparesIndexOf,
    .onMethods "C1021" "RecursiveEquality" [.call] Rule.isReferenceEquality callsItself,
    .onMethods "R1017" "ZeroSleep" [.call] Rule.everyMethod sleepsZero,
    .onMethods "PO1006" "PathCombine" [.call] Rule.everyMethod concatsPath,
    .onMethods "D1056" "PreferMonitor" [.newObject] Rule.everyMethod createsNamedLock,
    Rule.nativeMethods, dllImportExtension, Rule.unsealedAttribute, Rule.typedEnumerator, serializableMethods,
    Rule.readOnlyArray, .onMethods "MS1003" "LockThis" [.call] Rule.everyMethod locksThis, Rule.tooManyArgs,
    .onMethods "S1030" "HardcodedKey" [.call, .newObject] Rule.everyMethod passesKey].map (linked l)

/-! ## Links lead back -/

namespace Links

/-- The links of some types of a module lead to the module, and those of their methods to the types. -/
structure Lead (l : Links) (m : Module) (types : List TypeDef) : Prop where
  module : ∀ t ∈ types, l.module t = some m
  type : ∀ t ∈ types, ∀ x ∈ t.methods, l.type t x = some t

variable {l : Links} {m : Module} {t t' : TypeDef} {x y : Method}

theorem module_foldl_setType (methods : List Method) : (methods.foldl (·.setType t ·) l).module = l.module := by
  induction methods generalizing l with
  | nil => rfl
  | cons y methods ih => exact ih

/-- A link that is set stays so when others are set, or the same once more. -/
theorem type_setType (known : l.type t x = some t ∨ (t = t' ∧ x = y)) : (l.setType t' y).type t x = some t := by
  by_cases sameType : t = t'
  · subst sameType
    by_cases same : x = y
    · simp [setType, same]
    · simpa [setType, same] using known
  · simpa [setType, sameType] using known

theorem type_foldl_setType {methods : List Method} (known : l.type t x = some t ∨ (t = t' ∧ x ∈ methods)) :
    (methods.foldl (·.setType t' ·) l).type t x = some t := by
  induction methods generalizing l with
  | nil => simpa using known
  | cons y methods ih =>
    refine ih ?_
    rcases known with known | ⟨sameType, member⟩
    · exact .inl (type_setType (.inl known))
    · rcases List.mem_cons.1 member with same | later
      · exact .inl (type_setType (.inr ⟨sameType, same⟩))
      · exact .inr ⟨sameType, later⟩

/-- **One type.** Its links are set, and those set before stay. -/
theorem Lead.indexType {done : List TypeDef} (lead : l.Lead m done) (t : TypeDef) :
    (indexType m l t).Lead m (done ++ [t]) where
  module t' member := by
    rw [Links.indexType, module_foldl_setType]
    by_cases same : t' = t
    · simp [setModule, same]
    · have before : t' ∈ done := by simpa [same] using member
      simp [setModule, same, lead.module t' before]
  type t' member x method := by
    rcases List.mem_append.1 member with before | last
    · exact type_foldl_setType (.inl (lead.type t' before x method))
    · obtain rfl := List.mem_singleton.1 last
      exact type_foldl_setType (.inr ⟨rfl, method⟩)

/-- **A whole module.** Whatever was set before, the links in it are set. -/
theorem lead_index (l : Links) (m : Module) : (l.index m).Lead m m.types := by
  have run (types done : List TypeDef) (l : Links) (lead : l.Lead m done) :
      (types.foldl (Links.indexType m) l).Lead m (done ++ types) := by
    induction types generalizing done l with
    | nil => simpa using lead
    | cons t types ih => simpa using ih (done ++ [t]) _ (lead.indexType t)
  exact run m.types [] l ⟨by simp, by simp⟩

end Links

section Reach

variable {l : Links} {m : Module}

theorem reachMethod_eq (lead : l.Lead m m.types) {t : TypeDef} {x : Method} (type : t ∈ m.types)
    (method : x ∈ t.methods) (declared : x.declaringType = t.fullName) : reachMethod l t x = .ok (t, x) := by
  rw [reachMethod, lead.type t type x method, follow, demand, ok_bind, ← declared]
  rfl

theorem reachContext_eq (lead : l.Lead m m.types) {c : MethodContext} (attached : c.Attached m) :
    reachContext l c = .ok c := by
  obtain ⟨rfl, type, method, declared, -, -, -⟩ := attached
  rw [reachContext, lead.module _ type, reachMethod_eq lead type method declared]
  rfl

/-- On a module that has been gone through, the links of an event lead to what it is about. -/
theorem reach_eq (lead : l.Lead m m.types) {e : Event} (attached : e.Attached m) : reach l e = .ok e := by
  cases e with
  | beginModule | endModule | field => rfl
  | beginType | endType | beginMethods | endMethods =>
    obtain ⟨rfl, type⟩ := attached
    rw [reach, lead.module _ type]
    rfl
  | method t x =>
    rw [reach, reachMethod_eq lead attached.1 attached.2.1 attached.2.2]
    rfl
  | beginMethod c | endMethod c =>
    rw [reach, reachContext_eq lead attached]
    rfl
  | visit c i =>
    rw [reach, reachContext_eq lead attached.1]
    rfl

/-- Without that step a rule fails on the first type. -/
example (m : Module) (t : TypeDef) :
    ((linked .unset Rule.typedEnumerator).react () (.beginType m t)).fault = some "nil pointer" := rfl

end Reach

/-! ## Rules that answer alike -/

/-- The rule hears what the other hears and, on this module, answers alike without regard to the states of both. -/
structure Mirrors (m : Module) (r r' : Rule) : Prop where
  subscribes : ∀ k, r'.subscribes k = r.subscribes k
  alone : ∀ s s', LiveRule.alone ⟨r, s⟩ (m.events.filter (r.subscribes ·.kind)) =
    LiveRule.alone ⟨r', s'⟩ (m.events.filter (r.subscribes ·.kind))

/-- A rule with other reactions than before, but the same to the events that come. -/
theorem alone_congr (r : Rule) {react : r.State → Event → Reaction r.State} {events : List Event}
    (same : ∀ e ∈ events, ∀ s, react s e = r.react s e) (s : r.State) :
    LiveRule.alone ⟨{ r with react }, s⟩ events = LiveRule.alone ⟨r, s⟩ events := by
  induction events generalizing s with
  | nil => rfl
  | cons e rest ih =>
    have answer := same e List.mem_cons_self s
    have later := ih fun e member => same e (List.mem_cons_of_mem _ member)
    simp only [LiveRule.alone, LiveRule.hear, LiveRule.onward?, LiveRule.next, answer]
    split
    · rfl
    · simp only [Option.elim_some, later]

section Mirrors

variable {m : Module} {r r' : Rule}

/-- Reactions may be replaced where they are the same for the events of the module that the rule hears. -/
theorem Mirrors.congr (h : Mirrors m r r') {react : r'.State → Event → Reaction r'.State}
    (same : ∀ e ∈ m.events, r.subscribes e.kind = true → ∀ s, react s e = r'.react s e) :
    Mirrors m r { r' with react } where
  subscribes := h.subscribes
  alone s s' := by
    have heard : ∀ e ∈ m.events.filter (r.subscribes ·.kind), ∀ s, react s e = r'.react s e := by
      intro e member
      obtain ⟨listed, hears⟩ := List.mem_filter.1 member
      exact same e listed hears
    exact (h.alone s s').trans (alone_congr r' heard s').symm

theorem mirrors_self (restarts : r.StartsOver m.events) : Mirrors m r r where
  subscribes _ := rfl
  alone := restarts.alone_eq

theorem Mirrors.linked {l : Links} (h : Mirrors m r r') (lead : l.Lead m m.types)
    (attached : ∀ e ∈ m.events, e.Attached m) : Mirrors m r (linked l r') := by
  apply h.congr
  intro e member _ s
  simp only [reach_eq lead (attached e member)]

/-- Of an instruction that it hears of, a rule on methods learns the same by bare accesses. -/
theorem mirrors_onMethods (attached : ∀ e ∈ m.events, e.Attached m) {id name : Text} {kinds : List Kind}
    {watches : MethodContext → Bool} {bare : MethodContext → Instruction → Except Text (Option Rule.Finding)}
    {test : MethodContext → Instruction → Option Rule.Finding} (agrees : Agrees kinds bare test) :
    Mirrors m (.firstInMethod id name kinds watches test) (.onMethods id name kinds watches bare) := by
  refine (mirrors_self (Rule.startsOver_onMethods m id name kinds watches _)).congr ?_
  intro e member hears s
  cases e with
  | visit c i =>
    have known : i.kind ∈ kinds := by
      rw [← Rule.firstInMethod, Rule.subscribes_firstInMethod] at hears
      simpa [Rule.methodEvents, Event.kind] using hears
    have agreed := agrees c i (attached _ member).1.ready known
    simp only [Rule.onMethods, agreed]
  | _ => rfl

end Mirrors

/-- Only the order of events keeps a rule on methods from failing. -/
example (c : MethodContext) :
    (Rule.lockThis.react Rule.lockThis.start (.endMethod c)).fault = some "nil pointer" := rfl

/-! ## Imports and parameters -/

theorem react_dllImportExtension (s : Unit) (e : Event) :
    dllImportExtension.react s e = Rule.dllImportExtension.react s e := by
  cases e with
  | method t x =>
    simp only [dllImportExtension, Rule.dllImportExtension, Rule.stateless]
    cases x.nativeImport with
    | none => rfl
    | some imported => rfl
  | _ => rfl

theorem allM_types {params : List Param} {types : List Text} {k : Nat}
    (length : (params.drop k).length = types.length) :
    ((types.zipIdx k).allM fun p => do return (← fetch params.toArray p.2).type = p.1 : Except Text Bool) =
      .ok (decide ((params.drop k).map (·.type) = types)) := by
  induction types generalizing k with
  | nil =>
    rw [List.length_eq_zero_iff.1 length]
    rfl
  | cons type types ih =>
    have bound : k < params.length := by
      simp only [List.length_drop, List.length_cons] at length
      omega
    have here : params.toArray[k]? = some (params.get ⟨k, bound⟩) := by simp
    have later : (params.drop (k + 1)).length = types.length := by
      simp only [List.length_drop, List.length_cons] at length ⊢
      omega
    rw [List.zipIdx_cons, List.allM, fetch_of_getElem? here, ih later, List.drop_eq_getElem_cons bound, List.map_cons]
    simp only [List.get_eq_getElem, ok_bind, pure, Except.pure, List.cons.injEq]
    by_cases same : params[k].type = type <;> simp [same]

theorem paramsAre_eq (x : Method) (types : List Text) :
    paramsAre x types = .ok (decide (x.params.map (·.type) = types)) := by
  unfold paramsAre
  split
  case isTrue length => exact allM_types (k := 0) length
  case isFalse length =>
    have other : x.params.map (·.type) ≠ types := by
      rintro rfl
      exact length (List.length_map _).symm
    rw [decide_eq_false other]

theorem serializationMethod_eq (x : Method) : serializationMethod x = .ok (Rule.serializationMethod? x) := by
  rw [serializationMethod, paramsAre_eq, ok_bind]
  rfl

theorem react_serializableMethods (s : Rule.SerializationState) (e : Event) :
    serializableMethods.react s e = Rule.serializableMethods.react s e := by
  obtain ⟨isSerializable, hasMethod⟩ := s
  cases e with
  | beginMethod c =>
    cases isSerializable <;> cases hasMethod <;> try rfl
    simp only [serializableMethods, serializationMethod_eq, ok_bind, Rule.serializableMethods]
    cases Rule.serializationMethod? c.method <;> rfl
  | _ => cases isSerializable <;> cases hasMethod <;> rfl

/-! ## All rules -/

/-- **Bare accesses change no answer.** -/
theorem mirrors_all {dump : Dump} {m : Module} (built : dump.build = .ok m) {l : Links} (lead : l.Lead m m.types) :
    ∀ p ∈ Rule.all.zip (all l), Mirrors m p.1 p.2 := by
  have attached := attached_events built
  have restarts := Rule.startsOver_all m
  simp only [Rule.all, List.forall_mem_cons, List.not_mem_nil, false_imp_iff, implies_true, and_true] at restarts
  obtain ⟨-, -, -, -, -, native, library, sealing, enumerator, serialization, arrays, -, args, -⟩ := restarts
  have methods {id name : Text} {kinds : List Kind} {watches : MethodContext → Bool}
      {bare : MethodContext → Instruction → Except Text (Option Rule.Finding)}
      {test : MethodContext → Instruction → Option Rule.Finding} (agrees : Agrees kinds bare test) :
      Mirrors m (.firstInMethod id name kinds watches test) (linked l (.onMethods id name kinds watches bare)) :=
    (mirrors_onMethods attached agrees).linked lead attached
  have plain {r : Rule} (restarts : r.StartsOver m.events) : Mirrors m r (linked l r) :=
    (mirrors_self restarts).linked lead attached
  have imports : Mirrors m Rule.dllImportExtension dllImportExtension :=
    (mirrors_self library).congr fun e _ _ s => react_dllImportExtension s e
  have parameters : Mirrors m Rule.serializableMethods serializableMethods :=
    (mirrors_self serialization).congr fun e _ _ s => react_serializableMethods s e
  simp only [Rule.all, all, List.map_cons, List.map_nil, List.zip_cons_cons, List.zip_nil_right, List.forall_mem_cons,
    List.not_mem_nil, false_imp_iff, implies_true, and_true]
  exact ⟨methods agrees_comparesIndexOf, methods agrees_callsItself, methods agrees_sleepsZero,
    methods agrees_concatsPath, methods agrees_createsNamedLock, plain native, imports.linked lead attached,
    plain sealing, plain enumerator, parameters.linked lead attached, plain arrays, methods agrees_locksThis,
    plain args, methods agrees_passesKey⟩

end Unguarded

/-- On no module does a rule of the analyser fail, whatever it was doing before. -/
theorem Rule.quiet_all (m : Module) :
    ∀ r ∈ all, ∀ s, LiveRule.Quiet ⟨r, s⟩ (m.events.filter (r.subscribes ·.kind)) := by
  have methods (id name : Text) (kinds : List Kind) (watches : MethodContext → Bool)
      (test : MethodContext → Instruction → Option Finding) (s : Scope) :
      LiveRule.Quiet ⟨firstInMethod id name kinds watches test, s⟩
        (m.events.filter ((firstInMethod id name kinds watches test).subscribes ·.kind)) :=
    (reports_module id name kinds watches test rfl m).1
  have calm {r : Rule} (never : ∀ s e, (r.react s e).fault = none) (s : r.State) :
      LiveRule.Quiet ⟨r, s⟩ (m.events.filter (r.subscribes ·.kind)) := LiveRule.quiet_of_calm never _
  have withoutState (id name : Text) (requests : List EventKind) (react : Event → List Emission) :
      Dispatcher.Calm (stateless id name requests react) := fun _ _ => rfl
  have arrays : Dispatcher.Calm readOnlyArray := by
    intro s e
    cases e <;> rfl
  have serialization : Dispatcher.Calm serializableMethods := by
    rintro ⟨isSerializable, hasMethod⟩ e
    cases isSerializable <;> cases hasMethod <;> cases e <;> try rfl
    simp only [serializableMethods]
    split <;> rfl
  simp only [all, List.forall_mem_cons, List.not_mem_nil, false_imp_iff, implies_true, and_true]
  exact ⟨methods _ _ _ _ _, methods _ _ _ _ _, methods _ _ _ _ _, methods _ _ _ _ _, methods _ _ _ _ _,
    calm (withoutState _ _ _ _), calm (withoutState _ _ _ _), calm (withoutState _ _ _ _), calm (withoutState _ _ _ _),
    calm serialization, calm arrays, methods _ _ _ _ _, calm (withoutState _ _ _ _), methods _ _ _ _ _⟩

namespace Dispatcher

/-- **No rule fails on a loaded module.** Take any of the rules of the analyser, in any states they have come to, and
beside them the same choice with bare accesses and links that are set by going through the module, whatever they were
before. In a pass over a loaded module none of the former fails; the latter report the same, so that none of their
accesses goes wrong; and each event leads to parts of the module only. -/
theorem run_faultless {dump : Dump} {m : Module} (built : dump.build = .ok m) (links : Unguarded.Links)
    {selection : List (Rule × Rule)} (chosen : ∀ p ∈ selection, p ∈ Rule.all.zip (Unguarded.all (links.index m)))
    {d d' : Dispatcher} (holds : d.Holds (selection.map (·.1))) (holds' : d'.Holds (selection.map (·.2))) :
    (d.run m).2.stats.faults = [] ∧ (d'.run m).2.stats.faults = [] ∧ (d'.run m).2 = (d.run m).2 ∧
      ∀ e ∈ m.events, e.Attached m := by
  have mirrors (p : Rule × Rule) (member : p ∈ selection) : Unguarded.Mirrors m p.1 p.2 :=
    Unguarded.mirrors_all built (links.lead_index m) p (chosen p member)
  have same : (d.run m).2 = (d'.run m).2 :=
    holds.report_eq_of_pairs holds' (fun p member => (mirrors p member).subscribes)
      fun p member => (mirrors p member).alone
  have faultless : (d.run m).2.stats.faults = [] := by
    refine holds.faults_eq_nil fun place live here => ?_
    obtain ⟨p, member, rule⟩ := List.mem_map.1 (List.mem_of_getElem? (holds.rule_eq here))
    exact Rule.quiet_all m live.rule (rule ▸ (List.of_mem_zip (chosen p member)).1) live.state
  exact ⟨faultless, same ▸ faultless, same.symm, attached_events built⟩

/-- A method whose first instructions ask for what is before them and for arguments that are not there, one
that sleeps for no time, and a native function. -/
def brink : Dump :=
  let enter : MethodRef := { declaringType := "System.Threading.Monitor", name := "Enter" }
  let concat : MethodRef :=
    { declaringType := "System.String", name := "Concat", returnType := "System.String",
      params := ["System.String", "System.String"] }
  let sleep : MethodRef :=
    { declaringType := "System.Threading.Thread", name := "Sleep", params := ["System.Int32"] }
  let edge : Dump.Method :=
    { name := "Edge"
      lines := some [⟨0, "cgt", .null⟩, ⟨2, "call", .text "0x1"⟩, ⟨7, "call", .text "0x2"⟩, ⟨12, "ret", .null⟩] }
  let nap : Dump.Method :=
    { name := "Nap", lines := some [⟨0, "ldc.i4.0", .null⟩, ⟨1, "call", .text "0x3"⟩, ⟨6, "ret", .null⟩] }
  let beep : Dump.Method := { name := "Beep", nativeImport := some { library := "user32.dll", entry := "Beep" } }
  { types := some [{ name := "C", methods := [edge, nap, beep] }]
    tokens :=
      { methods := [(Text.ofString "0x1", enter), (Text.ofString "0x2", concat), (Text.ofString "0x3", sleep)] } }

/-- The first eight rules, and with bare accesses the same. -/
theorem run_faultless_brink :
    ∃ m, brink.build = .ok m ∧
      ((ofRules (Rule.all.take 8)).1.run m).2.stats.faults = [] ∧
      ((ofRules ((Unguarded.all (Unguarded.Links.unset.index m)).take 8)).1.run m).2.stats.faults = [] ∧
      ((ofRules ((Unguarded.all (Unguarded.Links.unset.index m)).take 8)).1.run m).2.violations =
        [⟨"R1017", ⟨.method, "System.Void C::Nap()"⟩, 1, []⟩, ⟨"D1020", ⟨.method, "System.Void C::Beep()"⟩, -1, []⟩,
          ⟨"PO1002", ⟨.method, "System.Void C::Beep()"⟩, -1, "user32.dll"⟩] := by
  have report : brink.build.toOption.map (fun m => ((ofRules (Rule.all.take 8)).1.run m).2.violations) =
      some [⟨"R1017", ⟨.method, "System.Void C::Nap()"⟩, 1, []⟩, ⟨"D1020", ⟨.method, "System.Void C::Beep()"⟩, -1, []⟩,
        ⟨"PO1002", ⟨.method, "System.Void C::Beep()"⟩, -1, "user32.dll"⟩] := by
    decide +kernel
  have holds (links : Unguarded.Links) : (ofRules (Rule.all.take 8)).1.Holds
      (((Rule.all.zip (Unguarded.all links)).take 8).map (·.1)) := holds_ofRules _
  have holds' (links : Unguarded.Links) : (ofRules ((Unguarded.all links).take 8)).1.Holds
      (((Rule.all.zip (Unguarded.all links)).take 8).map (·.2)) := holds_ofRules _
  cases built : brink.build with
  | error e => simp [built, Except.toOption] at report
  | ok m =>
    obtain ⟨faultless, faultless', same, -⟩ :=
      run_faultless built .unset (fun _ => List.mem_of_mem_take) (holds _) (holds' _)
    rw [built] at report
    exact ⟨m, rfl, faultless, faultless', (congrArg Report.violations same).trans (Option.some.inj report)⟩

end Dispatcher

end CilAudit
