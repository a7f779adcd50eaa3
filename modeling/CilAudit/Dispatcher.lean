import CilAudit.Instruction.Listing
import CilAudit.Rule

/-!
# The dispatcher

Rules subscribe to kinds of event, and a pass over a module delivers each event to its
subscribers in the order of their subscriptions. What happens in a pass, rules apart, is the
schedule of the module. A rule that fails gets no further event of that pass.
-/

set_option autoImplicit false

namespace CilAudit

inductive RegistrationCause where
  | unknownEvent
  | notHandled
  | twice
  deriving DecidableEq, Repr

def RegistrationCause.message : RegistrationCause → Text
  | unknownEvent => "unknown event"
  | notHandled => "handler not implemented"
  | twice => "registered twice"

/-- A subscription that was refused. -/
structure RegistrationError where
  check : Text
  event : EventKind
  cause : RegistrationCause
  deriving DecidableEq, Repr

def RegistrationError.message (e : RegistrationError) : Text :=
  "engine: rule " ++ e.check ++ ": register " ++ e.event.name ++ ": " ++ e.cause.message

/-- The failure of a rule in a pass. -/
structure Fault where
  check : Text
  event : EventKind
  entity : Entity
  value : Text
  deriving DecidableEq, Repr

def Fault.message (f : Fault) : Text :=
  "engine: rule " ++ f.check ++ " faulted in " ++ f.event.name ++ " on " ++ f.entity.kind.name
    ++ " " ++ f.entity.name ++ ": " ++ f.value

/-- What a pass counts on its way. -/
structure Counts where
  types : Nat := 0
  methods : Nat := 0
  instructions : Nat := 0
  /-- Methods whose body cannot be read or decoded. -/
  skipped : Nat := 0
  deriving DecidableEq, Repr

/-- The counts of a pass, and the failures in it. -/
structure Stats extends Counts where
  faults : List Fault
  deriving DecidableEq, Repr

/-- What a pass comes to that it counts. -/
inductive Counted where
  | type
  | method
  | instructions (number : Nat)
  | skipped

def Counts.add (c : Counts) : Counted → Counts
  | .type => { c with types := c.types + 1 }
  | .method => { c with methods := c.methods + 1 }
  | .instructions number => { c with instructions := c.instructions + number }
  | .skipped => { c with skipped := c.skipped + 1 }

/-- One step of a pass, before rules come in. -/
inductive Occurrence where
  | count (what : Counted)
  | announce (name : Text)
  | log (entry : LogEntry)
  | deliver (entity : Entity) (event : Event)

namespace Module

def engineLogger : String := "cilscan.engine"

/-- What happens for a method: its own event and, if it has a body that can be analysed, the
    events of the instructions between those of its begin and end. -/
def methodSchedule (m : Module) (t : TypeDef) (method : Method) : List Occurrence :=
  let fullName := method.fullName
  let deliver := Occurrence.deliver ⟨.method, fullName⟩
  .count .method :: deliver (.method t method) ::
    match method.body with
    | none => []
    | some body =>
      .announce fullName ::
        match body.decoded with
        | .error cause =>
          [.count .skipped, .log ⟨.warning, engineLogger, skippingMessage fullName cause⟩]
        | .ok instructions =>
          let c : MethodContext := ⟨m, t, method, .ofBody instructions body.entries⟩
          .count (.instructions instructions.length) ::
            .log ⟨.debug, engineLogger, fullName ++ "\n" ++ listing [] instructions⟩ ::
              deliver (.beginMethod c) ::
                instructions.map (fun i => deliver (.visit c i)) ++ [deliver (.endMethod c)]

def typeSchedule (m : Module) (t : TypeDef) : List Occurrence :=
  let deliver := Occurrence.deliver ⟨.type, t.fullName⟩
  .count .type :: .announce t.fullName :: deliver (.beginType m t) ::
    t.fields.map (fun f => deliver (.field t f)) ++ [deliver (.beginMethods m t)] ++
      t.methods.flatMap (m.methodSchedule t) ++
        [deliver (.endMethods m t), deliver (.endType m t)]

/-- All that happens in a pass over the module. Types from elsewhere are passed over. -/
def schedule (m : Module) : List Occurrence :=
  let deliver := Occurrence.deliver ⟨.module, m.name⟩
  deliver (.beginModule m) :: m.ownTypes.flatMap m.typeSchedule ++ [deliver (.endModule m)]

end Module

/-- Rules, told apart by their places in the list, and their subscriptions in order. -/
structure Dispatcher where
  rules : List LiveRule
  subscriptions : List (Nat × EventKind)

namespace Dispatcher

/-- The rules without a subscription. -/
def idle (rules : List Rule) : Dispatcher := ⟨rules.map Rule.live, []⟩

/-- Subscribes the rule at a place to a kind of event. -/
def register (d : Dispatcher) (place : Nat) (kind : EventKind) :
    Except RegistrationError Dispatcher :=
  match d.rules[place]? with
  | none => .ok d
  | some live =>
    if kind = .unknown then .error ⟨live.rule.id, kind, .unknownEvent⟩
    else if !live.rule.handles kind then .error ⟨live.rule.id, kind, .notHandled⟩
    else if (place, kind) ∈ d.subscriptions then .error ⟨live.rule.id, kind, .twice⟩
    else .ok { d with subscriptions := d.subscriptions ++ [(place, kind)] }

/-- Subscribes the rule at a place to the kinds, passing over the refused ones. -/
def registerAll (d : Dispatcher) (place : Nat) :
    List EventKind → Dispatcher × List RegistrationError
  | [] => (d, [])
  | kind :: kinds =>
    match d.register place kind with
    | .ok next => next.registerAll place kinds
    | .error e =>
      let (last, errors) := d.registerAll place kinds
      (last, e :: errors)

/-- Subscribes the rules at the places, each to all it asks for. -/
def enrol (d : Dispatcher) : List Nat → Dispatcher × List RegistrationError
  | [] => (d, [])
  | place :: places =>
    let requests := (d.rules[place]?.map (·.rule.requests)).getD []
    let (next, errors) := d.registerAll place requests
    let (last, more) := next.enrol places
    (last, errors ++ more)

/-- Every rule with its subscriptions. -/
def ofRules (rules : List Rule) : Dispatcher × List RegistrationError :=
  (idle rules).enrol (List.range rules.length)

/-- The places of the rules that have a subscription, by their first. -/
def active (d : Dispatcher) : List Nat := (d.subscriptions.map (·.1)).eraseDups

/-- The rules that have a subscription. -/
def activeRules (d : Dispatcher) : List Rule :=
  d.active.filterMap fun place => d.rules[place]?.map (·.rule)

/-- The places subscribed to a kind, in order. -/
def subscribers (d : Dispatcher) (kind : EventKind) : List Nat :=
  (d.subscriptions.filter (·.2 = kind)).map (·.1)

/-- A pass on its way. -/
structure Pass where
  rules : List LiveRule
  /-- The places of the rules that failed. -/
  failed : List Nat
  faults : List Fault
  counts : Counts
  emissions : List Emission

namespace Pass

def emit (p : Pass) (es : List Emission) : Pass := { p with emissions := p.emissions ++ es }

/-- One event reaches the rule at a place. -/
def deliver (entity : Entity) (event : Event) (p : Pass) (place : Nat) : Pass :=
  if place ∈ p.failed then p
  else
    match p.rules[place]? with
    | none => p
    | some live =>
      let r := live.rule.react live.state event
      let next :=
        { p with rules := p.rules.set place ⟨live.rule, r.state⟩ }.emit r.emissions
      match r.fault with
      | none => next
      | some value =>
        let fault : Fault := ⟨live.rule.id, event.kind, entity, value⟩
        { next with failed := place :: next.failed, faults := next.faults ++ [fault] }.emit
          [.log ⟨.error, Module.engineLogger,
            fault.message ++ "; rule disabled for the rest of the module"⟩]

def occur (d : Dispatcher) (p : Pass) : Occurrence → Pass
  | .count what => { p with counts := p.counts.add what }
  | .announce name => p.emit [.announce name]
  | .log entry => p.emit [.log entry]
  | .deliver entity event => (d.subscribers event.kind).foldl (deliver entity event) p

end Pass

/-- What a pass ends with, the rules' states apart. -/
structure Report where
  stats : Stats
  emissions : List Emission

namespace Report

def violations (r : Report) : List Violation := r.emissions.filterMap Emission.violation?

def log (r : Report) : Log := r.emissions.filterMap Emission.logEntry?

def announced (r : Report) : List Text := r.emissions.filterMap Emission.announced?

end Report

def summary (m : Module) (s : Stats) : Text :=
  m.name ++ ": " ++ Text.ofNat s.types ++ " types, " ++ Text.ofNat s.methods ++ " methods, "
    ++ Text.ofNat s.instructions ++ " instructions, " ++ Text.ofNat s.skipped ++ " skipped, "
    ++ Text.ofNat s.faults.length ++ " faults"

/-- A pass over a module. The rules keep their states for the next one. -/
def run (d : Dispatcher) (m : Module) : Dispatcher × Report :=
  let last := m.schedule.foldl (Pass.occur d) ⟨d.rules, [], [], {}, []⟩
  let stats : Stats := { last.counts with faults := last.faults }
  ({ d with rules := last.rules },
    ⟨stats, last.emissions ++ [.log ⟨.info, Module.engineLogger, summary m stats⟩]⟩)

end Dispatcher

end CilAudit
