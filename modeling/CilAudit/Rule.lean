import CilAudit.Log
import CilAudit.Violation

/-!
# Rules

A rule is a state of its own and a step on events. A step may report findings and write log
entries; it may also fail, and its effects up to the failure stand.
-/

set_option autoImplicit false

namespace CilAudit

/-- What a pass gives off, in order. -/
inductive Emission where
  | report (v : Violation)
  | log (entry : LogEntry)
  /-- A unit of work is about to start. -/
  | announce (name : Text)
  deriving DecidableEq, Repr

namespace Emission

def violation? : Emission → Option Violation
  | report v => some v
  | _ => none

def logEntry? : Emission → Option LogEntry
  | log entry => some entry
  | _ => none

def announced? : Emission → Option Text
  | announce name => some name
  | _ => none

end Emission

/-- The outcome of a step: the next state, what it gave off, and the value it failed with. -/
structure Reaction (State : Type) where
  state : State
  emissions : List Emission := []
  fault : Option Text := none

structure Rule where
  id : Text
  name : Text
  State : Type
  start : State
  /-- The kinds of event the rule can react to. -/
  handles : EventKind → Bool
  /-- The kinds it asks for, in order. -/
  requests : List EventKind
  react : State → Event → Reaction State

/-- A rule with its present state. -/
structure LiveRule where
  rule : Rule
  state : rule.State

/-- A rule at its start. -/
def Rule.live (r : Rule) : LiveRule := ⟨r, r.start⟩

namespace Rule

def logger : String := "cilscan.rules"

/-- A debug entry of a rule. -/
def debugEntry (id what : Text) : Emission := .log ⟨.debug, logger, id ++ ": " ++ what⟩

/-- A rule without memory. -/
def stateless (id name : Text) (requests : List EventKind) (react : Event → List Emission) :
    Rule where
  id := id
  name := name
  State := Unit
  start := ()
  handles kind := requests.contains kind
  requests := requests
  react _ event := { state := (), emissions := react event }

/-- An offending instruction: what it does, and the detail for the report. -/
structure Finding where
  what : Text
  detail : Text

/-- The begin of a method, its instructions of the given kinds, and its end. -/
def methodEvents (kinds : List Kind) : List EventKind :=
  [.beginMethod] ++ kinds.map .visit ++ [.endMethod]

/-- What a rule on methods keeps of the one under way: its context, whether the rule looks at it at
    all, and the offset of the instruction that offends with the detail for the report. As long as
    the offset is below zero none has been found. -/
structure Scope where
  context : Option MethodContext
  isWatched : Bool
  offset : Int
  detail : Text

/-- What a step fails with that follows a pointer that is not set. -/
def nilPointer : Text := "nil pointer"

/-- A rule that reports the first offending instruction of each method, when the method ends.
    It looks at instructions of the given kinds, in the methods that it watches. The test may fail,
    and then so does the rule. No method is known before the first has begun. -/
def onMethods (id name : Text) (kinds : List Kind) (watches : MethodContext → Bool)
    (offends : MethodContext → Instruction → Except Text (Option Finding)) : Rule where
  id := id
  name := name
  State := Scope
  start := ⟨none, false, 0, []⟩
  handles kind := (methodEvents kinds).contains kind
  requests := methodEvents kinds
  react
    | _, .beginMethod c => { state := ⟨some c, watches c, -1, []⟩ }
    | s, .visit c i =>
      if !s.isWatched || 0 ≤ s.offset then { state := s }
      else
        match offends c i with
        | .error value => { state := s, fault := some value }
        | .ok none => { state := s }
        | .ok (some f) =>
          let found := { s with offset := i.offset, detail := f.detail }
          match s.context with
          | none => { state := found, fault := some nilPointer }
          | some under =>
            { state := found
              emissions :=
                [debugEntry id
                  (f.what ++ " at " ++ offsetLabel i.offset ++ " in " ++ under.method.fullName)] }
    | s, .endMethod _ =>
      if 0 ≤ s.offset then
        match s.context with
        | none => { state := s, fault := some nilPointer }
        | some under =>
          { state := s, emissions := [.report (.ofMethod id under.method s.offset s.detail)] }
      else { state := s }
    | s, _ => { state := s }

/-- The same with a test that does not fail. -/
def firstInMethod (id name : Text) (kinds : List Kind) (watches : MethodContext → Bool)
    (offends : MethodContext → Instruction → Option Finding) : Rule :=
  onMethods id name kinds watches fun c i => .ok (offends c i)

/-- What most rules on methods watch. -/
def everyMethod (_ : MethodContext) : Bool := true

end Rule

end CilAudit
