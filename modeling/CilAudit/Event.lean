import CilAudit.Module.Decoded
import CilAudit.Provenance

/-!
# Events

A pass over a module as rules see it: one event for each thing met, in the order of the
module. An event has a kind, by which rules subscribe to it.
-/

set_option autoImplicit false

namespace CilAudit

/-- What a finding is attached to. -/
inductive EntityKind where
  | module
  | type
  | method
  | unknown
  deriving DecidableEq, Repr

namespace EntityKind

def name : EntityKind → Text
  | module => "module"
  | type => "type"
  | method => "method"
  | unknown => "?"

/-- The kind with a number. -/
def ofNumber : Nat → EntityKind
  | 0 => module
  | 1 => type
  | 2 => method
  | _ => unknown

/-- The kind with a name; every name that is not one of a type or method stands for a module. -/
def ofName (t : Text) : EntityKind :=
  if t = type.name then type else if t = method.name then method else module

end EntityKind

structure Entity where
  kind : EntityKind
  name : Text
  deriving DecidableEq, Repr

/-- A method with a decoded body, as rules see it. -/
structure MethodContext where
  module : Module
  type : TypeDef
  method : Method
  provenance : Provenance

namespace MethodContext

/-- The instruction `distance` places before index `i`. -/
def back? (c : MethodContext) (i distance : Nat) : Option Instruction :=
  if distance ≤ i then c.provenance.body[i - distance]? else none

def producer? (c : MethodContext) (consumer arg : Nat) : Option Instruction :=
  (c.provenance.producer? consumer arg).bind (c.provenance.body[·]?)

def value? (c : MethodContext) (consumer arg : Nat) : Option Instruction :=
  (c.provenance.value? consumer arg).bind (c.provenance.body[·]?)

end MethodContext

inductive Event where
  | beginModule (m : Module)
  | endModule (m : Module)
  | beginType (m : Module) (t : TypeDef)
  | endType (m : Module) (t : TypeDef)
  | field (t : TypeDef) (f : Field)
  | beginMethods (m : Module) (t : TypeDef)
  | endMethods (m : Module) (t : TypeDef)
  | method (t : TypeDef) (method : Method)
  | beginMethod (c : MethodContext)
  | endMethod (c : MethodContext)
  | visit (c : MethodContext) (i : Instruction)

/-- The kinds of event; `unknown` is what a number beyond the others stands for, and nothing
    ever happens under it. -/
inductive EventKind where
  | beginModule
  | endModule
  | beginType
  | endType
  | field
  | beginMethods
  | endMethods
  | method
  | beginMethod
  | endMethod
  | visit (kind : Kind)
  | unknown
  deriving DecidableEq, Repr

namespace EventKind

/-- The known kinds in the order of their numbers. -/
def all : List EventKind :=
  [beginModule, endModule, beginType, endType, field, beginMethods, endMethods, method,
    beginMethod, endMethod] ++ Kind.all.map visit

/-- The kind with a number. -/
def ofNumber (n : Nat) : EventKind := all[n]?.getD unknown

def name : EventKind → Text
  | beginModule => "BeginModule"
  | endModule => "EndModule"
  | beginType => "BeginType"
  | endType => "EndType"
  | field => "Field"
  | beginMethods => "BeginMethods"
  | endMethods => "EndMethods"
  | method => "Method"
  | beginMethod => "BeginMethod"
  | endMethod => "EndMethod"
  | visit kind => Text.ofString "Visit" ++ Text.ofString kind.name
  | unknown => "Event(?)"

end EventKind

def Event.kind : Event → EventKind
  | beginModule _ => .beginModule
  | endModule _ => .endModule
  | beginType .. => .beginType
  | endType .. => .endType
  | field .. => .field
  | beginMethods .. => .beginMethods
  | endMethods .. => .endMethods
  | method .. => .method
  | beginMethod _ => .beginMethod
  | endMethod _ => .endMethod
  | visit _ i => .visit i.kind

end CilAudit
