import CilAudit.BlockGraph
import CilAudit.Log
import CilAudit.Module.Decoded
import CilAudit.Signal.Graph
import CilAudit.Text.Quoted

/-!
# Call graphs

The bodies of a module that can be analysed, who calls whom in them, and their block graphs
with the calls and literals each block holds.
-/

set_option autoImplicit false

namespace CilAudit

/-- A method with its decoded body. -/
structure AnalysedMethod where
  name : Text
  /-- The full name of the declaring type. -/
  owner : Text
  instructions : List Instruction
  entries : List Int
  deriving Repr

/-- What the collection of the bodies of a module has come to. -/
structure Collected where
  /-- The methods that can be analysed, in order. -/
  methods : List AnalysedMethod := []
  /-- What is said of those that cannot, one entry for each. -/
  skipped : Log := []
  deriving Repr

/-- Takes in one method of a type. A method without a body leaves nothing. -/
def Collected.add (c : Collected) (t : TypeDef) (method : Method) : Collected :=
  match method.body with
  | none => c
  | some body =>
    match body.decoded with
    | .ok instructions =>
      { c with methods := c.methods ++ [⟨method.fullName, t.fullName, instructions, body.entries⟩] }
    | .error cause =>
      { c with skipped := c.skipped ++
          [⟨.warning, "cilscan.callgraph", skippingMessage method.fullName cause⟩] }

namespace Module

/-- Collects the bodies of the module. Types from elsewhere are passed over. -/
def collect (m : Module) : Collected :=
  m.types.foldl (fun c t => if t.isExternal then c else t.methods.foldl (·.add t ·) c) {}

/-- The methods that can be analysed, in order. -/
def analysed (m : Module) : List AnalysedMethod := m.collect.methods

/-- What is said of the methods that cannot, one entry for each. -/
def skippedLog (m : Module) : Log := m.collect.skipped

end Module

/-- Methods by name, and an edge for each pair of caller and callee. -/
structure CallGraph where
  nodes : List Text
  edges : List (Text × Text)
  deriving DecidableEq, Repr

namespace AnalysedMethod

/-- The full names of the methods it calls or constructs with, in stream order. -/
def callees (f : AnalysedMethod) : List Text :=
  f.instructions.filterMap fun i => i.callee?.map MethodRef.toText

/-- Its string literals, in stream order. -/
def literals (f : AnalysedMethod) : List Signal.Literal :=
  f.instructions.filterMap fun i =>
    match i.action with
    | .loadString value => some ⟨f.name, i.offset, value⟩
    | _ => none

end AnalysedMethod

/-- Each node and each edge once, where it first occurs. -/
def CallGraph.ofMethods (methods : List AnalysedMethod) : CallGraph where
  nodes := (methods.map (·.name)).eraseDups
  edges := (methods.flatMap fun f => f.callees.map fun callee => (f.name, callee)).eraseDups

namespace Signal

def membersOf (methods : List AnalysedMethod) : List Member :=
  methods.map fun f => ⟨f.name, f.owner, f.instructions.length⟩

def callsOf (methods : List AnalysedMethod) : List Call :=
  methods.flatMap fun f => f.callees.map fun callee => ⟨f.name, callee⟩

def literalsOf (methods : List AnalysedMethod) : List Literal :=
  methods.flatMap AnalysedMethod.literals

end Signal

/-- A call or a literal, at the index of its instruction. -/
structure CallSite where
  index : Nat
  label : Text
  deriving DecidableEq, Repr

/-- A block with the calls and literals in it. -/
structure SiteBlock where
  id : Nat
  start : Nat
  stop : Nat
  isTerm : Bool
  succs : List Edge
  sites : List CallSite
  deriving DecidableEq, Repr

structure SiteGraph where
  name : Text
  blocks : List SiteBlock
  deriving DecidableEq, Repr

namespace SiteGraph

/-- A literal as it stands in a graph: long ones are cut. -/
def literalLabel (t : Text) : Text :=
  Text.quoted (if t.length > 50 then t.take 47 ++ "..." else t)

/-- The label of a call or literal. -/
def label? (i : Instruction) : Option Text :=
  match i.action with
  | .loadString value => some (literalLabel value)
  | _ => i.callee?.map MethodRef.toText

def sitesIn (body : Array Instruction) (start stop : Nat) : List CallSite :=
  (List.range' start (stop - start)).filterMap fun index =>
    (body[index]?.bind label?).map fun label => ⟨index, label⟩

/-- The blocks of a method, each with its calls and literals. -/
def ofMethod (f : AnalysedMethod) : SiteGraph :=
  let g := BlockGraph.ofBody f.name f.instructions f.entries
  ⟨f.name, g.blocks.toList.map fun b =>
    ⟨b.id, b.start, b.stop, b.isTerm, b.succs, sitesIn g.body b.start b.stop⟩⟩

/-- Is the call worth a mention? Base constructors, compiler helpers and accessors are not. -/
def isInteresting (r : MethodRef) : Bool :=
  r.declaringType ≠ "System.Object"
    && !r.declaringType.startsWith "System.Runtime.CompilerServices."
    && !r.name.startsWith "get_" && !r.name.startsWith "set_"

def summaryLabel? (i : Instruction) : Option Text :=
  match i.callee? with
  | some r => if isInteresting r then some r.toText else none
  | none => label? i

/-- The interesting calls and the literals of a method, each once, in a single block. -/
def summary (f : AnalysedMethod) : SiteGraph :=
  let labels := (f.instructions.filterMap summaryLabel?).eraseDups
  let sites := labels.zipIdx.map fun (label, n) => CallSite.mk n label
  ⟨f.name, if sites.isEmpty then [] else [⟨0, 0, 1, true, [], sites⟩]⟩

end SiteGraph

end CilAudit
