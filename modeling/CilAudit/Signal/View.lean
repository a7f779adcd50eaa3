import CilAudit.Signal.Graph

/-!
# Signal views

The part of a signal graph that is drawn: the shortest call paths that lead from entry points
to the signal methods of interest. Methods that only pass a call on are folded away, and the
targets carry their literals as leaves.
-/

set_option autoImplicit false

namespace CilAudit

open Signal

namespace SignalGraph

/-- Is the method called by another one? -/
def isCalled (g : SignalGraph) (name : Text) : Bool :=
  g.calls.any fun c => c.callee = name && c.callee ≠ [] && c.caller ≠ c.callee

/-- The other methods it calls, in the order of the calls. -/
def calleesOf (g : SignalGraph) (name : Text) : List Text :=
  (g.calls.filter fun c => c.caller = name && c.callee ≠ [] && c.caller ≠ c.callee).map (·.callee)

/-- The method with a name; of several the last. -/
def method? (g : SignalGraph) (name : Text) : Option SignalMethod :=
  g.methods.reverse.find? (·.name = name)

/-- The signal methods worth a path: those above low severity or, if there are none, all. -/
def worthy (g : SignalGraph) : List SignalMethod :=
  let signals := g.methods.filter (·.role = .signal)
  let severe := signals.filter (·.severity ≠ some .low)
  if severe.isEmpty then signals else severe

/-- The names of the methods worth a path. -/
def targets (g : SignalGraph) : List Text := (g.worthy.map (·.name)).eraseDups

def isTarget (g : SignalGraph) (name : Text) : Bool := g.worthy.any (·.name = name)

/-- The methods that nothing else calls. -/
def roots (g : SignalGraph) : List Text :=
  ((g.methods.filter (!g.isCalled ·.name)).map (·.name)).eraseDups

end SignalGraph

namespace Signal

/-- A call path from a root: its last method and those before it, nearest first. -/
structure Trail where
  last : Text
  before : List Text
  deriving DecidableEq, Repr

/-- The calls between neighbours of a path that is given from its end. -/
def links : List Text → List (Text × Text)
  | callee :: caller :: rest => (caller, callee) :: links (caller :: rest)
  | _ => []

def Trail.nodes (t : Trail) : List Text := t.last :: t.before

def Trail.calls (t : Trail) : List (Text × Text) := links t.nodes

/-- The trails one call longer, to methods not seen before; the first trail to a method
    counts. -/
def extendTrails (g : SignalGraph) (seen : List Text) (frontier : List Trail) : List Trail :=
  let longer := frontier.flatMap fun t => (g.calleesOf t.last).map fun c => ⟨c, t.nodes⟩
  (longer.filter (!seen.contains ·.last)).eraseDupsBy (·.last = ·.last)

/-- The trails that extend the frontier by at most a number of calls. -/
def trailsBeyond (g : SignalGraph) : (length : Nat) → (seen : List Text) → List Trail → List Trail
  | 0, _, _ => []
  | length + 1, seen, frontier =>
    if frontier.isEmpty then []
    else
      let next := extendTrails g seen frontier
      next ++ trailsBeyond g length (seen ++ next.map (·.last)) next

/-- The most calls of a path. -/
def maxPathLength : Nat := 8

/-- A shortest trail to each method in reach of a root. -/
def trails (g : SignalGraph) : List Trail :=
  let start := g.roots.map fun name => Trail.mk name []
  start ++ trailsBeyond g maxPathLength g.roots start

end Signal

/-- The methods and calls that are drawn. -/
structure SignalView where
  nodes : List Text
  calls : List (Text × Text)
  deriving DecidableEq, Repr

namespace SignalView

/-- The paths to the targets and the calls among targets. If that gives no call, every target
    is shown with the methods it calls. -/
def trace (g : SignalGraph) : SignalView :=
  let targets := g.targets
  let reached := (trails g).filter (targets.contains ·.last)
  let among := (g.calls.filter fun c =>
    targets.contains c.caller && targets.contains c.callee && c.caller ≠ c.callee)
  let nodes := reached.flatMap Trail.nodes ++ among.flatMap fun c => [c.caller, c.callee]
  let calls := reached.flatMap Trail.calls ++ among.map fun c => (c.caller, c.callee)
  if calls.isEmpty then
    ⟨(nodes ++ targets ++ targets.flatMap g.calleesOf).eraseDups,
      (targets.flatMap fun t => (g.calleesOf t).map fun c => (t, c)).eraseDups⟩
  else ⟨nodes.eraseDups, calls.eraseDups⟩

/-- The one call into a method and the one out of it, if it can be folded away: it is called,
    is no target, and has no more calls in the view. -/
def passage? (g : SignalGraph) (v : SignalView) (name : Text) :
    Option ((Text × Text) × (Text × Text)) :=
  if !g.isCalled name || g.isTarget name then none
  else
    match v.calls.filter (·.2 = name), v.calls.filter (·.1 = name) with
    | [into], [out] => some (into, out)
    | _, _ => none

/-- Takes a method out if it only passes a call on: its caller then calls its callee. -/
def foldAway (g : SignalGraph) (v : SignalView) (name : Text) : SignalView :=
  match v.passage? g name with
  | none => v
  | some (into, out) =>
    { nodes := v.nodes.filter (· ≠ name)
      calls := (v.calls.filter fun c => c ≠ into && c ≠ out).insert (into.1, out.2) }

/-- Every method of the view in turn, in the order of names. -/
def foldOnce (g : SignalGraph) (v : SignalView) : SignalView :=
  (Text.sort v.nodes).foldl (foldAway g) v

/-- Folds until nothing changes. -/
def collapse (g : SignalGraph) (v : SignalView) : SignalView :=
  let next := foldOnce g v
  if next.nodes.length < v.nodes.length then collapse g next else next
termination_by v.nodes.length

/-- What is drawn of a signal graph. -/
def ofGraph (g : SignalGraph) : SignalView := (trace g).collapse g

end SignalView

namespace Signal

/-- A literal drawn next to its method. -/
structure Leaf where
  method : Text
  label : Text
  /-- The first category of the literal. -/
  category : Text
  deriving DecidableEq, Repr

/-- The most literals drawn for one method. -/
def maxLeaves : Nat := 5

/-- A label cut to a number of bytes, the cut shown by dots. -/
def shortened (width : Nat) (t : Text) : Text :=
  if t.length ≤ width then t else t.take (width - 3) ++ "..."

/-- The leaves of a method: its distinct literals and, if there are too many, how many more. -/
def leavesOf (m : SignalMethod) : List Leaf :=
  let distinct := m.literals.eraseDupsBy (·.value = ·.value)
  let shown := (distinct.take maxLeaves).map fun l =>
    Leaf.mk m.name (shortened 60 l.value) (l.categories.headD [])
  if distinct.length ≤ maxLeaves then shown
  else
    shown ++ [⟨m.name, "+" ++ Text.ofInt (m.literals.length - maxLeaves) ++ " more", []⟩]

end Signal

/-- The leaves of the drawn targets, in the order of names. -/
def SignalView.leaves (g : SignalGraph) (v : SignalView) : List Leaf :=
  (Text.sort v.nodes).flatMap fun name =>
    if g.isTarget name then ((g.method? name).map leavesOf).getD [] else []

end CilAudit
