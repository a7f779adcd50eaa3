import CilAudit.Json
import CilAudit.Search
import CilAudit.Signal.Category

/-!
# Signal graphs

Which methods hold telling literals, and which are near them in the call graph. A method with
a classified literal is a signal method; a method within a number of call hops of one, in
either direction, is its context.
-/

set_option autoImplicit false

namespace CilAudit

namespace Signal

/-- A method as the graph takes it. -/
structure Member where
  name : Text
  /-- The declaring type; may be unknown. -/
  owner : Text
  /-- The number of instructions. -/
  size : Int
  deriving DecidableEq, Repr

structure Call where
  caller : Text
  callee : Text
  deriving DecidableEq, Repr

structure Literal where
  method : Text
  offset : Int
  value : Text
  deriving DecidableEq, Repr

structure ClassifiedLiteral extends Literal where
  categories : List Text
  deriving DecidableEq, Repr

inductive Role where
  | signal
  | context
  | outside
  deriving DecidableEq, Repr

def Role.name : Role → Text
  | signal => "signal"
  | context => "context"
  | outside => ""

def Role.rank : Role → Nat
  | signal => 0
  | context => 1
  | outside => 2

end Signal

open Signal

/-- A method of a signal graph. -/
structure SignalMethod extends Member where
  literals : List ClassifiedLiteral
  categories : List Text
  /-- Signal methods have one. -/
  severity : Option Severity
  role : Role
  /-- Does nothing call it? -/
  isEntryPoint : Bool
  deriving DecidableEq, Repr

structure SignalStats where
  methods : Nat
  signal : Nat
  context : Nat
  calls : Nat
  literals : Nat
  /-- How many methods have each category. -/
  categories : List (Text × Nat)
  deriving DecidableEq, Repr

structure SignalGraph where
  methods : List SignalMethod
  calls : List Call
  stats : SignalStats
  deriving DecidableEq, Repr

namespace Signal

/-- The classified literals of one method, and their categories in order. -/
structure Hit where
  method : Text
  literals : List ClassifiedLiteral
  categories : List Text
  deriving DecidableEq, Repr

/-- The place of a category among others in ascending order: before the first that does not come before
it. -/
def categorySlot (category : Text) (others : List Text) : Nat :=
  halve (fun i => others[i]?.map fun other => !category.le other) 0 others.length

/-- Puts a category in its place among others in ascending order, if it is new. What stands there and
behind moves up by one. -/
def insertCategory (category : Text) (others : List Text) : List Text :=
  let i := categorySlot category others
  if others[i]? = some category then others else others.take i ++ category :: others.drop i

def Hit.add (h : Hit) (l : ClassifiedLiteral) : Hit :=
  { h with
    literals := h.literals ++ [l]
    categories := l.categories.foldl (fun cs c => insertCategory c cs) h.categories }

/-- Adds a classified literal to the hit of its method. -/
def addLiteral (l : ClassifiedLiteral) : List Hit → List Hit
  | [] => [Hit.add ⟨l.method, [], []⟩ l]
  | h :: rest => if h.method = l.method then h.add l :: rest else h :: addLiteral l rest

/-- The literal with its categories, if it has any. -/
def classified? (l : Literal) : Option ClassifiedLiteral :=
  let names := (classify l.value).map Category.name
  if names.isEmpty then none else some { l with categories := names }

/-- The signal methods with their literals, in the order of their first literal. -/
def hits (literals : List Literal) : List Hit :=
  (literals.filterMap classified?).foldl (fun hs l => addLiteral l hs) []

/-- The calls of a named method, each once. -/
def distinctCalls (calls : List Call) : List Call := (calls.filter (·.callee ≠ [])).eraseDups

/-- The other ends of the calls that a method makes or gets. -/
def neighbours (calls : List Call) (name : Text) : List Text :=
  (calls.filter (·.caller = name)).map (·.callee) ++
    (calls.filter (·.callee = name)).map (·.caller)

/-- What lies within a number of hops of the frontier and has not been seen. -/
def spread (calls : List Call) : (hops : Nat) → (seen frontier : List Text) → List Text
  | 0, _, _ => []
  | hops + 1, seen, frontier =>
    if frontier.isEmpty then []
    else
      let next := ((frontier.flatMap (neighbours calls)).filter (!seen.contains ·)).eraseDups
      next ++ spread calls hops (seen ++ next) next

end Signal

namespace SignalMethod

def severityRank (m : SignalMethod) : Nat :=
  match m.severity with
  | some .high => 0
  | some .medium => 1
  | some .low => 2
  | none => 3

/-- Does `a` stand before `b`? Signal methods come first, then context. Among signal methods
    entry points come first; then the severe ones, those with many categories, and names. -/
def precedes (a b : SignalMethod) : Bool :=
  if a.role ≠ b.role then a.role.rank < b.role.rank
  else if a.role = .signal && a.isEntryPoint != b.isEntryPoint then a.isEntryPoint
  else if a.severity ≠ b.severity then a.severityRank < b.severityRank
  else if a.categories.length ≠ b.categories.length then
    b.categories.length < a.categories.length
  else !b.name.le a.name

end SignalMethod

namespace SignalGraph

/-- A member with what is found out about it. -/
def place (hits : List Hit) (context : List Text) (calls : List Call) (m : Member) :
    SignalMethod :=
  let isEntryPoint := !calls.any (·.callee = m.name)
  match hits.find? (·.method = m.name) with
  | some h =>
    { m with literals := h.literals, categories := h.categories,
             severity := some (.ofCategories h.categories), role := .signal, isEntryPoint }
  | none =>
    { m with literals := [], categories := [], severity := none,
             role := if context.contains m.name then .context else .outside, isEntryPoint }

/-- How many hits have each category. -/
def categoryCounts (hits : List Hit) : List (Text × Nat) :=
  (Text.sort (Category.all.map Category.name)).filterMap fun name =>
    let n := hits.countP (·.categories.contains name)
    if n = 0 then none else some (name, n)

/-- The signal graph of the members, with context up to `hops` calls away, when the signal methods
are expanded in the given order. -/
def buildFrom (order : List Text) (members : List Member) (calls : List Call)
    (literals : List Literal) (hops : Int) : SignalGraph :=
  let found := hits literals
  let distinct := distinctCalls calls
  let context := spread distinct hops.toNat order order
  { methods :=
      (members.map (place found context distinct)).mergeSort fun a b => !b.precedes a
    calls := distinct
    stats := ⟨members.length, found.length, context.length, distinct.length, literals.length,
      categoryCounts found⟩ }

/-- The signal graph of the members, with context up to `hops` calls away. -/
def build (members : List Member) (calls : List Call) (literals : List Literal) (hops : Int) :
    SignalGraph :=
  buildFrom ((hits literals).map (·.method)) members calls literals hops

end SignalGraph

namespace Signal

/-- A member of a document that is left out when it is empty. -/
def unlessEmpty (key : String) (value : Text) : List (Text × Json) :=
  if value.isEmpty then [] else [(key, .string value)]

def Member.members (m : Member) : List (Text × Json) :=
  [(Text.ofString "name", .string m.name)] ++ unlessEmpty "owner" m.owner
    ++ [(Text.ofString "size", .ofInt m.size)]

def Member.toJson (m : Member) : Json := .object m.members

def Call.toJson (c : Call) : Json := .object [("from", .string c.caller), ("to", .string c.callee)]

def Literal.members (l : Literal) : List (Text × Json) :=
  [("func", .string l.method), ("offset", .ofInt l.offset), ("value", .string l.value)]

def Literal.toJson (l : Literal) : Json := .object l.members

def ClassifiedLiteral.toJson (l : ClassifiedLiteral) : Json :=
  .object (l.toLiteral.members ++
    if l.categories.isEmpty then [] else [(Text.ofString "categories", .strings l.categories)])

/-- An array, or null where there is nothing. -/
def arrayOrNull (items : List Json) : Json := if items.isEmpty then .null else .array items

end Signal

namespace SignalMethod

def toJson (m : SignalMethod) : Json :=
  .object (m.toMember.members
    ++ (if m.literals.isEmpty then []
        else [(Text.ofString "string_refs", .array (m.literals.map ClassifiedLiteral.toJson))])
    ++ [(Text.ofString "categories", arrayOrNull (m.categories.map .string))]
    ++ unlessEmpty "severity" ((m.severity.map Severity.name).getD [])
    ++ [(Text.ofString "role", .string m.role.name)]
    ++ if m.isEntryPoint then [(Text.ofString "is_entry_point", .bool true)] else [])

end SignalMethod

namespace SignalGraph

def statsJson (s : SignalStats) : Json :=
  .object [("total_funcs", .ofNat s.methods), ("signal_funcs", .ofNat s.signal),
    ("context_funcs", .ofNat s.context), ("total_edges", .ofNat s.calls),
    ("string_ref_count", .ofNat s.literals),
    ("categories", .object (s.categories.map fun (name, n) => (name, .ofNat n)))]

/-- The graph as a document. -/
def toJson (g : SignalGraph) : Json :=
  .object [("funcs", .array (g.methods.map SignalMethod.toJson)),
    ("edges", arrayOrNull (g.calls.map Call.toJson)), ("stats", statsJson g.stats)]

end SignalGraph

end CilAudit
