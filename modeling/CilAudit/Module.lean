import CilAudit.Instruction.Encoding
import Std.Data.HashMap

/-!
# Modules

The types and methods of a loaded module, and what can be asked of them by name. A module
may define a name more than once; the last definition counts.
-/

set_option autoImplicit false

namespace CilAudit

structure Field where
  name : Text
  type : Text
  isPublic : Bool
  isFamily : Bool
  isStatic : Bool
  isInitOnly : Bool
  deriving DecidableEq, Repr

structure Property where
  name : Text
  type : Text
  deriving DecidableEq, Repr

structure Param where
  name : Text
  type : Text
  deriving DecidableEq, Repr

/-- The native function a method stands for. -/
structure NativeImport where
  library : Text
  entry : Text
  deriving DecidableEq, Repr

inductive HandlerKind where
  | catch
  | filter
  | finally
  | fault
  deriving DecidableEq, Repr

/-- An exception-handling clause; offsets are in bytes. -/
structure Handler where
  kind : HandlerKind
  tryStart : Int
  tryEnd : Int
  handlerStart : Int
  handlerEnd : Int
  filterStart : Int
  catchType : Text
  deriving DecidableEq, Repr

/-- The instructions of a method: still encoded, with a table for their tokens, or already
split. -/
inductive Instructions where
  | encoded (code : Text) (tokens : TokenTable)
  | raw (instructions : List RawInstruction)
  deriving DecidableEq, Repr

structure MethodBody where
  instructions : Instructions
  handlers : List Handler
  locals : List Text
  deriving DecidableEq, Repr

structure Method where
  name : Text
  /-- The full name of the type the method belongs to. -/
  declaringType : Text
  /-- Empty for a method that returns nothing. -/
  returnType : Text
  params : List Param
  genericParams : List Text
  isPublic : Bool
  isStatic : Bool
  isVirtual : Bool
  isNewSlot : Bool
  isAbstract : Bool
  nativeImport : Option NativeImport
  body : Option MethodBody
  deriving DecidableEq, Repr

structure TypeDef where
  fullName : Text
  base : Text
  interfaces : List Text
  isPublic : Bool
  isSealed : Bool
  isAbstract : Bool
  isValueType : Bool
  isInterface : Bool
  isMarkedGenerated : Bool
  isExternal : Bool
  fields : List Field
  properties : List Property
  methods : List Method
  deriving DecidableEq, Repr

structure Module where
  name : Text
  types : List TypeDef
  deriving DecidableEq, Repr

namespace MethodBody

/-- The raw instructions, read from the encoded form where there is one. -/
def rawInstructions (b : MethodBody) : Except ReadError (List RawInstruction) :=
  match b.instructions with
  | .encoded code tokens => read tokens code
  | .raw is => .ok is

/-- The offsets at which control can enter from outside the normal flow. -/
def entries (b : MethodBody) : List Int :=
  b.handlers.flatMap fun h =>
    [h.tryStart, h.handlerStart] ++ if h.kind = .filter then [h.filterStart] else []

end MethodBody

namespace Field

def isArray (f : Field) : Bool := f.type.endsWith "]"

end Field

namespace Method

/-- The method as a call site would name it. -/
def ref (m : Method) : MethodRef where
  declaringType := m.declaringType
  name := m.name
  returnType := m.returnType
  params := m.params.map (·.type)
  genericArgs := m.genericParams
  hasThis := !m.isStatic

def fullName (m : Method) : Text := m.ref.toText

/-- Is it an instance or type constructor? -/
def isConstructor (m : Method) : Bool := m.name = ".ctor" || m.name = ".cctor"

/-- Does it take the slot of a method of the base type? -/
def isOverride (m : Method) : Bool := m.isVirtual && !m.isNewSlot

/-- The return type with void spelled out. -/
def returns (m : Method) : Text := if m.returnType.isEmpty then voidType else m.returnType

/-- Does the method have this return type, name and parameter types? -/
def hasSignature (m : Method) (result name : Text) (params : List Text) : Bool :=
  m.name = name && m.returns = result && m.params.map (·.type) = params

end Method

namespace TypeDef

/-- The name without its namespace and enclosing type. -/
def name (t : TypeDef) : Text :=
  match t.fullName.cutAtLast fun b => b = 0x2E || b = 0x2F with
  | some (_, last) => last
  | none => t.fullName

/-- The namespace, empty if there is none; a nested type has that of the outermost one. -/
def nameSpace (t : TypeDef) : Text :=
  let outer := ((Text.cutAt 0x2F t.fullName).map (·.1)).getD t.fullName
  ((outer.cutAtLast (· = 0x2E)).map (·.1)).getD []

/-- Was the type made by a compiler, as closures and iterators are? -/
def isCompilerGenerated (t : TypeDef) : Bool :=
  t.isMarkedGenerated || t.name.any fun b => b = 0x3C || b = 0x3E

def propertiesNamed (t : TypeDef) (name : Text) : List Property :=
  t.properties.filter (·.name = name)

end TypeDef

namespace Module

/-- The definition of a type name. -/
def lookup? (m : Module) (fullName : Text) : Option TypeDef :=
  m.types.reverse.find? (·.fullName = fullName)

/-- The number of types of the module whose names have not been seen. -/
def unseen (m : Module) (seen : List Text) : Nat :=
  (m.types.filter fun t => !seen.contains t.fullName).length

/-- To see a name is to leave out the types that have it. -/
theorem filter_unseen_cons (m : Module) (seen : List Text) (name : Text) :
    (m.types.filter fun t => !(name :: seen).contains t.fullName) =
      (m.types.filter fun t => !seen.contains t.fullName).filter fun t => t.fullName ≠ name := by
  rw [List.filter_filter]
  refine List.filter_congr fun t _ => ?_
  simp

theorem unseen_cons_le (m : Module) (seen : List Text) (name : Text) :
    m.unseen (name :: seen) ≤ m.unseen seen := by
  rw [unseen, filter_unseen_cons]
  exact List.length_filter_le _ _

theorem unseen_cons_lt {m : Module} {seen : List Text} {name : Text} {t : TypeDef}
    (found : m.lookup? name = some t) (new : name ∉ seen) :
    m.unseen (name :: seen) < m.unseen seen := by
  have mem : t ∈ m.types := List.mem_reverse.mp (List.mem_of_find?_eq_some found)
  have named : t.fullName = name := by simpa using List.find?_some found
  rw [unseen, filter_unseen_cons]
  refine List.length_filter_lt_length_iff_exists.2 ⟨t, List.mem_filter.2 ⟨mem, ?_⟩, ?_⟩
  · simpa [named] using new
  · simpa using named

/-- The definitions by name, for many questions at once. -/
def index (m : Module) : Std.HashMap Text TypeDef :=
  m.types.foldl (fun table t => table.insert t.fullName t) ∅

theorem getElem?_foldl_insert (types : List TypeDef) (table : Std.HashMap Text TypeDef)
    (name : Text) :
    (types.foldl (fun table t => table.insert t.fullName t) table)[name]? =
      (types.reverse.find? (·.fullName = name)).or table[name]? := by
  induction types generalizing table with
  | nil => simp
  | cons t ts ih =>
    rw [List.foldl_cons, ih, List.reverse_cons, List.find?_append, Std.HashMap.getElem?_insert]
    by_cases h : t.fullName = name <;> simp [h]

/-- The index gives the last definition of a name, as a search does. -/
theorem getElem?_index (m : Module) (name : Text) : m.index[name]? = m.lookup? name := by
  simp [index, lookup?, getElem?_foldl_insert]

/-- The definition of a name, with the proof that the module holds it. -/
abbrev Finder (m : Module) := { find : Text → Option TypeDef // ∀ name, find name = m.lookup? name }

/-- Looks names up in the index, which is made once. -/
def finder (m : Module) : m.Finder :=
  let table := m.index
  ⟨fun name => table[name]?, m.getElem?_index⟩

/-- Is `target` on the chain of bases that starts with `name`? The chain ends at a name that
is empty, undefined or seen before. -/
def onBaseChain (m : Module) (f : m.Finder) (target : Text) (seen : List Text) (name : Text) : Bool :=
  if known : name = [] ∨ name ∈ seen then false
  else if name = target then true
  else
    match found : f.val name with
    | some t =>
      have : m.unseen (name :: seen) < m.unseen seen :=
        unseen_cons_lt (f.property name ▸ found) fun mem => known (.inr mem)
      m.onBaseChain f target (name :: seen) t.base
    | none => false
termination_by m.unseen seen

/-- Does the type derive from `base`, directly or through types of the module? No type
derives from itself. -/
def isSubtypeOf (m : Module) (t : TypeDef) (base : Text) : Bool :=
  m.onBaseChain m.finder base [t.fullName] t.base

/-- Can `target` be reached from the names, going from a type of the module to its interfaces
and its base? -/
def reaches (m : Module) (f : m.Finder) (target : Text) (seen : List Text) : List Text → Bool
  | [] => false
  | name :: rest =>
    if known : name = [] ∨ name ∈ seen then m.reaches f target seen rest
    else if name = target then true
    else
      match found : f.val name with
      | some t =>
        have : m.unseen (name :: seen) < m.unseen seen :=
          unseen_cons_lt (f.property name ▸ found) fun mem => known (.inr mem)
        m.reaches f target (name :: seen) (t.interfaces ++ t.base :: rest)
      | none => m.reaches f target (name :: seen) rest
termination_by todo => (m.unseen seen, todo.length)
decreasing_by
  · exact Prod.Lex.right _ (by simp)
  · exact Prod.Lex.left _ _ this
  · rcases Nat.eq_or_lt_of_le (unseen_cons_le m seen name) with same | less
    · rw [same]; exact Prod.Lex.right _ (by simp)
    · exact Prod.Lex.left _ _ less

/-- Does the type or one of its bases declare the interface, or one that inherits it? -/
def implements (m : Module) (t : TypeDef) (interface : Text) : Bool :=
  m.reaches m.finder interface [t.fullName] (t.interfaces ++ [t.base])

end Module

end CilAudit
