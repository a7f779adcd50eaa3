import CilAudit.Instruction.Effect

/-!
# Block graphs

A body cut into basic blocks, and the ways control passes between them. A block starts at
the first instruction, at an entry (a try, handler or filter start), at a target of a
branch, and after an instruction that ends a block.
-/

set_option autoImplicit false

namespace CilAudit

/-- Under which outcome of its test a branch takes an edge. -/
inductive Outcome where
  | always
  | taken
  | otherwise
  deriving DecidableEq, Repr

def Outcome.label : Outcome → String
  | always => ""
  | taken => "T"
  | otherwise => "F"

/-- An edge to the block with number `block`. -/
structure Edge where
  block : Nat
  outcome : Outcome
  deriving DecidableEq, Repr

/-- The instructions from `start` up to but not including `stop`. -/
structure Block where
  id : Nat
  start : Nat
  stop : Nat
  /-- Is it entered from outside, as the first block and the blocks at entries are? -/
  isEntry : Bool
  succs : List Edge
  /-- Does control leave the body at its end? -/
  isTerm : Bool
  /-- The sources of the edges that lead here, one for each edge. -/
  preds : List Nat
  deriving DecidableEq, Repr

structure BlockGraph where
  name : Text
  body : Array Instruction
  blocks : Array Block
  deriving Repr

namespace BlockGraph

/-- The indexes of the instructions that the offsets lead to; an offset in between leads
nowhere. -/
def resolve (body : Array Instruction) (offsets : List Int) : List Nat :=
  offsets.filterMap (indexOf? body)

/-- The indexes of the instructions that some branch leads to. -/
def targets (body : Array Instruction) : List Nat :=
  resolve body (body.toList.flatMap fun i => (i.transfer?.map (·.targets)).getD [])

/-- Does a block end with the instruction at `i`? -/
def endsBlock (body : Array Instruction) (i : Nat) : Bool := (body[i]?.bind (·.transfer?)).isSome

/-- The indexes at which blocks start, ascending. -/
def leaders (body : Array Instruction) (entries : List Nat) : List Nat :=
  let ts := targets body
  (List.range body.size).filter fun i =>
    i = 0 || entries.contains i || ts.contains i || (0 < i && endsBlock body (i - 1))

/-- The blocks that start at the leaders, as pairs of start and stop. -/
def spans (size : Nat) : List Nat → List (Nat × Nat)
  | [] => []
  | [start] => [(start, size)]
  | start :: next :: rest => (start, next) :: spans size (next :: rest)

/-- The edges out of the block that ends before `stop`. -/
def edges (body : Array Instruction) (leaders : List Nat) (stop : Nat) : List Edge :=
  let onward (outcome : Outcome) : List Edge :=
    ((leaders.idxOf? stop).map fun b => ⟨b, outcome⟩).toList
  let along (outcome : Outcome) (targets : List Int) : List Edge :=
    (resolve body targets).filterMap fun i => (leaders.idxOf? i).map fun b => ⟨b, outcome⟩
  match body[stop - 1]?.bind (·.transfer?) with
  | none => onward .always
  | some .leave => []
  | some (.jump t) => along .always [t]
  | some (.choice ts) => along .taken ts ++ onward .otherwise

/-- Does control leave the body at the end of the block before `stop`? -/
def terminates (body : Array Instruction) (stop : Nat) : Bool :=
  match body[stop - 1]?.bind (·.transfer?) with
  | some .leave => true
  | some (.jump t) => (indexOf? body t).isNone
  | _ => false

/-- The blocks of a body before the incoming edges are known. -/
def openBlocks (body : Array Instruction) (entries : List Nat) : List Block :=
  let ls := leaders body entries
  (spans body.size ls).zipIdx.map fun ((start, stop), id) =>
    { id, start, stop
      isEntry := start = 0 || entries.contains start
      succs := edges body ls stop
      isTerm := terminates body stop
      preds := [] }

/-- The sources of the edges to block `id`, in the order of the sources. -/
def sources (blocks : List Block) (id : Nat) : List Nat :=
  blocks.flatMap fun b => (b.succs.filter (·.block = id)).map fun _ => b.id

/-- The block graph of a body with extra entry offsets. -/
def ofBody (name : Text) (instructions : List Instruction) (entries : List Int) : BlockGraph :=
  let body := instructions.toArray
  let blocks := openBlocks body (resolve body entries)
  { name, body
    blocks := (blocks.map fun b => { b with preds := sources blocks b.id }).toArray }

/-- The block that holds the instruction at `i`. -/
def blockOf? (g : BlockGraph) (i : Nat) : Option Block :=
  g.blocks.find? fun b => b.start ≤ i && i < b.stop

/-- Is the stack on entry to instruction `i` always the one that instruction `i - 1` left? So
it is inside a block, and at the start of a block that is reached only from the block
before it. -/
def straightLine (g : BlockGraph) (i : Nat) : Bool :=
  match i with
  | 0 => false
  | prev + 1 =>
    match g.blockOf? (prev + 1), g.blockOf? prev with
    | some b, some above =>
      b.start ≠ prev + 1 ||
        (!b.isEntry && !b.preds.isEmpty && b.preds.all (· = above.id))
    | _, _ => false

end BlockGraph

end CilAudit
