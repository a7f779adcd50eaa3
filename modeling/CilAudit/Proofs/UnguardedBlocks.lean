import CilAudit.Proofs.CoarsestBlocks
import CilAudit.Proofs.Halving
import CilAudit.Rule

/-!
# Block graphs by accesses that can fail

A body is cut into blocks once more, with every access as bare as it can be: an index is used as it was
computed, to read or to write, and an access that goes wrong breaks the work off. None does. The search
for an offset stays inside the body, no block is empty or reaches beyond it, and each edge leads to a
block. So the graph comes out as it does without such accesses, and so does what it says of straight
lines.
-/

set_option autoImplicit false

namespace CilAudit.Unguarded

open BlockGraph (Placed)

/-! ## Accesses -/

section Accesses

variable {α β : Type}

/-- What has to be there. -/
def demand (failure : Text) : Option α → Except Text α
  | some a => .ok a
  | none => .error failure

def outOfRange : Text := "index out of range"

/-- The member at an index. -/
def fetch (l : Array α) (i : Int) : Except Text α :=
  demand outOfRange (if 0 ≤ i then l[i.toNat]? else none)

/-- The list with another member at an index. -/
def store (l : Array α) (i : Nat) (a : α) : Except Text (Array α) :=
  if i < l.size then .ok (l.setIfInBounds i a) else .error outOfRange

/-- What a pointer points to. -/
def follow (pointer : Option α) : Except Text α := demand Rule.nilPointer pointer

theorem ok_bind (a : α) (f : α → Except Text β) : (Except.ok a >>= f) = f a := rfl

theorem fetch_of_getElem? {l : Array α} {n : Nat} {a : α} (here : l[n]? = some a) : fetch l n = .ok a := by
  simp [fetch, here, demand]

theorem mapM_eq {f : α → Except Text β} {g : α → β} {l : List α} (each : ∀ a ∈ l, f a = .ok (g a)) :
    l.mapM f = .ok (l.map g) := by
  induction l with
  | nil => rfl
  | cons a l ih =>
    obtain ⟨here, later⟩ := List.forall_mem_cons.1 each
    rw [List.mapM_cons, here, ih later]
    rfl

end Accesses

/-! ## Offsets -/

section Offsets

/-- The search by halving, where each look may fail. -/
def narrow (before : Nat → Except Text Bool) (lo hi : Nat) : Except Text Nat :=
  if lo < hi then do
    if ← before ((lo + hi) / 2) then narrow before ((lo + hi) / 2 + 1) hi else narrow before lo ((lo + hi) / 2)
  else .ok lo
termination_by hi - lo
decreasing_by all_goals omega

/-- The index of the instruction at an offset, if there is one. -/
def find (body : Array Instruction) (offset : Int) : Except Text (Option Nat) := do
  let i ← narrow (fun i => do return (← fetch body i).offset < offset) 0 body.size
  if i < body.size then return if (← fetch body i).offset = offset then some i else none
  else return none

def resolve (body : Array Instruction) : List Int → Except Text (List Nat)
  | [] => .ok []
  | offset :: offsets => do
    let found ← find body offset
    return found.toList ++ (← resolve body offsets)

theorem narrow_eq {look : Nat → Except Text Bool} {before : Nat → Option Bool} {lo hi : Nat}
    (there : ∀ i < hi, ∃ answer, before i = some answer ∧ look i = .ok answer) :
    narrow look lo hi = .ok (halve before lo hi) := by
  fun_induction halve before lo hi with
  | case1 lo hi wide mid told ih =>
    obtain ⟨answer, same, looked⟩ := there mid (by omega)
    obtain rfl : true = answer := Option.some.inj (told.symm.trans same)
    rw [narrow, if_pos wide, looked]
    exact ih there
  | case2 lo hi wide mid told ih =>
    obtain ⟨answer, same, looked⟩ := there mid (by omega)
    obtain rfl : false = answer := Option.some.inj (told.symm.trans same)
    rw [narrow, if_pos wide, looked]
    exact ih fun i less => there i (by omega)
  | case3 lo hi wide mid absent =>
    obtain ⟨answer, same, -⟩ := there mid (by omega)
    cases absent.symm.trans same
  | case4 lo hi closed => rw [narrow, if_neg closed]

variable (body : Array Instruction)

theorem find_eq (offset : Int) : find body offset = .ok (indexOf? body offset) := by
  have search : narrow (fun i => do return (← fetch body i).offset < offset) 0 body.size =
      .ok (lowerBound body offset) := by
    refine narrow_eq fun i inside => ?_
    have here : body[i]? = some body[i] := Array.getElem?_eq_getElem inside
    refine ⟨decide (body[i].offset < offset), by simp [standsBefore, here], ?_⟩
    rw [fetch_of_getElem? here]
    rfl
  rw [find, search, ok_bind, indexOf?]
  cases here : body[lowerBound body offset]? with
  | none =>
    rw [if_neg (Nat.not_lt.2 (Array.getElem?_eq_none_iff.1 here))]
    rfl
  | some x =>
    rw [if_pos (Array.getElem?_eq_some_iff.1 here).1, fetch_of_getElem? here]
    rfl

theorem resolve_eq (offsets : List Int) : resolve body offsets = .ok (BlockGraph.resolve body offsets) := by
  induction offsets with
  | nil => rfl
  | cons offset offsets ih =>
    rw [resolve, find_eq, ih]
    unfold BlockGraph.resolve
    rw [List.filterMap_cons]
    cases indexOf? body offset <;> rfl

end Offsets

/-! ## Blocks -/

section Blocks

/-- The edges out of the block that ends before `stop`, and whether control leaves the body there. -/
def exits (body : Array Instruction) (leaders : List Nat) (stop : Nat) : Except Text (List Edge × Bool) := do
  let onward (outcome : Outcome) : List Edge := ((leaders.idxOf? stop).map fun b => ⟨b, outcome⟩).toList
  let along (outcome : Outcome) (reached : List Nat) : List Edge :=
    reached.filterMap fun i => (leaders.idxOf? i).map fun b => ⟨b, outcome⟩
  match (← fetch body (stop - 1)).transfer? with
  | none => return (onward .always, false)
  | some .leave => return ([], true)
  | some (.jump t) => do
    let reached ← resolve body [t]
    return (along .always reached, reached.isEmpty)
  | some (.choice ts) => return (along .taken (← resolve body ts) ++ onward .otherwise, false)

/-- Where the block with a number ends: at the next leader or at the end of the body. -/
def stopOf (size : Nat) (leaders : List Nat) (id : Nat) : Except Text Nat :=
  if id + 1 < leaders.length then fetch leaders.toArray (id + 1) else .ok size

def openBlock (body : Array Instruction) (entered leaders : List Nat) (start id : Nat) : Except Text Block := do
  let stop ← stopOf body.size leaders id
  let (succs, isTerm) ← exits body leaders stop
  return { id, start, stop, isEntry := start = 0 || entered.contains start, succs, isTerm, preds := [] }

/-- Notes the number of a block at its instructions. -/
def mark (table : Array Nat) (b : Block) : Except Text (Array Nat) :=
  (List.range' b.start (b.stop - b.start)).foldlM (store · · b.id) table

/-- Notes where an edge comes from at the block that it leads to. -/
def link (blocks : Array Block) (edge : Nat × Nat) : Except Text (Array Block) := do
  let b ← fetch blocks edge.2
  store blocks edge.2 { b with preds := b.preds ++ [edge.1] }

/-- The graph of a body, with the number of the block of each instruction. -/
structure Table where
  body : Array Instruction
  blocks : Array Block
  blockOf : Array Nat

def table (insts : List Instruction) (entries : List Int) : Except Text Table := do
  let body := insts.toArray
  let entered ← resolve body entries
  let targeted ← resolve body (body.toList.flatMap fun i => (i.transfer?.map (·.targets)).getD [])
  let leaders := (List.range body.size).filter fun i =>
    i = 0 || entered.contains i || targeted.contains i || (0 < i && BlockGraph.endsBlock body (i - 1))
  let opened ← leaders.zipIdx.mapM fun l => openBlock body entered leaders l.1 l.2
  let blockOf ← opened.foldlM mark (Array.replicate body.size 0)
  let blocks ← (opened.flatMap fun b => b.succs.map fun e => (b.id, e.block)).foldlM link opened.toArray
  return ⟨body, blocks, blockOf⟩

/-- Is the stack on entry to an instruction always the one that the instruction before it left? -/
def Table.straightLine (g : Table) (i : Nat) : Except Text Bool :=
  if i = 0 ∨ g.blockOf.size ≤ i then .ok false
  else do
    let b ← fetch g.blocks (← fetch g.blockOf i)
    if b.start ≠ i then return true
    else if b.isEntry || b.preds.isEmpty then return false
    else
      let above ← fetch g.blockOf (i - 1)
      return b.preds.all (· = above)

/-- The body prepared for questions about the origin of values. -/
def provenance (insts : List Instruction) (entries : List Int) : Except Text Provenance := do
  let g ← table insts entries
  let straight ← (List.range g.body.size).mapM g.straightLine
  return ⟨g.body, straight.toArray, .exact⟩

/-! ### Cutting -/

variable {body : Array Instruction}

theorem exits_eq {stop : Nat} (leaders : List Nat) (low : 0 < stop) (high : stop ≤ body.size) :
    exits body leaders stop = .ok (BlockGraph.edges body leaders stop, BlockGraph.terminates body stop) := by
  have here : body[stop - 1]? = some (body[stop - 1]) := Array.getElem?_eq_getElem (by omega)
  have last : fetch body (stop - 1) = .ok body[stop - 1] := by
    have place : (stop - 1 : Int) = (stop - 1 : Nat) := by omega
    rw [place, fetch_of_getElem? here]
  rw [exits, last, BlockGraph.edges, BlockGraph.terminates, here]
  simp only [ok_bind, Option.bind_some]
  cases body[stop - 1].transfer? with
  | none => rfl
  | some transfer =>
    cases transfer with
    | leave => rfl
    | jump t =>
      simp only [resolve_eq, ok_bind]
      cases found : indexOf? body t <;> simp [BlockGraph.resolve, found] <;> rfl
    | choice ts =>
      simp only [resolve_eq, ok_bind]
      rfl

theorem stopOf_eq (size : Nat) (leaders : List Nat) (id : Nat) :
    stopOf size leaders id = .ok ((leaders[id + 1]?).getD size) := by
  unfold stopOf
  split
  case isTrue next =>
    have here : leaders.toArray[id + 1]? = some leaders[id + 1] := by simp [next]
    have place : ((id : Int) + 1) = (id + 1 : Nat) := by omega
    rw [place, fetch_of_getElem? here, List.getElem?_eq_getElem next, Option.getD_some]
  case isFalse last => rw [List.getElem?_eq_none (by omega), Option.getD_none]

/-- No block is empty or reaches beyond the body, so each has a last instruction. -/
theorem openBlocks_eq (entries : List Nat) :
    (BlockGraph.leaders body entries).zipIdx.mapM
        (fun l => openBlock body entries (BlockGraph.leaders body entries) l.1 l.2) =
      .ok (BlockGraph.openBlocks body entries) := by
  let cut (l : Nat × Nat) : Block :=
    let stop := ((BlockGraph.leaders body entries)[l.2 + 1]?).getD body.size
    { id := l.2, start := l.1, stop, isEntry := l.1 = 0 || entries.contains l.1
      succs := BlockGraph.edges body (BlockGraph.leaders body entries) stop
      isTerm := BlockGraph.terminates body stop, preds := [] }
  have each : ∀ l ∈ (BlockGraph.leaders body entries).zipIdx,
      openBlock body entries (BlockGraph.leaders body entries) l.1 l.2 = .ok (cut l) := by
    rintro ⟨start, id⟩ member
    have leader : (BlockGraph.leaders body entries)[id]? = some start := List.mem_zipIdx_iff_getElem?.1 member
    have opened : cut (start, id) ∈ BlockGraph.openBlocks body entries := by
      refine List.mem_of_getElem? (i := id) ?_
      rw [BlockGraph.getElem?_openBlocks, leader]
      rfl
    have low := (Placed.of_mem_openBlocks opened).start_lt_stop
    have high := (Placed.of_mem_openBlocks opened).stop_le_size
    rw [openBlock, stopOf_eq, ok_bind, exits_eq _ (Nat.zero_lt_of_lt low) high]
    rfl
  rw [mapM_eq each]
  refine congrArg Except.ok (List.ext_getElem? fun k => ?_)
  rw [List.getElem?_map, List.getElem?_zipIdx, BlockGraph.getElem?_openBlocks, Option.map_map]
  simp [cut, Function.comp_def]

/-! ### Numbers of blocks -/

theorem foldlM_store (id : Nat) {n start : Nat} {table : Array Nat} (inside : start + n ≤ table.size) :
    ∃ filled, (List.range' start n).foldlM (store · · id) table = .ok filled ∧ filled.size = table.size ∧
      ∀ j, filled[j]? = if start ≤ j ∧ j < start + n then some id else table[j]? := by
  induction n generalizing start table with
  | zero => exact ⟨table, rfl, rfl, fun j => by rw [if_neg (by omega)]⟩
  | succ n ih =>
    obtain ⟨filled, run, size, cells⟩ := @ih (start + 1) (table.setIfInBounds start id) (by simp; omega)
    have first : store table start id = .ok (table.setIfInBounds start id) := if_pos (by omega)
    refine ⟨filled, ?_, by simpa using size, fun j => ?_⟩
    · rw [List.range'_succ, List.foldlM_cons, first]
      exact run
    · rw [cells, Array.getElem?_setIfInBounds]
      by_cases here : start = j
      · subst here
        rw [if_neg (by omega), if_pos rfl, if_pos (by omega), if_pos (by omega)]
      · rw [if_neg here]
        by_cases within : start ≤ j ∧ j < start + (n + 1)
        · rw [if_pos within, if_pos (by omega)]
        · rw [if_neg within, if_neg (by omega)]

/-- Where no two blocks with different numbers share an instruction, each comes to have the number of its block. -/
theorem foldlM_mark {blocks : List Block} {table : Array Nat}
    (inside : ∀ b ∈ blocks, b.start ≤ b.stop ∧ b.stop ≤ table.size)
    (apart : ∀ a ∈ blocks, ∀ b ∈ blocks, ∀ j, a.start ≤ j ∧ j < a.stop → b.start ≤ j ∧ j < b.stop → a.id = b.id) :
    ∃ marked, blocks.foldlM mark table = .ok marked ∧ marked.size = table.size ∧
      (∀ b ∈ blocks, ∀ j, b.start ≤ j ∧ j < b.stop → marked[j]? = some b.id) ∧
      ∀ j, (∀ b ∈ blocks, ¬ (b.start ≤ j ∧ j < b.stop)) → marked[j]? = table[j]? := by
  induction blocks generalizing table with
  | nil => exact ⟨table, rfl, rfl, by simp, fun _ _ => rfl⟩
  | cons b blocks ih =>
    obtain ⟨⟨low, high⟩, insideLater⟩ := List.forall_mem_cons.1 inside
    obtain ⟨filled, run, size, cells⟩ := @foldlM_store b.id (b.stop - b.start) b.start table (by omega)
    have reach : b.start + (b.stop - b.start) = b.stop := by omega
    rw [reach] at cells
    obtain ⟨marked, runLater, sizeLater, numbers, others⟩ := @ih filled (by rwa [size])
      fun a memberA c memberC => apart a (List.mem_cons_of_mem _ memberA) c (List.mem_cons_of_mem _ memberC)
    refine ⟨marked, ?_, sizeLater.trans size, List.forall_mem_cons.2 ⟨fun j within => ?_, numbers⟩, fun j outside => ?_⟩
    · rw [List.foldlM_cons, mark, run]
      exact runLater
    · -- A later block that writes here too has the same number.
      by_cases again : ∃ c ∈ blocks, c.start ≤ j ∧ j < c.stop
      · obtain ⟨c, member, withinC⟩ := again
        rw [numbers c member j withinC]
        exact congrArg some
          (apart c (List.mem_cons_of_mem _ member) b List.mem_cons_self j withinC within)
      · rw [others j (by simpa using again), cells, if_pos within]
    · obtain ⟨here, later⟩ := List.forall_mem_cons.1 outside
      rw [others j later, cells, if_neg here]

/-! ### Sources of edges -/

/-- The blocks with given sources of the edges to each. -/
def noted (blocks : List Block) (preds : Nat → List Nat) : Array Block :=
  (blocks.map fun b => { b with preds := preds b.id }).toArray

theorem link_noted {blocks : List Block} (ids : blocks.map (·.id) = List.range blocks.length) (preds : Nat → List Nat)
    {edge : Nat × Nat} (inside : edge.2 < blocks.length) :
    link (noted blocks preds) edge =
      .ok (noted blocks fun id => preds id ++ if id = edge.2 then [edge.1] else []) := by
  obtain ⟨source, target⟩ := edge
  have number (k : Nat) (bound : k < blocks.length) : blocks[k].id = k := by
    have same := congrArg (·[k]?) ids
    simpa [bound] using same
  have here : (noted blocks preds)[target]? = some { blocks[target] with preds := preds target } := by
    simp [noted, inside, number]
  rw [link, fetch_of_getElem? here, ok_bind, store, if_pos (by simpa [noted] using inside)]
  refine congrArg Except.ok (Array.ext_getElem? fun k => ?_)
  rw [Array.getElem?_setIfInBounds]
  by_cases same : target = k
  · subst same
    simp [noted, inside, number]
  · by_cases bound : k < blocks.length
    · simp [noted, bound, number, same, Ne.symm same]
    · simp [noted, bound, same]

/-- Each block comes to have the sources of the edges to it, in order. -/
theorem foldlM_link {blocks : List Block} (ids : blocks.map (·.id) = List.range blocks.length)
    {edges : List (Nat × Nat)} (inside : ∀ e ∈ edges, e.2 < blocks.length) (preds : Nat → List Nat) :
    edges.foldlM link (noted blocks preds) =
      .ok (noted blocks fun id => preds id ++ (edges.filter (·.2 = id)).map (·.1)) := by
  induction edges generalizing preds with
  | nil => simp [pure, Except.pure]
  | cons edge edges ih =>
    obtain ⟨here, later⟩ := List.forall_mem_cons.1 inside
    rw [List.foldlM_cons, link_noted ids preds here, ok_bind, ih later]
    refine congrArg (fun f => Except.ok (noted blocks f)) (funext fun id => ?_)
    by_cases same : edge.2 = id
    · simp [same]
    · simp [same, Ne.symm same]

/-! ### The whole graph -/

section Whole

variable (body) (entries : List Nat)

theorem exists_marked :
    ∃ marked, (BlockGraph.openBlocks body entries).foldlM mark (Array.replicate body.size 0) = .ok marked ∧
      marked.size = body.size ∧
      ∀ b ∈ BlockGraph.openBlocks body entries, ∀ j, b.start ≤ j ∧ j < b.stop → marked[j]? = some b.id := by
  have placed {b : Block} (member : b ∈ BlockGraph.openBlocks body entries) := Placed.of_mem_openBlocks member
  have inside : ∀ b ∈ BlockGraph.openBlocks body entries,
      b.start ≤ b.stop ∧ b.stop ≤ (Array.replicate body.size 0).size := by
    intro b member
    rw [Array.size_replicate]
    exact ⟨Nat.le_of_lt (placed member).start_lt_stop, (placed member).stop_le_size⟩
  obtain ⟨marked, run, size, numbers, -⟩ := foldlM_mark inside fun a memberA b memberB j withinA withinB =>
    (Block.mk.inj ((placed memberA).eq_of_common (placed memberB) withinA withinB)).1
  exact ⟨marked, run, size.trans Array.size_replicate, numbers⟩

theorem linked_eq :
    ((BlockGraph.openBlocks body entries).flatMap fun b => b.succs.map fun e => (b.id, e.block)).foldlM link
        (BlockGraph.openBlocks body entries).toArray =
      .ok (noted (BlockGraph.openBlocks body entries) (BlockGraph.sources (BlockGraph.openBlocks body entries))) := by
  have length : (BlockGraph.openBlocks body entries).length = (BlockGraph.leaders body entries).length := by
    simpa using congrArg List.length (BlockGraph.openBlocks_ids body entries)
  have ids : (BlockGraph.openBlocks body entries).map (·.id) =
      List.range (BlockGraph.openBlocks body entries).length := by
    rw [length, BlockGraph.openBlocks_ids]
  -- An edge leads to the number of a leader.
  have inside : ∀ edge ∈ (BlockGraph.openBlocks body entries).flatMap fun b => b.succs.map fun e => (b.id, e.block),
      edge.2 < (BlockGraph.openBlocks body entries).length := by
    intro edge member
    obtain ⟨b, opened, member⟩ := List.mem_flatMap.1 member
    obtain ⟨e, succ, rfl⟩ := List.mem_map.1 member
    obtain ⟨c, placed, same⟩ := (Placed.of_mem_openBlocks opened).succ_placed succ
    rw [length, ← same]
    exact (List.getElem?_eq_some_iff.1 placed.start).1
  have unlinked : (BlockGraph.openBlocks body entries).toArray =
      noted (BlockGraph.openBlocks body entries) fun _ => [] := by
    refine congrArg List.toArray (List.ext_getElem? fun k => ?_)
    rw [List.getElem?_map, BlockGraph.getElem?_openBlocks, Option.map_map]
    rfl
  rw [unlinked, foldlM_link ids inside]
  refine congrArg (fun f => Except.ok (noted _ f)) (funext fun id => ?_)
  simp [BlockGraph.sources, List.filter_flatMap, List.map_flatMap, List.filter_map, Function.comp_def]

end Whole

/-- The table has the blocks of the graph, and at each instruction the number of its block. -/
structure Table.Shows (t : Table) (g : BlockGraph) : Prop where
  body : t.body = g.body
  blocks : t.blocks = g.blocks
  size : t.blockOf.size = g.body.size
  numbers : ∀ i b, g.blockOf? i = some b → t.blockOf[i]? = some b.id

variable (insts : List Instruction) (entries : List Int)

theorem exists_table : ∃ t, table insts entries = .ok t ∧ t.Shows (BlockGraph.ofBody [] insts entries) := by
  obtain ⟨marked, marks, size, numbers⟩ := exists_marked insts.toArray (BlockGraph.resolve insts.toArray entries)
  refine ⟨⟨insts.toArray, _, marked⟩, ?_, rfl, rfl, size, fun i b found => ?_⟩
  · have cut := @openBlocks_eq insts.toArray (BlockGraph.resolve insts.toArray entries)
    have links := linked_eq insts.toArray (BlockGraph.resolve insts.toArray entries)
    unfold BlockGraph.leaders BlockGraph.targets at cut
    simp only [table, resolve_eq, ok_bind]
    rw [cut, ok_bind, marks, ok_bind, links]
    rfl
  · obtain ⟨placed, within⟩ := BlockGraph.blockOf?_eq_some_iff.1 found
    exact numbers _ placed.mem_openBlocks i within

/-- **Straight lines** are told as by the graph. -/
theorem Table.Shows.straightLine_eq {t : Table} (shows : t.Shows (BlockGraph.ofBody [] insts entries)) (i : Nat) :
    t.straightLine i = .ok ((BlockGraph.ofBody [] insts entries).straightLine i) := by
  have known {j : Nat} (bound : j < insts.toArray.size) :
      ∃ b, (BlockGraph.ofBody [] insts entries).blockOf? j = some b ∧ fetch t.blockOf j = .ok b.id ∧
        fetch t.blocks b.id = .ok b := by
    obtain ⟨b, placed, within⟩ := @BlockGraph.exists_placed _ (BlockGraph.resolve insts.toArray entries) _ bound
    have found : (BlockGraph.ofBody [] insts entries).blockOf? j = some b :=
      BlockGraph.blockOf?_eq_some_iff.2 ⟨placed, within⟩
    refine ⟨b, found, fetch_of_getElem? (shows.numbers j b found), fetch_of_getElem? ?_⟩
    rw [shows.blocks]
    exact BlockGraph.getElem?_blocks_iff.2 ⟨placed, rfl⟩
  cases i with
  | zero => rfl
  | succ prev =>
    have size : t.blockOf.size = insts.toArray.size := shows.size
    rw [Table.straightLine, BlockGraph.straightLine]
    by_cases bound : prev + 1 < insts.toArray.size
    · obtain ⟨b, found, number, block⟩ := known bound
      obtain ⟨above, foundAbove, numberAbove, -⟩ := known (j := prev) (by omega)
      have place : ((prev + 1 : Nat) - 1 : Int) = (prev : Nat) := by omega
      rw [if_neg (by omega), number, ok_bind, block, ok_bind, found, foundAbove, place, numberAbove]
      simp only [ok_bind, pure, Except.pure]
      by_cases start : b.start = prev + 1 <;> cases b.isEntry <;> cases b.preds.isEmpty <;> simp [start]
    · rw [if_pos (by omega)]
      cases found : (BlockGraph.ofBody [] insts entries).blockOf? (prev + 1) with
      | none => rfl
      | some b =>
        obtain ⟨placed, -, high⟩ := BlockGraph.blockOf?_eq_some_iff.1 found
        have := placed.stop_le_size
        omega

theorem provenance_eq : provenance insts entries = .ok (.ofBody insts entries) := by
  obtain ⟨t, made, shows⟩ := exists_table insts entries
  rw [provenance, made, ok_bind, mapM_eq fun i _ => shows.straightLine_eq insts entries i, ok_bind, shows.body]
  simp [Provenance.ofBody, pure, Except.pure, ← List.toArray_range]

end Blocks

end CilAudit.Unguarded
