import CilAudit.Proofs.BlockEdges

/-!
# Blocks as the coarsest division of a body

A body has to be cut at its first instruction, where an entry or a branch leads, and behind every
instruction that ends a block. The blocks are what lies between these cuts and no others: numbered
in order, without gaps, none of them empty.
-/

set_option autoImplicit false

namespace CilAudit.BlockGraph

/-- A reason to start a block at an index. -/
inductive Cut (body : Array Instruction) (entries : List Int) : Nat → Prop where
  | first (nonempty : 0 < body.size) : Cut body entries 0
  | entry {o : Int} {j : Nat} (listed : o ∈ entries) (found : indexOf? body o = some j) : Cut body entries j
  | target {i j : Nat} {x : Instruction} {o : Int} (here : body[i]? = some x) (named : o ∈ x.targets)
      (found : indexOf? body o = some j) : Cut body entries j
  | behind {i : Nat} {x : Instruction} (here : body[i]? = some x) (ends : x.transfer? ≠ none)
      (bound : i + 1 < body.size) : Cut body entries (i + 1)

theorem endsBlock_eq_true_iff {body : Array Instruction} {i : Nat} :
    endsBlock body i = true ↔ ∃ x, body[i]? = some x ∧ x.transfer? ≠ none := by
  cases here : body[i]? with
  | none => simp [endsBlock, here]
  | some x => simp [endsBlock, here, Option.isSome_iff_ne_none]

/-- The leaders are the indexes with a reason. -/
theorem mem_leaders_iff_cut {body : Array Instruction} {entries : List Int} {j : Nat} :
    j ∈ leaders body (resolve body entries) ↔ Cut body entries j := by
  rw [mem_leaders, mem_targets, resolve]
  constructor
  · rintro ⟨bound, rfl | entry | ⟨i, x, here, o, named, found⟩ | ⟨positive, ends⟩⟩
    · exact .first bound
    · obtain ⟨o, listed, found⟩ := List.mem_filterMap.1 entry
      exact .entry listed found
    · exact .target here named found
    · obtain ⟨i, rfl⟩ : ∃ i, j = i + 1 := ⟨j - 1, by omega⟩
      obtain ⟨x, here, transfers⟩ := endsBlock_eq_true_iff.1 ends
      exact .behind here transfers bound
  · intro cut
    cases cut with
    | first nonempty => exact ⟨nonempty, .inl rfl⟩
    | entry listed found => exact ⟨indexOf?_lt found, .inr (.inl (List.mem_filterMap.2 ⟨_, listed, found⟩))⟩
    | target here named found => exact ⟨indexOf?_lt found, .inr (.inr (.inl ⟨_, _, here, _, named, found⟩))⟩
    | behind here ends bound =>
      exact ⟨bound, .inr (.inr (.inr ⟨Nat.succ_pos _, endsBlock_eq_true_iff.2 ⟨_, here, ends⟩⟩))⟩

/-- The blocks of a body lie between its cuts. -/
structure Divides (g : BlockGraph) (insts : List Instruction) (entries : List Int) : Prop where
  body : g.body = insts.toArray
  /-- Blocks are numbered in order. -/
  numbered : ∀ (k : Nat) (b : Block), g.blocks[k]? = some b → b.id = k
  nonempty : ∀ b ∈ g.blocks, b.start < b.stop
  /-- They start with the body, -/
  first : ∃ b, g.blocks[0]? = some b ∧ b.start = 0
  /-- end with it, -/
  last : ∃ b, g.blocks.back? = some b ∧ b.stop = insts.length
  /-- and leave no gap. -/
  adjacent : ∀ (k : Nat) (a b : Block), g.blocks[k]? = some a → g.blocks[k + 1]? = some b → b.start = a.stop
  /-- Every instruction lies in one block, -/
  within : ∀ i < insts.length, ∃! b, b ∈ g.blocks ∧ b.start ≤ i ∧ i < b.stop
  /-- and that is the one found for it. -/
  blockOf : ∀ i b, g.blockOf? i = some b ↔ b ∈ g.blocks ∧ b.start ≤ i ∧ i < b.stop
  /-- What ends a block stands at the end of one. -/
  ends : ∀ b ∈ g.blocks, ∀ (i : Nat) (x : Instruction), b.start ≤ i → i < b.stop → insts.toArray[i]? = some x →
    x.transfer? ≠ none → i + 1 = b.stop
  /-- Blocks start at the cuts: not too coarse, and not too fine. -/
  cut : ∀ j, (∃ b ∈ g.blocks, b.start = j) ↔ Cut insts.toArray entries j
  entry : ∀ b ∈ g.blocks, b.isEntry = true ↔ b.start = 0 ∨ ∃ o ∈ entries, indexOf? insts.toArray o = some b.start
  /-- Edges lead to blocks. -/
  succ : ∀ b ∈ g.blocks, ∀ e ∈ b.succs, e.block < g.blocks.size

section

variable {name : Text} {insts : List Instruction} {entries : List Int} {b : Block}

theorem size_blocks :
    (ofBody name insts entries).blocks.size = (leaders insts.toArray (resolve insts.toArray entries)).length := by
  have ids := congrArg List.length (openBlocks_ids insts.toArray (resolve insts.toArray entries))
  simpa [ofBody] using ids

/-- A block stands at the place of its number. -/
theorem getElem?_blocks_iff {k : Nat} :
    (ofBody name insts entries).blocks[k]? = some b ↔
      Placed insts.toArray (resolve insts.toArray entries) b ∧ b.id = k := by
  have ids : ∀ (k : Nat) (b : Block), (ofBody name insts entries).blocks[k]? = some b → b.id = k := by
    intro k b found
    simp only [ofBody, List.getElem?_toArray, List.getElem?_map, getElem?_openBlocks, Option.map_map] at found
    obtain ⟨s, -, rfl⟩ := Option.map_eq_some_iff.1 found
    rfl
  constructor
  · intro found
    exact ⟨mem_blocks_iff.1 (Array.mem_of_getElem? found), ids k b found⟩
  · rintro ⟨placed, rfl⟩
    have member : b ∈ (ofBody name insts entries).blocks := mem_blocks_iff.2 placed
    obtain ⟨k, found⟩ := Array.mem_iff_getElem?.1 member
    rwa [ids k b found]

/-- The first leader is the first instruction. -/
theorem Placed.id_of_start_zero {body : Array Instruction} {entries : List Nat} (placed : Placed body entries b)
    (start : b.start = 0) : b.id = 0 := by
  by_contra later
  have bound := (List.getElem?_eq_some_iff.1 placed.start).1
  have before := (leader_lt_iff (List.getElem?_eq_getElem (by omega)) placed.start).2 (Nat.pos_of_ne_zero later)
  omega

theorem zero_leader (nonempty : insts ≠ []) : 0 ∈ leaders insts.toArray (resolve insts.toArray entries) :=
  mem_leaders_iff_cut.2 (.first (by simpa [List.length_pos_iff] using nonempty))

/-- **The blocks of a body that is not empty are its coarsest division**, whatever its entries. -/
theorem ofBody_divides (nonempty : insts ≠ []) (name : Text) (entries : List Int) :
    (ofBody name insts entries).Divides insts entries where
  body := ofBody_body
  numbered k b found := (getElem?_blocks_iff.1 found).2
  nonempty b member := (mem_blocks_iff.1 member).start_lt_stop
  first := by
    obtain ⟨b, placed, start⟩ := exists_placed_of_leader (zero_leader nonempty)
    exact ⟨b, getElem?_blocks_iff.2 ⟨placed, placed.id_of_start_zero start⟩, start⟩
  last := by
    let ls := leaders insts.toArray (resolve insts.toArray entries)
    have some_leader : 0 < ls.length := List.length_pos_of_mem (zero_leader nonempty)
    have leader : ls[ls.length - 1]? = some ls[ls.length - 1] := List.getElem?_eq_getElem (by omega)
    obtain ⟨b, placed, start⟩ := exists_placed_of_leader (List.mem_of_getElem? leader)
    have id : b.id = ls.length - 1 := leader_inj (start ▸ placed.start) leader
    have beyond : ls[b.id + 1]? = none := List.getElem?_eq_none (by omega)
    refine ⟨b, ?_, ?_⟩
    · rw [Array.back?_eq_getElem?, size_blocks]
      exact getElem?_blocks_iff.2 ⟨placed, id⟩
    · rw [placed.stop, beyond]
      rfl
  adjacent k a b first second := by
    obtain ⟨placedA, rfl⟩ := getElem?_blocks_iff.1 first
    obtain ⟨placedB, next⟩ := getElem?_blocks_iff.1 second
    rw [placedA.stop, ← next, placedB.start]
    rfl
  within i bound := by
    obtain ⟨b, placed, inside⟩ := @exists_placed _ (resolve insts.toArray entries) _ bound
    refine ⟨b, ⟨mem_blocks_iff.2 placed, inside⟩, ?_⟩
    rintro c ⟨member, inside'⟩
    exact (mem_blocks_iff.1 member).eq_of_common placed inside' inside
  blockOf i b := by rw [blockOf?_eq_some_iff, mem_blocks_iff]
  ends b member i x low high here ends := by
    by_contra inside
    exact ends ((mem_blocks_iff.1 member).transfer?_inside low (by omega) here)
  cut j := by
    rw [← mem_leaders_iff_cut]
    constructor
    · rintro ⟨b, member, rfl⟩
      exact (mem_blocks_iff.1 member).start_leader
    · intro leader
      obtain ⟨b, placed, start⟩ := exists_placed_of_leader leader
      exact ⟨b, mem_blocks_iff.2 placed, start⟩
  entry b member := by
    rw [(mem_blocks_iff.1 member).isEntry]
    simp [resolve]
  succ b member e edge := by
    obtain ⟨c, placed, same⟩ := (mem_blocks_iff.1 member).succ_placed edge
    rw [size_blocks, ← same]
    exact (List.getElem?_eq_some_iff.1 placed.start).1

/-- A body with branches back, into the middle and to nowhere, a target named twice, and
instructions behind a return. -/
def patchwork : List RawInstruction :=
  [⟨0, ⟨0x16⟩, .none⟩, ⟨1, ⟨0x2D⟩, .int .int 5⟩, ⟨3, ⟨0x00⟩, .none⟩, ⟨4, ⟨0x16⟩, .none⟩,
   ⟨5, ⟨0x45⟩, .offsets [3, 99, 3, 1]⟩, ⟨26, ⟨0x2A⟩, .none⟩, ⟨27, ⟨0x16⟩, .none⟩, ⟨28, ⟨0x26⟩, .none⟩,
   ⟨29, ⟨0x2A⟩, .none⟩]

/-- Entries of `patchwork` out of order, one of them twice and one that is nowhere. -/
theorem ofBody_divides_patchwork :
    ∃ insts, decode patchwork = .ok insts ∧ insts ≠ [] ∧
      (ofBody [] insts [27, 4, 7, 4]).blocks.toList.map (fun b => (b.start, b.stop, b.isEntry)) =
        [(0, 1, true), (1, 2, false), (2, 3, false), (3, 4, true), (4, 5, false), (5, 6, false), (6, 9, true)] ∧
      (ofBody [] insts [27, 4, 7, 4]).Divides insts [27, 4, 7, 4] := by
  obtain ⟨insts, decoded, nonempty, spans⟩ : ∃ insts, decode patchwork = .ok insts ∧ insts ≠ [] ∧
      (ofBody [] insts [27, 4, 7, 4]).blocks.toList.map (fun b => (b.start, b.stop, b.isEntry)) =
        [(0, 1, true), (1, 2, false), (2, 3, false), (3, 4, true), (4, 5, false), (5, 6, false), (6, 9, true)] :=
    ⟨_, rfl, by decide, by decide +kernel⟩
  exact ⟨insts, decoded, nonempty, spans, ofBody_divides nonempty [] _⟩

end

end CilAudit.BlockGraph
