import CilAudit.BlockGraph
import CilAudit.Proofs.OffsetLookup
import Mathlib.Data.List.Nodup

/-!
# Blocks as a partition of the body

The leaders ascend, and block number `k` runs from leader `k` up to the next one or to the end.
So a block is known by its number, every instruction lies in exactly one block, and no
block has a leader inside.
-/

set_option autoImplicit false

namespace CilAudit.BlockGraph

section

variable {body : Array Instruction} {entries : List Nat}

theorem mem_leaders {i : Nat} :
    i ∈ leaders body entries ↔
      i < body.size ∧ (i = 0 ∨ i ∈ entries ∨ i ∈ targets body ∨ (0 < i ∧ endsBlock body (i - 1) = true)) := by
  simp [leaders, or_assoc]

theorem leaders_ascend (body : Array Instruction) (entries : List Nat) :
    (leaders body entries).Pairwise (· < ·) :=
  List.pairwise_lt_range.filter _

/-- Leaders stand in the order of their numbers. -/
theorem leader_lt_iff {j k s t : Nat} (hs : (leaders body entries)[j]? = some s)
    (ht : (leaders body entries)[k]? = some t) : s < t ↔ j < k := by
  obtain ⟨hj, rfl⟩ := List.getElem?_eq_some_iff.1 hs
  obtain ⟨hk, rfl⟩ := List.getElem?_eq_some_iff.1 ht
  have ascend := List.pairwise_iff_getElem.1 (leaders_ascend body entries)
  rcases Nat.lt_trichotomy j k with less | rfl | more
  · exact ⟨fun _ => less, fun _ => ascend j k hj hk less⟩
  · simp
  · have := ascend k j hk hj more
    omega

theorem leader_inj {j k s : Nat} (hj : (leaders body entries)[j]? = some s)
    (hk : (leaders body entries)[k]? = some s) : j = k := by
  have before := leader_lt_iff hj hk
  have after := leader_lt_iff hk hj
  omega

/-- The number of a block is the place of its leader. -/
theorem idxOf?_leaders_eq_some_iff {k s : Nat} :
    (leaders body entries).idxOf? s = some k ↔ (leaders body entries)[k]? = some s := by
  rw [List.idxOf?_eq_some_iff]
  constructor
  · rintro ⟨hk, same, -⟩
    exact List.getElem?_eq_some_iff.2 ⟨hk, same⟩
  · intro hk
    obtain ⟨bound, same⟩ := List.getElem?_eq_some_iff.1 hk
    refine ⟨bound, same, fun j less same' => ?_⟩
    have := leader_inj (List.getElem?_eq_some_iff.2 ⟨by omega, same'⟩) hk
    omega

theorem getElem?_spans (size : Nat) (ls : List Nat) (k : Nat) :
    (spans size ls)[k]? = ls[k]?.map fun s => (s, (ls[k + 1]?).getD size) := by
  fun_induction spans size ls generalizing k with
  | case1 => simp
  | case2 start => cases k <;> simp
  | case3 start next rest ih =>
    cases k with
    | zero => simp
    | succ k => simpa using ih k

/-- The block with number `b.id` starts at the leader of that number and ends at the next; the
rest follows from its ends. -/
structure Placed (body : Array Instruction) (entries : List Nat) (b : Block) : Prop where
  start : (leaders body entries)[b.id]? = some b.start
  stop : b.stop = ((leaders body entries)[b.id + 1]?).getD body.size
  isEntry : b.isEntry = (b.start = 0 || entries.contains b.start)
  succs : b.succs = edges body (leaders body entries) b.stop
  isTerm : b.isTerm = terminates body b.stop
  preds : b.preds = sources (openBlocks body entries) b.id

theorem getElem?_openBlocks (body : Array Instruction) (entries : List Nat) (k : Nat) :
    (openBlocks body entries)[k]? = (leaders body entries)[k]?.map fun s =>
      let stop := ((leaders body entries)[k + 1]?).getD body.size
      { id := k, start := s, stop
        isEntry := s = 0 || entries.contains s
        succs := edges body (leaders body entries) stop
        isTerm := terminates body stop
        preds := [] } := by
  simp only [openBlocks, List.getElem?_map, List.getElem?_zipIdx, getElem?_spans]
  cases (leaders body entries)[k]? <;> simp

namespace Placed

variable {b c : Block}

/-- The same block before its incoming edges are known. -/
theorem mem_openBlocks (h : Placed body entries b) : { b with preds := [] } ∈ openBlocks body entries := by
  refine List.mem_of_getElem? (i := b.id) ?_
  rw [getElem?_openBlocks, h.start, h.isEntry, h.succs, h.isTerm, h.stop]
  rfl

theorem of_mem_openBlocks {o : Block} (h : o ∈ openBlocks body entries) :
    Placed body entries { o with preds := sources (openBlocks body entries) o.id } := by
  obtain ⟨k, hk⟩ := List.mem_iff_getElem?.1 h
  rw [getElem?_openBlocks] at hk
  obtain ⟨s, leader, rfl⟩ := Option.map_eq_some_iff.1 hk
  exact ⟨leader, rfl, rfl, rfl, rfl, rfl⟩

/-- Equal numbers, equal blocks. -/
theorem eq_of_id (hb : Placed body entries b) (hc : Placed body entries c) (h : b.id = c.id) : b = c := by
  have start : b.start = c.start := by
    have both := hc.start
    rw [← h, hb.start] at both
    exact Option.some.inj both
  have stop : b.stop = c.stop := by rw [hb.stop, hc.stop, h]
  obtain ⟨id, bstart, bstop, isEntry, succs, isTerm, preds⟩ := b
  obtain ⟨id', cstart, cstop, isEntry', succs', isTerm', preds'⟩ := c
  simp only at h start stop
  subst h start stop
  simp only [Block.mk.injEq, true_and]
  exact ⟨hb.isEntry.trans hc.isEntry.symm, hb.succs.trans hc.succs.symm,
    hb.isTerm.trans hc.isTerm.symm, hb.preds.trans hc.preds.symm⟩

theorem eq_of_start (hb : Placed body entries b) (hc : Placed body entries c) (h : b.start = c.start) :
    b = c :=
  hb.eq_of_id hc (leader_inj hb.start (h ▸ hc.start))

theorem start_leader (h : Placed body entries b) : b.start ∈ leaders body entries :=
  List.mem_of_getElem? h.start

theorem start_lt_stop (h : Placed body entries b) : b.start < b.stop := by
  rw [h.stop]
  cases next : (leaders body entries)[b.id + 1]? with
  | none => exact (mem_leaders.1 h.start_leader).1
  | some t => exact (leader_lt_iff h.start next).2 (Nat.lt_succ_self _)

theorem stop_le_size (h : Placed body entries b) : b.stop ≤ body.size := by
  rw [h.stop]
  cases next : (leaders body entries)[b.id + 1]? with
  | none => exact Nat.le_refl _
  | some t => exact Nat.le_of_lt (mem_leaders.1 (List.mem_of_getElem? next)).1

/-- A block that does not reach the end of the body ends where another starts. -/
theorem stop_leader (h : Placed body entries b) (inside : b.stop < body.size) :
    b.stop ∈ leaders body entries := by
  have stop := h.stop
  cases next : (leaders body entries)[b.id + 1]? with
  | none =>
    rw [next] at stop
    simp only [Option.getD_none] at stop
    omega
  | some t =>
    rw [next] at stop
    rw [stop]
    exact List.mem_of_getElem? next

theorem not_leader_inside (h : Placed body entries b) {i : Nat} (low : b.start < i) (high : i < b.stop) :
    i ∉ leaders body entries := by
  intro leader
  obtain ⟨k, hk⟩ := List.mem_iff_getElem?.1 leader
  have after : b.id < k := (leader_lt_iff h.start hk).1 low
  have stop := h.stop
  cases next : (leaders body entries)[b.id + 1]? with
  | none =>
    have bound := (List.getElem?_eq_some_iff.1 hk).1
    have := List.getElem?_eq_none_iff.1 next
    omega
  | some t =>
    rw [next] at stop
    have order := leader_lt_iff hk next
    simp only [Option.getD_some] at stop
    omega

theorem eq_of_common (hb : Placed body entries b) (hc : Placed body entries c) {i : Nat}
    (inb : b.start ≤ i ∧ i < b.stop) (inc : c.start ≤ i ∧ i < c.stop) : b = c := by
  apply hb.eq_of_start hc
  by_contra differ
  rcases Nat.lt_or_gt_of_ne differ with less | more
  · exact hb.not_leader_inside less (by omega) hc.start_leader
  · exact hc.not_leader_inside more (by omega) hb.start_leader

end Placed

/-- Every leader starts a block. -/
theorem exists_placed_of_leader {s : Nat} (leader : s ∈ leaders body entries) :
    ∃ b, Placed body entries b ∧ b.start = s := by
  obtain ⟨k, hk⟩ := List.mem_iff_getElem?.1 leader
  have atk := getElem?_openBlocks body entries k
  rw [hk, Option.map_some] at atk
  exact ⟨_, Placed.of_mem_openBlocks (List.mem_of_getElem? atk), rfl⟩

/-- Every instruction lies in a block: the one of the instruction before it, unless it is a
leader itself. -/
theorem exists_placed {i : Nat} (bound : i < body.size) :
    ∃ b, Placed body entries b ∧ b.start ≤ i ∧ i < b.stop := by
  induction i with
  | zero =>
    have leader : 0 ∈ leaders body entries := mem_leaders.2 ⟨bound, .inl rfl⟩
    obtain ⟨b, placed, start⟩ := exists_placed_of_leader leader
    have := placed.start_lt_stop
    exact ⟨b, placed, by omega, by omega⟩
  | succ i ih =>
    by_cases leader : i + 1 ∈ leaders body entries
    · obtain ⟨b, placed, start⟩ := exists_placed_of_leader leader
      have := placed.start_lt_stop
      exact ⟨b, placed, by omega, by omega⟩
    · obtain ⟨b, placed, low, high⟩ := ih (by omega)
      refine ⟨b, placed, by omega, ?_⟩
      by_contra past
      have stop : b.stop = i + 1 := by omega
      exact leader (stop ▸ placed.stop_leader (by omega))

end

section

variable {name : Text} {insts : List Instruction} {entries : List Int} {b : Block}

@[simp] theorem ofBody_body : (ofBody name insts entries).body = insts.toArray := rfl

theorem mem_blocks_iff :
    b ∈ (ofBody name insts entries).blocks ↔ Placed insts.toArray (resolve insts.toArray entries) b := by
  simp only [ofBody, List.mem_toArray, List.mem_map]
  constructor
  · rintro ⟨o, member, rfl⟩
    exact Placed.of_mem_openBlocks member
  · intro placed
    exact ⟨_, placed.mem_openBlocks, by rw [← placed.preds]⟩

/-- The block of an instruction is the one whose span holds it. -/
theorem blockOf?_eq_some_iff {i : Nat} :
    (ofBody name insts entries).blockOf? i = some b ↔
      Placed insts.toArray (resolve insts.toArray entries) b ∧ b.start ≤ i ∧ i < b.stop := by
  constructor
  · intro h
    have within := Array.find?_some h
    simp only [Bool.and_eq_true, decide_eq_true_eq] at within
    exact ⟨mem_blocks_iff.1 (Array.mem_of_find?_eq_some h), within⟩
  · rintro ⟨placed, within⟩
    obtain ⟨c, found⟩ : ∃ c, (ofBody name insts entries).blockOf? i = some c := by
      refine Option.isSome_iff_exists.1 (Array.find?_isSome.2 ⟨b, mem_blocks_iff.2 placed, ?_⟩)
      simpa using within
    have also := Array.find?_some found
    simp only [Bool.and_eq_true, decide_eq_true_eq] at also
    rw [found, placed.eq_of_common (mem_blocks_iff.1 (Array.mem_of_find?_eq_some found)) within also]

end

end CilAudit.BlockGraph
