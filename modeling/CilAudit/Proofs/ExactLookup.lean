import CilAudit.Proofs.LoadedBodies
import CilAudit.Proofs.SplitBodies

/-!
# Exact lookup of offsets

A body can be looked up by offset as soon as it was read or converted and then decoded: both ways leave
its offsets in ascending order, and so the search by halving finds an instruction wherever one stands, and
nothing elsewhere. In a body in any other order the search may miss, but it still ends inside the body,
and what it finds stands at the offset.
-/

set_option autoImplicit false

namespace CilAudit

/-- The instructions of a body as its bytes or its lines give them. -/
inductive RawInstruction.Accepted (raw : List RawInstruction) : Prop where
  | encoded (table : TokenTable) (code : Text) (read : read table code = .ok raw)
  | written (table : TokenTable) (lines : List Dump.Line) (converted : Dump.mnemonicBody table lines = .ok raw)

theorem RawInstruction.Accepted.inOrder {raw : List RawInstruction} (accepted : Accepted raw) : InOrder raw := by
  cases accepted with
  | encoded table code read => exact inOrder_of_read read
  | written table lines converted => exact Dump.inOrder_of_mnemonicBody converted

/-- The search misses only what stands nowhere. -/
theorem indexOf?_eq_none_iff {insts : List Instruction} (ascend : OffsetsAscend insts.toArray) {offset : Int} :
    indexOf? insts.toArray offset = none ↔ ∀ x ∈ insts, x.offset ≠ offset := by
  rw [Option.eq_none_iff_forall_ne_some]
  constructor
  · intro missed x member same
    obtain ⟨i, here⟩ := List.mem_iff_getElem?.1 member
    apply missed i
    rw [indexOf?_eq_some_iff ascend]
    exact ⟨x, by rw [List.getElem?_toArray, here], same⟩
  · intro absent i found
    obtain ⟨x, here, same⟩ := standsAt_of_indexOf? found
    rw [List.getElem?_toArray] at here
    exact absent x (List.mem_of_getElem? here) same

theorem eq_lowerBound_of_indexOf? {body : Array Instruction} {offset : Int} {i : Nat}
    (found : indexOf? body offset = some i) : i = lowerBound body offset := by
  simp only [indexOf?] at found
  split at found
  · split at found
    · exact (Option.some.inj found).symm
    · cases found
  · cases found

/-- In a body of any order the search comes to its end, and it looks at instructions of the body only. -/
theorem exists_halving_body (body : Array Instruction) (offset : Int) :
    ∃ probes, Halving (standsBefore body offset) 0 body.size probes (lowerBound body offset) := by
  apply exists_halving (Nat.zero_le body.size)
  intro i less
  exact ⟨_, standsBefore_of_getElem? (Array.getElem?_eq_getElem less) offset⟩

/-- **Offset lookup is exact.** In a body that was read or converted and then decoded, offsets start at zero or
later and ascend, and the search answers with an index if and only if the instruction there stands at the offset,
and with nothing if and only if no instruction does. In any list of instructions the search ends after at most as
many rounds as the length has binary digits; it looks at indexes of the list only, it ends at one or at the end
of the list, and an index that it answers with is that of an instruction at the offset. -/
theorem indexOf?_exact :
    (∀ (raw : List RawInstruction) (insts : List Instruction), RawInstruction.Accepted raw → decode raw = .ok insts →
      (∀ x ∈ insts, 0 ≤ x.offset) ∧ (insts.Pairwise fun x y => x.offset < y.offset) ∧
      ∀ offset : Int,
        (∀ i, indexOf? insts.toArray offset = some i ↔ StandsAt insts.toArray offset i) ∧
        (indexOf? insts.toArray offset = none ↔ ∀ x ∈ insts, x.offset ≠ offset)) ∧
    ∀ (body : Array Instruction) (offset : Int),
      (∃ probes, Halving (standsBefore body offset) 0 body.size probes (lowerBound body offset) ∧
        probes.length ≤ body.size.size ∧ ∀ p ∈ probes, p < body.size) ∧
      lowerBound body offset ≤ body.size ∧
      ∀ i, indexOf? body offset = some i → i = lowerBound body offset ∧ StandsAt body offset i := by
  constructor
  · intro raw insts accepted decoded
    have order := accepted.inOrder
    have ascend := order.offsetsAscend decoded
    refine ⟨order.nonneg_offset decoded, order.pairwise_offset decoded, fun offset => ⟨fun i => ?_, ?_⟩⟩
    · exact indexOf?_eq_some_iff ascend
    · exact indexOf?_eq_none_iff ascend
  · intro body offset
    obtain ⟨probes, run⟩ := exists_halving_body body offset
    obtain ⟨-, high, inside⟩ := run.within
    refine ⟨⟨probes, run, run.length_probes_le, fun p member => (inside p member).2⟩, high, fun i found => ?_⟩
    exact ⟨eq_lowerBound_of_indexOf? found, standsAt_of_indexOf? found⟩

/-- A constant, a branch over a comparison, whose opcode has two bytes, and a return. -/
def crossing : Text := [0x20, 5, 0, 0, 0, 0x2D, 2, 0xFE, 0x01, 0x2A]

def crossingBody : List RawInstruction :=
  [⟨0, ⟨0x20⟩, .int .int32 5⟩, ⟨5, ⟨0x2D⟩, .int .int 9⟩, ⟨7, ⟨0xFE01⟩, .none⟩, ⟨9, ⟨0x2A⟩, .none⟩]

/-- Two lines with a gap in front of each. -/
def sparse : List Dump.Line := [⟨2, "ldnull", .null⟩, ⟨30, "ret", .null⟩]

def sparseBody : List RawInstruction := [⟨2, ⟨0x14⟩, .none⟩, ⟨30, ⟨0x2A⟩, .none⟩]

/-- Three instructions in a wrong order. -/
def shuffled : Array Instruction :=
  #[⟨0, 9, ⟨0x2A⟩, .ret⟩, ⟨1, 4, ⟨0x14⟩, .loadNull⟩, ⟨2, 7, ⟨0x00⟩, .other .none⟩]

theorem indexOf?_exact_crossing :
    read {} crossing = .ok crossingBody ∧ Dump.mnemonicBody {} sparse = .ok sparseBody ∧
    (∃ insts, decode crossingBody = .ok insts ∧ indexOf? insts.toArray 7 = some 2 ∧
      indexOf? insts.toArray 8 = none ∧ insts.Pairwise fun x y => x.offset < y.offset) ∧
    (∃ insts, decode sparseBody = .ok insts ∧ indexOf? insts.toArray 30 = some 1 ∧
      indexOf? insts.toArray 0 = none ∧ insts.Pairwise fun x y => x.offset < y.offset) ∧
    indexOf? shuffled 9 = none ∧ indexOf? shuffled 7 = some 2 ∧ StandsAt shuffled 7 2 ∧
    ∃ probes, Halving (standsBefore shuffled 9) 0 3 probes (lowerBound shuffled 9) ∧ probes.length ≤ 2 := by
  have pieces : read {} crossing = .ok _ := readFrom_cons_eq_ok rfl <| readFrom_cons_eq_ok rfl <|
    readFrom_cons_eq_ok rfl <| readFrom_cons_eq_ok rfl <| readFrom_nil {} _
  have split : read {} crossing = .ok crossingBody := pieces.trans (congrArg Except.ok (by decide +kernel))
  have converted : Dump.mnemonicBody {} sparse = .ok sparseBody := by rfl
  obtain ⟨loaded, any⟩ := indexOf?_exact
  have crossed := loaded crossingBody _ (.encoded {} crossing split) rfl
  have spread := loaded sparseBody _ (.written {} sparse converted) rfl
  obtain ⟨⟨probes, run, rounds, -⟩, -, -⟩ := any shuffled 9
  refine ⟨split, converted, ⟨_, rfl, ?_, ?_, crossed.2.1⟩, ⟨_, rfl, ?_, ?_, spread.2.1⟩, ?_, ?_, ?_,
    probes, run, rounds⟩
  · exact ((crossed.2.2 7).1 2).2 ⟨_, rfl, rfl⟩
  · exact (crossed.2.2 8).2.2 (by decide)
  · exact ((spread.2.2 30).1 1).2 ⟨_, rfl, rfl⟩
  · exact (spread.2.2 0).2.2 (by decide)
  · decide +kernel
  · decide +kernel
  · exact ((any shuffled 7).2.2 2 (by decide +kernel)).2

end CilAudit
