import CilAudit.Proofs.Producer

/-!
# Entries withdraw answers

An entry in the middle of a body cuts a block in two and gives all blocks behind it new numbers.
Whether an instruction is on a straight line is said by the single steps that lead to it, though, and
these do not know of entries. So an entry takes the instruction it is found at off the line and
leaves all others as they were, and a walk back that still succeeds goes the way it went without it.
-/

set_option autoImplicit false

namespace CilAudit

namespace BlockGraph

variable {body : Array Instruction} {insts : List Instruction} {entries more : List Int}

/-- The steps into an instruction stay the same; only the entries that are found at it count. -/
theorem onlyFrom_iff_of_subset (fewer : entries ⊆ more) {prev : Nat} :
    OnlyFrom body more prev ↔ OnlyFrom body entries prev ∧ ∀ o ∈ more, indexOf? body o ≠ some (prev + 1) := by
  constructor
  · intro way
    exact ⟨⟨fun o member => way.noEntry o (fewer member), way.step, way.only⟩, way.noEntry⟩
  · rintro ⟨way, noEntry⟩
    exact ⟨noEntry, way.step, way.only⟩

/-- Entries take off the line exactly the instructions that they are found at. -/
theorem straightLine_iff_of_subset (fewer : entries ⊆ more) (name : Text) (i : Nat) :
    (ofBody name insts more).straightLine i = true ↔
      (ofBody name insts entries).straightLine i = true ∧ ∀ o ∈ more, indexOf? insts.toArray o ≠ some i := by
  cases i with
  | zero => simp [straightLine]
  | succ prev => rw [straightLine_succ_iff, straightLine_succ_iff, onlyFrom_iff_of_subset fewer]

/-- An instruction on the line is no entry. -/
theorem no_entry_of_straightLine {name : Text} {i : Nat} (straight : (ofBody name insts entries).straightLine i = true) :
    ∀ o ∈ entries, indexOf? insts.toArray o ≠ some i := by
  cases i with
  | zero => cases straight
  | succ prev => exact (straightLine_succ_iff.1 straight).noEntry

end BlockGraph

namespace Provenance

/-- Both are about one body and count alike, and what is on a straight line for `q` is so for `p`. -/
structure Withholds (q p : Provenance) : Prop where
  body : q.body = p.body
  counting : q.counting = p.counting
  straight : ∀ i, q.isStraight i = true → p.isStraight i = true

namespace Withholds

variable {q p : Provenance}

/-- A walk that gets through gets through with more on the line, and ends at the same place. -/
theorem pusher? (h : q.Withholds p) {depth : Int} {i k : Nat} (found : q.pusher? depth i = some k) :
    p.pusher? depth i = some k := by
  induction i generalizing depth with
  | zero => cases found
  | succ i ih =>
    obtain ⟨straight, x, e, here, effect, rest⟩ := pusher?_succ_eq_some.1 found
    refine pusher?_succ_eq_some.2 ⟨h.straight _ straight, x, e, h.body ▸ here, effect, ?_⟩
    split at rest
    case isTrue among => rwa [if_pos among]
    case isFalse below =>
      rw [if_neg below, ← h.counting]
      exact ih rest

theorem lastStore? (h : q.Withholds p) {slot i store : Nat} (found : q.lastStore? slot i = some store) :
    p.lastStore? slot i = some store := by
  induction i with
  | zero => cases found
  | succ i ih =>
    rw [Provenance.lastStore?] at found ⊢
    split at found
    case isFalse => cases found
    case isTrue straight =>
      rw [if_pos (h.straight _ straight), ← h.body]
      split at found
      case h_1 n action =>
        split at found
        case isTrue same => rwa [if_pos same]
        case isFalse other =>
          rw [if_neg other]
          exact ih found
      case h_2 n action =>
        split at found
        case isTrue => cases found
        case isFalse other =>
          rw [if_neg other]
          exact ih found
      case h_3 => exact ih found

theorem producer? (h : q.Withholds p) {c a k : Nat} (found : q.producer? c a = some k) :
    p.producer? c a = some k := by
  obtain ⟨inside, walked⟩ := producer?_eq_some.1 found
  exact producer?_eq_some.2 ⟨h.body ▸ inside, h.pusher? walked⟩

/-- What a value was copied from is found by the two walks back. -/
theorem copySource? (h : q.Withholds p) {i : Nat} {source : Option Nat} (found : q.copySource? i = some source) :
    p.copySource? i = some source := by
  rw [Provenance.copySource?] at found ⊢
  rw [← h.body]
  split at found
  case h_1 =>
    split at found
    case isTrue dup =>
      obtain ⟨k, produced, rfl⟩ := Option.map_eq_some_iff.1 found
      rw [if_pos dup, h.producer? produced, Option.map_some]
    case isFalse other => rwa [if_neg other]
  case h_2 =>
    obtain ⟨k, both, rfl⟩ := Option.map_eq_some_iff.1 found
    obtain ⟨store, stored, produced⟩ := Option.bind_eq_some_iff.1 both
    rw [h.lastStore? stored, Option.bind_some, h.producer? produced, Option.map_some]
  case h_3 => exact found

theorem origin? (h : q.Withholds p) {hops i v : Nat} (found : q.origin? hops i = some v) :
    p.origin? hops i = some v := by
  induction hops generalizing i with
  | zero => cases found
  | succ hops ih =>
    rw [Provenance.origin?] at found ⊢
    cases copied : q.copySource? i with
    | none => simp [copied] at found
    | some source =>
      rw [h.copySource? copied]
      cases source with
      | none => simpa [copied] using found
      | some k => exact ih (by simpa [copied] using found)

theorem value? (h : q.Withholds p) {c a v : Nat} (found : q.value? c a = some v) : p.value? c a = some v := by
  obtain ⟨k, produced, traced⟩ := Option.bind_eq_some_iff.1 found
  exact Option.bind_eq_some_iff.2 ⟨k, h.producer? produced, h.origin? traced⟩

theorem counted (h : q.Withholds p) (counting : Counting) : (q.counted counting).Withholds (p.counted counting) :=
  ⟨h.body, rfl, h.straight⟩

theorem wordProducer? (h : q.Withholds p) {c a : Int} {k : Nat} (found : q.wordProducer? c a = some k) :
    p.wordProducer? c a = some k := by
  rw [Provenance.wordProducer?] at found ⊢
  split at found
  case isFalse => cases found
  case isTrue inside =>
    rw [if_pos inside]
    exact (h.counted .word).producer? found

theorem wordValue? (h : q.Withholds p) {c a : Int} {v : Nat} (found : q.wordValue? c a = some v) :
    p.wordValue? c a = some v := by
  rw [Provenance.wordValue?] at found ⊢
  split at found
  case isFalse => cases found
  case isTrue inside =>
    rw [if_pos inside]
    exact (h.counted .word).value? found

end Withholds

/-- With more entries less is on a straight line. -/
theorem withholds_of_subset {entries more : List Int} (fewer : entries ⊆ more) (insts : List Instruction) :
    (ofBody insts more).Withholds (ofBody insts entries) where
  body := rfl
  counting := rfl
  straight i straight := by
    rw [isStraight_eq_straightLine] at straight ⊢
    exact ((BlockGraph.straightLine_iff_of_subset fewer [] i).1 straight).1

/-- **Entries only withdraw answers.** What is answered with more entries is answered in the same way
with fewer, and the two differ on straight lines only at instructions where one of the additional
entries is found and none of the others. -/
theorem entries_withdraw {entries more : List Int} (fewer : entries ⊆ more) (insts : List Instruction) :
    (∀ c a v, (ofBody insts more).producer? c a = some v → (ofBody insts entries).producer? c a = some v) ∧
    (∀ c a v, (ofBody insts more).value? c a = some v → (ofBody insts entries).value? c a = some v) ∧
    (∀ c a v, (ofBody insts more).wordProducer? c a = some v →
      (ofBody insts entries).wordProducer? c a = some v) ∧
    (∀ c a v, (ofBody insts more).wordValue? c a = some v → (ofBody insts entries).wordValue? c a = some v) ∧
    ∀ name i, (BlockGraph.ofBody name insts more).straightLine i ≠
        (BlockGraph.ofBody name insts entries).straightLine i →
      (∃ o ∈ more, indexOf? insts.toArray o = some i) ∧ ∀ o ∈ entries, indexOf? insts.toArray o ≠ some i := by
  have withholds := withholds_of_subset fewer insts
  refine ⟨fun c a v => withholds.producer?, fun c a v => withholds.value?, fun c a v => withholds.wordProducer?,
    fun c a v => withholds.wordValue?, fun name i differ => ?_⟩
  have taken := @BlockGraph.straightLine_iff_of_subset insts _ _ fewer name i
  -- The two differ in one way only: an instruction on the line has been taken off it.
  have straight : (BlockGraph.ofBody name insts entries).straightLine i = true := by
    by_contra bent
    exact differ ((Bool.eq_false_iff.2 fun line => bent (taken.1 line).1).trans (Bool.eq_false_iff.2 bent).symm)
  refine ⟨?_, BlockGraph.no_entry_of_straightLine straight⟩
  by_contra nowhere
  exact differ ((taken.2 ⟨straight, fun o member found => nowhere ⟨o, member, found⟩⟩).trans straight.symm)

/-- A constant goes through a local, past an instruction that does nothing, and is copied. -/
def passage : List RawInstruction :=
  [⟨0, ⟨0x17⟩, .none⟩, ⟨1, ⟨0x0A⟩, .none⟩, ⟨2, ⟨0x00⟩, .none⟩, ⟨3, ⟨0x06⟩, .none⟩, ⟨4, ⟨0x25⟩, .none⟩,
   ⟨5, ⟨0x26⟩, .none⟩, ⟨6, ⟨0x26⟩, .none⟩, ⟨7, ⟨0x2A⟩, .none⟩]

/-- In `passage` an entry between the store and the load hides where the copied value comes from. The
copy itself and what was stored are still known. -/
theorem entries_withdraw_passage :
    ∃ insts, decode passage = .ok insts ∧ ([7] : List Int) ⊆ [2, 7, 99] ∧
      ((ofBody insts [2, 7, 99]).wordValue? 5 0 = none ∧ (ofBody insts [7]).wordValue? 5 0 = some 0) ∧
      ((ofBody insts [2, 7, 99]).wordProducer? 5 0 = some 4 ∧ (ofBody insts [7]).wordProducer? 5 0 = some 4) ∧
      ((ofBody insts [2, 7, 99]).wordValue? 1 0 = some 0 ∧ (ofBody insts [7]).wordValue? 1 0 = some 0) ∧
      ((BlockGraph.ofBody [] insts [2, 7, 99]).straightLine 2 ≠ (BlockGraph.ofBody [] insts [7]).straightLine 2 ∧
        ∃ o ∈ ([2, 7, 99] : List Int), indexOf? insts.toArray o = some 2) := by
  obtain ⟨insts, decoded, hidden, known, copied, stored, bent⟩ : ∃ insts, decode passage = .ok insts ∧
      (ofBody insts [2, 7, 99]).wordValue? 5 0 = none ∧ (ofBody insts [7]).wordValue? 5 0 = some 0 ∧
      (ofBody insts [2, 7, 99]).wordProducer? 5 0 = some 4 ∧ (ofBody insts [2, 7, 99]).wordValue? 1 0 = some 0 ∧
      (BlockGraph.ofBody [] insts [2, 7, 99]).straightLine 2 ≠ (BlockGraph.ofBody [] insts [7]).straightLine 2 :=
    ⟨_, rfl, by decide +kernel, by decide +kernel, by decide +kernel, by decide +kernel, by decide +kernel⟩
  have fewer : ([7] : List Int) ⊆ [2, 7, 99] := by simp
  obtain ⟨-, -, producer, value, differ⟩ := entries_withdraw fewer insts
  exact ⟨insts, decoded, fewer, ⟨hidden, known⟩, ⟨copied, producer 5 0 4 copied⟩, ⟨stored, value 1 0 0 stored⟩,
    bent, (differ [] 2 bent).1⟩

end Provenance

end CilAudit
