import CilAudit.Proofs.Producer
import Mathlib.Data.Nat.Find
import Mathlib.Order.Bounds.Defs

/-!
# The producer of a value, by running forward

What the backward walk looks for can be found by running forward: from the last index where nothing
is known about the stack, each instruction takes what it takes of the known entries and puts its
results on top. The walk with a depth of any size gives exactly the entry at the place asked for.
Counted in 64 bits it does so as long as the depths that it passes are numbers of 64 bits, and fails
to as soon as one of them is not.
-/

set_option autoImplicit false

namespace CilAudit

/-- No instruction leaves more than two results. -/
theorem Instruction.push_le_two (x : Instruction) {e : Effect} (effect : x.effect? = some e) : e.push ≤ 2 := by
  have rows : ∀ o ∈ Opcode.all, ∀ n ∈ o.push, n ≤ 2 := by decide +kernel
  unfold Instruction.effect? at effect
  split at effect
  case h_1 m virtual _ =>
    cases effect
    dsimp only
    split <;> omega
  case h_2 =>
    cases effect
    exact Nat.le_succ 1
  case h_3 =>
    simp only [Option.bind_eq_bind, Option.bind_eq_some_iff, Option.pure_def, Option.some.injEq] at effect
    obtain ⟨o, found, pop, -, push, pushed, rfl⟩ := effect
    exact rows o (Code.opcode?_eq_some_iff.1 found).1 push pushed

namespace Provenance

/-! ## Known entries -/

/-- The effect of the instruction at an index, if it is known. -/
def effectAt? (body : Array Instruction) (i : Nat) : Option Effect := body[i]?.bind (·.effect?)

/-- The entries known behind instruction `i`, top first: its results, on top of what it leaves of
those known before. Behind an unknown effect nothing is known. -/
def knownBehind (body : Array Instruction) (known : List Nat) (i : Nat) : List Nat :=
  (effectAt? body i).elim [] fun e => List.replicate e.push i ++ known.drop e.pop

/-- The entries known on entry to `c` if none is known on entry to `s`, each by the index of the
instruction that pushed it. -/
def knownFrom (body : Array Instruction) (s c : Nat) : List Nat :=
  (List.range' s (c - s)).foldl (knownBehind body) []

/-- The depth in front of instruction `i` of an entry that lies at `depth` behind it and is not one
of its results. -/
def depthInFront (body : Array Instruction) (i depth : Nat) : Nat :=
  (effectAt? body i).elim depth fun e => depth + e.pop - e.push

/-- The depth on entry to `i` of an entry that lies at `depth` on entry to `c` and was there before. -/
def depthAt (body : Array Instruction) (i c depth : Nat) : Nat :=
  (List.range' i (c - i)).foldr (depthInFront body) depth

section

variable {body : Array Instruction} {i s c depth : Nat} {e : Effect}

theorem range'_succ_sub (low : s ≤ c) : List.range' s (c + 1 - s) = List.range' s (c - s) ++ [c] := by
  rw [Nat.succ_sub low, List.range'_1_concat, Nat.add_sub_cancel' low]

@[simp] theorem knownFrom_self (body : Array Instruction) (s : Nat) : knownFrom body s s = [] := by
  simp [knownFrom]

theorem knownFrom_succ (low : s ≤ c) : knownFrom body s (c + 1) = knownBehind body (knownFrom body s c) c := by
  rw [knownFrom, range'_succ_sub low, List.foldl_append]
  rfl

/-- One instruction further, an entry is one of its results or was there before. -/
theorem getElem?_knownFrom_succ (low : s ≤ c) (effect : effectAt? body c = some e) :
    (knownFrom body s (c + 1))[depth]? =
      if depth < e.push then some c else (knownFrom body s c)[depth + e.pop - e.push]? := by
  rw [knownFrom_succ low, knownBehind, effect, Option.elim_some]
  split
  case isTrue among => rw [List.getElem?_append_left (by simpa using among), List.getElem?_replicate, if_pos among]
  case isFalse below =>
    rw [List.getElem?_append_right (by simpa using below), List.length_replicate, List.getElem?_drop]
    congr 1
    omega

@[simp] theorem depthAt_self (body : Array Instruction) (c depth : Nat) : depthAt body c c depth = depth := by
  simp [depthAt]

theorem depthAt_succ (low : i ≤ c) (effect : effectAt? body c = some e) :
    depthAt body i (c + 1) depth = depthAt body i c (depth + e.pop - e.push) := by
  rw [depthAt, range'_succ_sub low, List.foldr_append, depthAt, List.foldr_cons, List.foldr_nil,
    depthInFront, effect, Option.elim_some]

end

/-! ## Where the walk ends -/

/-- The walk back cannot pass `k`: the body begins there, or control comes there not only from the
instruction before, or what that one did to the stack is not known. -/
def Ends (insts : List Instruction) (entries : List Int) (k : Nat) : Prop :=
  k = 0 ∨ (BlockGraph.ofBody [] insts entries).straightLine k = false ∨ effectAt? insts.toArray (k - 1) = none

instance (insts : List Instruction) (entries : List Int) : DecidablePred (Ends insts entries) :=
  fun _ => inferInstanceAs (Decidable (_ ∨ _ ∨ _))

section

variable {insts : List Instruction} {entries : List Int} {s c i depth : Nat} {e : Effect}

theorem ends_succ_iff :
    Ends insts entries (i + 1) ↔
      (ofBody insts entries).isStraight (i + 1) = false ∨ effectAt? insts.toArray i = none := by
  rw [isStraight_eq_straightLine]
  simp [Ends]

/-- The last index up to `c` that the walk cannot pass. -/
theorem exists_last_end (insts : List Instruction) (entries : List Int) (c : Nat) :
    ∃ s, IsGreatest {k | k ≤ c ∧ Ends insts entries k} s := by
  classical
  refine ⟨Nat.findGreatest (Ends insts entries) c, ⟨Nat.findGreatest_le c, ?_⟩, ?_⟩
  · exact Nat.findGreatest_spec (Nat.zero_le c) (.inl rfl)
  · rintro k ⟨le, ends⟩
    exact Nat.le_findGreatest le ends

/-- From `c` the walk goes back to `s` and no further. -/
structure Stretch (insts : List Instruction) (entries : List Int) (s c : Nat) : Prop where
  le : s ≤ c
  ends : Ends insts entries s
  passes : ∀ k, s < k → k ≤ c → ¬ Ends insts entries k

theorem stretch_of_isGreatest (greatest : IsGreatest {k | k ≤ c ∧ Ends insts entries k} s) :
    Stretch insts entries s c where
  le := greatest.1.1
  ends := greatest.1.2
  passes k above le ends := by
    have := greatest.2 ⟨le, ends⟩
    omega

/-- A stretch is a point, or its last instruction is one that the walk steps over. -/
theorem Stretch.cases (stretch : Stretch insts entries s c) :
    s = c ∨ ∃ i e, c = i + 1 ∧ Stretch insts entries s i ∧
      (ofBody insts entries).isStraight (i + 1) = true ∧ effectAt? insts.toArray i = some e := by
  by_cases point : s = c
  · exact .inl point
  · have le := stretch.le
    obtain ⟨i, rfl⟩ : ∃ i, c = i + 1 := ⟨c - 1, by omega⟩
    have passed := stretch.passes (i + 1) (by omega) (Nat.le_refl _)
    rw [ends_succ_iff, not_or, Bool.not_eq_false] at passed
    obtain ⟨e, effect⟩ := Option.ne_none_iff_exists'.1 passed.2
    refine .inr ⟨i, e, rfl, ⟨by omega, stretch.ends, ?_⟩, passed.1, effect⟩
    intro k above below
    exact stretch.passes k above (by omega)

/-! ## The walk with a depth of any size -/

theorem pusher?_of_ends (ends : Ends insts entries s) (counting : Counting) (depth : Int) :
    ((ofBody insts entries).counted counting).pusher? depth s = none := by
  cases s with
  | zero => rfl
  | succ i =>
    by_contra found
    obtain ⟨q, found⟩ := Option.ne_none_iff_exists'.1 found
    obtain ⟨straight, x, e, here, effect, -⟩ := pusher?_succ_eq_some.1 found
    rcases ends_succ_iff.1 ends with bent | unknown
    · cases bent.symm.trans straight
    · have known : effectAt? insts.toArray i = some e := Option.bind_eq_some_iff.2 ⟨x, here, effect⟩
      cases unknown.symm.trans known

theorem pusher?_succ (straight : (ofBody insts entries).isStraight (i + 1) = true)
    (effect : effectAt? insts.toArray i = some e) (counting : Counting) (depth : Int) :
    ((ofBody insts entries).counted counting).pusher? depth (i + 1) =
      if depth < e.push then some i
      else ((ofBody insts entries).counted counting).pusher? (counting.below depth e) i := by
  have straight' : ((ofBody insts entries).counted counting).isStraight (i + 1) = true := straight
  have effect' : ((ofBody insts entries).counted counting).body[i]?.bind (·.effect?) = some e := effect
  rw [pusher?, if_pos straight', effect']
  rfl

/-- One step of the walk that counts exactly. -/
theorem exact_succ (straight : (ofBody insts entries).isStraight (i + 1) = true)
    (effect : effectAt? insts.toArray i = some e) (depth : Nat) :
    (ofBody insts entries).pusher? depth (i + 1) =
      if depth < e.push then some i else (ofBody insts entries).pusher? (depth + e.pop - e.push : Nat) i := by
  have step := pusher?_succ straight effect .exact depth
  by_cases among : depth < e.push
  · rw [if_pos among]
    rwa [if_pos (by omega)] at step
  · rw [if_neg among, ← below_exact (Nat.le_of_not_lt among)]
    rwa [if_neg (by omega)] at step

/-- **The walk back finds what a forward run knows.** -/
theorem Stretch.pusher?_eq (stretch : Stretch insts entries s c) :
    (ofBody insts entries).pusher? depth c = (knownFrom insts.toArray s c)[depth]? := by
  induction c generalizing depth with
  | zero =>
    obtain rfl : s = 0 := Nat.le_zero.1 stretch.le
    rw [knownFrom_self]
    rfl
  | succ c ih =>
    obtain rfl | ⟨i, e, same, shorter, straight, effect⟩ := stretch.cases
    · rw [knownFrom_self, List.getElem?_nil]
      exact pusher?_of_ends stretch.ends .exact depth
    · obtain rfl := Nat.succ.inj same
      rw [exact_succ straight effect, getElem?_knownFrom_succ shorter.le effect, ih shorter]

/-! ## The walk with a depth of 64 bits -/

/-- A depth that 64 signed bits hold is counted as it is. -/
theorem below_word (below : e.push ≤ depth) (fits : depth + e.pop - e.push < 0x8000000000000000) :
    Counting.word.below depth e = (depth + e.pop - e.push : Nat) := by
  rw [Counting.below, Int.bmod_eq_of_le_mul_two (by omega) (by omega)]
  omega

/-- One that they do not hold turns negative. -/
theorem below_word_neg (word : depth < 0x8000000000000000) (pop : e.pop < 0x8000000000000000)
    (wraps : 0x8000000000000000 ≤ depth + e.pop - e.push) : Counting.word.below depth e < 0 := by
  rw [Counting.below, Int.bmod_def]
  split <;> omega

theorem push_le_two (effect : effectAt? insts.toArray i = some e) : e.push ≤ 2 := by
  obtain ⟨x, -, effect⟩ := Option.bind_eq_some_iff.1 effect
  exact x.push_le_two effect

/-- What was pushed before `i` lies no deeper on entry to it than 64 signed bits can say, wherever
the walk passes. -/
def DepthsFit (body : Array Instruction) (s c depth : Nat) : Prop :=
  ∀ i, s < i → i < c → (knownFrom body i c)[depth]? = none → depthAt body i c depth < 0x8000000000000000

theorem depthsFit_of_among {body : Array Instruction} (effect : effectAt? body c = some e) (among : depth < e.push) :
    DepthsFit body s (c + 1) depth := by
  intro i low high absent
  rw [getElem?_knownFrom_succ (by omega) effect, if_pos among] at absent
  cases absent

/-- One instruction further, the depth in front of it has to fit too, unless the walk ends there. -/
theorem depthsFit_succ_iff {body : Array Instruction} (effect : effectAt? body c = some e) (below : ¬ depth < e.push) :
    DepthsFit body s (c + 1) depth ↔
      (s < c → depth + e.pop - e.push < 0x8000000000000000) ∧ DepthsFit body s c (depth + e.pop - e.push) := by
  constructor
  · intro fit
    constructor
    · intro low
      have here := fit c low (Nat.lt_succ_self c)
      rw [getElem?_knownFrom_succ (Nat.le_refl c) effect, if_neg below, knownFrom_self,
        depthAt_succ (Nat.le_refl c) effect, depthAt_self] at here
      exact here List.getElem?_nil
    · intro i low high absent
      have here := fit i low (Nat.lt_succ_of_lt high)
      rw [getElem?_knownFrom_succ (Nat.le_of_lt high) effect, if_neg below,
        depthAt_succ (Nat.le_of_lt high) effect] at here
      exact here absent
  · rintro ⟨last, fit⟩ i low high absent
    rw [getElem?_knownFrom_succ (Nat.le_of_lt_succ high) effect, if_neg below] at absent
    rw [depthAt_succ (Nat.le_of_lt_succ high) effect]
    rcases Nat.lt_or_ge i c with inside | reached
    · exact fit i low inside absent
    · obtain rfl : i = c := by omega
      rw [depthAt_self]
      exact last low

/-- As long as the depths fit, the walk in 64 bits is the walk. -/
theorem Stretch.word_eq (stretch : Stretch insts entries s c) (word : depth < 0x8000000000000000)
    (fit : DepthsFit insts.toArray s c depth) :
    ((ofBody insts entries).counted .word).pusher? depth c = (ofBody insts entries).pusher? depth c := by
  induction c generalizing depth with
  | zero => rfl
  | succ c ih =>
    obtain rfl | ⟨i, e, same, shorter, straight, effect⟩ := stretch.cases
    · rw [pusher?_of_ends stretch.ends]
      exact (pusher?_of_ends stretch.ends .exact depth).symm
    · obtain rfl := Nat.succ.inj same
      rw [pusher?_succ straight effect, exact_succ straight effect]
      by_cases among : depth < e.push
      · rw [if_pos (by omega), if_pos among]
      · obtain ⟨last, rest⟩ := (depthsFit_succ_iff effect among).1 fit
        rw [if_neg (by omega), if_neg among]
        rcases Nat.eq_or_lt_of_le shorter.le with rfl | low
        · -- The depth may wrap here, but the walk is over.
          rw [pusher?_of_ends shorter.ends]
          exact (pusher?_of_ends shorter.ends .exact _).symm
        · rw [below_word (by omega) (last low)]
          exact ih shorter (last low) rest

/-- Once a depth does not fit, the walk in 64 bits takes the next instruction for the producer, and
that is too late a one. -/
theorem Stretch.depthsFit_of_eq (stretch : Stretch insts entries s c) (word : depth < 0x8000000000000000)
    (arity : ∀ i e, effectAt? insts.toArray i = some e → e.pop < 0x8000000000000000)
    (same : ((ofBody insts entries).counted .word).pusher? depth c = (ofBody insts entries).pusher? depth c) :
    DepthsFit insts.toArray s c depth := by
  induction c generalizing depth with
  | zero =>
    intro i low high
    omega
  | succ c ih =>
    obtain rfl | ⟨i, e, next, shorter, straight, effect⟩ := stretch.cases
    · intro i low high
      omega
    · obtain rfl := Nat.succ.inj next
      by_cases among : depth < e.push
      · exact depthsFit_of_among effect among
      · rw [pusher?_succ straight effect, exact_succ straight effect, if_neg (by omega), if_neg among] at same
        rw [depthsFit_succ_iff effect among]
        by_cases fits : depth + e.pop - e.push < 0x8000000000000000
        · rw [below_word (by omega) fits] at same
          exact ⟨fun _ => fits, ih shorter fits same⟩
        · obtain rfl | ⟨j, e', rfl, -, straight', effect'⟩ := shorter.cases
          · refine ⟨fun low => absurd low (Nat.lt_irrefl _), ?_⟩
            intro i low high
            omega
          · have negative := below_word_neg word (arity _ _ effect) (Nat.le_of_not_lt fits)
            have two := push_le_two effect'
            rw [pusher?_succ straight' effect', exact_succ straight' effect', if_pos (by omega),
              if_neg (by omega)] at same
            exact absurd (pusher?_lt same.symm) (Nat.lt_irrefl j)

/-- For numbers that are not negative the question in 64 bits is put to the walk in 64 bits. -/
theorem wordProducer?_natCast (p : Provenance) (c a : Nat) :
    p.wordProducer? c a = (p.counted .word).producer? c a := by
  simp [wordProducer?]

/-- **The producer is what a forward run finds.** Run forward from the last index that the walk back
cannot pass. A walk with a depth of any size finds the entry at the place asked for and nothing else;
a walk in 64 bits does so if the depths fit, and, where every instruction takes fewer values than 64
bits can count, only if they fit. -/
theorem wordProducer?_forward (inside : c < insts.length) (word : depth < 0x8000000000000000) :
    ∃ s, IsGreatest {k | k ≤ c ∧ Ends insts entries k} s ∧
      (ofBody insts entries).producer? c depth = (knownFrom insts.toArray s c)[depth]? ∧
      (DepthsFit insts.toArray s c depth →
        (ofBody insts entries).wordProducer? c depth = (knownFrom insts.toArray s c)[depth]?) ∧
      ((∀ x ∈ insts, ∀ e, x.effect? = some e → e.pop < 0x8000000000000000) →
        (ofBody insts entries).wordProducer? c depth = (knownFrom insts.toArray s c)[depth]? →
          DepthsFit insts.toArray s c depth) := by
  obtain ⟨s, greatest⟩ := exists_last_end insts entries c
  have stretch := stretch_of_isGreatest greatest
  have any (k : Counting) :
      ((ofBody insts entries).counted k).producer? c depth = ((ofBody insts entries).counted k).pusher? depth c := by
    simp [producer?, counted, ofBody, inside]
  have exact : (ofBody insts entries).producer? c depth = (ofBody insts entries).pusher? depth c := any .exact
  refine ⟨s, greatest, ?_⟩
  rw [wordProducer?_natCast, any, exact, ← stretch.pusher?_eq]
  refine ⟨rfl, stretch.word_eq word, fun arity => stretch.depthsFit_of_eq word ?_⟩
  intro i e effect
  obtain ⟨x, here, effect⟩ := Option.bind_eq_some_iff.1 effect
  exact arity x (by simpa using Array.mem_of_getElem? here) e effect

end

/-- Two numbers, their sum, and an instruction that takes it. -/
def addition : List RawInstruction :=
  [⟨0, ⟨0x16⟩, .none⟩, ⟨1, ⟨0x17⟩, .none⟩, ⟨2, ⟨0x58⟩, .none⟩, ⟨3, ⟨0x26⟩, .none⟩]

/-- In `addition` the walk back goes to the first instruction, and a forward run knows the sum. -/
theorem addition_decoded :
    ∃ insts, decode addition = .ok insts ∧ insts.length = 4 ∧
      IsGreatest {k | k ≤ 3 ∧ Ends insts [] k} 0 ∧ knownFrom insts.toArray 0 3 = [2] ∧
      (∀ i < 3, depthAt insts.toArray i 3 0x7FFFFFFFFFFFFFFE < 0x8000000000000000) ∧
      (ofBody insts []).wordProducer? 3 0x7FFFFFFFFFFFFFFF = some 1 := by
  refine ⟨_, rfl, rfl, ⟨⟨Nat.zero_le 3, .inl rfl⟩, ?_⟩, by decide +kernel, by decide +kernel, by decide +kernel⟩
  rintro k ⟨le, ends⟩
  revert k
  decide +kernel

/-- The largest depth but one still fits everywhere on the way back from the sum. -/
theorem wordProducer?_forward_addition :
    ∃ insts s, decode addition = .ok insts ∧ 3 < insts.length ∧
      IsGreatest {k | k ≤ 3 ∧ Ends insts [] k} s ∧ DepthsFit insts.toArray s 3 0x7FFFFFFFFFFFFFFE ∧
      (ofBody insts []).wordProducer? 3 0x7FFFFFFFFFFFFFFE =
        (knownFrom insts.toArray s 3)[0x7FFFFFFFFFFFFFFE]? := by
  obtain ⟨insts, decoded, four, -, -, depths, -⟩ := addition_decoded
  obtain ⟨s, greatest, -, forward, -⟩ :=
    @wordProducer?_forward insts [] 3 0x7FFFFFFFFFFFFFFE (by omega) (by decide)
  have fit : DepthsFit insts.toArray s 3 0x7FFFFFFFFFFFFFFE := fun i _ high _ => depths i high
  exact ⟨insts, s, decoded, by omega, greatest, fit, forward fit⟩

/-- At the largest depth of all the sum makes the count wrap, and the number above it is taken for
what lies there, where a forward run knows of nothing. -/
theorem wordProducer?_wraps :
    ∃ insts, decode addition = .ok insts ∧ IsGreatest {k | k ≤ 3 ∧ Ends insts [] k} 0 ∧
      (knownFrom insts.toArray 0 3)[0x7FFFFFFFFFFFFFFF]? = none ∧
      (ofBody insts []).wordProducer? 3 0x7FFFFFFFFFFFFFFF = some 1 := by
  obtain ⟨insts, decoded, -, greatest, known, -, wrapped⟩ := addition_decoded
  refine ⟨insts, decoded, greatest, ?_, wrapped⟩
  rw [known]
  rfl

end Provenance

end CilAudit
