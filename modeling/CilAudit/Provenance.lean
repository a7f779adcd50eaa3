import CilAudit.BlockGraph

/-!
# Provenance

Which instruction pushed a value that another one takes from the evaluation stack. The
answer is found by walking back from the consumer while each instruction is entered only
from the one before it; a merge of paths or an unknown stack effect leaves it open.
-/

set_option autoImplicit false

namespace CilAudit

/-- How depths on the stack are counted. -/
inductive Counting where
  | exact
  /-- In 64 signed bits: past the largest number the count goes on from the least. -/
  | word
  deriving DecidableEq, Repr

/-- The depth in front of an instruction of the given effect, of what lies at `depth` behind it and is
none of its results. -/
def Counting.below (counting : Counting) (depth : Int) (e : Effect) : Int :=
  match counting with
  | exact => depth + (e.pop - e.push)
  | word => Int.bmod (depth + (e.pop - e.push)) 0x10000000000000000

/-- A body prepared for questions about the origin of values. -/
structure Provenance where
  body : Array Instruction
  /-- At `i`: is the stack on entry to `i` always the one that `i - 1` left? -/
  straight : Array Bool
  counting : Counting

namespace Provenance

def ofBody (instructions : List Instruction) (entries : List Int) : Provenance :=
  let g := BlockGraph.ofBody [] instructions entries
  ⟨g.body, (Array.range g.body.size).map g.straightLine, .exact⟩

/-- The same body, with depths counted in the given way. -/
def counted (p : Provenance) (counting : Counting) : Provenance := { p with counting }

def isStraight (p : Provenance) (i : Nat) : Bool := p.straight[i]?.getD false

/-- The instruction that pushed the value `depth` places below the top of the stack on entry
to the instruction at the given index. A depth below zero is taken for one among the results of
whatever instruction comes next. -/
def pusher? (p : Provenance) (depth : Int) : Nat → Option Nat
  | 0 => none
  | i + 1 =>
    if p.isStraight (i + 1) then
      match p.body[i]?.bind (·.effect?) with
      | some e => if depth < e.push then some i else p.pusher? (p.counting.below depth e) i
      | none => none
    else none

/-- The instruction that pushed the value at stack position `arg`, counted from the top, on
entry to `consumer`. -/
def producer? (p : Provenance) (consumer arg : Nat) : Option Nat :=
  if consumer < p.body.size then p.pusher? arg consumer else none

/-- The store that wrote local `slot` last on the straight way to the instruction at the given
index. Once the address of the local is taken on the way, no store is sure to be the last. -/
def lastStore? (p : Provenance) (slot : Nat) : Nat → Option Nat
  | 0 => none
  | i + 1 =>
    if p.isStraight (i + 1) then
      match p.body[i]?.map Instruction.action with
      | some (.storeLocal n) => if n = slot then some i else p.lastStore? slot i
      | some (.loadLocal n true) => if n = slot then none else p.lastStore? slot i
      | _ => p.lastStore? slot i
    else none

/-- The instruction that the value pushed by `i` was copied from by one `dup` or one read of a
local; `some none` if it is no copy, `none` if the source is open. -/
def copySource? (p : Provenance) (i : Nat) : Option (Option Nat) :=
  match p.body[i]? with
  | some ⟨_, _, code, .other _⟩ => if code = .dup then (p.producer? i 0).map some else some none
  | some ⟨_, _, _, .loadLocal slot false⟩ =>
    ((p.lastStore? slot i).bind fun store => p.producer? store 0).map some
  | _ => some none

/-- Follows copies back from `i`, fewer than `hops` of them. -/
def origin? (p : Provenance) : Nat → Nat → Option Nat
  | 0, _ => none
  | hops + 1, i =>
    match p.copySource? i with
    | none => none
    | some none => some i
    | some (some source) => p.origin? hops source

/-- The most copies that a value is followed through, and one more. -/
def maxHops : Nat := 16

/-- The instruction that computed the value at stack position `arg` on entry to `consumer`:
its producer, followed through copies. -/
def value? (p : Provenance) (consumer arg : Nat) : Option Nat :=
  (p.producer? consumer arg).bind (p.origin? maxHops)

/-! ## Questions in machine numbers

A question from outside gives its numbers in 64 signed bits, and depths are counted in the same way. -/

/-- As `producer?`, for any two numbers of 64 bits. -/
def wordProducer? (p : Provenance) (consumer arg : Int) : Option Nat :=
  if 0 ≤ consumer ∧ 0 ≤ arg then (p.counted .word).producer? consumer.toNat arg.toNat else none

/-- As `value?`, for any two numbers of 64 bits. -/
def wordValue? (p : Provenance) (consumer arg : Int) : Option Nat :=
  if 0 ≤ consumer ∧ 0 ≤ arg then (p.counted .word).value? consumer.toNat arg.toNat else none

end Provenance

end CilAudit
