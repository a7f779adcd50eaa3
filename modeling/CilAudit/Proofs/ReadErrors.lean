import CilAudit.Proofs.SplitBodies
import Mathlib.Logic.Relation

/-!
# Where reading fails

Reading as a loop over positions in the code. It looks at bytes one by one, each look is checked
against the end of the code, and what it has split off stands beside the position. The loop does what
reading does, so that no look of it is ever in vain. Where reading fails, the loop has come to the
place of the error with exactly the instructions that the code up to there is read as.
-/

set_option autoImplicit false

namespace CilAudit

/-- Why the loop over the code stops early. -/
inductive Stop where
  /-- It looked at a byte that is not there. -/
  | outside (index : Nat)
  /-- It found no instruction. -/
  | unreadable (error : ReadError)
  deriving DecidableEq, Repr

/-- How far the loop has come, and what it has split off. -/
structure Scan where
  pos : Nat
  out : List RawInstruction
  deriving DecidableEq, Repr

namespace Scan

/-- The byte at an index. -/
def byteAt (code : Text) (i : Nat) : Except Stop UInt8 := code[i]?.elim (.error (.outside i)) .ok

/-- The bytes from one index up to another. -/
def slice (code : Text) (lo hi : Nat) : Except Stop Text :=
  if lo ≤ hi ∧ hi ≤ code.length then .ok ((code.drop lo).take (hi - lo)) else .error (.outside hi)

/-- The first bytes, each looked at. -/
def leading (width : Nat) (bytes : Text) : Except Stop Text := (List.range width).mapM (byteAt bytes)

/-- The four bytes from an index on. -/
def wordAt (bytes : Text) (i : Nat) : Except Stop Text := do leading 4 (← slice bytes i bytes.length)

/-- The opcode at `start`, and the index behind it. -/
def opcodeAt (code : Text) (start : Nat) : Except Stop (Opcode × Nat) := do
  let b ← byteAt code start
  if b = 0xFE then
    if start + 1 < code.length then
      find ⟨0xFE00 + (← byteAt code (start + 1)).toUInt16⟩ (start + 2)
    else .error (.unreadable ⟨start, .truncatedOpcode⟩)
  else find ⟨b.toUInt16⟩ (start + 1)
where
  find (code : Code) (behind : Nat) : Except Stop (Opcode × Nat) :=
    match code.opcode? with
    | some o => .ok (o, behind)
    | none => .error (.unreadable ⟨start, .unknownOpcode code⟩)

/-- The number of bytes that the operand at `pos` takes, for an instruction at `start`. -/
def sizeAt (code : Text) (start pos : Nat) (kind : OperandKind) : Except Stop Nat :=
  if kind = .targetTable then
    if code.length < pos + 4 then .error (.unreadable ⟨start, .truncatedSwitch⟩)
    else do
      let count := littleEndian (← wordAt code pos)
      if (code.length - pos - 4) / 4 < count then .error (.unreadable ⟨start, .truncatedSwitchTable⟩)
      else .ok (4 + 4 * count)
  else .ok kind.size

/-- The operand with the given bytes, each looked at where it is needed. -/
def operandOf (table : TokenTable) (next : Nat) (bytes : Text) (kind : OperandKind) : Except Stop Operand :=
  if kind = .targetTable then do
    let count := littleEndian (← leading 4 bytes)
    let words ← (List.range count).mapM fun i => wordAt bytes (4 + 4 * i)
    return .offsets (words.map fun w => (next : Int) + littleEndianSigned w)
  else return readOperand table next (← leading kind.size bytes) kind

/-- One turn of the loop. -/
def advance (table : TokenTable) (code : Text) (s : Scan) : Except Stop Scan := do
  let found ← opcodeAt code s.pos
  let size ← sizeAt code s.pos found.2 found.1.operand
  if code.length < found.2 + size then .error (.unreadable ⟨s.pos, .truncatedOperand found.1.name⟩)
  else
    let bytes ← slice code found.2 (found.2 + size)
    let operand ← operandOf table (found.2 + size) bytes found.1.operand
    return ⟨found.2 + size, s.out ++ [⟨s.pos, found.1.code, operand⟩]⟩

/-! ## Looks that succeed -/

theorem byteAt_of_getElem? {code : Text} {i : Nat} {b : UInt8} (here : code[i]? = some b) : byteAt code i = .ok b := by
  rw [byteAt, here]
  rfl

theorem slice_of_le {code : Text} {lo hi : Nat} (order : lo ≤ hi) (inside : hi ≤ code.length) :
    slice code lo hi = .ok ((code.drop lo).take (hi - lo)) := if_pos ⟨order, inside⟩

theorem mapM_eq_ok_map {α β : Type} {f : α → Except Stop β} {g : α → β} {l : List α} (each : ∀ x ∈ l, f x = .ok (g x)) :
    l.mapM f = .ok (l.map g) := by
  induction l with
  | nil => rfl
  | cons x rest ih =>
    obtain ⟨first, later⟩ := List.forall_mem_cons.1 each
    rw [List.mapM_cons, first, ih later]
    rfl

theorem leading_of_le {width : Nat} {bytes : Text} (enough : width ≤ bytes.length) :
    leading width bytes = .ok (bytes.take width) := by
  have each : ∀ i ∈ List.range width, byteAt bytes i = .ok (bytes.getD i 0) := by
    intro i member
    have bound := List.mem_range.1 member
    apply byteAt_of_getElem?
    rw [List.getD_eq_getElem?_getD, List.getElem?_eq_getElem (by omega), Option.getD_some]
  rw [leading, mapM_eq_ok_map each]
  congr 1
  apply List.ext_getElem
  · simp [enough]
  · intro i low high
    simp only [List.length_map, List.length_range] at low
    simp [List.getElem?_eq_getElem (show i < bytes.length by omega)]

theorem wordAt_of_le {bytes : Text} {i : Nat} (enough : i + 4 ≤ bytes.length) :
    wordAt bytes i = .ok ((bytes.drop i).take 4) := by
  rw [wordAt, slice_of_le (by omega) (Nat.le_refl _), List.take_of_length_le (by simp)]
  exact leading_of_le (by rw [List.length_drop]; omega)

/-! ## The loop and the reader -/

section Loop

variable {table : TokenTable} {code : Text} {start pos : Nat} {b : UInt8} {bytes : Text}

/-- An instruction that cannot be cut off makes the loop stop where it stands. -/
def located {α : Type} (start : Nat) (x : Except ReadCause α) : Except Stop α :=
  x.mapError fun cause => .unreadable ⟨start, cause⟩

theorem length_of_drop (here : code.drop start = b :: bytes) : code.length = start + (b :: bytes).length := by
  have rest := congrArg List.length here
  simp only [List.length_drop, List.length_cons] at rest ⊢
  omega

theorem opcodeAt_eq (here : code.drop start = b :: bytes) :
    opcodeAt code start = (located start (cutOpcode b bytes)).map fun p => (p.1, code.length - p.2.length) := by
  have byte : byteAt code start = .ok b := byteAt_of_getElem? (by rw [← List.head?_drop, here]; rfl)
  have length := length_of_drop here
  rw [List.length_cons] at length
  simp only [opcodeAt, cutOpcode, byte, bind, Except.bind]
  by_cases two : b = 0xFE
  · cases bytes with
    | nil =>
      have short : ¬ start + 1 < code.length := by simp only [List.length_nil] at length; omega
      simp only [two, short, ↓reduceIte]
      rfl
    | cons second rest =>
      have long : start + 1 < code.length := by simp only [List.length_cons] at length; omega
      have next : byteAt code (start + 1) = .ok second := by
        apply byteAt_of_getElem?
        rw [← List.head?_drop, ← List.drop_drop, here]
        rfl
      have behind : start + 2 = code.length - rest.length := by simp only [List.length_cons] at length; omega
      simp only [two, long, next, ↓reduceIte, behind, opcodeAt.find]
      cases Code.opcode? ⟨0xFE00 + second.toUInt16⟩ <;> rfl
  · have behind : start + 1 = code.length - bytes.length := by omega
    simp only [two, ↓reduceIte, behind, opcodeAt.find]
    cases Code.opcode? ⟨b.toUInt16⟩ <;> rfl

theorem sizeAt_eq (inside : pos ≤ code.length) (kind : OperandKind) :
    sizeAt code start pos kind = located start (operandSize kind (code.drop pos)) := by
  unfold sizeAt operandSize
  by_cases table : kind = .targetTable
  · simp only [table, ↓reduceIte, List.length_drop]
    by_cases short : code.length < pos + 4
    · rw [if_pos short, if_pos (by omega)]
      rfl
    · rw [if_neg short, if_neg (by omega), wordAt_of_le (by omega)]
      simp only [bind, Except.bind]
      by_cases missing : (code.length - pos - 4) / 4 < littleEndian ((code.drop pos).take 4)
      · rw [if_pos missing, if_pos missing]
        rfl
      · rw [if_neg missing, if_neg missing]
        rfl
  · simp only [table, ↓reduceIte]
    rfl

/-- The words of a table, each from its own index. -/
theorem words32_eq_map {n : Nat} (whole : bytes.length = 4 * n) :
    words32 bytes = (List.range n).map fun i => (bytes.drop (4 * i)).take 4 := by
  induction n generalizing bytes with
  | zero =>
    obtain rfl : bytes = [] := List.length_eq_zero_iff.1 whole
    rfl
  | succ n ih =>
    have four : (bytes.take 4).length = 4 := by rw [List.length_take]; omega
    have rest := @ih (bytes.drop 4) (by rw [List.length_drop]; omega)
    nth_rewrite 1 [← List.take_append_drop 4 bytes]
    rw [words32_append four, rest, List.range_succ_eq_map, List.map_cons, List.map_map, Nat.mul_zero, List.drop_zero]
    congr 2
    funext i
    rw [Function.comp_apply, List.drop_drop, Nat.mul_succ, Nat.add_comm]

/-- An operand of the right size can be read without a look behind its end. -/
theorem operandOf_eq {kind : OperandKind} (sized : kind.shape.Sized bytes) (table : TokenTable) (next : Nat) :
    operandOf table next bytes kind = .ok (readOperand table next bytes kind) := by
  by_cases switch : kind = .targetTable
  · subst switch
    obtain ⟨least, length⟩ : 4 ≤ bytes.length ∧ bytes.length = 4 + 4 * littleEndian (bytes.take 4) := sized
    have each : ∀ i ∈ List.range (littleEndian (bytes.take 4)),
        wordAt bytes (4 + 4 * i) = .ok ((bytes.drop (4 + 4 * i)).take 4) := by
      intro i member
      have bound := List.mem_range.1 member
      exact wordAt_of_le (by omega)
    have words : words32 (bytes.drop 4) =
        (List.range (littleEndian (bytes.take 4))).map fun i => (bytes.drop (4 + 4 * i)).take 4 := by
      rw [words32_eq_map (n := littleEndian (bytes.take 4)) (by rw [List.length_drop]; omega)]
      simp only [List.drop_drop]
    simp only [operandOf, ↓reduceIte, leading_of_le least, mapM_eq_ok_map each, ← words, bind, Except.bind]
    rfl
  · have length := OperandKind.length_of_sized sized switch
    rw [operandOf, if_neg switch, leading_of_le (Nat.le_of_eq length.symm), List.take_of_length_le (Nat.le_of_eq length)]
    rfl

/-- **One turn of the loop** is one instruction cut off by the reader. -/
theorem advance_eq (table : TokenTable) (s : Scan) (here : code.drop s.pos = b :: bytes) :
    advance table code s = (located s.pos (cutInstruction b bytes)).map fun c =>
      ⟨s.pos + c.size, s.out ++ [c.placed table s.pos]⟩ := by
  have length := length_of_drop here
  rw [advance, opcodeAt_eq here, cutInstruction]
  cases opcode : cutOpcode b bytes with
  | error cause => rfl
  | ok found =>
    obtain ⟨o, rest⟩ := found
    obtain ⟨-, split⟩ := cutOpcode_eq_ok_iff.1 opcode
    -- Behind the opcode lies what the reader goes on with.
    have behind : code.length - rest.length = s.pos + Cut.opcodeSize o := by
      rw [length, split, List.length_append, length_code_bytes]
      omega
    have remains : code.drop (s.pos + Cut.opcodeSize o) = rest := by
      rw [← List.drop_drop, here, split, ← length_code_bytes, List.drop_left]
    have total : code.length = s.pos + Cut.opcodeSize o + rest.length := by
      rw [length, split, List.length_append, length_code_bytes, Nat.add_assoc]
    simp only [located, Except.mapError, Except.map, bind, Except.bind, behind, remains,
      sizeAt_eq (Nat.le.intro total.symm)]
    cases sized : operandSize o.operand rest with
    | error cause => rfl
    | ok size =>
      by_cases short : rest.length < size
      · simp only [if_pos short, if_pos (show code.length < s.pos + Cut.opcodeSize o + size by omega)]
      · have enough : size ≤ rest.length := Nat.le_of_not_lt short
        have operand := operandOf_eq ((operandSize_eq_ok_iff enough).1 sized) table (s.pos + Cut.opcodeSize o + size)
        have taken : slice code (s.pos + Cut.opcodeSize o) (s.pos + Cut.opcodeSize o + size) = .ok (rest.take size) := by
          rw [slice_of_le (Nat.le_add_right _ _) (by omega), remains, Nat.add_sub_cancel_left]
        have width : s.pos + Cut.size ⟨o, rest.take size, rest.drop size⟩ = s.pos + Cut.opcodeSize o + size := by
          rw [Cut.size, List.length_take_of_le enough, Nat.add_assoc]
        simp only [if_neg short, if_neg (show ¬ code.length < s.pos + Cut.opcodeSize o + size by omega), taken, operand,
          Cut.placed, width]
        rfl

theorem exists_cons_of_lt (inside : pos < code.length) : ∃ b bytes, code.drop pos = b :: bytes :=
  List.exists_cons_of_length_pos (by rw [List.length_drop]; omega)

/-- Behind a piece lies what it was cut off from. -/
theorem drop_of_cut {c : Cut} (here : code.drop pos = b :: bytes) (cut : cutInstruction b bytes = .ok c) :
    code.drop (pos + c.size) = c.rest ∧ pos + c.size ≤ code.length := by
  have split := here.trans (Cut.front_append_rest cut)
  have length := congrArg List.length split
  rw [List.length_drop, List.length_append, Cut.length_front] at length
  have size := c.size_pos
  refine ⟨?_, by omega⟩
  rw [← List.drop_drop, split, ← Cut.length_front, List.drop_left]

/-- A turn goes past the instruction that it splits off. -/
theorem exists_cut_of_advance {s t : Scan} (inside : s.pos < code.length) (step : advance table code s = .ok t) :
    ∃ b bytes c, code.drop s.pos = b :: bytes ∧ cutInstruction b bytes = .ok c ∧
      t = ⟨s.pos + c.size, s.out ++ [c.placed table s.pos]⟩ := by
  obtain ⟨b, bytes, here⟩ := exists_cons_of_lt inside
  rw [advance_eq table s here] at step
  cases cut : cutInstruction b bytes with
  | error cause =>
    rw [cut] at step
    cases step
  | ok c =>
    rw [cut] at step
    cases step
    exact ⟨b, bytes, c, here, cut, rfl⟩

theorem pos_lt_of_advance {s t : Scan} (inside : s.pos < code.length) (step : advance table code s = .ok t) :
    s.pos < t.pos := by
  obtain ⟨b, bytes, c, -, -, rfl⟩ := exists_cut_of_advance inside step
  exact Nat.lt_add_of_pos_right c.size_pos

end Loop

/-- The loop from a state on. -/
def scan (table : TokenTable) (code : Text) (s : Scan) : Except Stop (List RawInstruction) :=
  if inside : s.pos < code.length then
    match step : advance table code s with
    | .error stop => .error stop
    | .ok t =>
      have := pos_lt_of_advance inside step
      scan table code t
  else .ok s.out
termination_by code.length - s.pos

/-- One turn leads from one state to another. -/
def Turns (table : TokenTable) (code : Text) (s t : Scan) : Prop :=
  s.pos < code.length ∧ advance table code s = .ok t

section Run

variable {table : TokenTable} {code : Text}

/-- The loop does what the reader does with the rest of the code, and puts it behind what it has. -/
theorem scan_eq (table : TokenTable) {s : Scan} (inside : s.pos ≤ code.length) :
    scan table code s = ((readFrom table s.pos (code.drop s.pos)).mapError .unreadable).map (s.out ++ ·) := by
  fun_induction scan table code s with
  | case1 s less stop step =>
    obtain ⟨b, bytes, here⟩ := exists_cons_of_lt less
    rw [advance_eq table s here] at step
    cases cut : cutInstruction b bytes with
    | error cause =>
      rw [cut] at step
      cases step
      rw [here, readFrom_cons_of_refused table cut]
      rfl
    | ok c =>
      rw [cut] at step
      cases step
  | case2 s less t step later ih =>
    obtain ⟨b, bytes, c, here, cut, rfl⟩ := exists_cut_of_advance less step
    obtain ⟨rest, within⟩ := drop_of_cut here cut
    rw [ih within, here, Cut.front_append_rest cut, readFrom_front_append table cut]
    simp only [rest]
    cases readFrom table (s.pos + c.size) c.rest with
    | error e => rfl
    | ok raw => simp [Except.map, Except.mapError]
  | case3 s done =>
    rw [List.drop_of_length_le (Nat.le_of_not_lt done), readFrom_nil]
    simp [Except.map, Except.mapError]

/-- What is read of a part of the code is split off in as many turns. -/
theorem turns_of_readFrom {start : Nat} {front rest : Text} {raw out : List RawInstruction}
    (here : code.drop start = front ++ rest) (read : readFrom table start front = .ok raw) :
    Relation.ReflTransGen (Turns table code) ⟨start, out⟩ ⟨start + front.length, out ++ raw⟩ := by
  induction read using readFrom_induction generalizing out with
  | nil start =>
    rw [List.append_nil]
    exact .refl
  | cut start b bytes c later read readLater cut ih =>
    rw [Cut.front_append_rest cut, List.append_assoc] at here
    obtain ⟨b', bytes', again, cut'⟩ := Cut.exists_again cut (c.rest ++ rest)
    rw [again] at here
    have less : start < code.length := by
      rw [length_of_drop here, List.length_cons]
      omega
    have turn : Turns table code ⟨start, out⟩ ⟨start + c.size, out ++ [c.placed table start]⟩ :=
      ⟨less, by rw [advance_eq table ⟨start, out⟩ here, cut']; rfl⟩
    have further := @ih (out ++ [c.placed table start]) (drop_of_cut here cut').1
    rw [List.append_assoc, Nat.add_assoc] at further
    rw [Cut.front_append_rest cut, List.length_append, Cut.length_front]
    exact .head turn further

end Run

end Scan

/-- **A read error stands at the first instruction that cannot be read.** The code before it is read, as
what the loop has split off when it comes there, and no front of the code from there on is an
instruction. Behind a body that is read, another is read or refused as it is on its own, only further
on. And the loop never looks at a byte outside the code. -/
theorem read_located (table : TokenTable) :
    (∀ code e, read table code = .error e → e.offset < code.length ∧
      (∃ raw, read table (code.take e.offset) = .ok raw ∧
        Relation.ReflTransGen (Scan.Turns table code) ⟨0, []⟩ ⟨e.offset, raw⟩ ∧
        Scan.advance table code ⟨e.offset, raw⟩ = .error (.unreadable e)) ∧
      ∀ bytes, bytes <+: code.drop e.offset → ¬ WholeInstruction bytes) ∧
    (∀ a b raw, read table a = .ok raw →
      ((∃ e, read table (a ++ b) = .error e) ↔ ∃ e, read table b = .error e) ∧
      (∀ e, read table b = .error e → read table (a ++ b) = .error (e.shift a.length)) ∧
      ∀ later, read table b = .ok later → read table (a ++ b) = .ok (raw ++ later.map (·.shift a.length))) ∧
    ∀ code, Scan.scan table code ⟨0, []⟩ = (read table code).mapError .unreadable ∧
      ∀ i, Scan.scan table code ⟨0, []⟩ ≠ .error (.outside i) := by
  refine ⟨fun code e failed => ?_, fun a b raw done => ?_, fun code => ?_⟩
  · obtain ⟨front, b, bytes, raw, rfl, offset, before, refused⟩ := exists_of_readFrom_error failed
    rw [Nat.zero_add] at offset
    have here : (front ++ b :: bytes).drop e.offset = b :: bytes := by rw [offset, List.drop_left]
    refine ⟨by rw [offset]; simp, ⟨raw, by rwa [offset, List.take_left], ?_, ?_⟩, ?_⟩
    · simpa [offset] using @Scan.turns_of_readFrom table _ 0 front (b :: bytes) raw [] rfl before
    · rw [Scan.advance_eq table _ here, refused]
      rfl
    · intro start leads
      exact not_whole_of_refused refused (here ▸ leads)
  · have composed : read table (a ++ b) =
        (((read table b).mapError (·.shift a.length)).map (List.map (·.shift a.length))).map (raw ++ ·) := by
      rw [read, readFrom_append done, readFrom_shift]
      rfl
    rw [composed]
    cases read table b with
    | error e => simp [Except.map, Except.mapError]
    | ok later => simp [Except.map, Except.mapError]
  · have same : Scan.scan table code ⟨0, []⟩ = (read table code).mapError .unreadable := by
      rw [Scan.scan_eq table (Nat.zero_le _)]
      show ((read table code).mapError Stop.unreadable).map ([] ++ ·) = _
      cases read table code <;> rfl
    refine ⟨same, fun i => ?_⟩
    rw [same]
    cases read table code <;> simp [Except.mapError]

/-- A constant, and a table of targets that counts more of them than follow. -/
def overcounted : Text := [0x17, 0x45, 0xFF, 0xFF, 0xFF, 0xFF, 0, 0, 0, 0]

/-- A branch to itself. -/
def standstill : Text := [0x2B, 0xFE]

/-- A table with a target back to itself, and a return. -/
def detour : Text := [0x45, 1, 0, 0, 0, 0xF7, 0xFF, 0xFF, 0xFF, 0x2A]

theorem read_located_detour :
    read {} overcounted = .error ⟨1, .truncatedSwitchTable⟩ ∧
    (∃ raw, read {} (overcounted.take 1) = .ok raw ∧
      Relation.ReflTransGen (Scan.Turns {} overcounted) ⟨0, []⟩ ⟨1, raw⟩) ∧
    (∀ bytes, bytes <+: overcounted.drop 1 → ¬ WholeInstruction bytes) ∧
    read {} standstill = .ok [⟨0, ⟨0x2B⟩, .int .int 0⟩] ∧
    read {} (standstill ++ overcounted) = .error ⟨3, .truncatedSwitchTable⟩ ∧
    read {} detour = .ok [⟨0, ⟨0x45⟩, .offsets [0]⟩, ⟨9, ⟨0x2A⟩, .none⟩] ∧
    read {} (standstill ++ detour) =
      .ok [⟨0, ⟨0x2B⟩, .int .int 0⟩, ⟨2, ⟨0x45⟩, .offsets [2]⟩, ⟨11, ⟨0x2A⟩, .none⟩] := by
  have failed : read {} overcounted = .error ⟨1, .truncatedSwitchTable⟩ :=
    (readFrom_cons_of_cut {} rfl 0).trans (congrArg (Except.map _) (readFrom_cons_of_refused {} rfl 1))
  have pieces : read {} standstill = .ok _ := readFrom_cons_eq_ok rfl (readFrom_nil {} _)
  have still : read {} standstill = .ok [⟨0, ⟨0x2B⟩, .int .int 0⟩] :=
    pieces.trans (congrArg Except.ok (by decide +kernel))
  have pieces : read {} detour = .ok _ := readFrom_cons_eq_ok rfl <| readFrom_cons_eq_ok rfl <| readFrom_nil {} _
  have around : read {} detour = .ok [⟨0, ⟨0x45⟩, .offsets [0]⟩, ⟨9, ⟨0x2A⟩, .none⟩] :=
    pieces.trans (congrArg Except.ok (by decide +kernel))
  obtain ⟨errors, behind, -⟩ := read_located {}
  obtain ⟨-, ⟨raw, before, turns, -⟩, noFront⟩ := errors _ _ failed
  exact ⟨failed, ⟨raw, before, turns⟩, noFront, still, (behind _ _ _ still).2.1 _ failed, around,
    (behind _ _ _ still).2.2 _ around⟩

end CilAudit
