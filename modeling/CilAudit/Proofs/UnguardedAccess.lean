import CilAudit.Proofs.Origin
import CilAudit.Proofs.UnguardedBlocks
import CilAudit.Proofs.WrittenNumbers
import CilAudit.Rule.All

/-!
# Accesses that can fail

The tests on instructions once more, with every access as bare as it can be: an index is used as it
was computed, an argument is asked for at any number, even below zero, a pointer is followed and a
kind is taken for granted. The block graph that the walks back go by is made anew with accesses of the
same kind. An access that goes wrong breaks the test off. None does. The walks stay inside the body, what
is looked up at a distance is checked before, arguments are only asked for where there are parameters,
and so each test comes to the answer that it has without such accesses.
-/

set_option autoImplicit false

namespace CilAudit.Unguarded

open Rule (Finding)

/-! ## Accesses -/

section Accesses

variable {α β : Type}

/-- The member at an index, if that is one. -/
def look (l : Array α) (i : Int) : Except Text (Option α) :=
  if i < 0 ∨ l.size ≤ i then .ok none else do return some (← fetch l i)

/-- Goes on with what a search finds. -/
def withFound (search : Except Text (Option α)) (f : α → Except Text (Option β)) : Except Text (Option β) := do
  match ← search with
  | some a => f a
  | none => return none

theorem look_sub (l : Array α) (n distance : Nat) :
    look l (n - distance) = .ok (if distance ≤ n then l[n - distance]? else none) := by
  unfold look
  by_cases reaches : distance ≤ n
  · have place : (n - distance : Int) = (n - distance : Nat) := by omega
    rw [if_pos reaches, place]
    cases here : l[n - distance]? with
    | none =>
      rw [if_pos]
      have beyond := Array.getElem?_eq_none_iff.1 here
      omega
    | some a =>
      have bound := (Array.getElem?_eq_some_iff.1 here).1
      rw [if_neg (by omega), fetch_of_getElem? here]
      rfl
  · rw [if_neg reaches, if_pos (by omega)]

theorem withFound_some (a : α) (f : α → Except Text (Option β)) : withFound (.ok (some a)) f = f a := rfl

theorem withFound_eq {search : Except Text (Option α)} {o : Option α} {f : α → Except Text (Option β)}
    {g : α → Option β} (found : search = .ok o) (each : ∀ a, o = some a → f a = .ok (g a)) :
    withFound search f = .ok (o.bind g) := by
  subst found
  cases o with
  | none => rfl
  | some a => exact each a rfl

theorem and_eq {a b : Except Text Bool} {x y : Bool} (left : a = .ok x) (right : b = .ok y) :
    (a <&&> b) = .ok (x && y) := by
  subst left right
  cases x <;> rfl

theorem findSomeM?_eq {f : α → Except Text (Option β)} {g : α → Option β} {l : List α}
    (each : ∀ a ∈ l, f a = .ok (g a)) : l.findSomeM? f = .ok (l.findSome? g) := by
  induction l with
  | nil => rfl
  | cons a l ih =>
    have later := ih fun b member => each b (List.mem_cons_of_mem a member)
    rw [List.findSomeM?, each a List.mem_cons_self, later, List.findSome?_cons]
    cases g a <;> rfl

end Accesses

/-! ## Origins of values -/

section Origins

variable (p : Provenance)

/-- The walk back to the instruction that pushed a value. -/
def pusher (depth : Int) : Nat → Except Text (Option Nat)
  | 0 => .ok none
  | i + 1 =>
    if p.isStraight (i + 1) then do
      match (← fetch p.body i).effect? with
      | some e => if depth < e.push then return some i else pusher (p.counting.below depth e) i
      | none => return none
    else .ok none

def producer (consumer arg : Int) : Except Text (Option Nat) :=
  if consumer ≤ 0 ∨ p.body.size ≤ consumer ∨ arg < 0 then .ok none else pusher p arg consumer.toNat

/-- The walk back to the store that wrote a local last. -/
def lastStore (slot : Nat) : Nat → Except Text (Option Nat)
  | 0 => .ok none
  | i + 1 =>
    if p.isStraight (i + 1) then do
      match (← fetch p.body i).action with
      | .storeLocal n => if n = slot then return some i else lastStore slot i
      | .loadLocal n true => if n = slot then return none else lastStore slot i
      | _ => lastStore slot i
    else .ok none

/-- Where a value was copied from, if it is a copy. -/
def copySource (i : Nat) : Except Text (Option (Option Nat)) := do
  let x ← fetch p.body i
  match x.action with
  | .other _ => if x.code = .dup then return (← producer p i 0).map some else return some none
  | .loadLocal slot false =>
    return (← withFound (lastStore p slot i) fun store => producer p store 0).map some
  | _ => return some none

/-- Follows copies back. -/
def origin : Nat → Nat → Except Text (Option Nat)
  | 0, _ => .ok none
  | hops + 1, i => do
    match ← copySource p i with
    | none => return none
    | some none => return some i
    | some (some source) => origin hops source

def value (consumer arg : Int) : Except Text (Option Nat) :=
  withFound (producer p consumer arg) (origin p Provenance.maxHops)

variable {p}

theorem exists_of_lt {i : Nat} (inside : i < p.body.size) : ∃ x, p.body[i]? = some x :=
  ⟨_, Array.getElem?_eq_getElem inside⟩

/-- The walk looks at what is before the consumer only, and so stays inside the body. -/
theorem pusher_eq {i : Nat} (inside : i ≤ p.body.size) (depth : Int) : pusher p depth i = .ok (p.pusher? depth i) := by
  induction i generalizing depth with
  | zero => rfl
  | succ i ih =>
    obtain ⟨x, here⟩ := exists_of_lt (p := p) (i := i) (by omega)
    rw [pusher, Provenance.pusher?]
    split
    · simp only [fetch_of_getElem? here, here, Option.bind_some, ok_bind]
      cases x.effect? with
      | none => rfl
      | some e =>
        simp only [ih (by omega)]
        split <;> rfl
    · rfl

theorem producer_eq (consumer arg : Nat) : producer p consumer arg = .ok (p.producer? consumer arg) := by
  unfold producer Provenance.producer?
  by_cases inside : consumer < p.body.size
  · rw [if_pos inside]
    cases consumer with
    | zero => rfl
    | succ n =>
      rw [if_neg (by omega)]
      exact pusher_eq (by omega) arg
  · rw [if_neg inside, if_pos (by omega)]

/-- The same for the value on top. -/
theorem producer_top (consumer : Nat) : producer p consumer 0 = .ok (p.producer? consumer 0) := producer_eq consumer 0

theorem lastStore_eq {i : Nat} (inside : i ≤ p.body.size) (slot : Nat) :
    lastStore p slot i = .ok (p.lastStore? slot i) := by
  induction i with
  | zero => rfl
  | succ i ih =>
    obtain ⟨x, here⟩ := exists_of_lt (p := p) (i := i) (by omega)
    have later := ih (by omega)
    rw [lastStore, Provenance.lastStore?]
    split
    · simp only [fetch_of_getElem? here, here, Option.map_some, bind, Except.bind]
      cases x.action with
      | storeLocal n =>
        dsimp only
        split
        · rfl
        · exact later
      | loadLocal n address =>
        cases address with
        | false => exact later
        | true =>
          dsimp only
          split
          · rfl
          · exact later
      | _ => exact later
    · rfl

theorem copySource_eq {i : Nat} (inside : i < p.body.size) : copySource p i = .ok (p.copySource? i) := by
  obtain ⟨⟨index, offset, code, action⟩, here⟩ := exists_of_lt inside
  rw [copySource, Provenance.copySource?, fetch_of_getElem? here, here]
  simp only [bind, Except.bind]
  cases action with
  | other operand =>
    simp only [producer_top]
    split <;> rfl
  | loadLocal slot address =>
    cases address with
    | true => rfl
    | false =>
      have stored : withFound (lastStore p slot i) (fun store => producer p store 0) =
          .ok ((p.lastStore? slot i).bind fun store => p.producer? store 0) :=
        withFound_eq (lastStore_eq (Nat.le_of_lt inside) slot) fun store _ => producer_top store
      simp only [stored]
      rfl
  | _ => rfl

/-! What is found lies in the body. -/

theorem lt_size_of_producer? {consumer arg q : Nat} (found : p.producer? consumer arg = some q) : q < p.body.size :=
  Nat.lt_trans (Provenance.producer?_lt found) (Provenance.producer?_eq_some.1 found).1

theorem lt_size_of_origin? {hops i q : Nat} (inside : i < p.body.size) (found : p.origin? hops i = some q) :
    q < p.body.size := by
  induction hops generalizing i with
  | zero => cases found
  | succ hops ih =>
    rw [Provenance.origin?] at found
    split at found
    case h_1 => cases found
    case h_2 => exact Option.some.inj found ▸ inside
    case h_3 copied => exact ih (Nat.lt_trans (Provenance.copySource?_lt copied) inside) found

theorem lt_size_of_value? {consumer arg q : Nat} (found : p.value? consumer arg = some q) : q < p.body.size := by
  obtain ⟨source, produced, followed⟩ := Option.bind_eq_some_iff.1 found
  exact lt_size_of_origin? (lt_size_of_producer? produced) followed

theorem origin_eq {i : Nat} (inside : i < p.body.size) (hops : Nat) : origin p hops i = .ok (p.origin? hops i) := by
  induction hops generalizing i with
  | zero => rfl
  | succ hops ih =>
    rw [origin, Provenance.origin?, copySource_eq inside]
    simp only [bind, Except.bind]
    cases copied : p.copySource? i with
    | none => rfl
    | some source =>
      cases source with
      | none => rfl
      | some source => exact ih (Nat.lt_trans (Provenance.copySource?_lt copied) inside)

theorem value_eq (consumer arg : Nat) : value p consumer arg = .ok (p.value? consumer arg) :=
  withFound_eq (producer_eq consumer arg) fun _ found => origin_eq (lt_size_of_producer? found) _

end Origins

/-! ## Instructions and arguments -/

section Arguments

/-- The place of an argument on the stack, which is below zero if there is no such parameter. -/
def argumentAt (r : MethodRef) (n : Nat) : Int := r.params.length - 1 - n

theorem argumentAt_eq {r : MethodRef} {n : Nat} (param : n < r.params.length) : argumentAt r n = r.depthOfParam n := by
  unfold argumentAt MethodRef.depthOfParam
  omega

variable (c : MethodContext)

/-- The body of the method under way, prepared for questions about the origin of values. -/
def tracker : Except Text Provenance := do
  let body ← follow c.method.body
  provenance c.provenance.body.toList body.entries

def producerAt (consumer arg : Int) : Except Text (Option Instruction) := do
  let p ← tracker c
  withFound (producer p consumer arg) fun q => do return some (← fetch c.provenance.body q)

def valueAt (consumer arg : Int) : Except Text (Option Instruction) := do
  let p ← tracker c
  withFound (value p consumer arg) fun q => do return some (← fetch c.provenance.body q)

/-- The body of the method is at hand, and each instruction of it knows its index. -/
structure Ready : Prop where
  tracked : tracker c = .ok c.provenance
  indexed : ∀ (k : Nat) (x : Instruction), c.provenance.body[k]? = some x → x.index = k

variable {c}

/-- An index inside the body can be used. -/
theorem fetch_found {search : Except Text (Option Nat)} {o : Option Nat} (found : search = .ok o)
    (inside : ∀ q, o = some q → q < c.provenance.body.size) :
    withFound search (fun q => do return some (← fetch c.provenance.body q)) =
      .ok (o.bind (c.provenance.body[·]?)) := by
  apply withFound_eq found
  intro q source
  obtain ⟨x, here⟩ := exists_of_lt (inside q source)
  rw [fetch_of_getElem? here, here]
  rfl

theorem Ready.producerAt_eq (ready : Ready c) (consumer arg : Nat) :
    producerAt c consumer arg = .ok (c.producer? consumer arg) := by
  rw [producerAt, ready.tracked, ok_bind]
  exact fetch_found (producer_eq consumer arg) fun _ found => lt_size_of_producer? found

theorem Ready.valueAt_eq (ready : Ready c) (consumer arg : Nat) :
    valueAt c consumer arg = .ok (c.value? consumer arg) := by
  rw [valueAt, ready.tracked, ok_bind]
  exact fetch_found (value_eq consumer arg) fun _ found => lt_size_of_value? found

end Arguments

/-! ## Tests -/

/-- The call that an instruction is. -/
def callOf (i : Instruction) : Except Text MethodRef :=
  match i.action with
  | .call r _ => .ok r
  | _ => .error "not a call"

section Distances

variable (c : MethodContext) (i : Instruction)

def holdsBack (distance : Nat) (p : Instruction → Bool) : Except Text Bool := do
  return (← look c.provenance.body (i.index - distance)).any p

def storedAndRead (store load : Nat) : Except Text Bool := do
  let s ← look c.provenance.body (i.index - store)
  let l ← look c.provenance.body (i.index - load)
  return s.any fun s => l.any s.storesFor

def comparesIndexOf : Except Text (Option Finding) :=
  let zeroAt := fun d => holdsBack c i d Instruction.isZero
  let callAt := fun d => holdsBack c i d Instruction.isIndexOf
  let found := fun what : Text => Except.ok (some (Finding.mk what []))
  match i.action with
  | .branchIf _ .le _ => do
    if ← zeroAt 1 <&&> (storedAndRead c i 3 2 <&&> callAt 4) then found "stored IndexOf <= 0"
    else if ← zeroAt 1 <&&> callAt 2 then found "IndexOf <= 0"
    else return none
  | .branchIf _ .ge _ => do
    if ← zeroAt 2 <&&> (storedAndRead c i 3 1 <&&> callAt 4) then found "0 >= stored IndexOf"
    else return none
  | .branchIf .. => .ok none
  | .compare .gt _ => do
    if !(← zeroAt 1) then return none
    else if ← storedAndRead c i 3 2 <&&> callAt 4 then found "stored IndexOf > 0"
    else if ← callAt 2 then found "IndexOf > 0"
    else return none
  | .compare .. => .ok none
  | _ => .error "neither a conditional branch nor a comparison"

end Distances

section Calls

variable (c : MethodContext) (i : Instruction)

def callsItself : Except Text (Option Finding) := do
  let _ ← callOf i
  return Rule.callsItself c i

def sleepsZero : Except Text (Option Finding) := do
  let r ← callOf i
  if r.isNamed "System.Threading.Thread" "Sleep" && r.params.length = 1 then
    if (← fetch r.params.toArray 0) = Text.ofString "System.Int32" then
      return if (← valueAt c i.index (argumentAt r 0)).any Instruction.isZero then some ⟨"Sleep(0)", []⟩ else none
    else return none
  else return none

def byteIs (t : Text) (i : Int) (b : UInt8) : Except Text Bool := do
  return (← fetch t.toArray i) = b

def isBefore (b : UInt8) (t : Text) (n : Nat) : Except Text Bool :=
  if 0 < n then byteIs t (n - 1) b else .ok false

def isBehind (b : UInt8) (t : Text) (n : Nat) : Except Text Bool :=
  if n + 1 < t.length then byteIs t (n + 1) b else .ok false

/-- The bytes on both sides of the first slash are looked at where there are any. -/
def hasPathSeparator (t : Text) : Except Text Bool :=
  if t.contains "\\" then .ok true
  else
    match t.idxOf? 0x2F with
    | none => .ok false
    | some n => do return !(← isBefore 0x3C t n) && !(← isBehind 0x2F t n)

/-- The literal that an instruction loads. -/
def literalOf? (x : Instruction) : Option Text :=
  match x.action with
  | .loadString t => some t
  | _ => none

def pathLiteral (r : MethodRef) : Except Text (Option Text) :=
  (List.range r.params.length).findSomeM? fun n =>
    withFound (producerAt c i.index (argumentAt r n)) fun x =>
      withFound (.ok (literalOf? x)) fun t => do return if ← hasPathSeparator t then some t else none

def concatsPath : Except Text (Option Finding) := do
  let r ← callOf i
  if r.isNamed "System.String" "Concat" && r.returnType = "System.String" then
    return (← pathLiteral c i r).map fun t => ⟨"concat of " ++ t, []⟩
  else return none

def createsNamedLock : Except Text (Option Finding) :=
  match i.action with
  | .newObject _ => .ok (Rule.createsNamedLock c i)
  | _ => .error "not an object creation"

def locksThis : Except Text (Option Finding) := do
  let r ← callOf i
  if !c.method.isStatic && r.isNamed "System.Threading.Monitor" "Enter" && !r.params.isEmpty then
    let locked ← valueAt c i.index (argumentAt r 0)
    return if locked.any (·.action = .loadArg 0 false) then some ⟨"Monitor.Enter(this)", []⟩ else none
  else return none

def decodesText (r : MethodRef) : Except Text Bool :=
  if r.isNamed "System.Convert" "FromBase64String" then .ok true
  else if r.name = "GetBytes" && r.declaringType.startsWith "System.Text." && r.params.length = 1 then do
    return (← fetch r.params.toArray 0) = Text.ofString "System.String"
  else .ok false

/-- The literal behind a stack position. The decoding call is asked for its argument by the index found. -/
def literal (consumer arg : Int) : Except Text (Option Text) := do
  let p ← tracker c
  withFound (value p consumer arg) fun q => do
    let x ← fetch c.provenance.body q
    match x.action with
    | .call r _ => if ← decodesText r then withFound (valueAt c q 0) fun x => .ok (literalOf? x) else return none
    | _ => return literalOf? x

def passesKey : Except Text (Option Finding) := do
  let r ← demand "neither a call nor an object creation" i.callee?
  if r.declaringType.startsWith "System.Security.Cryptography." then
    (List.range r.params.length).findSomeM? fun n =>
      withFound (literal c i.index (argumentAt r n)) fun t =>
        return (Rule.keyMaterial? t).map fun detail =>
          ⟨"literal key for " ++ r.declaringType ++ "::" ++ r.name, detail⟩
  else return none

end Calls

/-! ## The tests do not fail -/

/-- On instructions of these kinds, the test with bare accesses comes to an end, and to the answer of the other. -/
def Agrees (kinds : List Kind) (bare : MethodContext → Instruction → Except Text (Option Finding))
    (test : MethodContext → Instruction → Option Finding) : Prop :=
  ∀ c i, Ready c → i.kind ∈ kinds → bare c i = .ok (test c i)

section Agreement

variable {c : MethodContext} {i : Instruction}

theorem holdsBack_eq (distance : Nat) (p : Instruction → Bool) :
    holdsBack c i distance p = .ok (Rule.holdsBack c i.index distance p) := by
  rw [holdsBack, look_sub]
  rfl

theorem storedAndRead_eq (store load : Nat) :
    storedAndRead c i store load = .ok (Rule.storedAndRead c i.index store load) := by
  rw [storedAndRead, look_sub, look_sub, Rule.storedAndRead, MethodContext.back?, MethodContext.back?]
  generalize (if store ≤ i.index then c.provenance.body[i.index - store]? else none) = s
  generalize (if load ≤ i.index then c.provenance.body[i.index - load]? else none) = l
  cases s <;> cases l <;> rfl

theorem agrees_comparesIndexOf : Agrees [.branchIf, .compare] comparesIndexOf Rule.comparesIndexOf := by
  intro c i _ known
  have isZero (d : Nat) := holdsBack_eq (c := c) (i := i) d Instruction.isZero
  have isIndexOf (d : Nat) := holdsBack_eq (c := c) (i := i) d Instruction.isIndexOf
  have stored (d e : Nat) := storedAndRead_eq (c := c) (i := i) d e
  simp only [comparesIndexOf, Rule.comparesIndexOf, isZero, isIndexOf, stored, and_eq rfl rfl, ← Bool.and_assoc]
  cases action : i.action with
  | branchIf target cond unsigned =>
    cases cond with
    | le | ge =>
      simp only [apply_ite Except.ok]
      rfl
    | _ => rfl
  | compare cond unsigned =>
    cases cond with
    | gt =>
      simp only [apply_ite Except.ok]
      rfl
    | _ => rfl
  | _ => simp [Instruction.kind, action, Action.kind] at known

theorem callOf_eq {r : MethodRef} {virtual : Bool} (action : i.action = .call r virtual) : callOf i = .ok r := by
  simp only [callOf, action]

/-- An instruction that is visited as a call is one. -/
theorem exists_call (known : i.kind ∈ [Kind.call]) : ∃ r virtual, i.action = .call r virtual := by
  rw [List.mem_singleton, Instruction.kind] at known
  cases action : i.action with
  | call r virtual => exact ⟨r, virtual, rfl⟩
  | _ => simp [action, Action.kind] at known

theorem agrees_callsItself : Agrees [.call] callsItself Rule.callsItself := by
  intro c i _ known
  obtain ⟨r, virtual, action⟩ := exists_call known
  rw [callsItself, callOf_eq action]
  rfl

theorem agrees_createsNamedLock : Agrees [.newObject] createsNamedLock Rule.createsNamedLock := by
  intro c i _ known
  rw [createsNamedLock]
  cases action : i.action with
  | newObject r => rfl
  | _ => simp [Instruction.kind, action, Action.kind] at known

theorem fetch_singleton {α : Type} (a : α) : fetch [a].toArray 0 = .ok a := rfl

theorem agrees_sleepsZero : Agrees [.call] sleepsZero Rule.sleepsZero := by
  intro c i ready known
  obtain ⟨r, virtual, action⟩ := exists_call known
  rw [sleepsZero, callOf_eq action, Rule.sleepsZero, action]
  by_cases one : r.params.length = 1
  · obtain ⟨param, params⟩ := List.length_eq_one_iff.1 one
    have argument : valueAt c i.index (argumentAt r 0) = .ok (c.value? i.index (r.depthOfParam 0)) := by
      rw [argumentAt_eq (by omega), ready.valueAt_eq]
    simp only [argument, params, fetch_singleton, bind, Except.bind, pure, Except.pure]
    by_cases sleep : r.isNamed "System.Threading.Thread" "Sleep" = true <;>
      by_cases int : param = Text.ofString "System.Int32" <;> simp [sleep, int]
  · have other : r.params ≠ [Text.ofString "System.Int32"] := by
      intro params
      simp [params] at one
    simp [one, other, bind, Except.bind, pure, Except.pure]

/-! ### Slashes -/

theorem byteIs_eq {t : Text} {n : Nat} {a : UInt8} (here : t[n]? = some a) (b : UInt8) :
    byteIs t n b = .ok (decide (a = b)) := by
  rw [byteIs, fetch_of_getElem? (by simpa using here)]
  rfl

theorem isBefore_eq (b : UInt8) (before after : Text) :
    isBefore b (before ++ after) before.length = .ok (before.endsWith [b]) := by
  unfold isBefore
  rcases List.eq_nil_or_concat' before with rfl | ⟨init, last, rfl⟩
  · rfl
  · have place : ((init ++ [last]).length - 1 : Int) = init.length := by
      rw [List.length_append, List.length_singleton]
      omega
    have ends : Text.endsWith (init ++ [last]) [b] = decide (last = b) := by
      simp [Text.endsWith, List.isSuffixOf, List.isPrefixOf, eq_comm, beq_eq_decide]
    have here : (init ++ [last] ++ after)[init.length]? = some last := by simp
    rw [if_pos (by simp), place, byteIs_eq here, ends]

theorem isBehind_eq (b next : UInt8) (before after : Text) :
    isBehind b (before ++ next :: after) before.length = .ok (after.startsWith [b]) := by
  unfold isBehind
  cases after with
  | nil =>
    rw [if_neg (by simp)]
    rfl
  | cons first rest =>
    have starts : Text.startsWith (first :: rest) [b] = decide (first = b) := by
      simp [Text.startsWith, List.isPrefixOf, eq_comm, beq_eq_decide]
    have here : (before ++ next :: first :: rest)[before.length + 1]? = some first := by simp
    rw [if_pos (by simp), starts]
    exact byteIs_eq here b

theorem hasPathSeparator_eq (t : Text) : hasPathSeparator t = .ok (Rule.hasPathSeparator t) := by
  rw [hasPathSeparator, Rule.hasPathSeparator]
  cases t.contains "\\" with
  | true => rfl
  | false =>
    rw [if_neg Bool.false_ne_true, Bool.false_or]
    by_cases slash : (0x2F : UInt8) ∈ t
    · obtain ⟨before, after, rfl, first⟩ := List.eq_append_cons_of_mem slash
      have place : (before ++ 0x2F :: after).idxOf? 0x2F = some before.length := by
        rw [List.idxOf?_eq_some_iff]
        refine ⟨by simp, by simp, ?_⟩
        intro j earlier same
        rw [List.getElem_append_left earlier] at same
        exact first (same ▸ List.getElem_mem earlier)
      rw [place, Text.cutAt_append first]
      dsimp only
      rw [isBefore_eq, isBehind_eq]
      rfl
    · rw [List.idxOf?_eq_none_iff.2 slash, Text.cutAt_of_not_mem slash]

theorem pathLiteral_eq (ready : Ready c) (r : MethodRef) : pathLiteral c i r = .ok (Rule.pathLiteral? c i r) := by
  unfold pathLiteral Rule.pathLiteral?
  apply findSomeM?_eq
  intro n member
  rw [argumentAt_eq (List.mem_range.1 member), ready.producerAt_eq]
  cases c.producer? i.index (r.depthOfParam n) with
  | none => rfl
  | some x =>
    obtain ⟨index, offset, code, action⟩ := x
    cases action with
    | loadString t =>
      simp only [withFound, literalOf?, hasPathSeparator_eq, ok_bind]
      rfl
    | _ => rfl

theorem agrees_concatsPath : Agrees [.call] concatsPath Rule.concatsPath := by
  intro c i ready known
  obtain ⟨r, virtual, action⟩ := exists_call known
  rw [concatsPath, callOf_eq action, Rule.concatsPath, action, ok_bind, pathLiteral_eq ready]
  simp only [apply_ite Except.ok]
  rfl

theorem agrees_locksThis : Agrees [.call] locksThis Rule.locksThis := by
  intro c i ready known
  obtain ⟨r, virtual, action⟩ := exists_call known
  rw [locksThis, callOf_eq action, Rule.locksThis, action, ok_bind]
  dsimp only
  split
  case isTrue asked =>
    have param : 0 < r.params.length := by
      simp only [Bool.and_eq_true, Bool.not_eq_true', List.isEmpty_eq_false_iff] at asked
      exact List.length_pos_iff.2 asked.2
    rw [argumentAt_eq param, ready.valueAt_eq, ok_bind]
    cases c.value? i.index (r.depthOfParam 0) with
    | none => rfl
    | some x =>
      obtain ⟨index, offset, code, action⟩ := x
      cases action with
      | loadArg slot address => cases address <;> cases slot <;> rfl
      | _ => rfl
  case isFalse => rfl

theorem decodesText_eq (r : MethodRef) : decodesText r = .ok (Rule.decodesText r) := by
  unfold decodesText Rule.decodesText
  cases r.isNamed "System.Convert" "FromBase64String" with
  | true => rfl
  | false =>
    rw [if_neg Bool.false_ne_true, Bool.false_or]
    by_cases one : r.params.length = 1
    · obtain ⟨param, params⟩ := List.length_eq_one_iff.1 one
      rw [params, fetch_singleton, ok_bind]
      split <;> simp_all [pure, Except.pure]
    · have other : r.params ≠ [Text.ofString "System.String"] := by
        intro params
        simp [params] at one
      simp [one, other]

theorem literal_eq (ready : Ready c) (consumer arg : Nat) :
    literal c consumer arg = .ok (Rule.literal? c consumer arg) := by
  rw [literal, ready.tracked, ok_bind, value_eq, Rule.literal?, MethodContext.value?]
  cases found : c.provenance.value? consumer arg with
  | none => rfl
  | some q =>
    obtain ⟨⟨index, offset, code, action⟩, here⟩ := exists_of_lt (lt_size_of_value? found)
    -- The instruction that was found knows the index at which it was found.
    obtain rfl : index = q := ready.indexed q _ here
    rw [withFound_some, fetch_of_getElem? here, Option.bind_some, here, ok_bind]
    cases action with
    | call r virtual =>
      dsimp only
      rw [decodesText_eq, ok_bind]
      split
      · have argument : valueAt c index 0 = .ok (c.value? index 0) := ready.valueAt_eq index 0
        rw [argument]
        cases c.value? index 0 with
        | none => rfl
        | some x =>
          obtain ⟨index, offset, code, action⟩ := x
          cases action <;> rfl
      · rfl
    | _ => rfl

theorem agrees_passesKey : Agrees [.call, .newObject] passesKey Rule.passesKey := by
  intro c i ready known
  rw [passesKey, Rule.passesKey]
  cases callee : i.callee? with
  | none =>
    rw [Instruction.callee?] at callee
    rw [Instruction.kind] at known
    cases action : i.action <;> simp [action, Action.kind] at known callee
  | some r =>
    rw [demand, ok_bind]
    dsimp only
    split
    · apply findSomeM?_eq
      intro n member
      rw [argumentAt_eq (List.mem_range.1 member), literal_eq ready]
      cases Rule.literal? c i.index (r.depthOfParam n) <;> rfl
    · rfl

end Agreement

end CilAudit.Unguarded
