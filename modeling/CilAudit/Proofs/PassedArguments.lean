import CilAudit.Proofs.LoadedBodies
import CilAudit.Proofs.MethodFindings
import CilAudit.Proofs.Origin

/-!
# What reported calls are given

Two rules report a call for a value that it is given: a sleep of no time, and a path put together as
text. The place of a parameter on the stack and the way back from there to where the value was made
hold on every run that comes to the call, so no such finding is about another value.
-/

set_option autoImplicit false

namespace CilAudit

/-- The stack has `v` where a call takes parameter `n`: the parameters lie on top, the last one
uppermost, and below them the receiver, if there is one. -/
def MethodRef.Passes (r : MethodRef) (n : Nat) (stack : List Tag) (v : Tag) : Prop :=
  ∃ later earlier, stack = later ++ v :: earlier ∧ later.length + n + 1 = r.params.length

theorem MethodRef.passes_of_depth {r : MethodRef} {n : Nat} {stack : List Tag} {v : Tag} (param : n < r.params.length)
    (there : stack[r.depthOfParam n]? = some v) : r.Passes n stack v := by
  obtain ⟨bound, rfl⟩ := List.getElem?_eq_some_iff.1 there
  refine ⟨stack.take (r.depthOfParam n), stack.drop (r.depthOfParam n + 1), ?_, ?_⟩
  · rw [List.cons_getElem_drop_succ, List.take_append_drop]
  · rw [List.length_take, Nat.min_eq_left (Nat.le_of_lt bound), depthOfParam]
    omega

/-- A string literal is no copy: what it pushed, it made. -/
theorem Provenance.value?_of_loadString {p : Provenance} {c a q : Nat} {x : Instruction} {t : Text}
    (found : p.producer? c a = some q)
    (here : p.body[q]? = some x) (loads : x.action = .loadString t) : p.value? c a = some q := by
  obtain ⟨index, offset, code, action⟩ := x
  obtain rfl : action = .loadString t := loads
  have source : p.copySource? q = some none := by simp [copySource?, here]
  simp [value?, found, maxHops, origin?, source]

/-! ## What the rules have seen -/

theorem Instruction.loadConst_of_integer? {x : Instruction} {n : Int} (h : x.integer? = some n) :
    ∃ constant, x.action = .loadConst constant ∧ constant.integer? = some n := by
  unfold integer? at h
  split at h
  case h_1 constant action => exact ⟨constant, action, h⟩
  case h_2 => cases h

namespace Rule

variable {c : MethodContext} {i : Instruction} {f : Finding}

theorem sleepsZero_eq_some (h : sleepsZero c i = some f) :
    ∃ r isVirtual z y, i.action = .call r isVirtual ∧
      r.isNamed "System.Threading.Thread" "Sleep" = true ∧ r.params = [Text.ofString "System.Int32"] ∧
      c.provenance.value? i.index (r.depthOfParam 0) = some z ∧ c.provenance.body[z]? = some y ∧
      y.integer? = some 0 := by
  unfold sleepsZero at h
  split at h
  case h_1 r isVirtual action =>
    split at h
    case isTrue given =>
      simp only [Bool.and_eq_true, decide_eq_true_eq, Option.any_eq_true] at given
      obtain ⟨⟨named, params⟩, y, value, zero⟩ := given
      obtain ⟨z, origin, there⟩ := Option.bind_eq_some_iff.1 value
      exact ⟨r, isVirtual, z, y, action, named, params, origin, there, by simpa [Instruction.isZero] using zero⟩
    case isFalse => cases h
  case h_2 => cases h

theorem concatsPath_eq_some (h : concatsPath c i = some f) :
    ∃ r isVirtual n q y t, i.action = .call r isVirtual ∧
      r.isNamed "System.String" "Concat" = true ∧ r.returnType = Text.ofString "System.String" ∧ n < r.params.length ∧
      c.provenance.producer? i.index (r.depthOfParam n) = some q ∧ c.provenance.body[q]? = some y ∧
      y.action = .loadString t ∧ hasPathSeparator t = true := by
  unfold concatsPath at h
  split at h
  case h_1 r isVirtual action =>
    split at h
    case isTrue named =>
      simp only [Bool.and_eq_true, decide_eq_true_eq] at named
      obtain ⟨t, found, -⟩ := Option.map_eq_some_iff.1 h
      obtain ⟨n, among, seen⟩ := List.exists_of_findSome?_eq_some found
      split at seen
      case h_1 t' loads =>
        split at seen
        case isTrue separates =>
          obtain ⟨y, produced, made⟩ := Option.map_eq_some_iff.1 loads
          obtain ⟨q, producer, there⟩ := Option.bind_eq_some_iff.1 produced
          exact ⟨r, isVirtual, n, q, y, t', action, named.1, named.2, List.mem_range.1 among, producer, there, made,
            separates⟩
        case isFalse => cases seen
      case h_2 => cases seen
    case isFalse => cases h
  case h_2 => cases h

end Rule

/-! ## Findings -/

/-- The finding points at the call of `r` at index `k` of a body: it names the method, and nothing
but the call stands at its offset. -/
structure Violation.PointsAt (v : Violation) (site : BodySite) (insts : List Instruction) (k : Nat) (r : MethodRef) :
    Prop where
  method : v.entity = ⟨.method, site.method.fullName⟩
  analysed : site.body.instructions? = some insts
  call : ∃ x isVirtual, insts[k]? = some x ∧ x.offset = v.offset ∧ x.action = .call r isVirtual
  only : ∀ j y, insts[j]? = some y → y.offset = v.offset → j = k

/-- Nothing else stands at the offset of an instruction, where offsets ascend. -/
theorem Violation.pointsAt_ofMethod {raw : List RawInstruction} {insts : List Instruction} {site : BodySite}
    (decoded : decode raw = .ok insts) (ascend : OffsetsAscend insts.toArray)
    (analysed : site.body.instructions? = some insts) {i : Instruction} (listed : i ∈ insts) {r : MethodRef}
    {isVirtual : Bool} (action : i.action = .call r isVirtual) (id detail : Text) :
    (Violation.ofMethod id site.method i.offset detail).PointsAt site insts i.index r := by
  obtain ⟨k, here⟩ := List.getElem?_of_mem listed
  obtain rfl : i.index = k := index_of_decode decoded here
  refine ⟨rfl, analysed, ⟨i, isVirtual, here, rfl, action⟩, fun j y there same => ?_⟩
  have before := ascend j i.index y i
  have after := ascend i.index j i y
  simp only [List.getElem?_toArray, here, there, forall_const] at before after
  have : y.offset = i.offset := same
  omega

namespace Dispatcher

/-- In a loaded module, a finding of a rule on methods goes back to an instruction that offends it, and
points at that if it is a call. -/
theorem Holds.exists_pointsAt {dump : Dump} {m : Module} {rules : List Rule} {d : Dispatcher} (holds : d.Holds rules)
    (built : dump.build = .ok m) (chosen : ∀ r ∈ rules, r ∈ Rule.all) {id name : Text} {kinds : List Kind}
    {watches : MethodContext → Bool} {offends : MethodContext → Instruction → Option Rule.Finding}
    (known : Rule.firstInMethod id name kinds watches offends ∈ Rule.all) {v : Violation}
    (found : v ∈ (d.run m).2.violations) (check : v.check = id) :
    ∃ site ∈ m.bodySites, ∃ raw insts i f, decode raw = .ok insts ∧ OffsetsAscend insts.toArray ∧
      offends (site.context m insts) i = some f ∧
      ∀ r isVirtual, i.action = .call r isVirtual → v.PointsAt site insts i.index r := by
  obtain ⟨site, placed, insts, analysed, i, listed, -, f, offending, rfl⟩ := holds.exists_offence chosen known found check
  obtain ⟨raw, read, decoded⟩ := MethodBody.instructions?_eq_some_iff.1 analysed
  obtain ⟨type, -, method, body⟩ := Module.mem_bodySites.1 placed
  have ascend := (Dump.inOrder_of_build built type method body read).offsetsAscend decoded
  exact ⟨site, placed, raw, insts, i, f, decoded, ascend, offending, fun r isVirtual action =>
    Violation.pointsAt_ofMethod decoded ascend analysed listed action id f.detail⟩

/-- **Reported calls are given what is said of them.** In a loaded module, a finding of a sleep of no
time points at a call of that method, and the value it is given on every run that comes there was
made by one load of the constant zero. A finding of a path put together points at a call that joins
texts, and there is a parameter of it, however many it has and with or without a receiver, whose
value was pushed on every run by one and the same literal with a path separator. -/
theorem reported_arguments {dump : Dump} {m : Module} {rules : List Rule} {d : Dispatcher} (built : dump.build = .ok m)
    (chosen : ∀ r ∈ rules, r ∈ Rule.all) (holds : d.Holds rules) {v : Violation}
    (found : v ∈ (d.run m).2.violations) :
    (v.check = "R1017" →
      ∃ site ∈ m.bodySites, ∃ insts k r z y, v.PointsAt site insts k r ∧
        r.isNamed "System.Threading.Thread" "Sleep" = true ∧ r.params.length = 1 ∧
        insts[z]? = some y ∧ (∃ zero, y.action = .loadConst zero ∧ zero.integer? = some 0) ∧
        ∀ s, moving.Reached (.standing insts site.body.entries) k s → r.Passes 0 s.stack (some z)) ∧
    (v.check = "PO1006" →
      ∃ site ∈ m.bodySites, ∃ insts k r n q y t, v.PointsAt site insts k r ∧
        r.isNamed "System.String" "Concat" = true ∧ n < r.params.length ∧
        insts[q]? = some y ∧ y.action = .loadString t ∧ Rule.hasPathSeparator t = true ∧
        (∀ s, moving.Reached (.standing insts site.body.entries) k s → r.Passes n s.stack (some q)) ∧
        ∀ s, tagging.Reached (.standing insts site.body.entries) k s → r.Passes n s (some q)) := by
  -- Where offsets ascend, the machine goes to the instructions that the search for a target finds.
  have follows {insts : List Instruction} {entries : List Int} (ascend : OffsetsAscend insts.toArray) :
      Program.Follows insts entries (.standing insts entries) := .standing (Program.resolves_of_ascend ascend _)
  constructor
  · intro check
    have known : Rule.zeroSleep ∈ Rule.all := by simp [Rule.all]
    obtain ⟨site, placed, raw, insts, i, f, decoded, ascend, offending, points⟩ :=
      holds.exists_pointsAt built chosen known found check
    obtain ⟨r, isVirtual, z, y, action, named, params, value, there, zero⟩ := Rule.sleepsZero_eq_some offending
    have single : r.params.length = 1 := by rw [params]; rfl
    refine ⟨site, placed, insts, i.index, r, z, y, points r isVirtual action, named, single, ?_,
      Instruction.loadConst_of_integer? zero, fun s reached => ?_⟩
    · simpa [BodySite.context, Provenance.body_ofBody] using there
    · have searched := (Machine.reached_iff_of_follows (follows ascend)).1 reached
      exact MethodRef.passes_of_depth (by omega) (Provenance.stack_of_value? decoded value searched)
  · intro check
    have known : Rule.pathCombine ∈ Rule.all := by simp [Rule.all]
    obtain ⟨site, placed, raw, insts, i, f, decoded, ascend, offending, points⟩ :=
      holds.exists_pointsAt built chosen known found check
    obtain ⟨r, isVirtual, n, q, y, t, action, named, -, param, produced, there, loads, separates⟩ :=
      Rule.concatsPath_eq_some offending
    -- The literal is where the search for origins ends as well, so both machines mark its value alike.
    have value := Provenance.value?_of_loadString produced there loads
    refine ⟨site, placed, insts, i.index, r, n, q, y, t, points r isVirtual action, named, param, ?_, loads, separates,
      fun s reached => ?_, fun s reached => ?_⟩
    · simpa [BodySite.context, Provenance.body_ofBody] using there
    · have searched := (Machine.reached_iff_of_follows (follows ascend)).1 reached
      exact MethodRef.passes_of_depth param (Provenance.stack_of_value? decoded value searched)
    · have searched := (Machine.reached_iff_of_follows (follows ascend)).1 reached
      exact MethodRef.passes_of_depth param (Provenance.stack_of_producer? produced searched)

/-- A method that sleeps for the time in a local, and one that joins three texts. -/
def chores : Dump :=
  let sleep : MethodRef :=
    { declaringType := "System.Threading.Thread", name := "Sleep", params := ["System.Int32"] }
  let concat : MethodRef :=
    { declaringType := "System.String", name := "Concat", returnType := "System.String",
      params := ["System.String", "System.String", "System.String"] }
  let nap : Dump.Method :=
    { name := "Nap"
      lines := some [⟨0, "ldc.i4.0", .null⟩, ⟨1, "stloc.0", .null⟩, ⟨2, "ldloc.0", .null⟩, ⟨3, "call", .text "0x1"⟩,
        ⟨8, "ret", .null⟩] }
  let join : Dump.Method :=
    { name := "Join"
      lines := some [⟨0, "ldstr", .text "home"⟩, ⟨5, "ldstr", .text "/"⟩, ⟨10, "ldstr", .text "file"⟩,
        ⟨15, "call", .text "0x2"⟩, ⟨20, "pop", .null⟩, ⟨21, "ret", .null⟩] }
  { types := some [{ name := "C", methods := [nap, join] }]
    tokens := { methods := [(Text.ofString "0x1", sleep), (Text.ofString "0x2", concat)] } }

/-- Both are reported, and both for what they are given. -/
theorem reported_arguments_chores :
    ∃ m, chores.build = .ok m ∧
      ∃ nap join, ((ofRules [.zeroSleep, .pathCombine]).1.run m).2.violations = [nap, join] ∧
        (nap.check = "R1017" ∧ nap.offset = 3 ∧ ∃ site insts k r z, nap.PointsAt site insts k r ∧
          ∀ s, moving.Reached (.standing insts site.body.entries) k s → r.Passes 0 s.stack (some z)) ∧
        (join.check = "PO1006" ∧ join.offset = 15 ∧ ∃ site insts k r n q, join.PointsAt site insts k r ∧
          ∀ s, moving.Reached (.standing insts site.body.entries) k s → r.Passes n s.stack (some q)) := by
  have report : chores.build.toOption.map (fun m => ((ofRules [.zeroSleep, .pathCombine]).1.run m).2.violations) =
      some [⟨"R1017", ⟨.method, "System.Void C::Nap()"⟩, 3, []⟩,
        ⟨"PO1006", ⟨.method, "System.Void C::Join()"⟩, 15, []⟩] := by
    decide +kernel
  have chosen : ∀ r ∈ [Rule.zeroSleep, .pathCombine], r ∈ Rule.all := by simp [Rule.all]
  cases built : chores.build with
  | error e => simp [built, Except.toOption] at report
  | ok m =>
    have violations : ((ofRules [.zeroSleep, .pathCombine]).1.run m).2.violations = [_, _] :=
      Option.some.inj (built ▸ report)
    refine ⟨m, rfl, _, _, violations, ⟨rfl, rfl, ?_⟩, ⟨rfl, rfl, ?_⟩⟩
    · obtain ⟨site, -, insts, k, r, z, y, points, -, -, -, -, always⟩ :=
        (reported_arguments built chosen (holds_ofRules _) (violations ▸ List.mem_cons_self)).1 rfl
      exact ⟨site, insts, k, r, z, points, always⟩
    · obtain ⟨site, -, insts, k, r, n, q, y, t, points, -, -, -, -, -, always, -⟩ :=
        (reported_arguments built chosen (holds_ofRules _)
          (violations ▸ List.mem_cons_of_mem _ List.mem_cons_self)).2 rfl
      exact ⟨site, insts, k, r, n, q, points, always⟩

end Dispatcher

end CilAudit
