import CilAudit.Proofs.AnalysedBodies
import CilAudit.Proofs.BlockPartition
import CilAudit.Proofs.LoadedBodies
import CilAudit.Proofs.Reencoding
import CilAudit.Proofs.SignalCounts

/-!
# The call sites of a method

The calls and literals of a method are gathered block by block for its graph, and once more from the
list of its instructions for the graph of signals. The blocks leave no gap and do not overlap, so the
sites of the blocks, one block after the other, are those of the list: one for each instruction that
calls, constructs or loads a literal. Without the literals they are the calls that the graph of signals
is built from, and it keeps all of them.
-/

set_option autoImplicit false

namespace CilAudit

/-! ## Which instructions have a site -/

def Code.ldstr : Code := ⟨0x72⟩

/-- The opcodes of instructions that call, construct or load a literal. -/
def Code.sites : List Code := [⟨0x28⟩, ⟨0x6F⟩, ⟨0x73⟩, .ldstr]

example : Code.sites.map Code.mnemonic = ["call", "callvirt", "newobj", "ldstr"] := by decide +kernel

/-- How the site of an action is labelled: by the full name of what is called, or by the literal in
quotes, cut if it is long. -/
inductive Action.Labels : Action → Text → Prop where
  | call (r : MethodRef) (isVirtual : Bool) : Labels (.call r isVirtual) r.toText
  | construct (r : MethodRef) : Labels (.newObject r) r.toText
  | literal {value : Text} (short : value.length ≤ 50) : Labels (.loadString value) value.quoted
  | cut {value : Text} (long : 50 < value.length) :
      Labels (.loadString value) (Text.quoted (value.take 47 ++ "..."))

/-- The kinds of action that have a label. -/
def Kind.labelled : List Kind := [.call, .newObject, .loadString]

theorem SiteGraph.label?_eq_some_iff {i : Instruction} {label : Text} :
    label? i = some label ↔ i.action.Labels label := by
  obtain ⟨index, offset, code, action⟩ := i
  constructor
  · intro found
    cases action with
    | loadString value =>
      obtain rfl : literalLabel value = label := by simpa [label?] using found
      unfold literalLabel
      split
      case isTrue long => exact .cut long
      case isFalse short => exact .literal (Nat.le_of_not_lt short)
    | call r isVirtual =>
      obtain rfl : r.toText = label := by simpa [label?, Instruction.callee?] using found
      exact .call r isVirtual
    | newObject r =>
      obtain rfl : r.toText = label := by simpa [label?, Instruction.callee?] using found
      exact .construct r
    | _ => simp [label?, Instruction.callee?] at found
  · intro labels
    cases labels with
    | call r isVirtual => rfl
    | construct r => rfl
    | literal short => simp [label?, literalLabel, Nat.not_lt.2 short]
    | cut long => simp [label?, literalLabel, long]

theorem SiteGraph.isSome_label? (i : Instruction) : (label? i).isSome = true ↔ i.kind ∈ Kind.labelled := by
  obtain ⟨index, offset, code, action⟩ := i
  cases action <;> simp [label?, Instruction.callee?, Instruction.kind, Action.kind, Kind.labelled]

theorem Opcode.mem_sites_iff : ∀ o ∈ Opcode.all, o.code ∈ Code.sites ↔ o.form.kind ∈ Kind.labelled := by
  decide +kernel

theorem Opcode.code_eq_ldstr_iff : ∀ o ∈ Opcode.all, o.code = Code.ldstr ↔ o.form.kind = .loadString := by
  decide +kernel

namespace Instruction.IsDecoded

variable {x : Instruction}

/-- The opcode says whether a decoded instruction has a site. -/
theorem mem_sites_iff (h : x.IsDecoded) : x.code ∈ Code.sites ↔ x.kind ∈ Kind.labelled := by
  obtain ⟨absent, kind⟩ | ⟨o, member, found, kind⟩ := h.row
  · have known : ∀ c ∈ Code.sites, c.opcode? ≠ none := by decide +kernel
    rw [kind]
    exact ⟨fun site => absurd absent (known _ site), fun labelled => absurd labelled (by decide)⟩
  · rw [← kind, ← Opcode.mem_sites_iff o member, (Code.opcode?_eq_some_iff.1 found).2]

theorem code_eq_ldstr_iff (h : x.IsDecoded) : x.code = .ldstr ↔ x.kind = .loadString := by
  obtain ⟨absent, kind⟩ | ⟨o, member, found, kind⟩ := h.row
  · have known : Code.ldstr.opcode? ≠ none := by decide +kernel
    rw [kind]
    exact ⟨fun same => absurd (same ▸ absent) known, fun other => absurd other (by decide)⟩
  · rw [← kind, ← Opcode.code_eq_ldstr_iff o member, (Code.opcode?_eq_some_iff.1 found).2]

end Instruction.IsDecoded

/-! ## Block by block -/

namespace SiteGraph

/-- All sites of a graph, one block after the other. -/
def sites (g : SiteGraph) : List CallSite := g.blocks.flatMap (·.sites)

theorem sitesIn_append (body : Array Instruction) {start middle stop : Nat} (low : start ≤ middle)
    (high : middle ≤ stop) :
    sitesIn body start middle ++ sitesIn body middle stop = sitesIn body start stop := by
  have joined : List.range' start (middle - start) ++ List.range' middle (stop - middle) =
      List.range' start (stop - start) := by
    have length : stop - start = (middle - start) + (stop - middle) := by omega
    rw [length, ← List.range'_append_1, Nat.add_sub_of_le low]
  rw [sitesIn, sitesIn, ← List.filterMap_append, joined, sitesIn]

/-- Spans that ascend from `start` hold what lies from there to the end. -/
theorem flatMap_spans (body : Array Instruction) {size start : Nat} {rest : List Nat}
    (ascend : (start :: rest).Pairwise (· < ·)) (bound : ∀ s ∈ start :: rest, s ≤ size) :
    (BlockGraph.spans size (start :: rest)).flatMap (fun s => sitesIn body s.1 s.2) = sitesIn body start size := by
  induction rest generalizing start with
  | nil => simp [BlockGraph.spans]
  | cons next rest ih =>
    have order : start < next := List.rel_of_pairwise_cons ascend List.mem_cons_self
    have inside : next ≤ size := bound next (by simp)
    rw [BlockGraph.spans, List.flatMap_cons, ih ascend.of_cons fun s member => bound s (List.mem_cons_of_mem _ member)]
    exact sitesIn_append body (Nat.le_of_lt order) inside

/-- The first instruction of a body leads its first block. -/
theorem leaders_cases (body : Array Instruction) (entries : List Nat) :
    (body.size = 0 ∧ BlockGraph.leaders body entries = []) ∨
      ∃ rest, BlockGraph.leaders body entries = 0 :: rest := by
  cases size : body.size with
  | zero => exact .inl ⟨rfl, by simp [BlockGraph.leaders, size]⟩
  | succ n => exact .inr ⟨_, by simp [BlockGraph.leaders, size, List.range_succ_eq_map]; rfl⟩

theorem sites_ofMethod (f : AnalysedMethod) :
    (ofMethod f).sites = sitesIn f.instructions.toArray 0 f.instructions.length := by
  have blocks : (ofMethod f).sites =
      (BlockGraph.spans f.instructions.toArray.size (BlockGraph.leaders f.instructions.toArray
        (BlockGraph.resolve f.instructions.toArray f.entries))).flatMap
          fun s => sitesIn f.instructions.toArray s.1 s.2 := by
    simp only [sites, ofMethod, BlockGraph.ofBody, BlockGraph.openBlocks, List.flatMap_map, List.map_map]
    rw [← List.zipIdx_map_fst 0 (BlockGraph.spans _ _), List.flatMap_map, List.zipIdx_map_fst]
    rfl
  have ascend := BlockGraph.leaders_ascend f.instructions.toArray (BlockGraph.resolve f.instructions.toArray f.entries)
  rw [blocks]
  obtain ⟨empty, none⟩ | ⟨rest, leaders⟩ :=
    leaders_cases f.instructions.toArray (BlockGraph.resolve f.instructions.toArray f.entries)
  · rw [none, ← List.size_toArray, empty]
    rfl
  · rw [leaders] at ascend ⊢
    refine (flatMap_spans _ ascend fun s member => ?_).trans (by rw [List.size_toArray])
    exact Nat.le_of_lt (BlockGraph.mem_leaders.1 (leaders ▸ member)).1

/-! ## Instruction by instruction -/

/-- The site that an instruction of a body has, if it has one. -/
def site? (i : Instruction) : Option CallSite := (label? i).map (⟨i.index, ·⟩)

theorem sitesIn_eq {insts : List Instruction}
    (placed : ∀ (k : Nat) (x : Instruction), insts[k]? = some x → x.index = k) :
    sitesIn insts.toArray 0 insts.length = insts.filterMap site? := by
  have listed : (List.range insts.length).filterMap (insts[·]?) = insts := by
    refine List.ext_getElem? fun k => ?_
    rw [Dispatcher.getElem?_filterMap_of_isSome fun k member => by simpa using List.mem_range.1 member]
    by_cases bound : k < insts.length <;> simp [bound]
  have each (k : Nat) : ((insts.toArray[k]?.bind label?).map fun label => CallSite.mk k label) =
      insts[k]?.bind site? := by
    rw [List.getElem?_toArray]
    cases here : insts[k]? with
    | none => rfl
    | some x => simp [site?, placed k x here]
  conv_rhs => rw [← listed, List.filterMap_filterMap]
  simp only [sitesIn, Nat.sub_zero, ← List.range_eq_range', each]

/-- The site stands for the instruction of the method. -/
structure StandsFor (f : AnalysedMethod) (i : Instruction) (s : CallSite) : Prop where
  here : f.instructions[s.index]? = some i
  index : s.index = i.index
  label : i.action.Labels s.label

/-- The sites of a graph are those of the method: one for each instruction that has one, in stream
order, in the block that it lies in. -/
structure Covers (g : SiteGraph) (f : AnalysedMethod) : Prop where
  sites : List.Forall₂ (StandsFor f) (f.instructions.filter (·.code ∈ Code.sites)) g.sites
  within : ∀ b ∈ g.blocks, ∀ s ∈ b.sites, b.start ≤ s.index ∧ s.index < b.stop

/-- What is chosen from a list, against what is made of its members. -/
theorem forall₂_filter_filterMap {α β : Type} {R : α → β → Prop} {p : α → Bool} {make : α → Option β} {l : List α}
    (made : ∀ a ∈ l, p a = true ↔ (make a).isSome = true) (related : ∀ a ∈ l, ∀ b, make a = some b → R a b) :
    List.Forall₂ R (l.filter p) (l.filterMap make) := by
  induction l with
  | nil => exact .nil
  | cons a l ih =>
    have later := ih (fun b member => made b (List.mem_cons_of_mem _ member))
      fun b member => related b (List.mem_cons_of_mem _ member)
    have first := made a List.mem_cons_self
    cases found : make a with
    | none =>
      have dropped : p a = false := by simpa [found] using first
      rwa [List.filter_cons_of_neg (by simp [dropped]), List.filterMap_cons_none found]
    | some b =>
      have kept : p a = true := first.2 (by simp [found])
      rw [List.filter_cons_of_pos kept, List.filterMap_cons_some found]
      exact .cons (related a List.mem_cons_self b found) later

section Collected

variable {m : Module} {f : AnalysedMethod}

theorem exists_decoded (collected : f ∈ m.analysed) : ∃ raw, decode raw = .ok f.instructions := by
  rw [Module.analysed, m.collect_eq] at collected
  obtain ⟨site, -, made⟩ := List.mem_filterMap.1 collected
  obtain ⟨insts, analysed, rfl⟩ := Option.map_eq_some_iff.1 made
  obtain ⟨raw, -, decoded⟩ := MethodBody.instructions?_eq_some_iff.1 analysed
  exact ⟨raw, decoded⟩

/-- The sites of a collected method, without its blocks. -/
theorem sites_eq_filterMap (collected : f ∈ m.analysed) : (ofMethod f).sites = f.instructions.filterMap site? := by
  obtain ⟨raw, decoded⟩ := exists_decoded collected
  rw [sites_ofMethod, sitesIn_eq fun k x here => index_of_decode decoded here]

theorem covers_ofMethod (collected : f ∈ m.analysed) : (ofMethod f).Covers f where
  sites := by
    obtain ⟨raw, decoded⟩ := exists_decoded collected
    rw [sites_eq_filterMap collected]
    apply forall₂_filter_filterMap
    · intro i member
      have labelled := (isDecoded_of_decode decoded member).mem_sites_iff
      rw [decide_eq_true_iff, labelled, site?, Option.isSome_map, isSome_label?]
    · intro i member s made
      obtain ⟨label, found, rfl⟩ := Option.map_eq_some_iff.1 made
      obtain ⟨k, here⟩ := List.getElem?_of_mem member
      obtain rfl : i.index = k := index_of_decode decoded here
      exact ⟨here, rfl, label?_eq_some_iff.1 found⟩
  within := by
    intro b block s site
    obtain ⟨b, -, rfl⟩ := List.mem_map.1 block
    obtain ⟨index, inside, made⟩ := List.mem_filterMap.1 site
    obtain ⟨label, -, rfl⟩ := Option.map_eq_some_iff.1 made
    have := List.mem_range'_1.1 inside
    show b.start ≤ index ∧ index < b.stop
    omega

/-! ## Calls -/

/-- A site of the method that is no literal. -/
def IsCall (f : AnalysedMethod) (s : CallSite) : Prop :=
  ∃ i, f.instructions[s.index]? = some i ∧ i.code ≠ .ldstr

/-- Apart from literals, a label is the name of what is called. -/
theorem label?_of_ne_loadString {i : Instruction} (other : i.kind ≠ .loadString) :
    label? i = i.callee?.map MethodRef.toText := by
  obtain ⟨index, offset, code, action⟩ := i
  cases action with
  | loadString value => exact absurd rfl other
  | _ => rfl

theorem kind_of_callee? {i : Instruction} {r : MethodRef} (calls : i.callee? = some r) : i.kind ≠ .loadString := by
  obtain ⟨index, offset, code, action⟩ := i
  intro literal
  cases action with
  | loadString value => cases calls
  | _ => cases literal

theorem mem_callees_iff (collected : f ∈ m.analysed) {callee : Text} :
    callee ∈ f.callees ↔ ∃ s ∈ (ofMethod f).sites, IsCall f s ∧ s.label = callee := by
  obtain ⟨raw, decoded⟩ := exists_decoded collected
  have standing (i : Instruction) (member : i ∈ f.instructions) : f.instructions[i.index]? = some i := by
    obtain ⟨k, here⟩ := List.getElem?_of_mem member
    rwa [index_of_decode decoded here]
  rw [sites_eq_filterMap collected, AnalysedMethod.callees]
  constructor
  · intro called
    obtain ⟨i, member, named⟩ := List.mem_filterMap.1 called
    obtain ⟨r, calls, rfl⟩ := Option.map_eq_some_iff.1 named
    have other := kind_of_callee? calls
    have made : site? i = some ⟨i.index, r.toText⟩ := by simp [site?, label?_of_ne_loadString other, calls]
    refine ⟨_, List.mem_filterMap.2 ⟨i, member, made⟩, ⟨i, standing i member, ?_⟩, rfl⟩
    exact fun literal => other ((isDecoded_of_decode decoded member).code_eq_ldstr_iff.1 literal)
  · rintro ⟨s, site, ⟨j, there, noLiteral⟩, rfl⟩
    obtain ⟨i, member, made⟩ := List.mem_filterMap.1 site
    obtain ⟨label, labelled, rfl⟩ := Option.map_eq_some_iff.1 made
    obtain rfl : i = j := Option.some.inj ((standing i member).symm.trans there)
    have other : i.kind ≠ .loadString :=
      fun literal => noLiteral ((isDecoded_of_decode decoded member).code_eq_ldstr_iff.2 literal)
    rw [label?_of_ne_loadString other] at labelled
    exact List.mem_filterMap.2 ⟨i, member, labelled⟩

end Collected

/-- The calls that the sites of a method show. -/
def Shows (f : AnalysedMethod) (c : Signal.Call) : Prop :=
  f.name = c.caller ∧ ∃ s ∈ (ofMethod f).sites, IsCall f s ∧ s.label = c.callee

theorem mem_callsOf_iff {m : Module} {c : Signal.Call} :
    c ∈ Signal.callsOf m.analysed ↔ ∃ f ∈ m.analysed, Shows f c := by
  simp only [Signal.callsOf, List.mem_flatMap, List.mem_map]
  constructor
  · rintro ⟨f, collected, callee, called, rfl⟩
    exact ⟨f, collected, rfl, (mem_callees_iff collected).1 called⟩
  · rintro ⟨f, collected, named, shown⟩
    exact ⟨f, collected, c.callee, (mem_callees_iff collected).2 shown, by rw [named]⟩

/-- Every method has a name, and so no call is dropped for the lack of one. -/
theorem toText_ne_nil (r : MethodRef) : r.toText ≠ [] := by
  have parenthesis : Text.ofString ")" ≠ [] := by decide
  simp [MethodRef.toText, parenthesis]

theorem callee_ne_nil {methods : List AnalysedMethod} {c : Signal.Call} (called : c ∈ Signal.callsOf methods) :
    c.callee ≠ [] := by
  obtain ⟨f, -, made⟩ := List.mem_flatMap.1 called
  obtain ⟨callee, among, rfl⟩ := List.mem_map.1 made
  obtain ⟨i, -, named⟩ := List.mem_filterMap.1 among
  obtain ⟨r, -, rfl⟩ := Option.map_eq_some_iff.1 named
  exact toText_ne_nil r

/-- **No call is lost or repeated.** Of every method that is collected, the sites of the blocks one
after the other are, in stream order, one for each instruction that calls, constructs or loads a
literal. Each bears the index of its instruction, lies in its block, and is labelled with the full name
of what is called or the quoted literal, cut if it is long. The pairs of caller and callee that the
sites other than literals show are the calls that signals are traced along, and the graph of signals
keeps exactly these, each once. -/
theorem sites_complete (m : Module) :
    (∀ f ∈ m.analysed, (ofMethod f).Covers f) ∧
    (∀ c, (∃ f ∈ m.analysed, Shows f c) ↔ c ∈ Signal.callsOf m.analysed) ∧
    ∀ order hops, (SignalGraph.ofMethods order m.analysed hops).calls.Nodup ∧
      ∀ c, (∃ f ∈ m.analysed, Shows f c) ↔ c ∈ (SignalGraph.ofMethods order m.analysed hops).calls := by
  refine ⟨fun f collected => covers_ofMethod collected, fun c => mem_callsOf_iff.symm,
    fun order hops => ⟨?_, fun c => ?_⟩⟩
  · exact nodup_eraseDups _
  · rw [← mem_callsOf_iff]
    exact ⟨fun called => Signal.mem_distinctCalls.2 ⟨called, callee_ne_nil called⟩,
      fun kept => (Signal.mem_distinctCalls.1 kept).1⟩

/-- The outing with another body for its methods: the first block ends in a branch over the second, which
holds a literal and a call; behind them an object is made, and the same is called again. -/
def relays : Module :=
  let warn : MethodRef := { declaringType := "C", name := "Warn", params := ["System.String"] }
  let body : List RawInstruction :=
    [⟨0, ⟨0x02⟩, .none⟩, ⟨1, ⟨0x2D⟩, .int .int 13⟩, ⟨3, ⟨0x72⟩, .text "late"⟩, ⟨8, ⟨0x28⟩, .method warn⟩,
      ⟨13, ⟨0x73⟩, .method { declaringType := "D", name := ".ctor" }⟩, ⟨18, ⟨0x6F⟩, .method warn⟩, ⟨23, ⟨0x2A⟩, .none⟩]
  { Dispatcher.outing with
    types := Dispatcher.outing.types.map fun t =>
      { t with methods := (t.methods.take 1).map fun x => { x with body := some ⟨.raw body, [], []⟩ } } }

/-- Its sites lie in the last two of three blocks, and three of them are calls, two of the same method. -/
theorem sites_complete_relays :
    ∃ f ∈ relays.analysed, (ofMethod f).blocks.map (fun b => b.sites.map (·.index)) = [[], [2, 3], [4, 5]] ∧
      (ofMethod f).Covers f ∧
      (∃ f ∈ relays.analysed, Shows f ⟨"System.Void C::Plan()", "System.Void C::Warn(System.String)"⟩) ∧
      (SignalGraph.ofMethods [] relays.analysed 1).calls.length = 2 := by
  obtain ⟨covered, shown, -⟩ := sites_complete relays
  have collected : ∃ f ∈ relays.analysed,
      (ofMethod f).blocks.map (fun b => b.sites.map (·.index)) = [[], [2, 3], [4, 5]] := by
    decide +kernel
  obtain ⟨f, member, sites⟩ := collected
  exact ⟨f, member, sites, covered f member, (shown _).2 (by decide +kernel), by decide +kernel⟩

end SiteGraph

end CilAudit
