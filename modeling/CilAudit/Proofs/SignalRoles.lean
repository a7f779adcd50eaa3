import CilAudit.Signal.Graph
import Mathlib.Combinatorics.SimpleGraph.Metric
import Mathlib.Data.List.Perm.Basic

/-!
# Roles are distances

A method is a signal method if one of its literals is classified, and it is context if it lies
between one and `hops` calls away from a signal method in the undirected graph of the calls. The
search goes level by level: what has been seen are the names within some distance, and calls to new
names start at the frontier. What it finds does not depend on the order in which it starts.
-/

set_option autoImplicit false

namespace CilAudit

/-! ## Lists without repetition -/

section EraseDups

variable {α : Type}

theorem sublist_eraseDupsBy (r : α → α → Bool) : (l : List α) → (l.eraseDupsBy r).Sublist l
  | [] => by simp
  | a :: rest => by
    rw [List.eraseDupsBy_cons]
    have inner := sublist_eraseDupsBy r (rest.filter fun b => r b a = false)
    exact (inner.trans List.filter_sublist).cons_cons a
termination_by l => l.length
decreasing_by exact Nat.lt_succ_of_le (List.length_filter_le _ _)

theorem pairwise_eraseDupsBy (r : α → α → Bool) :
    (l : List α) → (l.eraseDupsBy r).Pairwise fun a b => r b a = false
  | [] => by simp
  | a :: rest => by
    rw [List.eraseDupsBy_cons, List.pairwise_cons]
    constructor
    · intro b member
      have kept := (sublist_eraseDupsBy r _).subset member
      simpa using (List.mem_filter.1 kept).2
    · exact pairwise_eraseDupsBy r (rest.filter fun b => r b a = false)
termination_by l => l.length
decreasing_by exact Nat.lt_succ_of_le (List.length_filter_le _ _)

/-- What is left out is there already, or something that counts as the same. -/
theorem exists_mem_eraseDupsBy {r : α → α → Bool} (refl : ∀ a, r a a = true) :
    {l : List α} → {a : α} → a ∈ l → ∃ b ∈ l.eraseDupsBy r, r a b = true
  | first :: rest, a, member => by
    rw [List.eraseDupsBy_cons]
    by_cases same : r a first = true
    · exact ⟨first, List.mem_cons_self, same⟩
    · have other : a ≠ first := by
        rintro rfl
        exact same (refl a)
      have later : a ∈ rest.filter fun b => r b first = false :=
        List.mem_filter.2 ⟨(List.mem_cons.1 member).resolve_left other, by simpa using same⟩
      obtain ⟨b, kept, alike⟩ := exists_mem_eraseDupsBy refl later
      exact ⟨b, List.mem_cons_of_mem _ kept, alike⟩
termination_by l => l.length
decreasing_by exact Nat.lt_succ_of_le (List.length_filter_le _ _)

theorem nodup_eraseDups [BEq α] [LawfulBEq α] (l : List α) : l.eraseDups.Nodup := by
  refine (pairwise_eraseDupsBy _ l).imp fun {a b} different same => ?_
  simp [same] at different

end EraseDups

namespace Signal

/-! ## Signal methods -/

/-- Some literal of the method is classified. -/
def Telling (literals : List Literal) (name : Text) : Prop :=
  ∃ l ∈ literals, l.method = name ∧ classify l.value ≠ []

theorem mem_methods_addLiteral {l : ClassifiedLiteral} {hs : List Hit} {name : Text} :
    name ∈ (addLiteral l hs).map (·.method) ↔ name = l.method ∨ name ∈ hs.map (·.method) := by
  induction hs with
  | nil => simp [addLiteral, Hit.add]
  | cons h rest ih =>
    simp only [addLiteral]
    split
    · rename_i same
      simp [Hit.add, same]
    · simp only [List.map_cons, List.mem_cons, ih]
      tauto

theorem mem_methods_foldl {ls : List ClassifiedLiteral} {hs : List Hit} {name : Text} :
    name ∈ (ls.foldl (fun hs l => addLiteral l hs) hs).map (·.method) ↔
      (∃ l ∈ ls, l.method = name) ∨ name ∈ hs.map (·.method) := by
  induction ls generalizing hs with
  | nil => simp
  | cons l rest ih =>
    rw [List.foldl_cons, ih, mem_methods_addLiteral, eq_comm, or_left_comm]
    simp only [List.mem_cons, exists_eq_or_imp, or_assoc]

theorem mem_methods_hits {literals : List Literal} {name : Text} :
    name ∈ (hits literals).map (·.method) ↔ Telling literals name := by
  rw [hits, mem_methods_foldl]
  simp only [List.map_nil, List.not_mem_nil, or_false, List.mem_filterMap]
  constructor
  · rintro ⟨c, ⟨l, member, found⟩, rfl⟩
    simp only [classified?] at found
    split at found
    · cases found
    · rename_i nonempty
      cases found
      exact ⟨l, member, rfl, by simpa using nonempty⟩
  · rintro ⟨l, member, rfl, told⟩
    exact ⟨{ l with categories := (classify l.value).map Category.name }, ⟨l, member, by simp [classified?, told]⟩, rfl⟩

/-! ## Distances -/

/-- The undirected graph of the calls of named methods, over all names. -/
def callGraph (calls : List Call) : SimpleGraph Text :=
  SimpleGraph.fromRel fun a b => ∃ c ∈ calls, c.callee ≠ [] ∧ c.caller = a ∧ c.callee = b

/-- The name is at most `n` calls away from a source. -/
def Within (calls : List Call) (sources : List Text) (n : Nat) (name : Text) : Prop :=
  ∃ s ∈ sources, (callGraph calls).edist s name ≤ n

section Distance

variable {calls : List Call} {sources : List Text} {n : Nat} {u v : Text}

theorem edist_le_iff {V : Type} {G : SimpleGraph V} {a b : V} {n : Nat} :
    G.edist a b ≤ n ↔ ∃ p : G.Walk a b, p.length ≤ n := by
  constructor
  · intro le
    have finite : G.edist a b ≠ ⊤ := ne_top_of_le_ne_top (ENat.natCast_ne_top n) le
    obtain ⟨p, length⟩ := G.exists_walk_of_edist_ne_top finite
    rw [← length] at le
    exact ⟨p, by exact_mod_cast le⟩
  · rintro ⟨p, le⟩
    exact p.edist_le.trans (by exact_mod_cast le)

theorem within_zero : Within calls sources 0 v ↔ v ∈ sources := by
  constructor
  · rintro ⟨s, member, le⟩
    have same : (callGraph calls).edist s v = 0 := by simpa using le
    rw [SimpleGraph.edist_eq_zero_iff] at same
    rwa [← same]
  · intro member
    exact ⟨v, member, by simp⟩

theorem Within.mono {m : Nat} (h : Within calls sources n v) (le : n ≤ m) : Within calls sources m v := by
  obtain ⟨s, member, near⟩ := h
  exact ⟨s, member, near.trans (by exact_mod_cast le)⟩

theorem Within.step (h : Within calls sources n u) (adj : (callGraph calls).Adj u v) :
    Within calls sources (n + 1) v := by
  obtain ⟨s, member, near⟩ := h
  obtain ⟨p, short⟩ := edist_le_iff.1 near
  refine ⟨s, member, edist_le_iff.2 ⟨p.concat adj, ?_⟩⟩
  rw [SimpleGraph.Walk.length_concat]
  omega

/-- One more call leads to what was near already and to its neighbours. -/
theorem within_succ_iff :
    Within calls sources (n + 1) v ↔
      Within calls sources n v ∨ ∃ u, Within calls sources n u ∧ (callGraph calls).Adj u v := by
  constructor
  · rintro ⟨s, member, near⟩
    rw [SimpleGraph.edist_comm] at near
    obtain ⟨p, short⟩ := edist_le_iff.1 near
    -- The walk is taken backwards, so that its first step is the last call.
    cases p with
    | nil => exact .inl ⟨v, member, by simp⟩
    | @cons _ u _ adj rest =>
      refine .inr ⟨u, ⟨s, member, ?_⟩, adj.symm⟩
      rw [SimpleGraph.edist_comm]
      rw [SimpleGraph.Walk.length_cons] at short
      exact edist_le_iff.2 ⟨rest, by omega⟩
  · rintro (near | ⟨u, near, adj⟩)
    · exact near.mono (Nat.le_succ n)
    · exact near.step adj

theorem mem_distinctCalls {c : Call} : c ∈ distinctCalls calls ↔ c ∈ calls ∧ c.callee ≠ [] := by
  simp [distinctCalls]

theorem adj_iff : (callGraph calls).Adj u v ↔ u ≠ v ∧ v ∈ neighbours (distinctCalls calls) u := by
  simp only [callGraph, SimpleGraph.fromRel_adj, neighbours, List.mem_append, List.mem_map, List.mem_filter,
    mem_distinctCalls, decide_eq_true_eq]
  refine and_congr_right fun _ => or_congr ?_ ?_
  · constructor
    · rintro ⟨c, member, named, rfl, rfl⟩
      exact ⟨c, ⟨⟨member, named⟩, rfl⟩, rfl⟩
    · rintro ⟨c, ⟨⟨member, named⟩, rfl⟩, rfl⟩
      exact ⟨c, member, named, rfl, rfl⟩
  · constructor
    · rintro ⟨c, member, named, rfl, rfl⟩
      exact ⟨c, ⟨⟨member, named⟩, rfl⟩, rfl⟩
    · rintro ⟨c, ⟨⟨member, named⟩, rfl⟩, rfl⟩
      exact ⟨c, member, named, rfl, rfl⟩

end Distance

/-! ## The search -/

section Search

variable {calls : List Call} {sources seen frontier : List Text} {d : Nat} {v : Text}

/-- The search stands at distance `d`: it has seen what is that near, and calls from there to names
not yet seen start at the frontier. -/
structure AtDistance (calls : List Call) (sources : List Text) (d : Nat) (seen frontier : List Text) :
    Prop where
  seen_iff : ∀ v, v ∈ seen ↔ Within calls sources d v
  frontier_seen : ∀ u ∈ frontier, u ∈ seen
  closed : ∀ u ∈ seen, u ∉ frontier → ∀ v, (callGraph calls).Adj u v → v ∈ seen

/-- The names one call beyond the frontier. -/
def beyond (calls : List Call) (seen frontier : List Text) : List Text :=
  ((frontier.flatMap (neighbours (distinctCalls calls))).filter (!seen.contains ·)).eraseDups

theorem mem_beyond :
    v ∈ beyond calls seen frontier ↔
      (∃ u ∈ frontier, v ∈ neighbours (distinctCalls calls) u) ∧ v ∉ seen := by
  simp [beyond]

theorem AtDistance.start (calls : List Call) (sources : List Text) :
    AtDistance calls sources 0 sources sources where
  seen_iff _ := within_zero.symm
  frontier_seen _ member := member
  closed _ member outside := absurd member outside

/-- What lies beyond the frontier is exactly what is one call further away. -/
theorem AtDistance.mem_beyond_iff (h : AtDistance calls sources d seen frontier) :
    v ∈ beyond calls seen frontier ↔ Within calls sources (d + 1) v ∧ ¬Within calls sources d v := by
  rw [mem_beyond, ← h.seen_iff, within_succ_iff, ← h.seen_iff]
  constructor
  · rintro ⟨⟨u, member, near⟩, unseen⟩
    have seen := h.frontier_seen u member
    have different : u ≠ v := fun same => unseen (same ▸ seen)
    exact ⟨.inr ⟨u, (h.seen_iff u).1 seen, adj_iff.2 ⟨different, near⟩⟩, unseen⟩
  · rintro ⟨seen | ⟨u, near, adj⟩, unseen⟩
    · exact absurd seen unseen
    · have member : u ∈ frontier := by
        by_contra outside
        exact unseen (h.closed u ((h.seen_iff u).2 near) outside v adj)
      exact ⟨⟨u, member, (adj_iff.1 adj).2⟩, unseen⟩

theorem AtDistance.advance (h : AtDistance calls sources d seen frontier) :
    AtDistance calls sources (d + 1) (seen ++ beyond calls seen frontier) (beyond calls seen frontier) where
  seen_iff v := by
    rw [List.mem_append, h.mem_beyond_iff, h.seen_iff]
    constructor
    · rintro (near | ⟨near, -⟩)
      · exact near.mono (Nat.le_succ d)
      · exact near
    · intro near
      by_cases nearer : Within calls sources d v
      · exact .inl nearer
      · exact .inr ⟨near, nearer⟩
  frontier_seen u member := List.mem_append_right _ member
  closed u member outside v adj := by
    have seen_u := (List.mem_append.1 member).resolve_right outside
    by_cases seen_v : v ∈ seen
    · exact List.mem_append_left _ seen_v
    · refine List.mem_append_right _ (h.mem_beyond_iff.2 ⟨?_, fun near => seen_v ((h.seen_iff v).2 near)⟩)
      exact ((h.seen_iff u).1 seen_u).step adj

/-- From an empty frontier nothing new can be reached. -/
theorem AtDistance.within_of_empty (h : AtDistance calls sources d seen []) (n : Nat) :
    Within calls sources (d + n) v → Within calls sources d v := by
  induction n generalizing v with
  | zero => exact id
  | succ n ih =>
    intro near
    rcases within_succ_iff.1 near with near | ⟨u, near, adj⟩
    · exact ih near
    · have seen_u := (h.seen_iff u).2 (ih near)
      exact (h.seen_iff v).1 (h.closed u seen_u (List.not_mem_nil) v adj)

/-- The search finds what is further away than it stands, up to the number of hops. -/
theorem AtDistance.mem_spread_iff (h : AtDistance calls sources d seen frontier) (hops : Nat) :
    v ∈ spread (distinctCalls calls) hops seen frontier ↔
      Within calls sources (d + hops) v ∧ ¬Within calls sources d v := by
  induction hops generalizing d seen frontier with
  | zero =>
    simp only [spread, List.not_mem_nil, Nat.add_zero, false_iff]
    exact fun both => both.2 both.1
  | succ hops ih =>
    simp only [spread]
    split
    · rename_i empty
      obtain rfl := List.isEmpty_iff.1 empty
      simp only [List.not_mem_nil, false_iff]
      exact fun both => both.2 (h.within_of_empty (hops + 1) both.1)
    · have further := ih h.advance
      rw [Nat.add_right_comm, Nat.add_assoc] at further
      rw [List.mem_append, ← beyond, further, h.mem_beyond_iff]
      constructor
      · rintro (⟨near, far⟩ | ⟨near, far⟩)
        · exact ⟨near.mono (by omega), far⟩
        · exact ⟨near, fun nearer => far (nearer.mono (Nat.le_succ d))⟩
      · rintro ⟨near, far⟩
        by_cases next : Within calls sources (d + 1) v
        · exact .inl ⟨next, far⟩
        · exact .inr ⟨near, next⟩

theorem AtDistance.nodup_spread (h : AtDistance calls sources d seen frontier) (hops : Nat) :
    (spread (distinctCalls calls) hops seen frontier).Nodup := by
  induction hops generalizing d seen frontier with
  | zero => simp [spread]
  | succ hops ih =>
    simp only [spread]
    split
    · exact List.nodup_nil
    · rw [← beyond]
      refine List.nodup_append'.2 ⟨nodup_eraseDups _, ih h.advance, fun v first rest => ?_⟩
      have far := ((h.advance.mem_spread_iff hops).1 rest).2
      exact far (h.mem_beyond_iff.1 first).1

end Search

end Signal

/-! ## The graph -/

namespace SignalGraph

open Signal

/-- The method is at least one call and at most `hops` calls away from a signal method. -/
def Nearby (calls : List Call) (literals : List Literal) (hops : Int) (name : Text) : Prop :=
  ∃ s, Telling literals s ∧ ∃ d : Nat, (callGraph calls).edist s name = d ∧ 1 ≤ d ∧ (d : Int) ≤ hops

section Roles

variable {order : List Text} {members : List Member} {calls : List Call} {literals : List Literal} {hops : Int}

/-- What the search finds from the signal methods, in any order of them. -/
theorem mem_context_iff (expands : order.Perm ((hits literals).map (·.method))) {name : Text} :
    name ∈ spread (distinctCalls calls) hops.toNat order order ↔
      ¬Telling literals name ∧ Nearby calls literals hops name := by
  have source : ∀ s, s ∈ order ↔ Telling literals s := fun s => expands.mem_iff.trans mem_methods_hits
  rw [(AtDistance.start calls order).mem_spread_iff, Nat.zero_add, within_zero, source, and_comm]
  refine and_congr_right fun silent => ?_
  constructor
  · rintro ⟨s, member, near⟩
    have finite : (callGraph calls).edist s name ≠ ⊤ := ne_top_of_le_ne_top (ENat.natCast_ne_top _) near
    obtain ⟨d, distance⟩ := ENat.ne_top_iff_exists.1 finite
    have told := (source s).1 member
    have apart : d ≠ 0 := by
      rintro rfl
      have same := SimpleGraph.edist_eq_zero_iff.1 distance.symm
      exact silent (same ▸ told)
    rw [← distance] at near
    have le : d ≤ hops.toNat := by exact_mod_cast near
    exact ⟨s, told, d, distance.symm, by omega, by omega⟩
  · rintro ⟨s, told, d, distance, -, le⟩
    refine ⟨s, (source s).2 told, ?_⟩
    rw [distance]
    have le' : d ≤ hops.toNat := by omega
    exact_mod_cast le'

theorem find?_hits_eq_none {name : Text} :
    (hits literals).find? (·.method = name) = none ↔ ¬Telling literals name := by
  rw [← mem_methods_hits, List.find?_eq_none]
  simp

variable {context : List Text}

theorem role_place (m : Member) :
    ((place (hits literals) context (distinctCalls calls) m).role = .signal ↔ Telling literals m.name) ∧
    ((place (hits literals) context (distinctCalls calls) m).role = .context ↔
      ¬Telling literals m.name ∧ m.name ∈ context) ∧
    ((place (hits literals) context (distinctCalls calls) m).role = .outside ↔
      ¬Telling literals m.name ∧ m.name ∉ context) := by
  rw [← find?_hits_eq_none, ← not_iff_not (b := Telling literals m.name), ← find?_hits_eq_none]
  unfold place
  cases (hits literals).find? (·.method = m.name) with
  | some h => simp
  | none => by_cases near : m.name ∈ context <;> simp [near]

theorem toMember_place (m : Member) :
    (place (hits literals) context (distinctCalls calls) m).toMember = m := by
  unfold place
  cases (hits literals).find? (·.method = m.name) <;> rfl

theorem isEntryPoint_place (m : Member) :
    (place (hits literals) context (distinctCalls calls) m).isEntryPoint = true ↔
      ∀ c ∈ calls, c.callee ≠ [] → c.callee ≠ m.name := by
  unfold place
  cases (hits literals).find? (·.method = m.name) <;> simp [mem_distinctCalls]

/-- Only what belongs to the context counts. -/
theorem place_congr {context' : List Text} (same : ∀ name, name ∈ context ↔ name ∈ context') (m : Member) :
    place (hits literals) context (distinctCalls calls) m =
      place (hits literals) context' (distinctCalls calls) m := by
  simp [place, same]

theorem mem_methods {m : SignalMethod} :
    m ∈ (buildFrom order members calls literals hops).methods ↔
      ∃ x ∈ members, place (hits literals) (spread (distinctCalls calls) hops.toNat order order)
        (distinctCalls calls) x = m := by
  simp [buildFrom]

end Roles

/-- The graph has the methods it was made from, their roles are distances in the call graph, and its
entry points are the methods without a call. -/
structure Measures (g : SignalGraph) (members : List Member) (calls : List Call) (literals : List Literal)
    (hops : Int) : Prop where
  methods : (g.methods.map SignalMethod.toMember).Perm members
  signal : ∀ m ∈ g.methods, m.role = .signal ↔ Telling literals m.name
  context : ∀ m ∈ g.methods, m.role = .context ↔
    ¬Telling literals m.name ∧ Nearby calls literals hops m.name
  outside : ∀ m ∈ g.methods, m.role = .outside ↔
    ¬Telling literals m.name ∧ ¬Nearby calls literals hops m.name
  entryPoint : ∀ m ∈ g.methods, m.isEntryPoint = true ↔
    ∀ c ∈ calls, c.callee ≠ [] → c.callee ≠ m.name

/-- **Roles are exact distances**, and the order in which the signal methods are expanded changes
nothing of the graph. -/
theorem buildFrom_measures {order : List Text} {literals : List Literal}
    (expands : order.Perm ((hits literals).map (·.method))) (members : List Member) (calls : List Call)
    (hops : Int) :
    (buildFrom order members calls literals hops).Measures members calls literals hops ∧
      buildFrom order members calls literals hops = build members calls literals hops := by
  refine ⟨⟨?_, ?_, ?_, ?_, ?_⟩, ?_⟩
  · have sorted := (List.mergeSort_perm (members.map (place (hits literals)
      (spread (distinctCalls calls) hops.toNat order order) (distinctCalls calls)))
      fun a b => !b.precedes a).map SignalMethod.toMember
    rw [List.map_map] at sorted
    have kept : SignalMethod.toMember ∘ place (hits literals)
        (spread (distinctCalls calls) hops.toNat order order) (distinctCalls calls) = id :=
      funext toMember_place
    rw [kept, List.map_id] at sorted
    exact sorted
  · intro m member
    obtain ⟨x, -, rfl⟩ := mem_methods.1 member
    rw [toMember_place]
    exact (role_place x).1
  · intro m member
    obtain ⟨x, -, rfl⟩ := mem_methods.1 member
    rw [toMember_place, (role_place x).2.1, mem_context_iff expands]
    exact and_congr_right fun silent => and_iff_right silent
  · intro m member
    obtain ⟨x, -, rfl⟩ := mem_methods.1 member
    rw [toMember_place, (role_place x).2.2, mem_context_iff expands]
    refine and_congr_right fun silent => not_congr (and_iff_right silent)
  · intro m member
    obtain ⟨x, -, rfl⟩ := mem_methods.1 member
    rw [toMember_place]
    exact isEntryPoint_place x
  · have same : ∀ name, name ∈ spread (distinctCalls calls) hops.toNat order order ↔
        name ∈ spread (distinctCalls calls) hops.toNat ((hits literals).map (·.method))
          ((hits literals).map (·.method)) := fun name =>
      (mem_context_iff expands).trans (mem_context_iff (List.Perm.refl _)).symm
    have perm := (List.perm_ext_iff_of_nodup ((AtDistance.start calls order).nodup_spread hops.toNat)
      ((AtDistance.start calls _).nodup_spread hops.toNat)).2 same
    simp only [build, buildFrom, funext (place_congr same), perm.length_eq]

/-- Two telling literals and one that says nothing. -/
def sampleLiterals : List Literal :=
  [⟨"Login", 0, "password"⟩, ⟨"Fetch", 3, "http://x"⟩, ⟨"Main", 1, "hello"⟩]

/-- Calls with a repetition, a method that calls itself, a callee without a name and a method that
is no member. -/
def sampleCalls : List Call :=
  [⟨"Main", "Helper"⟩, ⟨"Main", "Helper"⟩, ⟨"Helper", "Login"⟩, ⟨"Main", []⟩, ⟨"Fetch", "Fetch"⟩]

theorem buildFrom_measures_sample :
    [Text.ofString "Fetch", Text.ofString "Login"].Perm ((hits sampleLiterals).map (·.method)) ∧
      (buildFrom ["Fetch", "Login"] [⟨"Main", [], 4⟩, ⟨"Login", [], 9⟩, ⟨"Idle", [], 0⟩] sampleCalls
        sampleLiterals 2).Measures [⟨"Main", [], 4⟩, ⟨"Login", [], 9⟩, ⟨"Idle", [], 0⟩] sampleCalls
        sampleLiterals 2 := by
  have expands : [Text.ofString "Fetch", Text.ofString "Login"].Perm ((hits sampleLiterals).map (·.method)) := by
    decide +kernel
  exact ⟨expands, (buildFrom_measures expands _ sampleCalls 2).1⟩

end SignalGraph

end CilAudit
