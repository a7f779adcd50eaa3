import CilAudit.Proofs.ViewFolding
import Mathlib.Order.Bounds.Basic

/-!
# Traced views hold shortest paths

The search for trails goes out from the roots level by level, and each method keeps the first trail
that comes to it. So a trail is as long as its end is far from the roots, there is one to every method
up to the greatest length, and a view that is made of the trails to its targets holds a shortest path
to each of them. What lies further away is drawn only if a call joins it to another target.
-/

set_option autoImplicit false

namespace CilAudit

open Signal

/-! ## Distances from the roots -/

namespace SignalGraph

/-- A method calls another one, which has a name. -/
def Calls (g : SignalGraph) (a b : Text) : Prop := ⟨a, b⟩ ∈ g.calls ∧ b ≠ [] ∧ a ≠ b

/-- A listed method that no other calls. -/
def IsRoot (g : SignalGraph) (name : Text) : Prop := (∃ m ∈ g.methods, m.name = name) ∧ ∀ a, ¬g.Calls a name

/-- A path from a root, given from its end. -/
inductive RootPath (g : SignalGraph) (step : Text → Text → Prop) : List Text → Prop where
  | root {r : Text} (root : g.IsRoot r) : RootPath g step [r]
  | step {a b : Text} {path : List Text} (before : RootPath g step (a :: path)) (call : step a b) :
    RootPath g step (b :: a :: path)

/-- A path of `n` calls leads from a root to the method. -/
def Away (g : SignalGraph) (n : Nat) (name : Text) : Prop :=
  ∃ path, path.length = n ∧ g.RootPath g.Calls (name :: path)

/-- The method is `d` calls away from the roots, and no fewer. -/
def Distance (g : SignalGraph) (name : Text) (d : Nat) : Prop := IsLeast {n | g.Away n name} d

/-- A call from one target to another. -/
def Joins (g : SignalGraph) (a b : Text) : Prop := a ∈ g.targets ∧ b ∈ g.targets ∧ a ≠ b ∧ ⟨a, b⟩ ∈ g.calls

variable {g : SignalGraph} {a b name : Text} {d n : Nat}

theorem mem_calleesOf : b ∈ g.calleesOf a ↔ g.Calls a b := by
  simp only [calleesOf, List.mem_map, List.mem_filter, Bool.and_eq_true, decide_eq_true_eq, Calls]
  constructor
  · rintro ⟨⟨_, _⟩, ⟨member, ⟨rfl, named⟩, other⟩, rfl⟩
    exact ⟨member, named, other⟩
  · rintro ⟨member, named, other⟩
    exact ⟨⟨a, b⟩, ⟨member, ⟨rfl, named⟩, other⟩, rfl⟩

theorem isCalled_iff : g.isCalled name = true ↔ ∃ a, g.Calls a name := by
  simp only [isCalled, List.any_eq_true, Bool.and_eq_true, decide_eq_true_eq, Calls]
  constructor
  · rintro ⟨⟨a, _⟩, member, ⟨rfl, named⟩, other⟩
    exact ⟨a, member, named, other⟩
  · rintro ⟨a, member, named, other⟩
    exact ⟨⟨a, name⟩, member, ⟨rfl, named⟩, other⟩

theorem mem_roots : name ∈ g.roots ↔ g.IsRoot name := by
  simp only [roots, List.mem_eraseDups, List.mem_map, List.mem_filter, Bool.not_eq_true', IsRoot, ← not_exists,
    ← isCalled_iff, Bool.not_eq_true]
  constructor
  · rintro ⟨m, ⟨member, uncalled⟩, rfl⟩
    exact ⟨⟨m, member, rfl⟩, uncalled⟩
  · rintro ⟨⟨m, member, rfl⟩, uncalled⟩
    exact ⟨m, ⟨member, uncalled⟩, rfl⟩

theorem away_zero_iff : g.Away 0 name ↔ g.IsRoot name := by
  constructor
  · rintro ⟨path, length, rooted⟩
    obtain rfl := List.length_eq_zero_iff.1 length
    cases rooted with
    | root root => exact root
  · exact fun root => ⟨[], rfl, .root root⟩

theorem away_succ_iff : g.Away (n + 1) b ↔ ∃ a, g.Away n a ∧ g.Calls a b := by
  constructor
  · rintro ⟨path, length, rooted⟩
    cases rooted with
    | root => cases length
    | @step a _ path before call => exact ⟨a, ⟨path, Nat.succ.inj length, before⟩, call⟩
  · rintro ⟨a, ⟨path, rfl, before⟩, call⟩
    exact ⟨a :: path, rfl, .step before call⟩

theorem distance_zero_iff : g.Distance name 0 ↔ g.IsRoot name := by
  rw [← away_zero_iff]
  exact ⟨fun distance => distance.1, fun away => ⟨away, fun n _ => Nat.zero_le n⟩⟩

/-- What is one call further away is called from what is as far away, and from nothing nearer. -/
theorem distance_succ_iff :
    g.Distance b (d + 1) ↔ (∃ a, g.Distance a d ∧ g.Calls a b) ∧ ∀ n ≤ d, ¬g.Away n b := by
  constructor
  · rintro ⟨away, least⟩
    have further : ∀ n ≤ d, ¬g.Away n b := fun n near away => Nat.not_succ_le_self d (Nat.le_trans (least away) near)
    obtain ⟨a, before, call⟩ := away_succ_iff.1 away
    refine ⟨⟨a, ⟨before, fun n nearer => ?_⟩, call⟩, further⟩
    exact Nat.succ_le_succ_iff.1 (least (away_succ_iff.2 ⟨a, nearer, call⟩))
  · rintro ⟨⟨a, distance, call⟩, further⟩
    refine ⟨away_succ_iff.2 ⟨a, distance.1, call⟩, fun n away => ?_⟩
    by_contra near
    exact further n (Nat.lt_succ_iff.1 (Nat.lt_of_not_le near)) away

theorem RootPath.imp {step step' : Text → Text → Prop} (weaker : ∀ a b, step a b → step' a b) {path : List Text}
    (rooted : g.RootPath step path) : g.RootPath step' path := by
  induction rooted with
  | root root => exact .root root
  | step _ call ih => exact .step ih (weaker _ _ call)

/-- The steps of a path are its links. -/
theorem RootPath.linked {step : Text → Text → Prop} {path : List Text} (rooted : g.RootPath step path) :
    g.RootPath (fun a b => step a b ∧ (a, b) ∈ links path) path := by
  induction rooted with
  | root root => exact .root root
  | @step a b path _ call ih =>
    refine .step (ih.imp fun x y earlier => ⟨earlier.1, List.mem_cons_of_mem _ earlier.2⟩) ⟨call, List.mem_cons_self⟩

end SignalGraph

/-! ## The search -/

namespace Signal

variable {g : SignalGraph} {seen : List Text} {frontier : List Trail} {d : Nat} {name : Text} {t : Trail}

/-- The search stands at distance `d`: it has seen what is that near, and has a trail to each method
at just this distance. -/
structure AtDepth (g : SignalGraph) (d : Nat) (seen : List Text) (frontier : List Trail) : Prop where
  seen_iff : ∀ name, name ∈ seen ↔ ∃ n ≤ d, g.Away n name
  frontier_iff : ∀ name, name ∈ frontier.map (·.last) ↔ g.Distance name d
  length_eq : ∀ t ∈ frontier, t.before.length = d
  path : ∀ t ∈ frontier, g.RootPath g.Calls t.nodes

theorem AtDepth.start (g : SignalGraph) : AtDepth g 0 g.roots (g.roots.map fun name => ⟨name, []⟩) where
  seen_iff name := by simp [SignalGraph.mem_roots, SignalGraph.away_zero_iff]
  frontier_iff name := by simp [SignalGraph.mem_roots, SignalGraph.distance_zero_iff]
  length_eq t member := by
    obtain ⟨name, -, rfl⟩ := List.mem_map.1 member
    rfl
  path t member := by
    obtain ⟨name, root, rfl⟩ := List.mem_map.1 member
    exact .root (SignalGraph.mem_roots.1 root)

theorem mem_last_extendTrails :
    name ∈ (extendTrails g seen frontier).map (·.last) ↔
      (∃ a ∈ frontier.map (·.last), g.Calls a name) ∧ name ∉ seen := by
  constructor
  · intro ends
    obtain ⟨t, member, rfl⟩ := List.mem_map.1 ends
    obtain ⟨unseen, p, known, called, -⟩ := mem_extendTrails member
    exact ⟨⟨p.last, List.mem_map_of_mem known, SignalGraph.mem_calleesOf.1 called⟩, unseen⟩
  · rintro ⟨⟨a, ends, call⟩, unseen⟩
    obtain ⟨p, known, rfl⟩ := List.mem_map.1 ends
    have longer : (⟨name, p.nodes⟩ : Trail) ∈ (frontier.flatMap fun t =>
        (g.calleesOf t.last).map fun c => Trail.mk c t.nodes).filter (!seen.contains ·.last) := by
      simp only [List.mem_filter, List.mem_flatMap, List.mem_map, Bool.not_eq_true', List.contains_eq_mem,
        decide_eq_false_iff_not]
      exact ⟨⟨p, known, name, SignalGraph.mem_calleesOf.2 call, rfl⟩, unseen⟩
    obtain ⟨t, kept, same⟩ := exists_mem_eraseDupsBy (r := fun s t : Trail => decide (s.last = t.last)) (by simp)
      longer
    exact List.mem_map.2 ⟨t, kept, (of_decide_eq_true same).symm⟩

/-- One step of the search leads one call further away. -/
theorem AtDepth.advance (h : AtDepth g d seen frontier) :
    AtDepth g (d + 1) (seen ++ (extendTrails g seen frontier).map (·.last)) (extendTrails g seen frontier) := by
  have next (name : Text) : name ∈ (extendTrails g seen frontier).map (·.last) ↔ g.Distance name (d + 1) := by
    rw [mem_last_extendTrails, SignalGraph.distance_succ_iff, h.seen_iff]
    simp only [h.frontier_iff, not_exists, not_and]
  refine ⟨fun name => ?_, next, fun t member => ?_, fun t member => ?_⟩
  · rw [List.mem_append, h.seen_iff, next]
    constructor
    · rintro (⟨n, near, away⟩ | distance)
      · exact ⟨n, Nat.le_succ_of_le near, away⟩
      · exact ⟨d + 1, Nat.le_refl _, distance.1⟩
    · rintro ⟨n, near, away⟩
      by_cases nearer : ∃ n ≤ d, g.Away n name
      · exact .inl nearer
      · have further : ∀ k, g.Away k name → d + 1 ≤ k := fun k away => by
          by_contra near
          exact nearer ⟨k, by omega, away⟩
        obtain rfl : n = d + 1 := Nat.le_antisymm near (further n away)
        exact .inr ⟨away, fun k => further k⟩
  · obtain ⟨-, p, known, -, before⟩ := mem_extendTrails member
    rw [before, Trail.nodes, List.length_cons, h.length_eq p known]
  · obtain ⟨-, p, known, called, before⟩ := mem_extendTrails member
    rw [Trail.nodes, before]
    exact .step (h.path p known) (SignalGraph.mem_calleesOf.1 called)

/-- An empty frontier is no special case: nothing extends it. -/
theorem trailsBeyond_succ (length : Nat) :
    trailsBeyond g (length + 1) seen frontier = extendTrails g seen frontier ++
      trailsBeyond g length (seen ++ (extendTrails g seen frontier).map (·.last)) (extendTrails g seen frontier) := by
  rw [trailsBeyond]
  split
  · rename_i empty
    obtain rfl := List.isEmpty_iff.1 empty
    have none : extendTrails g seen [] = [] := rfl
    rw [none]
    cases length <;> rfl
  · rfl

/-- A trail as long as its end is far away, and no longer than some number of calls. -/
structure Trail.Shortest (g : SignalGraph) (most : Nat) (t : Trail) : Prop where
  length_le : t.before.length ≤ most
  distance : g.Distance t.last t.before.length
  path : g.RootPath g.Calls t.nodes

theorem AtDepth.shortest (h : AtDepth g d seen frontier) (member : t ∈ frontier) : t.Shortest g d where
  length_le := Nat.le_of_eq (h.length_eq t member)
  distance := by
    rw [h.length_eq t member]
    exact (h.frontier_iff t.last).1 (List.mem_map_of_mem member)
  path := h.path t member

/-- The whole search: it finds shortest trails, to all that is near enough. -/
theorem AtDepth.beyond (h : AtDepth g d seen frontier) (length : Nat) :
    (∀ t ∈ trailsBeyond g length seen frontier, t.Shortest g (d + length)) ∧
      ∀ name k, d < k → k ≤ d + length → g.Distance name k →
        ∃ t ∈ trailsBeyond g length seen frontier, t.last = name := by
  induction length generalizing d seen frontier with
  | zero =>
    refine ⟨by simp [trailsBeyond], fun name k further near => ?_⟩
    omega
  | succ length ih =>
    have forward := h.advance
    obtain ⟨sound, complete⟩ := ih forward
    rw [trailsBeyond_succ]
    refine ⟨fun t member => ?_, fun name k further near distance => ?_⟩
    · rcases List.mem_append.1 member with next | later
      · have shortest := forward.shortest next
        exact { shortest with length_le := Nat.le_trans shortest.length_le (by omega) }
      · have shortest := sound t later
        exact { shortest with length_le := Nat.le_trans shortest.length_le (by omega) }
    · by_cases here : k = d + 1
      · subst here
        obtain ⟨t, member, same⟩ := List.mem_map.1 ((forward.frontier_iff name).2 distance)
        exact ⟨t, List.mem_append_left _ member, same⟩
      · obtain ⟨t, member, same⟩ := complete name k (by omega) (by omega) distance
        exact ⟨t, List.mem_append_right _ member, same⟩

theorem shortest_of_mem_trails (member : t ∈ trails g) : t.Shortest g maxPathLength := by
  rcases List.mem_append.1 member with start | beyond
  · have shortest := (AtDepth.start g).shortest start
    exact { shortest with length_le := Nat.le_trans shortest.length_le (Nat.zero_le _) }
  · simpa using ((AtDepth.start g).beyond maxPathLength).1 t beyond

/-- **The trails are the distances** up to the greatest length. -/
theorem distance_iff (near : d ≤ maxPathLength) :
    g.Distance name d ↔ ∃ t ∈ trails g, t.last = name ∧ t.before.length = d := by
  constructor
  · intro distance
    have found : ∃ t ∈ trails g, t.last = name := by
      cases d with
      | zero =>
        obtain ⟨t, member, same⟩ := List.mem_map.1 (((AtDepth.start g).frontier_iff name).2 distance)
        exact ⟨t, List.mem_append_left _ member, same⟩
      | succ d =>
        obtain ⟨t, member, same⟩ := ((AtDepth.start g).beyond maxPathLength).2 name (d + 1) (Nat.succ_pos d)
          (by omega) distance
        exact ⟨t, List.mem_append_right _ member, same⟩
    obtain ⟨t, member, rfl⟩ := found
    exact ⟨t, member, rfl, (shortest_of_mem_trails member).distance.unique distance⟩
  · rintro ⟨t, member, rfl, rfl⟩
    exact (shortest_of_mem_trails member).distance

end Signal

/-! ## The view -/

theorem SignalGraph.RootPath.of_mem_links {g : SignalGraph} {step : Text → Text → Prop} {path : List Text}
    (rooted : g.RootPath step path) {c : Text × Text} (link : c ∈ links path) : step c.1 c.2 := by
  induction rooted with
  | root => cases link
  | step _ call ih =>
    rcases List.mem_cons.1 link with rfl | earlier
    · exact call
    · exact ih earlier

/-- What lies on a trail is the end of one. -/
theorem Signal.exists_trail_of_mem_nodes {g : SignalGraph} {last n : Text} {before : List Text}
    (member : ⟨last, before⟩ ∈ trails g) (passed : n ∈ last :: before) : ∃ t ∈ trails g, t.last = n := by
  induction before generalizing last with
  | nil => exact ⟨⟨last, []⟩, member, (List.mem_singleton.1 passed).symm⟩
  | cons p rest ih =>
    rcases List.mem_cons.1 passed with rfl | earlier
    · exact ⟨⟨n, p :: rest⟩, member, rfl⟩
    · exact ih (mem_trails_of_before member) earlier

namespace SignalView

variable {g : SignalGraph} {n : Text} {c : Text × Text}

/-- The trails that end in a target. -/
def reached (g : SignalGraph) : List Trail := (trails g).filter (g.targets.contains ·.last)

/-- The calls from one target to another. -/
def among (g : SignalGraph) : List Call :=
  g.calls.filter fun c => g.targets.contains c.caller && g.targets.contains c.callee && c.caller ≠ c.callee

/-- The methods on trails to targets and in calls among targets. -/
def drawnNodes (g : SignalGraph) : List Text :=
  (reached g).flatMap Trail.nodes ++ (among g).flatMap fun c => [c.caller, c.callee]

/-- The calls on trails to targets and among targets. -/
def drawnCalls (g : SignalGraph) : List (Text × Text) :=
  (reached g).flatMap Trail.calls ++ (among g).map fun c => (c.caller, c.callee)

theorem trace_eq (g : SignalGraph) :
    trace g =
      if (drawnCalls g).isEmpty then
        ⟨(drawnNodes g ++ g.targets ++ g.targets.flatMap g.calleesOf).eraseDups,
          (g.targets.flatMap fun t => (g.calleesOf t).map fun c => (t, c)).eraseDups⟩
      else ⟨(drawnNodes g).eraseDups, (drawnCalls g).eraseDups⟩ := rfl

theorem mem_reached {t : Trail} : t ∈ reached g ↔ t ∈ trails g ∧ t.last ∈ g.targets := by
  simp [reached]

theorem mem_among {a b : Text} : ⟨a, b⟩ ∈ among g ↔ g.Joins a b := by
  simp only [among, List.mem_filter, SignalGraph.Joins, List.contains_eq_mem, Bool.and_eq_true, decide_eq_true_eq]
  tauto

theorem mem_drawnNodes : n ∈ drawnNodes g ↔ (∃ t ∈ reached g, n ∈ t.nodes) ∨ ∃ u, g.Joins n u ∨ g.Joins u n := by
  simp only [drawnNodes, List.mem_append, List.mem_flatMap, List.mem_cons, List.not_mem_nil, or_false]
  refine or_congr_right ⟨?_, ?_⟩
  · rintro ⟨⟨a, b⟩, member, rfl | rfl⟩
    · exact ⟨b, .inl (mem_among.1 member)⟩
    · exact ⟨a, .inr (mem_among.1 member)⟩
  · rintro ⟨u, out | into⟩
    · exact ⟨⟨n, u⟩, mem_among.2 out, .inl rfl⟩
    · exact ⟨⟨u, n⟩, mem_among.2 into, .inr rfl⟩

theorem mem_drawnCalls : c ∈ drawnCalls g ↔ (∃ t ∈ reached g, c ∈ t.calls) ∨ g.Joins c.1 c.2 := by
  simp only [drawnCalls, List.mem_append, List.mem_flatMap, List.mem_map]
  refine or_congr_right ⟨?_, fun joins => ⟨⟨c.1, c.2⟩, mem_among.2 joins, rfl⟩⟩
  rintro ⟨⟨a, b⟩, member, rfl⟩
  exact mem_among.1 member

/-- A call is drawn if a target lies behind a root, or another target is called. -/
theorem drawnCalls_ne_nil_iff :
    drawnCalls g ≠ [] ↔
      (∃ t ∈ g.targets, ∃ d, 0 < d ∧ d ≤ maxPathLength ∧ g.Distance t d) ∨ ∃ a b, g.Joins a b := by
  rw [ne_eq, List.eq_nil_iff_forall_not_mem]
  simp only [not_forall, not_not, mem_drawnCalls, exists_or, Prod.exists]
  refine or_congr_left ⟨?_, ?_⟩
  · rintro ⟨a, b, t, member, link⟩
    obtain ⟨known, target⟩ := mem_reached.1 member
    have shortest := shortest_of_mem_trails known
    have positive : 0 < t.before.length := List.length_pos_iff.2 fun none => by
      simp [Trail.calls, Trail.nodes, none, links] at link
    exact ⟨t.last, target, t.before.length, positive, shortest.length_le, shortest.distance⟩
  · rintro ⟨name, target, d, positive, near, distance⟩
    obtain ⟨⟨last, before⟩, known, rfl, rfl⟩ := (distance_iff near).1 distance
    cases before with
    | nil => cases positive
    | cons p rest => exact ⟨p, last, _, mem_reached.2 ⟨known, target⟩, List.mem_cons_self⟩

theorem mem_nodes_of_drawn (drawn : n ∈ drawnNodes g) : n ∈ (trace g).nodes := by
  rw [trace_eq]
  split <;> simp [drawn]

theorem mem_calls_of_drawn (drawn : c ∈ drawnCalls g) : c ∈ (trace g).calls := by
  rw [trace_eq, if_neg (by simpa using List.ne_nil_of_mem drawn), List.mem_eraseDups]
  exact drawn

theorem mem_nodes_trace (some : drawnCalls g ≠ []) : n ∈ (trace g).nodes ↔ n ∈ drawnNodes g := by
  rw [trace_eq, if_neg (by simpa using some), List.mem_eraseDups]

/-- All calls of a view are calls of the graph. -/
theorem mem_calls_of_mem_trace (member : c ∈ (trace g).calls) : ⟨c.1, c.2⟩ ∈ g.calls := by
  rw [trace_eq] at member
  split at member
  · simp only [List.mem_eraseDups, List.mem_flatMap, List.mem_map] at member
    obtain ⟨t, -, callee, call, rfl⟩ := member
    exact (SignalGraph.mem_calleesOf.1 call).1
  · rcases mem_drawnCalls.1 (List.mem_eraseDups.1 member) with ⟨t, known, link⟩ | joins
    · exact ((shortest_of_mem_trails (mem_reached.1 known).1).path.of_mem_links link).1
    · exact joins.2.2.2

/-- **A traced view holds a shortest path to each target**, for every signal graph. To a target as far
from the roots as a path may be long, or nearer, the view holds a path of calls from a root, with all
its methods, that has no more calls than the target is away. All calls of the view are calls of the
graph. If a call is drawn on such a path or between two targets, the targets further away or out of
reach are in the view if they call or are called by another target, and only then. -/
theorem trace_shortest (g : SignalGraph) :
    (∀ t ∈ g.targets, ∀ d ≤ maxPathLength, g.Distance t d →
      ∃ path, path.length = d ∧ g.RootPath (fun a b => g.Calls a b ∧ (a, b) ∈ (trace g).calls) (t :: path) ∧
        ∀ n ∈ t :: path, n ∈ (trace g).nodes) ∧
    (∀ c ∈ (trace g).calls, ⟨c.1, c.2⟩ ∈ g.calls) ∧
    ((∃ t ∈ g.targets, ∃ d, 0 < d ∧ d ≤ maxPathLength ∧ g.Distance t d) ∨ (∃ a b, g.Joins a b) →
      ∀ t ∈ g.targets, (∀ d ≤ maxPathLength, ¬g.Distance t d) →
        (t ∈ (trace g).nodes ↔ ∃ u, g.Joins t u ∨ g.Joins u t)) := by
  refine ⟨fun t target d near distance => ?_, fun c => mem_calls_of_mem_trace, fun some t target far => ?_⟩
  · obtain ⟨⟨last, before⟩, known, rfl, rfl⟩ := (distance_iff near).1 distance
    have reaching := mem_reached.2 ⟨known, target⟩
    have drawn : ∀ c ∈ links (last :: before), c ∈ (trace g).calls := fun c link =>
      mem_calls_of_drawn (mem_drawnCalls.2 (.inl ⟨_, reaching, link⟩))
    refine ⟨before, rfl, (shortest_of_mem_trails known).path.linked.imp fun a b step => ⟨step.1, drawn _ step.2⟩, ?_⟩
    exact fun n passed => mem_nodes_of_drawn (mem_drawnNodes.2 (.inl ⟨_, reaching, passed⟩))
  · rw [mem_nodes_trace (drawnCalls_ne_nil_iff.2 some), mem_drawnNodes]
    refine or_iff_right ?_
    rintro ⟨s, known, passed⟩
    obtain ⟨u, ends, rfl⟩ := exists_trail_of_mem_nodes (mem_reached.1 known).1 passed
    exact far _ (shortest_of_mem_trails ends).length_le (shortest_of_mem_trails ends).distance

/-- A method of which its role is known, and nothing else. -/
def station (role : Role) (name : Text) : SignalMethod :=
  { name, owner := [], size := 0, literals := [], categories := [], severity := none, role, isEntryPoint := false }

/-- A row of calls from `a` to `k`, with a way back and a call out of the row. The targets are `i`, which
is as far from the root as a path may be long, `k` and `z`; the second method of the row is not listed. -/
def relay : SignalGraph where
  methods := (["a", "c", "d", "e", "f", "g", "h", "j"] : List Text).map (station .context) ++
    (["i", "k", "z"] : List Text).map (station .signal)
  calls := [⟨"a", "b"⟩, ⟨"b", "c"⟩, ⟨"b", "c"⟩, ⟨"c", "d"⟩, ⟨"d", "e"⟩, ⟨"e", "f"⟩, ⟨"f", "g"⟩, ⟨"g", "h"⟩, ⟨"h", "i"⟩,
    ⟨"i", "c"⟩, ⟨"i", "j"⟩, ⟨"j", "k"⟩, ⟨"i", "z"⟩]
  stats := ⟨0, 0, 0, 0, 0, []⟩

/-- The whole way to `i` is drawn, and `z` for the call from there; `k` is not. -/
theorem trace_shortest_relay :
    relay.Distance "i" 8 ∧
    (∃ path, path.length = 8 ∧
      relay.RootPath (fun a b => relay.Calls a b ∧ (a, b) ∈ (trace relay).calls) ("i" :: path) ∧
      ∀ n ∈ Text.ofString "i" :: path, n ∈ (trace relay).nodes) ∧
    Text.ofString "z" ∈ (trace relay).nodes ∧ Text.ofString "k" ∉ (trace relay).nodes := by
  obtain ⟨paths, -, far⟩ := trace_shortest relay
  have distance : relay.Distance "i" 8 :=
    (distance_iff (Nat.le_refl 8)).2 ⟨⟨"i", ["h", "g", "f", "e", "d", "c", "b", "a"]⟩, by decide +kernel, rfl, rfl⟩
  have target : Text.ofString "i" ∈ relay.targets := by decide +kernel
  have beyond : ∀ name ∈ ([Text.ofString "z", Text.ofString "k"] : List Text), name ∈ relay.targets ∧
      ∀ t ∈ trails relay, t.last ≠ name := by
    decide +kernel
  have drawn (name : Text) (member : name ∈ [Text.ofString "z", Text.ofString "k"]) :=
    far (.inl ⟨_, target, 8, by decide, Nat.le_refl 8, distance⟩) name (beyond name member).1 fun d near reached => by
      obtain ⟨t, known, same, -⟩ := (distance_iff near).1 reached
      exact (beyond name member).2 t known same
  refine ⟨distance, paths _ target 8 (Nat.le_refl 8) distance, (drawn "z" (by simp)).2 ⟨"i", .inr ?_⟩, fun shown => ?_⟩
  · exact mem_among.1 (by decide +kernel)
  · obtain ⟨u, joins⟩ := (drawn "k" (by simp)).1 shown
    have apart : ∀ c ∈ among relay, c.caller ≠ "k" ∧ c.callee ≠ "k" := by decide +kernel
    rcases joins with out | into
    · exact (apart _ (mem_among.2 out)).1 rfl
    · exact (apart _ (mem_among.2 into)).2 rfl

end SignalView

end CilAudit
