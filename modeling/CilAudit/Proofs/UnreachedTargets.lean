import CilAudit.Proofs.ShortestTrails

/-!
# Targets that no root reaches

A target in a cycle of calls may be out of reach of all roots, so that no trail leads to it. A view draws
such targets with the methods they call if there is no other call to draw, which is a condition on the
whole graph: one target behind a root, or one call between two targets anywhere, and an unreached target
is left out unless a call joins it to another target.
-/

set_option autoImplicit false

namespace CilAudit

open Signal

namespace SignalGraph

/-- No path leads from a root to the method. -/
def Unreached (g : SignalGraph) (name : Text) : Prop := ∀ n, ¬g.Away n name

/-- No target lies behind a root within the greatest length of a path, and no target calls another. -/
structure Bare (g : SignalGraph) : Prop where
  unreached : ∀ t ∈ g.targets, ∀ d, 0 < d → d ≤ maxPathLength → ¬g.Distance t d
  apart : ∀ a b, ¬g.Joins a b

/-- The method calls another target or is called by one. -/
def Joined (g : SignalGraph) (name : Text) : Prop := ∃ u, g.Joins name u ∨ g.Joins u name

variable {g : SignalGraph} {name t : Text}

/-- What the roots and their calls do not leave is all that they reach. -/
theorem unreached_of_closed (inside : List Text) (roots : ∀ r ∈ g.roots, r ∈ inside)
    (closed : ∀ c ∈ g.calls, c.caller ∈ inside → c.callee ∈ inside) (outside : name ∉ inside) : g.Unreached name := by
  have reached : ∀ n name, g.Away n name → name ∈ inside := by
    intro n
    induction n with
    | zero => exact fun name root => roots name (mem_roots.2 (away_zero_iff.1 root))
    | succ n ih =>
      intro name away
      obtain ⟨a, before, call⟩ := away_succ_iff.1 away
      exact closed _ call.1 (ih a before)
  exact fun n away => outside (reached n name away)

theorem joins_of_calls {a b : Text} (call : g.Calls a b) (caller : a ∈ g.targets) (callee : b ∈ g.targets) :
    g.Joins a b :=
  ⟨caller, callee, call.2.2, call.1⟩

end SignalGraph

namespace SignalView

variable {g : SignalGraph} {t c : Text}

theorem drawnCalls_eq_nil_iff : drawnCalls g = [] ↔ g.Bare := by
  rw [← not_iff_not, ← ne_eq, drawnCalls_ne_nil_iff]
  constructor
  · rintro (⟨t, target, d, positive, near, distance⟩ | ⟨a, b, joins⟩) bare
    · exact bare.unreached t target d positive near distance
    · exact bare.apart a b joins
  · intro busy
    by_contra none
    push Not at none
    exact busy ⟨fun t target d positive near => none.1 t target d positive near, none.2⟩

/-- A view of a bare graph holds every target with all that it calls. -/
theorem mem_nodes_of_bare (bare : g.Bare) (target : t ∈ g.targets) :
    t ∈ (trace g).nodes ∧ ∀ c, g.Calls t c → c ∈ (trace g).nodes := by
  rw [trace_eq, if_pos (List.isEmpty_iff.2 (drawnCalls_eq_nil_iff.2 bare))]
  simp only [List.mem_eraseDups, List.mem_append, List.mem_flatMap]
  exact ⟨.inl (.inr target), fun c call => .inr ⟨t, target, SignalGraph.mem_calleesOf.2 call⟩⟩

/-- An unreached method is on no trail. -/
theorem mem_drawnNodes_of_unreached (unreached : g.Unreached t) : t ∈ drawnNodes g ↔ g.Joined t := by
  rw [mem_drawnNodes]
  refine or_iff_right ?_
  rintro ⟨s, known, passed⟩
  obtain ⟨u, ends, rfl⟩ := exists_trail_of_mem_nodes (mem_reached.1 known).1 passed
  exact unreached _ (shortest_of_mem_trails ends).distance.1

/-- What a target calls is drawn if it is a target itself or lies on the way to one. -/
theorem mem_drawnNodes_of_calls (target : t ∈ g.targets) (call : g.Calls t c) :
    c ∈ drawnNodes g ↔ c ∈ g.targets ∨ ∃ s ∈ reached g, c ∈ s.nodes := by
  rw [mem_drawnNodes, or_comm]
  refine or_congr_left ⟨?_, fun callee => ⟨t, .inr (SignalGraph.joins_of_calls call target callee)⟩⟩
  rintro ⟨u, out | into⟩
  · exact out.1
  · exact into.2.1

/-- **Unreached targets are drawn if nothing else is**, and else only next to other targets. A target that no root
reaches is in the view if and only if the graph is bare or a call joins the target to another one. All methods that it
calls are there as well if and only if the graph is bare or, besides, each of them is a target or lies on the trail to
one. -/
theorem trace_unreached_iff (target : t ∈ g.targets) (unreached : g.Unreached t) :
    (t ∈ (trace g).nodes ↔ g.Bare ∨ g.Joined t) ∧
    ((t ∈ (trace g).nodes ∧ ∀ c, g.Calls t c → c ∈ (trace g).nodes) ↔
      g.Bare ∨ g.Joined t ∧ ∀ c, g.Calls t c → c ∈ g.targets ∨ ∃ s ∈ reached g, c ∈ s.nodes) := by
  by_cases bare : g.Bare
  · obtain ⟨node, callees⟩ := mem_nodes_of_bare bare target
    exact ⟨iff_of_true node (.inl bare), iff_of_true ⟨node, callees⟩ (.inl bare)⟩
  · have busy : drawnCalls g ≠ [] := fun none => bare (drawnCalls_eq_nil_iff.1 none)
    have node : t ∈ (trace g).nodes ↔ g.Joined t :=
      (mem_nodes_trace busy).trans (mem_drawnNodes_of_unreached unreached)
    refine ⟨node.trans (or_iff_right bare).symm, Iff.trans ?_ (or_iff_right bare).symm⟩
    refine and_congr node (forall_congr' fun c => imp_congr_right fun call => ?_)
    exact (mem_nodes_trace busy).trans (mem_drawnNodes_of_calls target call)

/-- Two methods that call each other. The first of them is a target, and so is a root that calls nothing. -/
def seesaw : SignalGraph where
  methods := [{ station .signal "Ping" with severity := some .high }, station .context "Pong",
    { station .signal "Main" with severity := some .medium }]
  calls := [⟨"Ping", "Pong"⟩, ⟨"Pong", "Ping"⟩, ⟨"Pong", "Pong"⟩]
  stats := ⟨0, 0, 0, 0, 0, []⟩

theorem bare_seesaw : seesaw.Bare := by
  apply drawnCalls_eq_nil_iff.1
  decide +kernel

theorem trace_unreached_iff_seesaw :
    Text.ofString "Ping" ∈ seesaw.targets ∧ seesaw.Unreached "Ping" ∧ Text.ofString "Ping" ∈ (trace seesaw).nodes ∧
      ∀ c, seesaw.Calls "Ping" c → c ∈ (trace seesaw).nodes := by
  have target : Text.ofString "Ping" ∈ seesaw.targets := by decide +kernel
  have unreached : seesaw.Unreached "Ping" :=
    SignalGraph.unreached_of_closed ["Main"] (by decide +kernel) (by decide +kernel) (by decide +kernel)
  exact ⟨target, unreached, (trace_unreached_iff target unreached).2.2 (.inl bare_seesaw)⟩

/-- The same two methods, and a root that calls a target. -/
def ferry : SignalGraph where
  methods := [{ station .signal "Ping" with severity := some .high }, station .context "Pong", station .context "Main",
    { station .signal "Send" with severity := some .medium }]
  calls := [⟨"Ping", "Pong"⟩, ⟨"Pong", "Ping"⟩, ⟨"Main", "Send"⟩]
  stats := ⟨0, 0, 0, 0, 0, []⟩

/-- The target of high severity is out of reach of the root and is not drawn. -/
theorem trace_misses_unreached :
    Text.ofString "Ping" ∈ ferry.targets ∧ ferry.Unreached "Ping" ∧ Text.ofString "Ping" ∉ (trace ferry).nodes := by
  refine ⟨by decide +kernel, ?_, by decide +kernel⟩
  exact SignalGraph.unreached_of_closed ["Main", "Send"] (by decide +kernel) (by decide +kernel)
    (by decide +kernel)

end SignalView

end CilAudit
