import CilAudit.Proofs.SignalRoles
import CilAudit.Signal.View
import Mathlib.Logic.ExistsUnique
import Mathlib.Logic.Relation

/-!
# Folding keeps who reaches whom

A view is folded until no method only passes a call on. Folding one method keeps the paths between
the others, and it cannot leave a call without its method, since a method that is folded is on no
cycle of its own: every call of a view is either one between two targets or leads away from the
roots, so that a rank rises along it. The rank comes from the trails that the view is made of.
-/

set_option autoImplicit false

namespace CilAudit

open Signal

namespace SignalView

/-- A path of one or more calls. -/
def Reaches (v : SignalView) : Text → Text → Prop := Relation.TransGen fun a b => (a, b) ∈ v.calls

/-- A view in which every call has its methods and leads from target to target or up in rank. -/
structure Ranked (g : SignalGraph) (rank : Text → Nat) (v : SignalView) : Prop where
  nodup_nodes : v.nodes.Nodup
  nodup_calls : v.calls.Nodup
  ends : ∀ c ∈ v.calls, c.1 ∈ v.nodes ∧ c.2 ∈ v.nodes
  rises : ∀ c ∈ v.calls, (g.isTarget c.1 = true ∧ g.isTarget c.2 = true) ∨ rank c.1 < rank c.2

/-- The method has one caller and one callee in the view and may be folded away. -/
structure Passes (g : SignalGraph) (v : SignalView) (name caller callee : Text) : Prop where
  isCalled : g.isCalled name = true
  noTarget : g.isTarget name = false
  into : (caller, name) ∈ v.calls
  out : (name, callee) ∈ v.calls
  into_unique : ∀ a, (a, name) ∈ v.calls → a = caller
  out_unique : ∀ b, (name, b) ∈ v.calls → b = callee

/-! ## One method -/

section Fold

variable {g : SignalGraph} {v : SignalView} {rank : Text → Nat} {name caller callee : Text}

theorem passes_of_passage? {into out : Text × Text} (found : v.passage? g name = some (into, out)) :
    ∃ caller callee, into = (caller, name) ∧ out = (name, callee) ∧ v.Passes g name caller callee := by
  simp only [passage?] at found
  split at found
  · cases found
  · rename_i foldable
    simp only [Bool.or_eq_true, Bool.not_eq_true', not_or, Bool.not_eq_false, Bool.not_eq_true] at foldable
    split at found
    · rename_i into' out' ins outs
      cases found
      have mem_in : ∀ c, c ∈ v.calls ∧ c.2 = name ↔ c = into := by
        intro c
        have same : c ∈ v.calls.filter (·.2 = name) ↔ c ∈ [into] := by rw [ins]
        simpa using same
      have mem_out : ∀ c, c ∈ v.calls ∧ c.1 = name ↔ c = out := by
        intro c
        have same : c ∈ v.calls.filter (·.1 = name) ↔ c ∈ [out] := by rw [outs]
        simpa using same
      obtain ⟨caller, _⟩ := into
      obtain ⟨_, callee⟩ := out
      obtain ⟨called_in, rfl⟩ := (mem_in _).2 rfl
      obtain ⟨called_out, rfl⟩ := (mem_out _).2 rfl
      refine ⟨caller, callee, rfl, rfl, foldable.1, foldable.2, called_in, called_out, ?_, ?_⟩
      · intro a call
        exact congrArg Prod.fst ((mem_in _).1 ⟨call, rfl⟩)
      · intro b call
        exact congrArg Prod.snd ((mem_out _).1 ⟨call, rfl⟩)
    · cases found

theorem foldAway_of_none (none : v.passage? g name = none) : v.foldAway g name = v := by
  simp [foldAway, none]

/-- A method on one way only lies between its neighbours in rank, and so differs from both. -/
theorem Passes.ranks (p : v.Passes g name caller callee) (h : v.Ranked g rank) :
    rank caller < rank name ∧ rank name < rank callee := by
  constructor
  · refine (h.rises _ p.into).resolve_left fun both => ?_
    rw [p.noTarget] at both
    exact Bool.false_ne_true both.2
  · refine (h.rises _ p.out).resolve_left fun both => ?_
    rw [p.noTarget] at both
    exact Bool.false_ne_true both.1

theorem Passes.caller_ne (p : v.Passes g name caller callee) (h : v.Ranked g rank) : caller ≠ name := by
  rintro rfl
  exact Nat.lt_irrefl _ (p.ranks h).1

theorem Passes.callee_ne (p : v.Passes g name caller callee) (h : v.Ranked g rank) : callee ≠ name := by
  rintro rfl
  exact Nat.lt_irrefl _ (p.ranks h).2

/-- The view without the method. -/
def without (v : SignalView) (name caller callee : Text) : SignalView where
  nodes := v.nodes.filter (· ≠ name)
  calls := (v.calls.filter fun c => c ≠ (caller, name) && c ≠ (name, callee)).insert (caller, callee)

theorem foldAway_cases (g : SignalGraph) (v : SignalView) (name : Text) :
    (v.passage? g name = none ∧ v.foldAway g name = v) ∨
      ∃ caller callee, v.Passes g name caller callee ∧ (v.passage? g name).isSome = true ∧
        v.foldAway g name = v.without name caller callee := by
  cases found : v.passage? g name with
  | none => exact .inl ⟨rfl, foldAway_of_none found⟩
  | some passage =>
    obtain ⟨first, second⟩ := passage
    obtain ⟨caller, callee, into, out, passes⟩ := passes_of_passage? found
    refine .inr ⟨caller, callee, passes, rfl, ?_⟩
    simp only [foldAway, found, into, out]
    rfl

theorem Passes.mem_calls (p : v.Passes g name caller callee) {c : Text × Text} :
    c ∈ (v.without name caller callee).calls ↔
      c = (caller, callee) ∨ c ∈ v.calls ∧ c.1 ≠ name ∧ c.2 ≠ name := by
  obtain ⟨a, b⟩ := c
  simp only [without, List.mem_insert_iff, List.mem_filter, Bool.and_eq_true, decide_eq_true_eq, ne_eq,
    Prod.mk.injEq, not_and]
  refine or_congr_right (and_congr_right fun member => ?_)
  constructor
  · rintro ⟨notIn, notOut⟩
    constructor
    · rintro rfl
      exact notOut rfl (p.out_unique b member)
    · rintro rfl
      exact notIn (p.into_unique a member) rfl
  · rintro ⟨first, second⟩
    exact ⟨fun _ => second, fun same => absurd same first⟩

theorem Passes.ranked (p : v.Passes g name caller callee) (h : v.Ranked g rank) :
    (v.without name caller callee).Ranked g rank where
  nodup_nodes := h.nodup_nodes.filter _
  nodup_calls := (h.nodup_calls.filter _).insert
  ends c member := by
    have kept : ∀ n ∈ v.nodes, n ≠ name → n ∈ (v.without name caller callee).nodes := by
      intro n known different
      simp [without, known, different]
    rcases p.mem_calls.1 member with rfl | ⟨member, first, second⟩
    · exact ⟨kept _ (h.ends _ p.into).1 (p.caller_ne h), kept _ (h.ends _ p.out).2 (p.callee_ne h)⟩
    · exact ⟨kept _ (h.ends c member).1 first, kept _ (h.ends c member).2 second⟩
  rises c member := by
    rcases p.mem_calls.1 member with rfl | ⟨member, -, -⟩
    · have between := p.ranks h
      exact .inr (by simp only; omega)
    · exact h.rises c member

/-- A path in the folded view takes the way through the method instead. -/
theorem Passes.unfold_path (p : v.Passes g name caller callee) {a b : Text}
    (path : (v.without name caller callee).Reaches a b) : v.Reaches a b := by
  have step : ∀ {x y}, (x, y) ∈ (v.without name caller callee).calls → v.Reaches x y := by
    intro x y call
    rcases p.mem_calls.1 call with same | ⟨call, -, -⟩
    · cases same
      exact .tail (.single p.into) p.out
    · exact .single call
  induction path with
  | single call => exact step call
  | tail _ call ih => exact ih.trans (step call)

/-- A path from another method goes on in the folded view; where it stands on the folded method, the
way to its caller is what is left of it. -/
theorem Passes.fold_path (p : v.Passes g name caller callee) (h : v.Ranked g rank) {a b : Text}
    (other : a ≠ name) (path : v.Reaches a b) :
    (b ≠ name → (v.without name caller callee).Reaches a b) ∧
      (b = name → a = caller ∨ (v.without name caller callee).Reaches a caller) := by
  induction path with
  | single call =>
    constructor
    · intro different
      exact .single (p.mem_calls.2 (.inr ⟨call, other, different⟩))
    · rintro rfl
      exact .inl (p.into_unique a call)
  | @tail m b _ call ih =>
    by_cases here : m = name
    · subst here
      obtain rfl := p.out_unique b call
      have shortcut : (caller, b) ∈ (v.without m caller b).calls := p.mem_calls.2 (.inl rfl)
      constructor
      · intro _
        rcases ih.2 rfl with rfl | before
        · exact .single shortcut
        · exact before.tail shortcut
      · exact fun same => absurd same (p.callee_ne h)
    · have before := ih.1 here
      constructor
      · intro different
        exact before.tail (p.mem_calls.2 (.inr ⟨call, here, different⟩))
      · rintro rfl
        obtain rfl := p.into_unique m call
        exact .inr before

end Fold

/-! ## Passes over the view -/

/-- What folding may change: methods that are called and no targets may go, and paths between those
that are left stay. -/
structure Refines (g : SignalGraph) (v v' : SignalView) : Prop where
  known : ∀ n ∈ v'.nodes, n ∈ v.nodes
  kept : ∀ n ∈ v.nodes, g.isTarget n = true ∨ g.isCalled n = false → n ∈ v'.nodes
  reach : ∀ a ∈ v'.nodes, ∀ b ∈ v'.nodes, v'.Reaches a b ↔ v.Reaches a b

section Pass

variable {g : SignalGraph} {v v' v'' : SignalView} {rank : Text → Nat} {name caller callee : Text}

theorem Refines.refl (g : SignalGraph) (v : SignalView) : Refines g v v :=
  ⟨fun _ => id, fun _ member _ => member, fun _ _ _ _ => Iff.rfl⟩

theorem Refines.trans (first : Refines g v v') (second : Refines g v' v'') : Refines g v v'' where
  known n member := first.known n (second.known n member)
  kept n member why := second.kept n (first.kept n member why) why
  reach a ha b hb := (second.reach a ha b hb).trans (first.reach a (second.known a ha) b (second.known b hb))

theorem Passes.refines (p : v.Passes g name caller callee) (h : v.Ranked g rank) :
    Refines g v (v.without name caller callee) where
  known n member := (List.mem_filter.1 member).1
  kept n member why := by
    have different : n ≠ name := by
      rintro rfl
      rcases why with target | uncalled
      · exact Bool.false_ne_true (p.noTarget.symm.trans target)
      · exact Bool.false_ne_true (uncalled.symm.trans p.isCalled)
    simp [without, member, different]
  reach a ha b hb := by
    have other : ∀ n ∈ (v.without name caller callee).nodes, n ≠ name := by
      intro n member
      simpa using (List.mem_filter.1 member).2
    exact ⟨p.unfold_path, fun path => (p.fold_path h (other a ha) path).1 (other b hb)⟩

theorem Ranked.foldAway (h : v.Ranked g rank) (name : Text) :
    (v.foldAway g name).Ranked g rank ∧ Refines g v (v.foldAway g name) := by
  rcases foldAway_cases g v name with ⟨-, same⟩ | ⟨caller, callee, passes, -, same⟩
  · rw [same]
    exact ⟨h, .refl g v⟩
  · rw [same]
    exact ⟨passes.ranked h, passes.refines h⟩

theorem Ranked.foldl (h : v.Ranked g rank) (names : List Text) :
    (names.foldl (SignalView.foldAway g) v).Ranked g rank ∧
      Refines g v (names.foldl (SignalView.foldAway g) v) := by
  induction names generalizing v with
  | nil => exact ⟨h, .refl g v⟩
  | cons name rest ih =>
    obtain ⟨ranked, refines⟩ := h.foldAway name
    obtain ⟨ranked', refines'⟩ := ih ranked
    exact ⟨ranked', refines.trans refines'⟩

/-- Does a pass over the names fold a method? -/
def folds (g : SignalGraph) (v : SignalView) : List Text → Bool
  | [] => false
  | name :: rest => (v.passage? g name).isSome || folds g (v.foldAway g name) rest

/-- The passes come to an end: the last one folds nothing, and every one before it does. -/
inductive Settles (g : SignalGraph) : SignalView → SignalView → Prop where
  | still {v : SignalView} (none : v.folds g (Text.sort v.nodes) = false) : Settles g v (v.foldOnce g)
  | again {v v' : SignalView} (some : v.folds g (Text.sort v.nodes) = true)
      (rest : Settles g (v.foldOnce g) v') : Settles g v v'

theorem foldl_of_still {names : List Text} (still : v.folds g names = false) :
    names.foldl (SignalView.foldAway g) v = v ∧ ∀ n ∈ names, v.passage? g n = none := by
  induction names with
  | nil => simp
  | cons name rest ih =>
    simp only [folds, Bool.or_eq_false_iff, Option.isSome_eq_false_iff, Option.isNone_iff_eq_none] at still
    have same := foldAway_of_none still.1
    rw [same] at still
    obtain ⟨stays, all⟩ := ih still.2
    rw [List.foldl_cons, same]
    exact ⟨stays, List.forall_mem_cons.2 ⟨still.1, all⟩⟩

theorem length_foldAway_le (g : SignalGraph) (v : SignalView) (name : Text) :
    (v.foldAway g name).nodes.length ≤ v.nodes.length := by
  rcases foldAway_cases g v name with ⟨-, same⟩ | ⟨caller, callee, -, -, same⟩
  · rw [same]
  · rw [same]
    exact List.length_filter_le _ _

theorem length_foldl_le (names : List Text) :
    (names.foldl (SignalView.foldAway g) v).nodes.length ≤ v.nodes.length := by
  induction names generalizing v with
  | nil => exact Nat.le_refl _
  | cons name rest ih => exact ih.trans (length_foldAway_le g v name)

/-- A pass that folds a method has fewer of them afterwards. -/
theorem length_foldl_lt {names : List Text} (known : ∀ n ∈ names, n ∈ v.nodes)
    (some : v.folds g names = true) :
    (names.foldl (SignalView.foldAway g) v).nodes.length < v.nodes.length := by
  induction names with
  | nil => cases some
  | cons name rest ih =>
    rw [List.foldl_cons]
    rcases foldAway_cases g v name with ⟨none, same⟩ | ⟨caller, callee, -, -, same⟩
    · rw [folds, none, same] at some
      rw [same]
      exact ih (fun n member => known n (List.mem_cons_of_mem _ member)) some
    · have fewer : (v.foldAway g name).nodes.length < v.nodes.length := by
        rw [same]
        refine List.length_filter_lt_length_iff_exists.2 ⟨name, known name List.mem_cons_self, ?_⟩
        simp
      exact Nat.lt_of_le_of_lt (length_foldl_le rest) fewer

theorem mem_sort {ts : List Text} {t : Text} : t ∈ Text.sort ts ↔ t ∈ ts := List.mem_mergeSort

theorem settles_collapse (g : SignalGraph) (v : SignalView) : Settles g v (v.collapse g) := by
  induction v using collapse.induct g with
  | case1 v next fewer ih =>
    have some : v.folds g (Text.sort v.nodes) = true := by
      by_contra still
      have stays := (foldl_of_still (Bool.eq_false_iff.2 still)).1
      simp only [next, foldOnce, stays] at fewer
      exact Nat.lt_irrefl _ fewer
    rw [collapse, if_pos fewer]
    exact .again some ih
  | case2 v next same =>
    have none : v.folds g (Text.sort v.nodes) = false := by
      by_contra some
      exact same (length_foldl_lt (fun n member => mem_sort.1 member) (Bool.eq_true_of_not_eq_false some))
    rw [collapse, if_neg same]
    exact .still none

/-- At the end no method of the view can be folded. -/
theorem Settles.spec (s : Settles g v v') (h : v.Ranked g rank) :
    v'.Ranked g rank ∧ Refines g v v' ∧ ∀ n ∈ v'.nodes, v'.passage? g n = none := by
  induction s with
  | @still v none =>
    obtain ⟨stays, all⟩ := foldl_of_still none
    rw [foldOnce, stays]
    exact ⟨h, .refl g v, fun n member => all n (mem_sort.2 member)⟩
  | @again v v' some _ ih =>
    obtain ⟨ranked, refines⟩ := h.foldl (Text.sort v.nodes)
    obtain ⟨ranked', refines', all⟩ := ih ranked
    exact ⟨ranked', refines.trans refines', all⟩

theorem exists_filter_eq {α : Type} {l : List α} (nodup : l.Nodup) {p : α → Prop} [DecidablePred p]
    (one : ∃! c, c ∈ l ∧ p c) : ∃ c, l.filter (p ·) = [c] := by
  obtain ⟨c, ⟨member, holds⟩, only⟩ := one
  have all : ∀ d ∈ l.filter (p ·), d = c := by
    intro d kept
    exact only d (by simpa using List.mem_filter.1 kept)
  have first : c ∈ l.filter (p ·) := List.mem_filter.2 ⟨member, by simpa using holds⟩
  refine ⟨c, List.perm_singleton.1 ((List.perm_ext_iff_of_nodup (nodup.filter _) (List.nodup_singleton c)).2 ?_)⟩
  intro d
  rw [List.mem_singleton]
  exact ⟨all d, fun same => same ▸ first⟩

/-- What cannot be folded is a target, is not called, or has not just one call in and one out. -/
theorem Ranked.not_single (h : v.Ranked g rank) (none : v.passage? g name = none)
    (called : g.isCalled name = true) (noTarget : g.isTarget name = false) :
    ¬((∃! c, c ∈ v.calls ∧ c.2 = name) ∧ ∃! c, c ∈ v.calls ∧ c.1 = name) := by
  rintro ⟨oneIn, oneOut⟩
  obtain ⟨into, ins⟩ := exists_filter_eq h.nodup_calls oneIn
  obtain ⟨out, outs⟩ := exists_filter_eq h.nodup_calls oneOut
  simp [passage?, called, noTarget, ins, outs] at none

end Pass

end SignalView

/-! ## The rank of a traced view -/

namespace Signal

section Trails

variable {g : SignalGraph} {seen : List Text} {frontier : List Trail} {t : Trail}

theorem mem_extendTrails (member : t ∈ extendTrails g seen frontier) :
    t.last ∉ seen ∧ ∃ p ∈ frontier, t.last ∈ g.calleesOf p.last ∧ t.before = p.nodes := by
  have kept := (sublist_eraseDupsBy _ _).subset member
  simp only [List.mem_filter, List.mem_flatMap, List.mem_map, Bool.not_eq_true', List.contains_eq_mem,
    decide_eq_false_iff_not] at kept
  obtain ⟨⟨p, known, c, called, rfl⟩, unseen⟩ := kept
  exact ⟨unseen, p, known, called, rfl⟩

theorem nodup_extendTrails : ((extendTrails g seen frontier).map (·.last)).Nodup := by
  refine List.pairwise_map.2 ((pairwise_eraseDupsBy _ _).imp fun {s t} different => ?_)
  simpa [eq_comm] using different

/-- Trails are as long as it takes to reach their end for the first time, and each extends another. -/
theorem trailsBeyond_spec (length : Nat) :
    ((trailsBeyond g length seen frontier).map (·.last)).Nodup ∧
      ∀ t ∈ trailsBeyond g length seen frontier, t.last ∉ seen ∧
        ∃ p, (p ∈ frontier ∨ p ∈ trailsBeyond g length seen frontier) ∧ t.before = p.nodes := by
  induction length generalizing seen frontier with
  | zero => simp [trailsBeyond]
  | succ length ih =>
    simp only [trailsBeyond]
    split
    · simp
    · obtain ⟨nodup, spec⟩ := @ih (seen ++ (extendTrails g seen frontier).map (·.last))
        (extendTrails g seen frontier)
      constructor
      · rw [List.map_append]
        refine List.nodup_append'.2 ⟨nodup_extendTrails, nodup, ?_⟩
        intro name first later
        obtain ⟨t, member, rfl⟩ := List.mem_map.1 later
        exact (spec t member).1 (List.mem_append_right _ first)
      · intro t member
        rcases List.mem_append.1 member with next | later
        · obtain ⟨unseen, p, known, -, before⟩ := mem_extendTrails next
          exact ⟨unseen, p, .inl known, before⟩
        · obtain ⟨unseen, p, known, before⟩ := spec t later
          refine ⟨fun old => unseen (List.mem_append_left _ old), p, .inr ?_, before⟩
          exact List.mem_append.2 known

/-- No two trails end in the same method. -/
theorem nodup_trails (g : SignalGraph) : ((trails g).map (·.last)).Nodup := by
  obtain ⟨nodup, spec⟩ := @trailsBeyond_spec g g.roots (g.roots.map fun name => Trail.mk name []) maxPathLength
  have starts : (g.roots.map fun name => Trail.mk name []).map (·.last) = g.roots := by
    rw [List.map_map]
    exact List.map_id g.roots
  simp only [trails, List.map_append]
  rw [starts]
  refine List.nodup_append'.2 ⟨nodup_eraseDups _, nodup, ?_⟩
  intro name root later
  obtain ⟨t, member, rfl⟩ := List.mem_map.1 later
  exact (spec t member).1 root

/-- What a trail came from is a trail. -/
theorem mem_trails_of_before {last p : Text} {rest : List Text} (member : ⟨last, p :: rest⟩ ∈ trails g) :
    ⟨p, rest⟩ ∈ trails g := by
  have spec := (@trailsBeyond_spec g g.roots (g.roots.map fun name => Trail.mk name []) maxPathLength).2
  simp only [trails] at member ⊢
  rcases List.mem_append.1 member with start | beyond
  · simp at start
  · obtain ⟨-, ⟨q, before⟩, known, same⟩ := spec _ beyond
    simp only [Trail.nodes, List.cons.injEq] at same
    obtain ⟨rfl, rfl⟩ := same
    exact List.mem_append.2 known

/-- The number of calls on the trail to a method. -/
def depth (g : SignalGraph) (name : Text) : Nat :=
  (((trails g).find? (·.last = name)).map (·.before.length)).getD 0

theorem depth_of_mem (member : t ∈ trails g) : depth g t.last = t.before.length := by
  have found : (trails g).find? (·.last = t.last) = some t := by
    cases search : (trails g).find? (·.last = t.last) with
    | none => simpa using List.find?_eq_none.1 search t member
    | some s =>
      have same : s.last = t.last := by simpa using List.find?_some search
      have known := List.mem_of_find?_eq_some search
      rw [List.inj_on_of_nodup_map (nodup_trails g) known member same]
  simp [depth, found]

theorem depth_lt_of_link {c : Text × Text} {last : Text} {before : List Text}
    (member : ⟨last, before⟩ ∈ trails g) (link : c ∈ links (last :: before)) : depth g c.1 < depth g c.2 := by
  induction before generalizing last with
  | nil => cases link
  | cons p rest ih =>
    have shorter := mem_trails_of_before member
    rcases List.mem_cons.1 link with rfl | further
    · have here := depth_of_mem member
      have there := depth_of_mem shorter
      simp only [List.length_cons] at here there ⊢
      omega
    · exact ih shorter further

theorem mem_of_mem_links {c : Text × Text} {names : List Text} (link : c ∈ links names) :
    c.1 ∈ names ∧ c.2 ∈ names := by
  fun_induction links names with
  | case1 callee caller rest ih =>
    rcases List.mem_cons.1 link with rfl | further
    · simp
    · have both := ih further
      exact ⟨List.mem_cons_of_mem _ both.1, List.mem_cons_of_mem _ both.2⟩
  | case2 => cases link

end Trails

end Signal

theorem SignalGraph.isTarget_iff {g : SignalGraph} {name : Text} : g.isTarget name = true ↔ name ∈ g.targets := by
  simp [isTarget, targets]

namespace SignalView

/-- Along a trail the depth rises. Without a call on a trail or between targets, all calls of the
view lead from targets to other methods. -/
theorem ranked_trace (g : SignalGraph) : ∃ rank, (trace g).Ranked g rank := by
  unfold trace
  simp only
  split
  · refine ⟨fun name => if g.isTarget name then 0 else 1, nodup_eraseDups _, nodup_eraseDups _, ?_, ?_⟩
    · intro c member
      simp only [List.mem_eraseDups, List.mem_flatMap, List.mem_map] at member
      obtain ⟨target, known, callee, call, rfl⟩ := member
      simp only [List.mem_eraseDups, List.mem_append, List.mem_flatMap]
      exact ⟨.inl (.inr known), .inr ⟨target, known, call⟩⟩
    · intro c member
      simp only [List.mem_eraseDups, List.mem_flatMap, List.mem_map] at member
      obtain ⟨target, known, callee, call, rfl⟩ := member
      have isTarget := SignalGraph.isTarget_iff.2 known
      by_cases other : g.isTarget callee = true
      · exact .inl ⟨isTarget, other⟩
      · exact .inr (by simp [isTarget, other])
  · refine ⟨depth g, nodup_eraseDups _, nodup_eraseDups _, ?_, ?_⟩
    · intro c member
      simp only [List.mem_eraseDups, List.mem_append, List.mem_flatMap, List.mem_map] at member ⊢
      rcases member with ⟨t, known, link⟩ | ⟨call, known, rfl⟩
      · have both := mem_of_mem_links link
        exact ⟨.inl ⟨t, known, both.1⟩, .inl ⟨t, known, both.2⟩⟩
      · exact ⟨.inr ⟨call, known, by simp⟩, .inr ⟨call, known, by simp⟩⟩
    · intro c member
      simp only [List.mem_eraseDups, List.mem_append, List.mem_flatMap, List.mem_filter, List.mem_map] at member
      rcases member with ⟨t, ⟨known, -⟩, link⟩ | ⟨call, ⟨-, both⟩, rfl⟩
      · exact .inr (depth_lt_of_link known link)
      · simp only [List.contains_eq_mem, Bool.and_eq_true, decide_eq_true_eq] at both
        exact .inl ⟨SignalGraph.isTarget_iff.2 both.1.1, SignalGraph.isTarget_iff.2 both.1.2⟩

/-- What is left of a view when it has been collapsed. -/
structure Collapsed (g : SignalGraph) (v v' : SignalView) : Prop where
  /-- Collapsing comes to an end, and this is the end. -/
  settles : Settles g v v'
  known : ∀ n ∈ v'.nodes, n ∈ v.nodes
  target : ∀ n ∈ v.nodes, g.isTarget n = true → n ∈ v'.nodes
  root : ∀ n ∈ v.nodes, g.isCalled n = false → n ∈ v'.nodes
  ends : ∀ c ∈ v'.calls, c.1 ∈ v'.nodes ∧ c.2 ∈ v'.nodes
  reach : ∀ a ∈ v'.nodes, ∀ b ∈ v'.nodes, v'.Reaches a b ↔ v.Reaches a b
  folded : ∀ n ∈ v'.nodes, g.isCalled n = true → g.isTarget n = false →
    ¬((∃! c, c ∈ v'.calls ∧ c.2 = n) ∧ ∃! c, c ∈ v'.calls ∧ c.1 = n)

/-- **Collapsing a traced view keeps who reaches whom**, for every signal graph. -/
theorem collapse_trace (g : SignalGraph) : Collapsed g (trace g) ((trace g).collapse g) := by
  obtain ⟨rank, ranked⟩ := ranked_trace g
  have settles := settles_collapse g (trace g)
  obtain ⟨ranked', refines, none⟩ := settles.spec ranked
  exact {
    settles
    known := refines.known
    target := fun n member target => refines.kept n member (.inl target)
    root := fun n member uncalled => refines.kept n member (.inr uncalled)
    ends := ranked'.ends
    reach := refines.reach
    folded := fun n member => ranked'.not_single (none n member) }

end SignalView

end CilAudit
