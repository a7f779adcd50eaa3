import CilAudit.Proofs.SignalRoles
import Mathlib.Data.List.Lex
import Mathlib.Data.Prod.Lex

/-!
# The order of signal graphs

Methods stand in a signal graph by their role, and signal methods by what is known of them. Names decide
last, so methods with different names never stand at the same place, and the list is the same in whatever
order the methods come. The calls count as a set: roles and entry points ask what calls there are, and not
where they stand or how often.
-/

set_option autoImplicit false

namespace CilAudit

/-! ## Places -/

namespace Text

/-- The bytes of a text as numbers, which are ordered as in a dictionary. -/
def values (t : Text) : List ℕ := t.map UInt8.toNat

theorem values_injective : Function.Injective values := List.map_injective_iff.2 fun _ _ => UInt8.toNat_inj.1

theorem le_eq_false_iff {a b : Text} : b.le a = false ↔ a.values < b.values := by
  induction b generalizing a with
  | nil => simp [le, values]
  | cons y ys ih =>
    cases a with
    | nil => simp [le, values]
    | cons x xs =>
      have rest : xs.map UInt8.toNat < ys.map UInt8.toNat ↔ le ys xs = false := ih.symm
      simp only [values, List.map_cons, List.cons_lt_cons_iff, le, rest, UInt8.lt_iff_toNat_lt]
      split_ifs with greater less
      · simp only [false_iff]
        omega
      · simp only [less, true_or]
      · have same : x.toNat = y.toNat := by omega
        simp only [same, Nat.lt_irrefl, true_and, false_or]

end Text

namespace SignalMethod

/-- Where a method stands: signal methods first, then context, then the rest. Among signal methods entry points
stand first; then the severity counts, then the number of categories, the greater first, and then the name. -/
def standing (m : SignalMethod) : ℕ ×ₗ Bool ×ₗ ℕ ×ₗ ℕᵒᵈ ×ₗ List ℕ :=
  toLex (m.role.rank, toLex (m.role = .signal && !m.isEntryPoint, toLex (m.severityRank,
    toLex (OrderDual.toDual m.categories.length, m.name.values))))

theorem rank_inj {r s : Signal.Role} : r.rank = s.rank ↔ r = s := by
  cases r <;> cases s <;> decide

theorem severityRank_inj {a b : SignalMethod} : a.severityRank = b.severityRank ↔ a.severity = b.severity := by
  unfold severityRank
  split <;> split <;> simp_all

/-- A comparison of pairs looks at the second parts only if the first are equal. -/
theorem toLex_lt_iff {α β : Type} [LinearOrder α] [LT β] {x y : α} {r s : β} :
    toLex (x, r) < toLex (y, s) ↔ if x = y then r < s else x < y := by
  rw [Prod.Lex.toLex_lt_toLex]
  by_cases same : x = y <;> simp [same]

/-- The order of the graph is the order of the places. -/
theorem precedes_iff {a b : SignalMethod} : a.precedes b = true ↔ a.standing < b.standing := by
  simp only [standing, toLex_lt_iff, rank_inj, severityRank_inj, OrderDual.toDual_lt_toDual,
    OrderDual.toDual_inj, ← Text.le_eq_false_iff, precedes]
  by_cases role : a.role = b.role
  · rw [if_neg (not_not.2 role), if_pos role]
    by_cases signal : b.role = .signal
    · cases a.isEntryPoint <;> cases b.isEntryPoint <;> simp [role, signal]
    · simp [role, signal]
  · simp [role]

theorem not_precedes_iff {a b : SignalMethod} : (!b.precedes a) = true ↔ a.standing ≤ b.standing := by
  rw [Bool.not_eq_true', ← Bool.not_eq_true, precedes_iff, not_lt]

theorem name_of_standing_eq {a b : SignalMethod} (same : a.standing = b.standing) : a.name = b.name := by
  apply Text.values_injective
  exact congrArg (fun place => (ofLex (ofLex (ofLex (ofLex place).2).2).2).2) same

end SignalMethod

/-! ## The graph -/

namespace SignalGraph

open Signal

section

variable {order order' : List Text} {members members' : List Member} {calls calls' : List Call}
variable {literals : List Literal} {hops : Int}

theorem methods_perm : (buildFrom order members calls literals hops).methods.Perm
    (members.map (place (hits literals) (spread (distinctCalls calls) hops.toNat order order)
      (distinctCalls calls))) :=
  List.mergeSort_perm _ _

theorem names_perm :
    ((buildFrom order members calls literals hops).methods.map (·.name)).Perm (members.map (·.name)) := by
  refine (methods_perm.map _).trans (List.Perm.of_eq ?_)
  rw [List.map_map]
  exact List.map_congr_left fun m _ => congrArg Member.name (toMember_place m)

/-- The methods stand in ascending order, and no two at the same place. -/
theorem pairwise_methods (order : List Text) (calls : List Call) (literals : List Literal) (hops : Int)
    (distinct : (members.map (·.name)).Nodup) :
    (buildFrom order members calls literals hops).methods.Pairwise fun a b => a.standing < b.standing := by
  have ascending : (buildFrom order members calls literals hops).methods.Pairwise
      fun a b => (!b.precedes a) = true := by
    apply List.pairwise_mergeSort
    · intro a b c first second
      rw [SignalMethod.not_precedes_iff] at *
      exact first.trans second
    · intro a b
      rw [Bool.or_eq_true, SignalMethod.not_precedes_iff, SignalMethod.not_precedes_iff]
      exact le_total _ _
  have apart := List.pairwise_map.1 (names_perm.nodup_iff.2 distinct :
    ((buildFrom order members calls literals hops).methods.map (·.name)).Nodup)
  refine (ascending.and apart).imp ?_
  rintro a b ⟨before, different⟩
  exact (SignalMethod.not_precedes_iff.1 before).lt_of_ne fun same => different (SignalMethod.name_of_standing_eq same)

/-- Calls count as a set. -/
theorem distinctCalls_perm (same : ∀ c, c ∈ calls ↔ c ∈ calls') :
    (distinctCalls calls).Perm (distinctCalls calls') := by
  refine (List.perm_ext_iff_of_nodup (nodup_eraseDups _) (nodup_eraseDups _)).2 fun c => ?_
  change c ∈ distinctCalls calls ↔ c ∈ distinctCalls calls'
  rw [mem_distinctCalls, mem_distinctCalls, same]

theorem callGraph_congr (same : ∀ c, c ∈ calls ↔ c ∈ calls') : callGraph calls = callGraph calls' := by
  simp only [callGraph, same]

/-- The context is the same set of names, whatever the search starts with. -/
theorem context_perm (expands : order.Perm ((hits literals).map (·.method)))
    (expands' : order'.Perm ((hits literals).map (·.method))) (same : ∀ c, c ∈ calls ↔ c ∈ calls') (hops : Int) :
    (spread (distinctCalls calls) hops.toNat order order).Perm
      (spread (distinctCalls calls') hops.toNat order' order') := by
  refine (List.perm_ext_iff_of_nodup ((AtDistance.start calls order).nodup_spread hops.toNat)
    ((AtDistance.start calls' order').nodup_spread hops.toNat)).2 fun name => ?_
  rw [mem_context_iff expands, mem_context_iff expands', Nearby, Nearby, callGraph_congr same]

/-- What is found out about a method asks only what is near and what is called. -/
theorem place_eq (found : List Hit) {context context' : List Text} {distinct distinct' : List Call}
    (near : context.Perm context') (called : distinct.Perm distinct') :
    place found context distinct = place found context' distinct' := by
  funext m
  simp only [place, called.any_eq, near.contains_eq]

/-- **The graph does not depend on the order of its input.** Methods with different names may come in any order,
calls in any order and any number of times, and the signal methods may be expanded in any order: the list of
methods and the statistics stay as they are. The methods stand in ascending order of their places. -/
theorem buildFrom_order_free (expands : order.Perm ((hits literals).map (·.method)))
    (expands' : order'.Perm ((hits literals).map (·.method))) (distinct : (members.map (·.name)).Nodup)
    (methods : members.Perm members') (same : ∀ c, c ∈ calls ↔ c ∈ calls') (hops : Int) :
    (buildFrom order members calls literals hops).methods =
        (buildFrom order' members' calls' literals hops).methods ∧
    (buildFrom order members calls literals hops).stats =
        (buildFrom order' members' calls' literals hops).stats ∧
    (buildFrom order members calls literals hops).calls.Perm
        (buildFrom order' members' calls' literals hops).calls ∧
    (buildFrom order members calls literals hops).methods.Pairwise fun a b => a.standing < b.standing := by
  have context := context_perm expands expands' same hops
  have linked := distinctCalls_perm same
  have ascending := pairwise_methods order calls literals hops distinct
  have ascending' := pairwise_methods order' calls' literals hops ((methods.map _).nodup_iff.1 distinct)
  refine ⟨?_, ?_, linked, ascending⟩
  · -- Two arrangements of the same methods that both ascend are one.
    refine List.Perm.eq_of_pairwise (fun a b _ _ before after => absurd after before.asymm) ascending ascending' ?_
    refine methods_perm.trans (.trans ?_ methods_perm.symm)
    rw [place_eq (hits literals) context linked]
    exact methods.map _
  · simp only [buildFrom, methods.length_eq, context.length_eq, linked.length_eq]

end

def staff : List Member := [⟨"Main", [], 4⟩, ⟨"Login", [], 9⟩, ⟨"Idle", [], 0⟩, ⟨"Store", [], 7⟩, ⟨"Fetch", [], 2⟩]

def visits : List Call := [⟨"Main", "Login"⟩, ⟨"Login", "Store"⟩, ⟨"Main", []⟩]

/-- The same visits the other way round, one of them twice. -/
def visitsAgain : List Call := [⟨"Main", []⟩, ⟨"Login", "Store"⟩, ⟨"Main", "Login"⟩, ⟨"Login", "Store"⟩]

theorem buildFrom_order_free_staff :
    (staff.map (·.name)).Nodup ∧ (∀ c, c ∈ visits ↔ c ∈ visitsAgain) ∧
    (buildFrom ["Login", "Fetch"] staff visits sampleLiterals 1).methods =
      (buildFrom ["Fetch", "Login"] staff.reverse visitsAgain sampleLiterals 1).methods ∧
    (buildFrom ["Login", "Fetch"] staff visits sampleLiterals 1).stats =
      (buildFrom ["Fetch", "Login"] staff.reverse visitsAgain sampleLiterals 1).stats ∧
    (buildFrom ["Login", "Fetch"] staff visits sampleLiterals 1).methods.Pairwise
      fun a b => a.standing < b.standing := by
  have expands : [Text.ofString "Login", Text.ofString "Fetch"].Perm ((hits sampleLiterals).map (·.method)) := by
    decide +kernel
  have expands' : [Text.ofString "Fetch", Text.ofString "Login"].Perm ((hits sampleLiterals).map (·.method)) := by
    decide +kernel
  have distinct : (staff.map (·.name)).Nodup := by decide +kernel
  have same : ∀ c, c ∈ visits ↔ c ∈ visitsAgain := by
    intro c
    simp only [visits, visitsAgain, List.mem_cons, List.not_mem_nil, or_false]
    tauto
  obtain ⟨methods, stats, -, ascending⟩ :=
    buildFrom_order_free expands expands' distinct staff.reverse_perm.symm same 1
  exact ⟨distinct, same, methods, stats, ascending⟩

end SignalGraph

end CilAudit
