import CilAudit.CallGraph
import CilAudit.Proofs.GraphOrder
import Mathlib.Data.Set.Card

/-!
# The statistics of signal graphs

The statistics are taken from what the search has found, and not from the methods that are listed. A
signal method has a literal, and so a body, and is listed; the numbers of signal methods and of methods
per category are those of the list. The search for the context also comes to methods from elsewhere,
which are called and not listed, and they are counted with the context.
-/

set_option autoImplicit false

namespace CilAudit

/-- Two lists of things with a name count alike if every name stands for at most one thing of each list
and the things that count have the same names. -/
theorem length_eq_countP {α β γ : Type} {l : List α} {k : List β} {f : α → γ} {h : β → γ} {p : β → Bool}
    (nodup : (l.map f).Nodup) (nodup' : (k.map h).Nodup)
    (same : ∀ n, n ∈ l.map f ↔ ∃ b ∈ k, p b = true ∧ h b = n) : l.length = k.countP p := by
  have sub : ((k.filter p).map h).Nodup := nodup'.sublist (List.filter_sublist.map h)
  have perm : (l.map f).Perm ((k.filter p).map h) := by
    refine (List.perm_ext_iff_of_nodup nodup sub).2 fun n => (same n).trans ?_
    simp only [List.mem_map, List.mem_filter, and_assoc]
  rw [List.countP_eq_length_filter]
  simpa using perm.length_eq

/-- What is kept with its number, unless the number is zero, is found with its number. -/
theorem lookup_filterMap {α : Type} [BEq α] [LawfulBEq α] (count : α → Nat) (l : List α) (a : α) :
    ((l.filterMap fun x => if count x = 0 then none else some (x, count x)).lookup a).getD 0 =
      if l.contains a then count a else 0 := by
  induction l with
  | nil => rfl
  | cons x rest ih =>
    rw [List.filterMap_cons, List.contains_cons]
    by_cases here : a = x
    · subst here
      by_cases zero : count a = 0
      · simp [zero, ih]
      · simp [zero]
    · have other : (a == x) = false := by simpa using here
      by_cases zero : count x = 0
      · simp [zero, ih, other]
      · simp [zero, ih, other, List.lookup_cons]

namespace Signal

/-! ## Signal methods and their categories -/

theorem methods_addLiteral (l : ClassifiedLiteral) (hs : List Hit) :
    (addLiteral l hs).map (·.method) =
      if l.method ∈ hs.map (·.method) then hs.map (·.method) else hs.map (·.method) ++ [l.method] := by
  induction hs with
  | nil => rfl
  | cons h rest ih =>
    rw [addLiteral]
    split
    case isTrue same => simp [Hit.add, same]
    case isFalse other =>
      rw [List.map_cons, ih]
      have there : l.method ∈ (h :: rest).map (·.method) ↔ l.method ∈ rest.map (·.method) := by
        simp [Ne.symm other]
      simp only [there]
      split <;> simp

theorem nodup_addLiteral {l : ClassifiedLiteral} {hs : List Hit} (nodup : (hs.map (·.method)).Nodup) :
    ((addLiteral l hs).map (·.method)).Nodup := by
  rw [methods_addLiteral]
  split
  case isTrue => exact nodup
  case isFalse new => simpa using nodup.concat new

/-- A method is a signal method once. -/
theorem nodup_methods_hits (literals : List Literal) : ((hits literals).map (·.method)).Nodup :=
  List.foldlRecOn (motive := fun hs : List Hit => (hs.map Hit.method).Nodup) _ _ List.nodup_nil
    fun _ nodup _ _ => nodup_addLiteral nodup

theorem mem_insertCategory {c x : Text} {cs : List Text} : x ∈ insertCategory c cs ↔ x = c ∨ x ∈ cs := by
  rw [insertCategory]
  split
  case isTrue there =>
    have member := List.mem_of_getElem? there
    constructor
    · exact Or.inr
    · rintro (rfl | old)
      · exact member
      · exact old
  case isFalse =>
    have parts : x ∈ cs ↔ x ∈ cs.take (categorySlot c cs) ∨ x ∈ cs.drop (categorySlot c cs) := by
      rw [← List.mem_append, List.take_append_drop]
    rw [List.mem_append, List.mem_cons, parts]
    tauto

theorem mem_categories_add {h : Hit} {l : ClassifiedLiteral} {x : Text} :
    x ∈ (h.add l).categories ↔ x ∈ l.categories ∨ x ∈ h.categories := by
  have run : ∀ ls cs : List Text, x ∈ ls.foldl (fun cs c => insertCategory c cs) cs ↔ x ∈ ls ∨ x ∈ cs := by
    intro ls
    induction ls with
    | nil => simp
    | cons c rest ih =>
      intro cs
      rw [List.foldl_cons, ih, mem_insertCategory, List.mem_cons]
      tauto
  exact run l.categories h.categories

/-- All categories of the hits are among some names. -/
def AllOf (names : List Text) (hs : List Hit) : Prop := ∀ h ∈ hs, ∀ c ∈ h.categories, c ∈ names

theorem AllOf.addLiteral {names : List Text} {l : ClassifiedLiteral} {hs : List Hit} (of : AllOf names hs)
    (known : ∀ c ∈ l.categories, c ∈ names) : AllOf names (addLiteral l hs) := by
  have added : ∀ h : Hit, (∀ c ∈ h.categories, c ∈ names) → ∀ c ∈ (h.add l).categories, c ∈ names := by
    intro h of c member
    rcases mem_categories_add.1 member with new | old
    · exact known c new
    · exact of c old
  induction hs with
  | nil =>
    intro h member
    obtain rfl := List.mem_singleton.1 member
    exact added _ (by simp)
  | cons first rest ih =>
    obtain ⟨head, tail⟩ := List.forall_mem_cons.1 of
    rw [Signal.addLiteral]
    split
    case isTrue => exact List.forall_mem_cons.2 ⟨added first head, tail⟩
    case isFalse => exact List.forall_mem_cons.2 ⟨head, ih tail⟩

theorem allOf_hits (literals : List Literal) : AllOf (Category.all.map Category.name) (hits literals) := by
  have known : ∀ l ∈ literals.filterMap classified?, ∀ c ∈ l.categories, c ∈ Category.all.map Category.name := by
    intro l member c has
    obtain ⟨literal, -, found⟩ := List.mem_filterMap.1 member
    simp only [classified?] at found
    split at found
    · cases found
    · cases found
      obtain ⟨category, sorted, rfl⟩ := List.mem_map.1 has
      refine List.mem_map_of_mem ?_
      rw [classify] at sorted
      split at sorted
      · cases sorted
      · exact (List.mem_filter.1 sorted).1
  exact List.foldlRecOn _ _ (List.forall_mem_nil _) fun _ of l member => of.addLiteral (known l member)

/-- A signal method of a body is one of the methods with a body. -/
theorem mem_of_telling {methods : List AnalysedMethod} {name : Text} (told : Telling (literalsOf methods) name) :
    name ∈ methods.map (·.name) := by
  obtain ⟨l, member, rfl, -⟩ := told
  obtain ⟨f, listed, held⟩ := List.mem_flatMap.1 member
  obtain ⟨i, -, found⟩ := List.mem_filterMap.1 held
  have same : l.method = f.name := by
    split at found <;> cases found
    rfl
  rw [same]
  exact List.mem_map_of_mem listed

end Signal

namespace SignalGraph

open Signal

/-! ## The graph -/

section Counts

variable {order : List Text} {methods : List AnalysedMethod} {hops : Int}

/-- The signal graph of decoded methods, when the signal methods are expanded in the given order. -/
def ofMethods (order : List Text) (methods : List AnalysedMethod) (hops : Int) : SignalGraph :=
  buildFrom order (membersOf methods) (callsOf methods) (literalsOf methods) hops

/-- The methods that are near a signal method and not listed. -/
def unlisted (methods : List AnalysedMethod) (hops : Int) : Set Text :=
  {name | name ∉ methods.map (·.name) ∧ Nearby (callsOf methods) (literalsOf methods) hops name}

theorem names_membersOf (methods : List AnalysedMethod) :
    (membersOf methods).map (·.name) = methods.map (·.name) := by
  simp [membersOf]

theorem exists_member_of_telling {name : Text} (told : Telling (literalsOf methods) name) :
    ∃ m ∈ membersOf methods, m.name = name := by
  have listed := mem_of_telling told
  rw [← names_membersOf] at listed
  exact List.mem_map.1 listed

theorem countP_methods (p : SignalMethod → Bool) :
    (ofMethods order methods hops).methods.countP p =
      (membersOf methods).countP fun m => p (place (hits (literalsOf methods))
        (spread (distinctCalls (callsOf methods)) hops.toNat order order) (distinctCalls (callsOf methods)) m) := by
  rw [ofMethods, methods_perm.countP_eq, List.countP_map]
  rfl

theorem mem_categories_place {literals : List Literal} {context : List Text} {calls : List Call} {m : Member}
    {c : Text} :
    c ∈ (place (hits literals) context calls m).categories ↔
      ∃ h ∈ hits literals, h.method = m.name ∧ c ∈ h.categories := by
  unfold place
  cases found : (hits literals).find? (·.method = m.name) with
  | none =>
    have none : ∀ h ∈ hits literals, h.method ≠ m.name := by simpa using found
    simp only [List.not_mem_nil, false_iff]
    rintro ⟨h, member, same, -⟩
    exact none h member same
  | some h =>
    have member := List.mem_of_find?_eq_some found
    have same : h.method = m.name := by simpa using List.find?_some found
    refine ⟨fun has => ⟨h, member, same, has⟩, ?_⟩
    rintro ⟨h', member', same', has⟩
    have one := List.inj_on_of_nodup_map (nodup_methods_hits literals) member member' (same.trans same'.symm)
    rwa [one]

theorem stats_signal (distinct : (methods.map (·.name)).Nodup) :
    (ofMethods order methods hops).stats.signal = (ofMethods order methods hops).methods.countP (·.role = .signal) := by
  rw [countP_methods]
  rw [← names_membersOf] at distinct
  refine length_eq_countP (nodup_methods_hits _) distinct fun name => ?_
  rw [mem_methods_hits]
  simp only [decide_eq_true_eq, (role_place _).1]
  constructor
  · intro told
    obtain ⟨m, listed, rfl⟩ := exists_member_of_telling told
    exact ⟨m, listed, told, rfl⟩
  · rintro ⟨m, -, told, rfl⟩
    exact told

/-- The numbers per category are those of the signal methods. -/
theorem lookup_categoryCounts (literals : List Literal) (c : Text) :
    ((categoryCounts (hits literals)).lookup c).getD 0 = (hits literals).countP (·.categories.contains c) := by
  refine (lookup_filterMap _ _ c).trans ?_
  split
  case isTrue => rfl
  case isFalse foreign =>
    refine (List.countP_eq_zero.2 fun h member has => foreign ?_).symm
    have named := allOf_hits _ h member c (by simpa using has)
    simpa [Text.sort] using named

theorem stats_categories (distinct : (methods.map (·.name)).Nodup) (c : Text) :
    ((ofMethods order methods hops).stats.categories.lookup c).getD 0 =
      (ofMethods order methods hops).methods.countP (·.categories.contains c) := by
  refine (lookup_categoryCounts _ c).trans ?_
  rw [countP_methods, List.countP_eq_length_filter]
  have nodup := (nodup_methods_hits (literalsOf methods)).sublist
    ((List.filter_sublist (p := fun h : Hit => h.categories.contains c)).map (·.method))
  rw [← names_membersOf] at distinct
  refine length_eq_countP nodup distinct fun name => ?_
  simp only [List.mem_map, List.mem_filter, List.contains_eq_mem, decide_eq_true_eq, mem_categories_place]
  constructor
  · rintro ⟨h, ⟨member, has⟩, rfl⟩
    have told := mem_methods_hits.1 (List.mem_map_of_mem member)
    obtain ⟨m, listed, same⟩ := exists_member_of_telling told
    exact ⟨m, listed, ⟨h, member, same.symm, has⟩, same⟩
  · rintro ⟨m, -, ⟨h, member, same, has⟩, rfl⟩
    exact ⟨h, ⟨member, has⟩, same⟩

variable (expands : order.Perm ((hits (literalsOf methods)).map (·.method)))

include expands

theorem mem_unlisted {name : Text} :
    name ∈ unlisted methods hops ↔
      name ∈ spread (distinctCalls (callsOf methods)) hops.toNat order order ∧ name ∉ methods.map (·.name) := by
  rw [mem_context_iff expands, and_comm]
  refine and_congr_right fun absent => ?_
  exact (and_iff_right fun told => absent (mem_of_telling told)).symm

/-- What the search finds among the listed methods is listed as context. -/
theorem countP_found (distinct : (methods.map (·.name)).Nodup) :
    (spread (distinctCalls (callsOf methods)) hops.toNat order order).countP (· ∈ methods.map (·.name)) =
      (ofMethods order methods hops).methods.countP (·.role = .context) := by
  rw [countP_methods, List.countP_eq_length_filter]
  rw [← names_membersOf] at distinct ⊢
  have nodup := (AtDistance.start (callsOf methods) order).nodup_spread hops.toNat
  refine length_eq_countP (f := id) (by simpa using nodup.filter _) distinct fun name => ?_
  simp only [List.map_id, List.mem_filter, decide_eq_true_eq, (role_place _).2.1, List.mem_map]
  constructor
  · rintro ⟨found, m, member, rfl⟩
    exact ⟨m, member, ⟨((mem_context_iff expands).1 found).1, found⟩, rfl⟩
  · rintro ⟨m, member, ⟨-, found⟩, rfl⟩
    exact ⟨found, m, member, rfl⟩

theorem countP_unlisted :
    (spread (distinctCalls (callsOf methods)) hops.toNat order order).countP (¬· ∈ methods.map (·.name)) =
      (unlisted methods hops).ncard := by
  have nodup := (AtDistance.start (callsOf methods) order).nodup_spread hops.toNat
  have same : unlisted methods hops = ((spread (distinctCalls (callsOf methods)) hops.toNat order order).filter
      (¬· ∈ methods.map (·.name))).toFinset := by
    ext name
    simp [mem_unlisted expands]
  rw [same, Set.ncard_coe_finset, List.toFinset_card_of_nodup (nodup.filter _), List.countP_eq_length_filter]

/-- What the search finds is listed as context, or it is not listed. -/
theorem stats_context (distinct : (methods.map (·.name)).Nodup) (hops : Int) :
    (ofMethods order methods hops).stats.context =
      (ofMethods order methods hops).methods.countP (·.role = .context) + (unlisted methods hops).ncard := by
  rw [← countP_found expands distinct, ← countP_unlisted expands]
  have split := (spread (distinctCalls (callsOf methods)) hops.toNat order order).length_eq_countP_add_countP
    (· ∈ methods.map (·.name))
  simp only [decide_eq_true_eq] at split
  exact split

theorem finite_unlisted : (unlisted methods hops).Finite :=
  (List.finite_toSet _).subset fun _ far => ((mem_unlisted expands).1 far).1

/-- **The statistics count the listed methods**, but for the context. The number of signal methods and, for every
category, the number of methods that have it are those of the list. The number of the context is greater than that of
the methods listed as context by the methods near a signal method that are not listed, so the two are equal if and only
if every method that near is listed. -/
theorem ofMethods_counts (distinct : (methods.map (·.name)).Nodup) (hops : Int) :
    (ofMethods order methods hops).stats.signal =
      (ofMethods order methods hops).methods.countP (·.role = .signal) ∧
    (∀ c, ((ofMethods order methods hops).stats.categories.lookup c).getD 0 =
      (ofMethods order methods hops).methods.countP (·.categories.contains c)) ∧
    (ofMethods order methods hops).stats.context =
      (ofMethods order methods hops).methods.countP (·.role = .context) + (unlisted methods hops).ncard ∧
    ((ofMethods order methods hops).stats.context =
        (ofMethods order methods hops).methods.countP (·.role = .context) ↔
      ∀ name, Nearby (callsOf methods) (literalsOf methods) hops name → name ∈ methods.map (·.name)) := by
  have context := stats_context expands distinct hops
  refine ⟨stats_signal distinct, stats_categories distinct, context, ?_⟩
  rw [context, Nat.add_eq_left, Set.ncard_eq_zero (finite_unlisted expands), Set.eq_empty_iff_forall_notMem]
  refine forall_congr' fun name => ?_
  rw [unlisted, Set.mem_ofPred_eq, not_and', not_not]

end Counts

/-- A method that loads a literal and calls another one. -/
def courier (name literal : Text) (callee : MethodRef) : AnalysedMethod where
  name
  owner := "Post"
  instructions := [⟨0, 0, ⟨0x72⟩, .loadString literal⟩, ⟨1, 5, ⟨0x28⟩, .call callee false⟩, ⟨2, 10, ⟨0x2A⟩, .ret⟩]
  entries := []

def dispatched : MethodRef := { declaringType := "Post", name := "Send" }

def printed : MethodRef := { declaringType := "System.Console", name := "WriteLine", params := ["System.String"] }

/-- The second method is called by the first and calls one that is not listed. -/
def couriers : List AnalysedMethod :=
  [courier "System.Void Post::Main()" "hi" dispatched, courier "System.Void Post::Send()" "pwd" printed]

theorem hits_couriers :
    hits (literalsOf couriers) =
      [⟨"System.Void Post::Send()", [⟨⟨"System.Void Post::Send()", 0, "pwd"⟩, ["auth"]⟩], ["auth"]⟩] := by
  decide +kernel

theorem ofMethods_counts_couriers :
    [Text.ofString "System.Void Post::Send()"].Perm ((hits (literalsOf couriers)).map (·.method)) ∧
    (couriers.map (·.name)).Nodup ∧
    (ofMethods ["System.Void Post::Send()"] couriers 1).stats.signal =
      (ofMethods ["System.Void Post::Send()"] couriers 1).methods.countP (·.role = .signal) ∧
    (ofMethods ["System.Void Post::Send()"] couriers 1).stats.context =
      (ofMethods ["System.Void Post::Send()"] couriers 1).methods.countP (·.role = .context) +
        (unlisted couriers 1).ncard := by
  have expands : [Text.ofString "System.Void Post::Send()"].Perm ((hits (literalsOf couriers)).map (·.method)) := by
    rw [hits_couriers]
    exact List.Perm.refl _
  have distinct : (couriers.map (·.name)).Nodup := by decide +kernel
  obtain ⟨signal, -, context, -⟩ := ofMethods_counts expands distinct 1
  exact ⟨expands, distinct, signal, context⟩

/-- The context has two methods, and one of them is listed. -/
theorem context_past_list :
    (couriers.map (·.name)).Nodup ∧
    (build (membersOf couriers) (callsOf couriers) (literalsOf couriers) 1).stats.context = 2 ∧
    (build (membersOf couriers) (callsOf couriers) (literalsOf couriers) 1).methods.countP (·.role = .context) = 1 := by
  rw [build, ← ofMethods, countP_methods, hits_couriers]
  decide +kernel

end SignalGraph

end CilAudit
