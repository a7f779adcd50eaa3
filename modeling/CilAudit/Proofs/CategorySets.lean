import CilAudit.Proofs.Halving
import CilAudit.Proofs.SignalCounts
import Mathlib.Data.List.Sort

/-!
# The categories of a method as a set

Each category of a literal is put in its place among those that its method has already. The place is found by
halving, which asks for an ascending list, and what is put there keeps the list ascending. So however
the literals of several methods are mixed, the categories of a method are at any time the set of those of its
literals, written in the one order that a set has, and neither the order of the literals nor their number
can be seen in it.
-/

set_option autoImplicit false

namespace CilAudit

/-! ## Ascending lists -/

namespace Text

/-- The texts ascend as in a dictionary of bytes, and none comes twice. -/
def Ascending (names : List Text) : Prop := names.Pairwise fun a b => a.values < b.values

theorem le_eq_true_iff {a b : Text} : a.le b = true ↔ a.values ≤ b.values := by
  rw [← Bool.not_eq_false, le_eq_false_iff, not_lt]

namespace Ascending

variable {names : List Text}

/-- An ascending list is known by its members. -/
theorem eq_of_mem_iff {others : List Text} (ascending : Ascending names) (ascending' : Ascending others)
    (same : ∀ name, name ∈ names ↔ name ∈ others) : names = others := by
  have irrefl : Std.Irrefl fun a b : Text => a.values < b.values := ⟨fun a => lt_irrefl a.values⟩
  have antisymm : Std.Antisymm fun a b : Text => a.values < b.values := ⟨fun a b less more => absurd more less.asymm⟩
  exact List.Pairwise.eq_of_mem_iff ascending ascending' same

/-- Every text divides an ascending list into those before it and the rest. -/
theorem exists_border (ascending : Ascending names) (name : Text) :
    ∃ front back, names = front ++ back ∧ (∀ x ∈ front, x.values < name.values) ∧
      ∀ y ∈ back, name.values ≤ y.values := by
  induction names with
  | nil => exact ⟨[], [], rfl, by simp, by simp⟩
  | cons first rest ih =>
    obtain ⟨later, ascending⟩ := List.pairwise_cons.1 ascending
    by_cases before : first.values < name.values
    · obtain ⟨front, back, rfl, ahead, behind⟩ := ih ascending
      exact ⟨first :: front, back, rfl, List.forall_mem_cons.2 ⟨before, ahead⟩, behind⟩
    · have after := not_lt.1 before
      refine ⟨[], first :: rest, rfl, by simp, List.forall_mem_cons.2 ⟨after, fun y member => ?_⟩⟩
      exact after.trans (later y member).le

end Ascending

end Text

namespace Signal

/-! ## One category more -/

section Insertion

variable {c : Text} {front back cs : List Text}

/-- Halving finds the border. -/
theorem categorySlot_append (ahead : ∀ x ∈ front, x.values < c.values) (behind : ∀ y ∈ back, c.values ≤ y.values) :
    categorySlot c (front ++ back) = front.length := by
  apply halve_eq (Nat.zero_le _)
  · simp
  · intro j less
    have before := ahead _ (List.getElem_mem less)
    rw [List.getElem?_append_left less, List.getElem?_eq_getElem less, Option.map_some,
      Text.le_eq_false_iff.2 before]
    rfl
  · intro j le less
    rw [List.length_append] at less
    have inside : j - front.length < back.length := by omega
    have after := behind _ (List.getElem_mem inside)
    rw [List.getElem?_append_right le, List.getElem?_eq_getElem inside, Option.map_some,
      Text.le_eq_true_iff.2 after]
    rfl

theorem insertCategory_append (ahead : ∀ x ∈ front, x.values < c.values) (behind : ∀ y ∈ back, c.values ≤ y.values) :
    insertCategory c (front ++ back) = if back.head? = some c then front ++ back else front ++ c :: back := by
  simp only [insertCategory, categorySlot_append ahead behind, List.getElem?_append_right (Nat.le_refl _),
    Nat.sub_self, List.head?_eq_getElem?, List.take_left, List.drop_left]

/-- A category that goes to the front, to the end or between two others keeps the order. -/
theorem ascending_insertCategory (ascending : Text.Ascending cs) (c : Text) :
    Text.Ascending (insertCategory c cs) := by
  obtain ⟨front, back, rfl, ahead, behind⟩ := ascending.exists_border c
  rw [insertCategory_append ahead behind]
  split
  case isTrue => exact ascending
  case isFalse new =>
    obtain ⟨before, after, across⟩ := List.pairwise_append.1 ascending
    have beyond : ∀ y ∈ back, c.values < y.values := by
      cases back with
      | nil => simp
      | cons first rest =>
        have other : c.values ≠ first.values := fun same => new (congrArg some (Text.values_injective same).symm)
        have least : c.values < first.values := (behind first List.mem_cons_self).lt_of_ne other
        refine List.forall_mem_cons.2 ⟨least, fun y member => ?_⟩
        exact least.trans ((List.pairwise_cons.1 after).1 y member)
    refine List.pairwise_append.2 ⟨before, .cons beyond after, fun x early => ?_⟩
    exact List.forall_mem_cons.2 ⟨ahead x early, across x early⟩

end Insertion

/-! ## One literal more -/

namespace Hit

@[simp] theorem method_add (h : Hit) (l : ClassifiedLiteral) : (h.add l).method = h.method := rfl

@[simp] theorem literals_add (h : Hit) (l : ClassifiedLiteral) : (h.add l).literals = h.literals ++ [l] := rfl

/-- The categories of a hit are those of its literals, in ascending order. -/
structure Tidy (h : Hit) : Prop where
  ascending : Text.Ascending h.categories
  categories : ∀ c, c ∈ h.categories ↔ ∃ l ∈ h.literals, c ∈ l.categories

theorem Tidy.fresh (method : Text) : (⟨method, [], []⟩ : Hit).Tidy := by
  refine ⟨.nil, fun c => ?_⟩
  simp

theorem Tidy.add {h : Hit} (tidy : h.Tidy) (l : ClassifiedLiteral) : (h.add l).Tidy where
  ascending := by
    -- The categories of the literal come one by one, and each finds an ascending list.
    refine List.foldlRecOn (motive := Text.Ascending) _ _ tidy.ascending fun cs ascending c _ => ?_
    exact ascending_insertCategory ascending c
  categories c := by
    rw [mem_categories_add, tidy.categories, or_comm]
    simp [or_and_right, exists_or]

end Hit

/-- A literal goes to the hit of its method, or makes one. -/
theorem mem_addLiteral {l : ClassifiedLiteral} {hs : List Hit} {h : Hit} (nodup : (hs.map (·.method)).Nodup)
    (member : h ∈ addLiteral l hs) :
    (h ∈ hs ∧ h.method ≠ l.method) ∨
      ∃ old, h = old.add l ∧ old.method = l.method ∧
        (old ∈ hs ∨ old = ⟨l.method, [], []⟩ ∧ l.method ∉ hs.map (·.method)) := by
  induction hs with
  | nil =>
    obtain rfl := List.mem_singleton.1 member
    exact .inr ⟨_, rfl, rfl, .inr ⟨rfl, List.not_mem_nil⟩⟩
  | cons first rest ih =>
    rw [List.map_cons, List.nodup_cons] at nodup
    rw [addLiteral] at member
    split at member
    case isTrue same =>
      rcases List.mem_cons.1 member with rfl | later
      · exact .inr ⟨first, rfl, same, .inl List.mem_cons_self⟩
      · -- Behind the hit of the method there is no other one of it.
        refine .inl ⟨List.mem_cons_of_mem _ later, fun also => nodup.1 ?_⟩
        rw [same, ← also]
        exact List.mem_map_of_mem later
    case isFalse other =>
      rcases List.mem_cons.1 member with rfl | later
      · exact .inl ⟨List.mem_cons_self, other⟩
      · rcases ih nodup.2 later with ⟨kept, apart⟩ | ⟨old, rfl, same, there | ⟨rfl, absent⟩⟩
        · exact .inl ⟨List.mem_cons_of_mem _ kept, apart⟩
        · exact .inr ⟨old, rfl, same, .inl (List.mem_cons_of_mem _ there)⟩
        · refine .inr ⟨_, rfl, rfl, .inr ⟨rfl, ?_⟩⟩
          rw [List.map_cons, List.mem_cons]
          exact not_or.2 ⟨Ne.symm other, absent⟩

/-- The hits hold all the literals, each under its method and in the order in which they came. -/
structure Gathered (ls : List ClassifiedLiteral) (hs : List Hit) : Prop where
  nodup : (hs.map (·.method)).Nodup
  methods : ∀ name, name ∈ hs.map (·.method) ↔ ∃ l ∈ ls, l.method = name
  literals : ∀ h ∈ hs, h.literals = ls.filter (·.method = h.method)
  tidy : ∀ h ∈ hs, h.Tidy

namespace Gathered

variable {ls : List ClassifiedLiteral} {hs : List Hit}

theorem nil : Gathered [] [] := by
  constructor <;> simp

/-- One literal more keeps the hits in step with the literals. -/
theorem addLiteral (gathered : Gathered ls hs) (l : ClassifiedLiteral) :
    Gathered (ls ++ [l]) (addLiteral l hs) where
  nodup := nodup_addLiteral gathered.nodup
  methods name := by
    rw [mem_methods_addLiteral, gathered.methods, or_comm]
    simp [or_and_right, exists_or, eq_comm]
  literals h member := by
    rw [List.filter_append]
    rcases mem_addLiteral gathered.nodup member with ⟨kept, apart⟩ | ⟨old, rfl, same, origin⟩
    · rw [gathered.literals h kept, List.filter_singleton, decide_eq_false (Ne.symm apart), cond_false, List.append_nil]
    · have before : old.literals = ls.filter (·.method = l.method) := by
        rcases origin with there | ⟨rfl, absent⟩
        · rw [gathered.literals old there, same]
        · refine (List.filter_eq_nil_iff.2 fun other listed => ?_).symm
          rw [gathered.methods] at absent
          simpa using fun also => absent ⟨other, listed, also⟩
      rw [Hit.literals_add, Hit.method_add, same, before, List.filter_singleton, decide_eq_true rfl, cond_true]
  tidy h member := by
    rcases mem_addLiteral gathered.nodup member with ⟨kept, -⟩ | ⟨old, rfl, -, there | ⟨rfl, -⟩⟩
    · exact gathered.tidy h kept
    · exact (gathered.tidy old there).add l
    · exact (Hit.Tidy.fresh l.method).add l

theorem foldl (ls : List ClassifiedLiteral) : Gathered ls (ls.foldl (fun hs l => Signal.addLiteral l hs) []) := by
  -- The hits at a time are those of the literals up to there, so the induction takes off the last literal.
  induction ls using List.reverseRecOn with
  | nil => exact nil
  | append_singleton ls l ih =>
    rw [List.foldl_append]
    exact ih.addLiteral l

end Gathered

/-! ## The hits of a list of literals -/

/-- The literal with its categories, which may be none. -/
def Literal.tagged (l : Literal) : ClassifiedLiteral := { l with categories := (classify l.value).map Category.name }

/-- Is it a literal of the method, and does it have a category? -/
def Literal.tellsOf (name : Text) (l : Literal) : Bool := l.method = name && !(classify l.value).isEmpty

theorem classified?_eq (l : Literal) : classified? l = if (classify l.value).isEmpty then none else some l.tagged := by
  simp only [classified?, List.isEmpty_map]
  rfl

/-- The literals that are gathered for a method, as they stand in the list. -/
theorem filter_classified (literals : List Literal) (name : Text) :
    (literals.filterMap classified?).filter (·.method = name) =
      (literals.filter (·.tellsOf name)).map Literal.tagged := by
  induction literals with
  | nil => rfl
  | cons l rest ih =>
    rw [List.filterMap_cons, classified?_eq, List.filter_cons, Literal.tellsOf]
    cases (classify l.value).isEmpty with
    | true => simpa using ih
    | false =>
      by_cases same : l.method = name
      · simp [same, ih, Literal.tagged]
      · simp [same, ih, Literal.tagged]

theorem gathered_hits (literals : List Literal) : Gathered (literals.filterMap classified?) (hits literals) :=
  Gathered.foldl _

variable {literals literals' : List Literal} {h : Hit}

theorem ascending_of_mem_hits (member : h ∈ hits literals) : Text.Ascending h.categories :=
  ((gathered_hits literals).tidy h member).ascending

theorem literals_of_mem_hits (member : h ∈ hits literals) :
    h.literals = (literals.filter (·.tellsOf h.method)).map Literal.tagged := by
  rw [(gathered_hits literals).literals h member, filter_classified]

/-- Some literal of the method has the category. -/
def HasCategory (literals : List Literal) (name c : Text) : Prop :=
  ∃ l ∈ literals, l.method = name ∧ c ∈ (classify l.value).map Category.name

theorem mem_categories_of_mem_hits (member : h ∈ hits literals) (c : Text) :
    c ∈ h.categories ↔ HasCategory literals h.method c := by
  rw [((gathered_hits literals).tidy h member).categories, literals_of_mem_hits member]
  constructor
  · rintro ⟨l, gathered, has⟩
    obtain ⟨l, listed, rfl⟩ := List.mem_map.1 gathered
    obtain ⟨listed, tells⟩ := List.mem_filter.1 listed
    exact ⟨l, listed, of_decide_eq_true (Bool.and_eq_true_iff.1 tells).1, has⟩
  · rintro ⟨l, listed, same, has⟩
    refine ⟨l.tagged, List.mem_map_of_mem (List.mem_filter.2 ⟨listed, ?_⟩), has⟩
    rw [Literal.tellsOf, decide_eq_true same]
    cases found : classify l.value with
    | nil => simp [found] at has
    | cons first rest => rfl

/-- A signal method has a category. -/
theorem categories_ne_nil (member : h ∈ hits literals) : h.categories ≠ [] := by
  obtain ⟨l, listed, same, told⟩ := mem_methods_hits.1 (List.mem_map_of_mem member)
  obtain ⟨category, has⟩ := List.exists_mem_of_ne_nil _ told
  exact List.ne_nil_of_mem ((mem_categories_of_mem_hits member _).2 ⟨l, listed, same, List.mem_map_of_mem has⟩)

/-- The same literals in another order and number lead to hits with the same categories. -/
theorem exists_hit_congr (same : ∀ l, l ∈ literals ↔ l ∈ literals') (member : h ∈ hits literals) :
    ∃ h' ∈ hits literals', h'.method = h.method ∧ h'.categories = h.categories := by
  obtain ⟨l, listed, telling⟩ := mem_methods_hits.1 (List.mem_map_of_mem member)
  obtain ⟨h', member', method⟩ := List.mem_map.1 (mem_methods_hits.2 ⟨l, (same l).1 listed, telling⟩)
  refine ⟨h', member', method, ?_⟩
  apply (ascending_of_mem_hits member').eq_of_mem_iff (ascending_of_mem_hits member)
  intro c
  rw [mem_categories_of_mem_hits member', mem_categories_of_mem_hits member, method]
  simp only [HasCategory, same]

end Signal

namespace SignalGraph

open Signal

/-! ## The methods of a graph -/

section Methods

variable {literals literals' : List Literal} {context context' : List Text} {calls : List Call}

theorem ascending_place (m : Member) :
    Text.Ascending (place (hits literals) context calls m).categories := by
  unfold place
  cases found : (hits literals).find? (·.method = m.name) with
  | none => exact .nil
  | some h => exact ascending_of_mem_hits (List.mem_of_find?_eq_some found)

theorem hasCategory_place {m : Member} {c : Text} :
    c ∈ (place (hits literals) context calls m).categories ↔ HasCategory literals m.name c := by
  rw [mem_categories_place]
  constructor
  · rintro ⟨h, member, same, has⟩
    rw [← same]
    exact (mem_categories_of_mem_hits member c).1 has
  · intro has
    obtain ⟨l, listed, same, sorted⟩ := id has
    have told : Telling literals m.name := ⟨l, listed, same, fun none => by simp [none] at sorted⟩
    obtain ⟨h, member, same⟩ := List.mem_map.1 (mem_methods_hits.2 told)
    exact ⟨h, member, same, (mem_categories_of_mem_hits member c).2 (same ▸ has)⟩

/-- The severity of a method is that of its categories. -/
theorem severity_place (m : Member) :
    (place (hits literals) context calls m).severity =
      if (place (hits literals) context calls m).categories.isEmpty then none
      else some (.ofCategories (place (hits literals) context calls m).categories) := by
  unfold place
  cases found : (hits literals).find? (·.method = m.name) with
  | none => rfl
  | some h =>
    have told := categories_ne_nil (List.mem_of_find?_eq_some found)
    simp [told]

theorem categories_place_congr (same : ∀ l, l ∈ literals ↔ l ∈ literals') (m : Member) :
    (place (hits literals) context calls m).categories = (place (hits literals') context' calls m).categories := by
  apply (ascending_place m).eq_of_mem_iff (ascending_place m)
  intro c
  simp only [hasCategory_place, HasCategory, same]

theorem severity_place_congr (same : ∀ l, l ∈ literals ↔ l ∈ literals') (m : Member) :
    (place (hits literals) context calls m).severity = (place (hits literals') context' calls m).severity := by
  rw [severity_place, severity_place, categories_place_congr same]

/-- **The categories of a signal method are a sorted set.** Every method with a classified literal has one hit. Its
categories ascend and are those of its literals, and its literals are those of the list that are the method's and have
a category, in the order of the list. So a list with the same literals in another order, or with some of them
again, leads to the same categories for each method, and to the same severity in the graph. -/
theorem hits_ascending_sets (literals : List Literal) :
    ((hits literals).map (·.method)).Nodup ∧
    (∀ name, name ∈ (hits literals).map (·.method) ↔ Telling literals name) ∧
    (∀ h ∈ hits literals, Text.Ascending h.categories ∧
      (∀ c, c ∈ h.categories ↔ HasCategory literals h.method c) ∧
      h.literals = (literals.filter (·.tellsOf h.method)).map Literal.tagged) ∧
    ∀ literals', (∀ l, l ∈ literals ↔ l ∈ literals') →
      (∀ h ∈ hits literals, ∃ h' ∈ hits literals', h'.method = h.method ∧ h'.categories = h.categories) ∧
      ∀ members calls hops, ∀ m ∈ (build members calls literals hops).methods,
        ∃ m' ∈ (build members calls literals' hops).methods,
          m'.toMember = m.toMember ∧ m'.categories = m.categories ∧ m'.severity = m.severity := by
  refine ⟨nodup_methods_hits literals, fun name => mem_methods_hits, fun h member => ?_, fun literals' same => ?_⟩
  · exact ⟨ascending_of_mem_hits member, mem_categories_of_mem_hits member, literals_of_mem_hits member⟩
  · refine ⟨fun h member => exists_hit_congr same member, fun members calls hops m member => ?_⟩
    obtain ⟨x, listed, rfl⟩ := mem_methods.1 member
    refine ⟨_, mem_methods.2 ⟨x, listed, rfl⟩, ?_, ?_, ?_⟩
    · rw [toMember_place, toMember_place]
    · exact (categories_place_congr same x).symm
    · exact (severity_place_congr same x).symm

end Methods

/-- Literals of two methods in turn, and one that says nothing. Of the first method's, the second category goes to the
front of the first, the third to the end, the fourth between two others, and the last literal says nothing new. -/
def gleanings : List Literal :=
  [⟨"Login", 0, "GET"⟩, ⟨"Login", 5, "password"⟩, ⟨"Fetch", 3, "http://x"⟩, ⟨"Login", 9, "http://x"⟩,
   ⟨"Main", 1, "hello"⟩, ⟨"Login", 12, "a.dll"⟩, ⟨"Login", 17, "GET"⟩]

def gleaned : Hit where
  method := "Login"
  literals :=
    [⟨⟨"Login", 0, "GET"⟩, ["net"]⟩, ⟨⟨"Login", 5, "password"⟩, ["auth"]⟩, ⟨⟨"Login", 9, "http://x"⟩, ["url"]⟩,
     ⟨⟨"Login", 12, "a.dll"⟩, ["file"]⟩, ⟨⟨"Login", 17, "GET"⟩, ["net"]⟩]
  categories := ["auth", "file", "net", "url"]

theorem hits_ascending_sets_gleanings :
    (∀ l, l ∈ gleanings ↔ l ∈ gleanings.reverse ++ gleanings) ∧
    gleaned ∈ hits gleanings ∧ Text.Ascending gleaned.categories ∧
    gleaned.literals = (gleanings.filter (·.tellsOf gleaned.method)).map Literal.tagged ∧
    (∃ h ∈ hits (gleanings.reverse ++ gleanings), h.method = gleaned.method ∧ h.categories = gleaned.categories) ∧
    ∀ m ∈ (build [⟨"Login", [], 9⟩] [] gleanings 0).methods,
      ∃ m' ∈ (build [⟨"Login", [], 9⟩] [] (gleanings.reverse ++ gleanings) 0).methods, m'.severity = m.severity := by
  have same : ∀ l, l ∈ gleanings ↔ l ∈ gleanings.reverse ++ gleanings := by simp
  have member : gleaned ∈ hits gleanings := by decide +kernel
  obtain ⟨-, -, each, again⟩ := hits_ascending_sets gleanings
  obtain ⟨ascending, -, gathered⟩ := each gleaned member
  obtain ⟨repeated, graph⟩ := again _ same
  refine ⟨same, member, ascending, gathered, repeated gleaned member, fun m listed => ?_⟩
  obtain ⟨m', listed', -, -, severity⟩ := graph _ _ _ m listed
  exact ⟨m', listed', severity⟩

end SignalGraph

end CilAudit
