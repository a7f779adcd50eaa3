import CilAudit.Module
import Mathlib.Data.List.Nodup
import Mathlib.Logic.Relation

/-!
# Bases and interfaces as a graph

The types of a module and the names they mention make a graph, in which a name may lead back to
itself, to a name without a definition, or to nothing at all if it is empty. Two questions are
asked of it: is one name on the chain of bases of another, and can it be reached through bases and
interfaces? Both searches mark the names they come to. A way that runs into a marked name can be cut
behind the last time it passes that name, so no mark hides an answer.
-/

set_option autoImplicit false

namespace CilAudit.Module

/-! ## Ways that keep away from names -/

/-- A way from one name to another that keeps away from the names seen. -/
inductive Way (step : Text → Text → Prop) (seen : List Text) : Text → Text → Prop where
  | stay {a : Text} (new : a ∉ seen) : Way step seen a a
  | go {a b c : Text} (new : a ∉ seen) (first : step a b) (rest : Way step seen b c) : Way step seen a c

section Way

variable {step : Text → Text → Prop} {seen : List Text} {a b c x : Text}

theorem Way.new (w : Way step seen a c) : a ∉ seen := by
  cases w with
  | stay new => exact new
  | go new _ _ => exact new

theorem Way.end_new (w : Way step seen a c) : c ∉ seen := by
  induction w with
  | stay new => exact new
  | go _ _ _ ih => exact ih

theorem Way.of_cons (w : Way step (x :: seen) a c) : Way step seen a c := by
  induction w with
  | stay new => exact .stay fun old => new (List.mem_cons_of_mem x old)
  | go new first _ ih => exact .go (fun old => new (List.mem_cons_of_mem x old)) first ih

/-- **Marks hide nothing.** A way keeps away from one more name, or it can be cut behind the last time
it passes that name. -/
theorem Way.cut (w : Way step seen a c) (x : Text) :
    Way step (x :: seen) a c ∨ x = c ∨ ∃ b, step x b ∧ Way step (x :: seen) b c := by
  induction w with
  | @stay a new =>
    by_cases same : x = a
    · exact .inr (.inl same)
    · exact .inl (.stay (by simp [new, Ne.symm same]))
  | @go a b c new first rest ih =>
    rcases ih with away | cut
    · by_cases same : x = a
      · exact .inr (.inr ⟨b, same ▸ first, away⟩)
      · exact .inl (.go (by simp [new, Ne.symm same]) first away)
    · exact .inr cut

/-- Once a name is marked, the search goes on from what it leads to and from what was to come after it. -/
theorem exists_way_cons_iff {rest : List Text} (named : x ≠ []) (new : x ∉ seen) (other : x ≠ c) :
    (∃ a ∈ x :: rest, a ≠ [] ∧ Way step seen a c) ↔
      (∃ b, step x b ∧ Way step (x :: seen) b c) ∨ ∃ a ∈ rest, a ≠ [] ∧ Way step (x :: seen) a c := by
  constructor
  · rintro ⟨a, among, named, way⟩
    rcases way.cut x with away | same | cut
    · have apart : a ≠ x := by
        rintro rfl
        exact away.new List.mem_cons_self
      exact .inr ⟨a, List.mem_of_ne_of_mem apart among, named, away⟩
    · exact absurd same other
    · exact .inl cut
  · rintro (⟨b, first, way⟩ | ⟨a, later, named, way⟩)
    · exact ⟨x, List.mem_cons_self, named, .go new first way.of_cons⟩
    · exact ⟨a, List.mem_cons_of_mem x later, named, way.of_cons⟩

theorem way_nil_iff : Way step [] a c ↔ Relation.ReflTransGen step a c := by
  constructor
  · intro w
    induction w with
    | stay => exact .refl
    | go _ first _ ih => exact .head first ih
  · intro path
    induction path using Relation.ReflTransGen.head_induction_on with
    | refl => exact .stay List.not_mem_nil
    | head first _ ih => exact .go List.not_mem_nil first ih

/-- To reach another name, a way need not come back to where it starts. -/
theorem exists_way_iff (other : c ≠ a) :
    (∃ b, step a b ∧ Way step [a] b c) ↔ Relation.TransGen step a c := by
  rw [Relation.TransGen.head'_iff]
  constructor
  · rintro ⟨b, first, rest⟩
    exact ⟨b, first, way_nil_iff.1 rest.of_cons⟩
  · rintro ⟨b, first, rest⟩
    rcases (way_nil_iff.2 rest).cut a with away | same | cut
    · exact ⟨b, first, away⟩
    · exact absurd same.symm other
    · exact cut

end Way

/-! ## Steps -/

/-- The type named `a` has `b` for its base. -/
def HasBase (m : Module) (a b : Text) : Prop := ∃ t ∈ m.types, t.fullName = a ∧ b = t.base

/-- The type named `a` has `b` among its interfaces or for its base. -/
def Declares (m : Module) (a b : Text) : Prop := ∃ t ∈ m.types, t.fullName = a ∧ (b ∈ t.interfaces ∨ b = t.base)

/-- A step to a name that is not empty. -/
def Named (step : Text → Text → Prop) (a b : Text) : Prop := step a b ∧ b ≠ []

/-- No two types have the same name. -/
def NamesDistinct (m : Module) : Prop := (m.types.map (·.fullName)).Nodup

instance (m : Module) : Decidable m.NamesDistinct := inferInstanceAs (Decidable (List.Nodup _))

section Steps

variable {m : Module} {a b : Text} {t : TypeDef}

theorem lookup?_eq_some_iff (distinct : m.NamesDistinct) :
    m.lookup? a = some t ↔ t ∈ m.types ∧ t.fullName = a := by
  constructor
  · intro found
    exact ⟨List.mem_reverse.1 (List.mem_of_find?_eq_some found), by simpa using List.find?_some found⟩
  · rintro ⟨type, rfl⟩
    cases found : m.lookup? t.fullName with
    | none => simpa using List.find?_eq_none.1 found t (List.mem_reverse.2 type)
    | some u =>
      have type' : u ∈ m.types := List.mem_reverse.1 (List.mem_of_find?_eq_some found)
      have named : u.fullName = t.fullName := by simpa using List.find?_some found
      rw [List.inj_on_of_nodup_map distinct type' type named]

theorem declares_iff (distinct : m.NamesDistinct) (found : m.lookup? a = some t) :
    m.Declares a b ↔ b ∈ t.interfaces ++ [t.base] := by
  obtain ⟨type, named⟩ := (lookup?_eq_some_iff distinct).1 found
  constructor
  · rintro ⟨u, type', named', leads⟩
    obtain rfl := List.inj_on_of_nodup_map distinct type' type (named'.trans named.symm)
    simpa using leads
  · intro leads
    exact ⟨t, type, named, by simpa using leads⟩

theorem hasBase_iff (distinct : m.NamesDistinct) (found : m.lookup? a = some t) : m.HasBase a b ↔ b = t.base := by
  obtain ⟨type, named⟩ := (lookup?_eq_some_iff distinct).1 found
  constructor
  · rintro ⟨u, type', named', rfl⟩
    rw [List.inj_on_of_nodup_map distinct type' type (named'.trans named.symm)]
  · rintro rfl
    exact ⟨t, type, named, rfl⟩

theorem HasBase.declares (h : m.HasBase a b) : m.Declares a b := by
  obtain ⟨t, type, named, base⟩ := h
  exact ⟨t, type, named, .inr base⟩

/-- A name that is not defined leads nowhere. -/
theorem not_declares (absent : m.lookup? a = none) : ¬m.Declares a b := by
  rintro ⟨t, type, rfl, -⟩
  simpa using List.find?_eq_none.1 absent t (List.mem_reverse.2 type)

/-- Where the empty name leads nowhere, it is on no way to another name. -/
theorem transGen_named_iff {step : Text → Text → Prop} (nowhere : ∀ b, ¬step [] b) (named : b ≠ []) :
    Relation.TransGen (Named step) a b ↔ Relation.TransGen step a b := by
  constructor
  · exact fun path => Relation.TransGen.mono (fun _ _ (first : Named step _ _) => first.1) a b path
  · intro path
    induction path using Relation.TransGen.head_induction_on with
    | single first => exact .single ⟨first, named⟩
    | @head a c first rest ih =>
      refine .head ⟨first, ?_⟩ ih
      rintro rfl
      obtain ⟨d, out, -⟩ := Relation.TransGen.head'_iff.1 rest
      exact nowhere d out

end Steps

/-! ## The search through bases and interfaces -/

/-- The names are visited one after the other, each with all that it leads to, until the target turns up;
what has been seen goes from one visit to the next. Last come the answer and the names seen by then. -/
inductive Visits (m : Module) (target : Text) : List Text → List Text → Bool → List Text → Prop where
  | done {seen : List Text} : Visits m target seen [] false seen
  | skip {seen seen' rest : List Text} {name : Text} {answer : Bool} (known : name = [] ∨ name ∈ seen)
      (later : Visits m target seen rest answer seen') : Visits m target seen (name :: rest) answer seen'
  | hit {seen rest : List Text} {name : Text} (new : ¬(name = [] ∨ name ∈ seen)) (here : name = target) :
      Visits m target seen (name :: rest) true (name :: seen)
  | miss {seen seen' rest : List Text} {name : Text} {answer : Bool} (new : ¬(name = [] ∨ name ∈ seen))
      (other : name ≠ target) (absent : m.lookup? name = none)
      (later : Visits m target (name :: seen) rest answer seen') : Visits m target seen (name :: rest) answer seen'
  | hitBelow {seen seen' rest : List Text} {name : Text} {t : TypeDef} (new : ¬(name = [] ∨ name ∈ seen))
      (other : name ≠ target) (found : m.lookup? name = some t)
      (below : Visits m target (name :: seen) (t.interfaces ++ [t.base]) true seen') :
      Visits m target seen (name :: rest) true seen'
  | missBelow {seen seen' seen'' rest : List Text} {name : Text} {t : TypeDef} {answer : Bool}
      (new : ¬(name = [] ∨ name ∈ seen)) (other : name ≠ target) (found : m.lookup? name = some t)
      (below : Visits m target (name :: seen) (t.interfaces ++ [t.base]) false seen')
      (later : Visits m target seen' rest answer seen'') : Visits m target seen (name :: rest) answer seen''

section Search

variable {m : Module} {f : m.Finder} {target name : Text} {seen seen' rest names : List Text} {t : TypeDef}

theorem reaches_known (known : name = [] ∨ name ∈ seen) :
    m.reaches f target seen (name :: rest) = m.reaches f target seen rest := by
  rw [reaches, dif_pos known]

theorem reaches_target (new : ¬(name = [] ∨ name ∈ seen)) (here : name = target) :
    m.reaches f target seen (name :: rest) = true := by
  rw [reaches, dif_neg new, if_pos here]

theorem reaches_undefined (new : ¬(name = [] ∨ name ∈ seen)) (other : name ≠ target)
    (absent : m.lookup? name = none) :
    m.reaches f target seen (name :: rest) = m.reaches f target (name :: seen) rest := by
  rw [reaches, dif_neg new, if_neg other]
  rw [← f.property] at absent
  split
  · simp_all
  · rfl

theorem reaches_defined (new : ¬(name = [] ∨ name ∈ seen)) (other : name ≠ target)
    (found : m.lookup? name = some t) :
    m.reaches f target seen (name :: rest) =
      m.reaches f target (name :: seen) ((t.interfaces ++ [t.base]) ++ rest) := by
  rw [reaches, dif_neg new, if_neg other]
  rw [← f.property] at found
  split
  · simp_all
  · simp_all

/-- Visiting names is searching through them first. -/
theorem Visits.reaches_append {answer : Bool} (v : Visits m target seen names answer seen') (rest : List Text) :
    m.reaches f target seen (names ++ rest) = (answer || m.reaches f target seen' rest) := by
  induction v generalizing rest with
  | done => simp
  | skip known _ ih => rw [List.cons_append, reaches_known known, ih]
  | hit new here => rw [List.cons_append, reaches_target new here, Bool.true_or]
  | miss new other absent _ ih => rw [List.cons_append, reaches_undefined new other absent, ih]
  | hitBelow new other found _ ih =>
    rw [List.cons_append, reaches_defined new other found, ih, Bool.true_or, Bool.true_or]
  | missBelow new other found _ _ ih ih' =>
    rw [List.cons_append, reaches_defined new other found, ih, Bool.false_or, ih']

theorem Visits.unseen_le {answer : Bool} (v : Visits m target seen names answer seen') :
    m.unseen seen' ≤ m.unseen seen := by
  induction v with
  | done => exact Nat.le_refl _
  | skip _ _ ih => exact ih
  | hit => exact m.unseen_cons_le _ _
  | miss _ _ _ _ ih => exact Nat.le_trans ih (m.unseen_cons_le _ _)
  | hitBelow _ _ _ _ ih => exact Nat.le_trans ih (m.unseen_cons_le _ _)
  | missBelow _ _ _ _ _ ih ih' => exact Nat.le_trans ih' (Nat.le_trans ih (m.unseen_cons_le _ _))

/-- **The visits come to an end.** Below a name there are fewer types left to see, and beside it there
are fewer names to visit. -/
theorem exists_visits {n : Nat} (left : m.unseen seen ≤ n) (target : Text) (names : List Text) :
    ∃ answer seen', Visits m target seen names answer seen' := by
  induction n using Nat.strongRecOn generalizing seen names with
  | _ n fewerTypes =>
    induction names generalizing seen with
    | nil => exact ⟨false, seen, .done⟩
    | cons name rest fewerNames =>
      by_cases known : name = [] ∨ name ∈ seen
      · obtain ⟨answer, seen', later⟩ := fewerNames left
        exact ⟨answer, seen', .skip known later⟩
      by_cases here : name = target
      · exact ⟨true, name :: seen, .hit known here⟩
      have left' : m.unseen (name :: seen) ≤ n := Nat.le_trans (m.unseen_cons_le seen name) left
      cases found : m.lookup? name with
      | none =>
        obtain ⟨answer, seen', later⟩ := fewerNames left'
        exact ⟨answer, seen', .miss known here found later⟩
      | some t =>
        have fewer : m.unseen (name :: seen) < n :=
          Nat.lt_of_lt_of_le (unseen_cons_lt found fun old => known (.inr old)) left
        obtain ⟨answer, seen', below⟩ := fewerTypes _ fewer (Nat.le_refl _) (t.interfaces ++ [t.base])
        cases answer with
        | true => exact ⟨true, seen', .hitBelow known here found below⟩
        | false =>
          obtain ⟨answer, seen'', later⟩ := fewerNames (Nat.le_trans below.unseen_le left')
          exact ⟨answer, seen'', .missBelow known here found below later⟩

/-- The search finds the target exactly if a way leads there from one of the names, past nothing that
has been seen. -/
theorem reaches_iff (distinct : m.NamesDistinct) :
    m.reaches f target seen names = true ↔ ∃ name ∈ names, name ≠ [] ∧ Way (Named m.Declares) seen name target := by
  fun_induction reaches m f target seen names with
  | case1 seen => simp
  | case2 seen name rest known ih =>
    rw [ih, List.exists_mem_cons_iff]
    refine (or_iff_right ?_).symm
    rintro ⟨named, way⟩
    exact known.elim named way.new
  | case3 seen rest new =>
    have here : target ≠ [] ∧ Way (Named m.Declares) seen target target :=
      ⟨fun empty => new (.inl empty), .stay fun old => new (.inr old)⟩
    exact iff_of_true rfl ⟨target, List.mem_cons_self, here⟩
  | case4 seen name rest new other t found _ ih =>
    have leads (b : Text) : m.Declares name b ↔ b ∈ t.interfaces ++ [t.base] :=
      declares_iff distinct (f.property name ▸ found)
    rw [ih, exists_way_cons_iff (fun empty => new (.inl empty)) (fun old => new (.inr old)) other]
    simp only [Named, leads, List.mem_append, List.mem_cons, List.not_mem_nil, or_false]
    grind
  | case5 seen name rest new other absent ih =>
    have nowhere (b : Text) : ¬Named m.Declares name b := fun first => not_declares (f.property name ▸ absent) first.1
    rw [ih, exists_way_cons_iff (fun empty => new (.inl empty)) (fun old => new (.inr old)) other]
    simp only [nowhere, false_and, exists_false, false_or]

end Search

/-! ## The chain of bases -/

/-- The loop along the chain of bases stands at a name, having seen others. Last come its answer and the
number of names that it looks at. -/
inductive Follows (m : Module) (target : Text) : List Text → Text → Bool → Nat → Prop where
  | stop {seen : List Text} {name : Text} (known : name = [] ∨ name ∈ seen) : Follows m target seen name false 0
  | hit {seen : List Text} {name : Text} (new : ¬(name = [] ∨ name ∈ seen)) (here : name = target) :
      Follows m target seen name true 1
  | leave {seen : List Text} {name : Text} (new : ¬(name = [] ∨ name ∈ seen)) (other : name ≠ target)
      (absent : m.lookup? name = none) : Follows m target seen name false 1
  | onward {seen : List Text} {name : Text} {t : TypeDef} {answer : Bool} {n : Nat}
      (new : ¬(name = [] ∨ name ∈ seen)) (other : name ≠ target) (found : m.lookup? name = some t)
      (rest : Follows m target (name :: seen) t.base answer n) : Follows m target seen name answer (n + 1)

section Chain

variable {m : Module} (f : m.Finder) (target : Text) (seen : List Text) (name : Text)

/-- **The loop comes to an end**, with a type less to see each time around. -/
theorem exists_follows :
    ∃ n ≤ m.unseen seen + 1, m.Follows target seen name (m.onBaseChain f target seen name) n := by
  fun_induction onBaseChain m f target seen name with
  | case1 seen name known => exact ⟨0, Nat.zero_le _, .stop known⟩
  | case2 seen new => exact ⟨1, Nat.le_add_left .., .hit new rfl⟩
  | case3 seen name new other t found fewer ih =>
    obtain ⟨n, bound, rest⟩ := ih
    exact ⟨n + 1, by omega, .onward new other (f.property name ▸ found) rest⟩
  | case4 seen name new other absent => exact ⟨1, Nat.le_add_left .., .leave new other (f.property name ▸ absent)⟩

variable {f target seen name}

theorem onBaseChain_iff (distinct : m.NamesDistinct) :
    m.onBaseChain f target seen name = true ↔ ∃ a ∈ [name], a ≠ [] ∧ Way (Named m.HasBase) seen a target := by
  fun_induction onBaseChain m f target seen name with
  | case1 seen name known =>
    refine iff_of_false Bool.false_ne_true ?_
    rintro ⟨a, among, named, way⟩
    obtain rfl := List.mem_singleton.1 among
    exact known.elim named way.new
  | case2 seen new =>
    have here : target ≠ [] ∧ Way (Named m.HasBase) seen target target :=
      ⟨fun empty => new (.inl empty), .stay fun old => new (.inr old)⟩
    exact iff_of_true rfl ⟨target, List.mem_cons_self, here⟩
  | case3 seen name new other t found _ ih =>
    have leads (b : Text) : m.HasBase name b ↔ b = t.base := hasBase_iff distinct (f.property name ▸ found)
    rw [ih, exists_way_cons_iff (fun empty => new (.inl empty)) (fun old => new (.inr old)) other]
    simp [Named, leads, and_assoc]
  | case4 seen name new other absent =>
    have nowhere (b : Text) : ¬Named m.HasBase name b := fun first =>
      not_declares (f.property name ▸ absent) first.1.declares
    rw [exists_way_cons_iff (fun empty => new (.inl empty)) (fun old => new (.inr old)) other]
    simp [nowhere]

end Chain

/-! ## Answers -/

section Answers

variable {m : Module} {t : TypeDef} {name : Text}

/-- **A type implements what it reaches**, past names that are not empty. -/
theorem implements_iff (distinct : m.NamesDistinct) (type : t ∈ m.types) (other : name ≠ t.fullName) :
    m.implements t name = true ↔ Relation.TransGen (Named m.Declares) t.fullName name := by
  have leads (b : Text) : m.Declares t.fullName b ↔ b ∈ t.interfaces ++ [t.base] :=
    declares_iff distinct ((lookup?_eq_some_iff distinct).2 ⟨type, rfl⟩)
  rw [implements, reaches_iff distinct, ← exists_way_iff other]
  simp only [Named, leads, and_assoc]

/-- **A type derives from what is on the chain of its bases**, itself apart. -/
theorem isSubtypeOf_iff (distinct : m.NamesDistinct) (type : t ∈ m.types) :
    m.isSubtypeOf t name = true ↔
      name ≠ [] ∧ name ≠ t.fullName ∧ Relation.TransGen (Named m.HasBase) t.fullName name := by
  have leads (b : Text) : m.HasBase t.fullName b ↔ b = t.base :=
    hasBase_iff distinct ((lookup?_eq_some_iff distinct).2 ⟨type, rfl⟩)
  have chain : m.isSubtypeOf t name = true ↔
      ∃ b, Named m.HasBase t.fullName b ∧ Way (Named m.HasBase) [t.fullName] b name := by
    rw [isSubtypeOf, onBaseChain_iff distinct]
    simp [Named, leads, and_assoc]
  rw [chain]
  constructor
  · rintro ⟨b, first, way⟩
    have other : name ≠ t.fullName := by simpa using way.end_new
    have path := (exists_way_iff other).1 ⟨b, first, way⟩
    obtain ⟨_, -, last⟩ := Relation.TransGen.tail'_iff.1 path
    exact ⟨last.2, other, path⟩
  · rintro ⟨-, other, path⟩
    exact (exists_way_iff other).2 path

end Answers

/-- **Implementing is reaching.** From every type of every module the visits come to an end, and their answer
is the one given. If no two types have the same name, a type implements another name exactly if that can be
reached from it in one or more steps, each from a type of the module to one of its interfaces or its base; an
empty name is no step. This last point matters only where a type has the empty name. -/
theorem implements_reachability (m : Module) (t : TypeDef) (iface : Text) :
    (∃ seen, m.Visits iface [t.fullName] (t.interfaces ++ [t.base]) (m.implements t iface) seen) ∧
    (m.NamesDistinct → t ∈ m.types → iface ≠ [] → iface ≠ t.fullName →
      (m.implements t iface = true ↔ Relation.TransGen (Named m.Declares) t.fullName iface) ∧
      ((∀ u ∈ m.types, u.fullName ≠ []) →
        (m.implements t iface = true ↔ Relation.TransGen m.Declares t.fullName iface))) := by
  constructor
  · obtain ⟨answer, seen, visits⟩ :=
      exists_visits (Nat.le_refl (m.unseen [t.fullName])) iface (t.interfaces ++ [t.base])
    have same : m.implements t iface = answer := by
      have search := visits.reaches_append (f := m.finder) []
      rw [List.append_nil, reaches, Bool.or_false] at search
      exact search
    exact ⟨seen, same ▸ visits⟩
  · intro distinct type named other
    have reach := implements_iff distinct type other
    refine ⟨reach, fun allNamed => reach.trans (transGen_named_iff ?_ named)⟩
    rintro b ⟨u, type, empty, -⟩
    exact allNamed u type empty

/-- A type of which its relations are known, and nothing else. -/
def relative (fullName base : Text) (interfaces : List Text) : TypeDef :=
  { fullName, base, interfaces, isPublic := true, isSealed := false, isAbstract := false, isValueType := false,
    isInterface := false, isMarkedGenerated := false, isExternal := false, fields := [], properties := [],
    methods := [] }

/-- A class whose interfaces lead back to it, and bases that run into a circle. -/
def kinship : Module :=
  ⟨"M", [relative "Walker" "Ring" ["IWalk"], relative "IWalk" [] ["IStep", "Walker"],
    relative "IStep" [] ["IWalk", "IEnumerator"], relative "Ring" "Gnir" [], relative "Gnir" "Ring" []]⟩

/-- Through a circle of interfaces the class comes to one from elsewhere. -/
theorem implements_reachability_kinship :
    kinship.NamesDistinct ∧ kinship.implements (relative "Walker" "Ring" ["IWalk"]) "IEnumerator" = true ∧
      ∃ seen, kinship.Visits "IEnumerator" ["Walker"] ["IWalk", "Ring"] true seen := by
  have distinct : kinship.NamesDistinct := by decide +kernel
  have results := implements_reachability kinship (relative "Walker" "Ring" ["IWalk"]) "IEnumerator"
  have first : kinship.Declares "Walker" "IWalk" := ⟨_, List.mem_cons_self, rfl, .inl List.mem_cons_self⟩
  have second : kinship.Declares "IWalk" "IStep" :=
    ⟨relative "IWalk" [] ["IStep", "Walker"], by simp [kinship], rfl, .inl List.mem_cons_self⟩
  have third : kinship.Declares "IStep" "IEnumerator" :=
    ⟨relative "IStep" [] ["IWalk", "IEnumerator"], by simp [kinship], rfl, .inl (by simp [relative])⟩
  have steps : Relation.TransGen kinship.Declares (Text.ofString "Walker") "IEnumerator" :=
    .tail (.tail (.single first) second) third
  have answers := results.2 distinct List.mem_cons_self (by decide +kernel) (by decide +kernel)
  have found := (answers.2 (by decide +kernel)).2 steps
  exact ⟨distinct, found, found ▸ results.1⟩

/-- A type without a name, which another has for its interface and for its base. -/
def nameless : Module := ⟨"M", [relative "A" [] [[]], relative [] "B" ["I"]]⟩

/-- What a type without a name declares is not found, though two steps lead there. -/
theorem implements_past_nameless :
    nameless.NamesDistinct ∧ relative "A" [] [[]] ∈ nameless.types ∧ Text.ofString "I" ≠ [] ∧
      Text.ofString "I" ≠ (relative "A" [] [[]]).fullName ∧
      Relation.TransGen nameless.Declares (relative "A" [] [[]]).fullName "I" ∧
      nameless.implements (relative "A" [] [[]]) "I" = false := by
  refine ⟨by decide +kernel, List.mem_cons_self, by decide +kernel, by decide +kernel, ?_, ?_⟩
  · have first : nameless.Declares "A" [] := ⟨_, List.mem_cons_self, rfl, .inr rfl⟩
    have second : nameless.Declares [] "I" :=
      ⟨relative [] "B" ["I"], by simp [nameless], rfl, .inl List.mem_cons_self⟩
    exact .tail (.single first) second
  · simp [implements, relative, reaches]

/-- **Deriving is following bases.** For every type of every module the loop along its bases comes to an end, after
no more names than there are types and one, and its answer is the one given. If no two types have the same name,
a type derives from a name exactly if that is not empty, is not its own, and is reached by following bases
one or more times through types of the module; an empty base is none. This last point matters only where a
type has the empty name. -/
theorem isSubtypeOf_ancestry (m : Module) (t : TypeDef) (base : Text) :
    (∃ n ≤ m.types.length + 1, m.Follows base [t.fullName] t.base (m.isSubtypeOf t base) n) ∧
    (m.NamesDistinct → t ∈ m.types →
      (m.isSubtypeOf t base = true ↔
        base ≠ [] ∧ base ≠ t.fullName ∧ Relation.TransGen (Named m.HasBase) t.fullName base) ∧
      ((∀ u ∈ m.types, u.fullName ≠ []) →
        (m.isSubtypeOf t base = true ↔
          base ≠ [] ∧ base ≠ t.fullName ∧ Relation.TransGen m.HasBase t.fullName base))) := by
  constructor
  · obtain ⟨n, bound, follows⟩ := exists_follows m.finder base [t.fullName] t.base
    have types : m.unseen [t.fullName] ≤ m.types.length := List.length_filter_le _ _
    exact ⟨n, by omega, follows⟩
  · intro distinct type
    have chain := @isSubtypeOf_iff m t base distinct type
    refine ⟨chain, fun allNamed => chain.trans (and_congr_right fun named => and_congr_right fun _ => ?_)⟩
    refine transGen_named_iff ?_ named
    rintro b ⟨u, type, empty, -⟩
    exact allNamed u type empty

/-- The bases of the class run into a circle without it. Those in the circle derive from each other but not from
themselves. -/
theorem isSubtypeOf_ancestry_kinship :
    kinship.isSubtypeOf (relative "Walker" "Ring" ["IWalk"]) "Gnir" = true ∧
      Relation.TransGen kinship.HasBase (Text.ofString "Ring") "Ring" ∧
      kinship.isSubtypeOf (relative "Ring" "Gnir" []) "Ring" = false ∧
      ∃ n ≤ 6, kinship.Follows "Object" ["Walker"] "Ring"
        (kinship.isSubtypeOf (relative "Walker" "Ring" ["IWalk"]) "Object") n := by
  have distinct : kinship.NamesDistinct := by decide +kernel
  have first : kinship.HasBase "Walker" "Ring" := ⟨_, List.mem_cons_self, rfl, rfl⟩
  have second : kinship.HasBase "Ring" "Gnir" := ⟨relative "Ring" "Gnir" [], by simp [kinship], rfl, rfl⟩
  have third : kinship.HasBase "Gnir" "Ring" := ⟨relative "Gnir" "Ring" [], by simp [kinship], rfl, rfl⟩
  have walker := (isSubtypeOf_ancestry kinship (relative "Walker" "Ring" ["IWalk"]) "Gnir").2 distinct
    List.mem_cons_self
  have ring := (isSubtypeOf_ancestry kinship (relative "Ring" "Gnir" []) "Ring").2 distinct (by simp [kinship])
  refine ⟨?_, .tail (.single second) third, ?_,
    (isSubtypeOf_ancestry kinship (relative "Walker" "Ring" ["IWalk"]) "Object").1⟩
  · exact (walker.2 (by decide +kernel)).2 ⟨by decide +kernel, by decide +kernel, .tail (.single first) second⟩
  · exact Bool.eq_false_iff.2 fun derives => (ring.1.1 derives).2.1 rfl

/-- The base of a type without a name is not found, though it is the second one on the chain. -/
theorem isSubtypeOf_past_nameless :
    nameless.NamesDistinct ∧ relative "A" [] [[]] ∈ nameless.types ∧ Text.ofString "B" ≠ [] ∧
      Text.ofString "B" ≠ (relative "A" [] [[]]).fullName ∧
      Relation.TransGen nameless.HasBase (relative "A" [] [[]]).fullName "B" ∧
      nameless.isSubtypeOf (relative "A" [] [[]]) "B" = false := by
  refine ⟨by decide +kernel, List.mem_cons_self, by decide +kernel, by decide +kernel, ?_, ?_⟩
  · have first : nameless.HasBase "A" [] := ⟨_, List.mem_cons_self, rfl, rfl⟩
    have second : nameless.HasBase [] "B" := ⟨relative [] "B" ["I"], by simp [nameless], rfl, rfl⟩
    exact .tail (.single first) second
  · simp [isSubtypeOf, relative, onBaseChain]

end CilAudit.Module
