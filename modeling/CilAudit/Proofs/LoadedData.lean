import CilAudit.Datum.Record
import CilAudit.Proofs.DocumentText
import CilAudit.Proofs.WrittenItems

/-!
# What is loaded from plain data

A document read as JSON is plain data, and each reader of a field makes of plain data only what
is clean: texts are UTF-8, integers have 64 bits, and a table has no key twice. A record is clean
if every one of its rules keeps it so.
-/

set_option autoImplicit false

namespace CilAudit

namespace Datum

theorem ofJsonItems_eq_map (items : List Json) : ofJsonItems items = items.map ofJson := by
  induction items with
  | nil => rw [ofJsonItems, List.map_nil]
  | cons v rest ih => rw [ofJsonItems, List.map_cons, ih]

theorem ofJsonMembers_eq_map (members : List (Text × Json)) :
    ofJsonMembers members = members.map fun m => (m.1, ofJson m.2) := by
  induction members with
  | nil => rw [ofJsonMembers, List.map_nil]
  | cons m rest ih => rw [ofJsonMembers, List.map_cons, ih]

theorem plain_ofJson {P : Double → Prop} {v : Json} (clean : v.Clean) : (ofJson v).Plain P := by
  induction clean with
  | null => exact .null
  | bool b => exact .bool b
  | number numeral => exact .literal numeral
  | string utf8 => exact .text utf8
  | array values ih =>
    rw [ofJson, ofJsonItems_eq_map]
    exact .list (List.forall_mem_map.2 ih)
  | object keys values ih =>
    rw [ofJson, ofJsonMembers_eq_map]
    exact .object (List.forall_mem_map.2 keys) (List.forall_mem_map.2 ih)

theorem Plain.plain? {P : Double → Prop} {d : Datum} (plain : d.Plain P) : d.plain? = some d := by
  cases plain <;> rfl

/-! ## Readers of fields -/

/-- What a reader makes of plain data without NaN has a property. -/
def Sound {α : Type} (read : List Datum → Option α) (P : α → Prop) : Prop :=
  ∀ ds v, (∀ d ∈ ds, d.Plain Double.IsNumber) → read ds = some v → P v

/-- A property that each step keeps is kept by the whole fold. -/
theorem foldlM_keeps {α β : Type} {f : β → α → Option β} {P : β → Prop} {l : List α}
    (step : ∀ a ∈ l, ∀ b b', P b → f b a = some b' → P b') {b r : β} (start : P b)
    (folded : l.foldlM f b = some r) : P r := by
  induction l generalizing b with
  | nil =>
    cases folded
    exact start
  | cons a l ih =>
    obtain ⟨first, others⟩ := List.forall_mem_cons.1 step
    rw [List.foldlM_cons] at folded
    obtain ⟨b', here, folded⟩ := Option.bind_eq_some_iff.1 folded
    exact ih others (first b b' start here) folded

theorem mem_of_mapM {α β : Type} {f : α → Option β} {l : List α} {l' : List β}
    (mapped : l.mapM f = some l') : ∀ y ∈ l', ∃ x ∈ l, f x = some y := by
  induction l generalizing l' with
  | nil =>
    cases mapped
    exact List.forall_mem_nil _
  | cons x l ih =>
    rw [List.mapM_cons] at mapped
    obtain ⟨y, here, mapped⟩ := Option.bind_eq_some_iff.1 mapped
    obtain ⟨ys, others, mapped⟩ := Option.bind_eq_some_iff.1 mapped
    cases mapped
    refine List.forall_mem_cons.2 ⟨⟨x, List.mem_cons_self, here⟩, fun z mem => ?_⟩
    obtain ⟨w, member, image⟩ := ih others z mem
    exact ⟨w, List.mem_cons_of_mem _ member, image⟩

theorem textOver?_utf8 {P : Double → Prop} {old t : Text} {d : Datum} (plain : d.Plain P)
    (before : old.isUtf8 = true) (read : textOver? old d = some t) : t.isUtf8 = true := by
  rw [textOver?, plain.plain?] at read
  cases plain with
  | text utf8 =>
    cases read
    exact utf8
  | null =>
    cases read
    exact before
  | _ => cases read

theorem sound_text : Sound readText (·.isUtf8 = true) := fun _ _ plain read =>
  foldlM_keeps (fun d mem _ _ before read => textOver?_utf8 (plain d mem) before read)
    Text.isUtf8_nil read

/-- The integers of 64 signed bits. -/
def InInt64 (n : Int) : Prop := -0x8000000000000000 ≤ n ∧ n < 0x8000000000000000

theorem int64_of_literal {t : Text} {n : Int} (read : int64? t = some n) : InInt64 n := by
  unfold int64? at read
  split at read
  · split at read
    case isTrue range =>
      cases read
      exact range
    case isFalse => cases read
  · cases read

theorem sound_int : Sound readInt InInt64 := by
  intro ds v plain read
  have step : ∀ d ∈ ds, ∀ old n, InInt64 old → intOver? old d = some n → InInt64 n := by
    intro d mem old n before read
    rw [intOver?, (plain d mem).plain?] at read
    cases plain d mem with
    | literal => exact int64_of_literal read
    | nat =>
      simp only at read
      split at read
      case isTrue range =>
        cases read
        exact range
      case isFalse => cases read
    | int least most =>
      cases read
      exact ⟨least, most⟩
    | null =>
      cases read
      exact before
    | _ => cases read
  exact foldlM_keeps step (by simp [InInt64]) read

theorem forall_mem_addRow {Q : Datum → Prop} {columns : List (List Datum)} {row : List Datum}
    (above : ∀ c ∈ columns, ∀ d ∈ c, Q d) (below : ∀ d ∈ row, Q d) :
    ∀ c ∈ addRow columns row, ∀ d ∈ c, Q d := by
  fun_induction addRow columns row with
  | case1 columns => exact above
  | case2 d rest ih =>
    obtain ⟨first, others⟩ := List.forall_mem_cons.1 below
    refine List.forall_mem_cons.2 ⟨?_, ih above others⟩
    exact List.forall_mem_singleton.2 first
  | case3 column columns d rest ih =>
    obtain ⟨first, others⟩ := List.forall_mem_cons.1 below
    obtain ⟨here, next⟩ := List.forall_mem_cons.1 above
    refine List.forall_mem_cons.2 ⟨?_, ih next others⟩
    exact List.forall_mem_append.2 ⟨here, List.forall_mem_singleton.2 first⟩

section Lists

variable {α : Type} {read : List Datum → Option α} {P : α → Prop}

theorem readItems?_sound (sound : Sound read P) {columns : List (List Datum)} {length? : Option Nat}
    {ds : List Datum} {found : Option (List α)} 
    (columnsPlain : ∀ c ∈ columns, ∀ d ∈ c, d.Plain Double.IsNumber) (plain : ∀ d ∈ ds, d.Plain Double.IsNumber)
    (items : readItems? read columns length? ds = some found) :
    ∀ l ∈ found, ∀ x ∈ l, P x := by
  fun_induction readItems? read columns length? ds with
  | case1 columns length? =>
    obtain ⟨all, mapped, same⟩ := Option.map_eq_some_iff.1 items
    intro l here x mem
    subst same
    obtain ⟨length, _, rfl⟩ := Option.map_eq_some_iff.1 here
    obtain ⟨column, member, image⟩ := mem_of_mapM mapped x (List.mem_of_mem_take mem)
    exact sound column x (columnsPlain column member) image
  | case2 columns length? d rest _ ih | case3 columns length? d rest _ ih =>
    obtain ⟨_, _, items⟩ := Option.bind_eq_some_iff.1 items
    exact ih (List.forall_mem_nil _) (List.forall_mem_cons.1 plain).2 items
  | case4 columns length? d rest row _ here ih =>
    obtain ⟨first, others⟩ := List.forall_mem_cons.1 plain
    have same : d = .list row := Option.some.inj (first.plain?.symm.trans here)
    subst same
    cases first with
    | list values => exact ih (forall_mem_addRow columnsPlain values) others items
  | case5 => cases items

theorem sound_list? (sound : Sound read P) : Sound (readList? read) fun found => ∀ l ∈ found, ∀ x ∈ l, P x :=
  fun _ _ plain items => readItems?_sound sound (List.forall_mem_nil _) plain items

theorem sound_list (sound : Sound read P) : Sound (readList read) fun l => ∀ x ∈ l, P x := by
  intro ds l plain items
  obtain ⟨found, read, same⟩ := Option.map_eq_some_iff.1 items
  have each := sound_list? sound ds found plain read
  cases found with
  | none =>
    cases same
    exact List.forall_mem_nil _
  | some _ =>
    cases same
    exact each _ rfl

theorem sound_optional (sound : Sound read P) :
    Sound (readOptional? read []) fun found => ∀ x ∈ found, P x := by
  have general : ∀ given, (∀ d ∈ given, d.Plain Double.IsNumber) →
      Sound (readOptional? read given) fun found => ∀ x ∈ found, P x := by
    intro given plain ds
    induction ds generalizing given with
    | nil =>
      intro found _ items
      obtain ⟨x, value, same⟩ := Option.map_eq_some_iff.1 items
      intro y mem
      subst same
      split at mem
      · cases mem
      · cases mem
        exact sound given x plain value
    | cons d rest ih =>
      intro found all items
      obtain ⟨first, others⟩ := List.forall_mem_cons.1 all
      have more : (∀ d' ∈ given ++ [d], d'.Plain Double.IsNumber) :=
        List.forall_mem_append.2 ⟨plain, List.forall_mem_singleton.2 first⟩
      cases first with
      | null =>
        obtain ⟨_, _, items⟩ := Option.bind_eq_some_iff.1 items
        exact ih [] (List.forall_mem_nil _) found others items
      | _ => exact ih _ more found others items
  exact general [] (List.forall_mem_nil _)

end Lists

/-! ## Values of any type -/

theorem freeItems?_eq_mapM (items : List Datum) : freeItems? items = items.mapM (free? false) := by
  induction items with
  | nil => rw [freeItems?, List.mapM_nil]; rfl
  | cons d rest ih => rw [freeItems?, List.mapM_cons, ih]

theorem freeMembers?_eq_mapM (members : List (Text × Datum)) :
    freeMembers? members = members.mapM fun m => (free? false m.2).map (m.1, ·) := by
  induction members with
  | nil => rw [freeMembers?, List.mapM_nil]; rfl
  | cons m rest ih =>
    rw [freeMembers?, List.mapM_cons, ih]
    cases free? false m.2 <;> rfl

theorem mem_of_mem_sortedMembers {α : Type} {members : List (Text × α)} {m : Text × α}
    (mem : m ∈ sortedMembers members) : m ∈ members := by
  have kept := List.mem_mergeSort.1 mem
  clear mem
  induction members with
  | nil => cases kept
  | cons first rest ih =>
    rw [List.foldr_cons] at kept
    split at kept
    · exact List.mem_cons_of_mem _ (ih kept)
    · rcases List.mem_cons.1 kept with rfl | kept
      · exact List.mem_cons_self
      · exact List.mem_cons_of_mem _ (ih kept)

theorem Plain.free {P : Double → Prop} {d : Datum} (plain : d.Plain P) :
    ∀ {e : Datum}, free? false d = some e → e.Plain P := by
  induction plain with
  | list values ih =>
    intro e free
    rw [free?, freeItems?_eq_mapM] at free
    obtain ⟨items, mapped, rfl⟩ := Option.map_eq_some_iff.1 free
    refine .list fun y mem => ?_
    obtain ⟨d, member, image⟩ := mem_of_mapM mapped y mem
    exact ih d member image
  | object keys values ih =>
    intro e free
    rw [free?, freeMembers?_eq_mapM] at free
    obtain ⟨members, mapped, rfl⟩ := Option.map_eq_some_iff.1 free
    have each : ∀ m ∈ sortedMembers members, m.1.isUtf8 = true ∧ m.2.Plain P := by
      intro m mem
      obtain ⟨before, member, image⟩ := mem_of_mapM mapped m (mem_of_mem_sortedMembers mem)
      obtain ⟨value, freed, rfl⟩ := Option.map_eq_some_iff.1 image
      exact ⟨keys before member, ih before member freed⟩
    exact .object (fun m mem => (each m mem).1) fun m mem => (each m mem).2
  | null =>
    intro e free
    cases free
    exact .null
  | bool b =>
    intro e free
    cases free
    exact .bool b
  | int least most =>
    intro e free
    cases free
    exact .int least most
  | nat most =>
    intro e free
    cases free
    exact .nat most
  | float sort =>
    intro e free
    cases free
    exact .float sort
  | literal numeral =>
    intro e free
    cases free
    exact .literal numeral
  | text utf8 =>
    intro e free
    cases free
    exact .text utf8

theorem sound_free : Sound readFree (Plain Double.IsNumber) := fun _ _ plain read =>
  foldlM_keeps (fun d mem _ _ _ free => (plain d mem).free free) Plain.null read

theorem itemsWithNumbers_eq_map (items : List Datum) : itemsWithNumbers items = items.map withNumbers := by
  induction items with
  | nil => rw [itemsWithNumbers, List.map_nil]
  | cons d rest ih => rw [itemsWithNumbers, List.map_cons, ih]

theorem plain_ofLiteral {t : Text} (numeral : Json.Numeral t) : (ofLiteral t).Plain Double.IsNumber := by
  unfold ofLiteral
  split
  case h_1 n read =>
    obtain ⟨least, most⟩ := int64_of_literal read
    exact .int least most
  case h_2 =>
    simp only
    split
    case isTrue finite =>
      refine .float fun nan => ?_
      rw [Double.isFinite, nan] at finite
      cases finite
    case isFalse => exact .literal numeral

theorem Plain.withNumbers {d : Datum} (plain : d.Plain Double.IsNumber) : d.withNumbers.Plain Double.IsNumber := by
  induction plain with
  | literal numeral => exact plain_ofLiteral numeral
  | list values ih =>
    rw [Datum.withNumbers, itemsWithNumbers_eq_map]
    exact .list (List.forall_mem_map.2 ih)
  | null => exact .null
  | bool b => exact .bool b
  | int least most => exact .int least most
  | nat most => exact .nat most
  | float number => exact .float number
  | text utf8 => exact .text utf8
  | object keys values _ => exact .object keys values

/-- A literal that is no number of 64 bits, with a point or without. -/
def Unreadable (t : Text) : Prop := int64? t = none ∧ (doubleOf t).isFinite = false

/-- Have the literals of the value been turned into numbers as far as they can? -/
def Settled : Datum → Prop
  | .literal t => Unreadable t
  | .list items => ∀ t, .literal t ∈ items → Unreadable t
  | _ => True

theorem unreadable_of_ofLiteral {digits t : Text} (same : ofLiteral digits = .literal t) : Unreadable t := by
  unfold ofLiteral at same
  split at same
  case h_1 => cases same
  case h_2 none =>
    simp only at same
    split at same
    case isTrue => cases same
    case isFalse infinite =>
      cases same
      exact ⟨none, Bool.eq_false_iff.2 infinite⟩

theorem unreadable_of_withNumbers {d : Datum} {t : Text} (same : d.withNumbers = .literal t) : Unreadable t := by
  cases d with
  | literal digits => exact unreadable_of_ofLiteral same
  | list items =>
    rw [withNumbers] at same
    cases same
  | _ => cases same

theorem settled_withNumbers (d : Datum) : d.withNumbers.Settled := by
  cases settled : d.withNumbers with
  | literal t => exact unreadable_of_withNumbers settled
  | list items =>
    intro t mem
    cases d with
    | list before =>
      rw [withNumbers, itemsWithNumbers_eq_map] at settled
      cases settled
      obtain ⟨x, _, same⟩ := List.mem_map.1 mem
      exact unreadable_of_withNumbers same
    | literal digits =>
      rw [withNumbers, ofLiteral] at settled
      split at settled
      · cases settled
      · simp only at settled
        split at settled <;> cases settled
    | _ => cases settled
  | _ => trivial

/-! ## Tables -/

/-- A table with UTF-8 keys, none of them twice, and values that have a property. -/
structure Tabled {α : Type} (P : α → Prop) (table : List (Text × α)) : Prop where
  distinct : (table.map (·.1)).Nodup
  keys : ∀ e ∈ table, e.1.isUtf8 = true
  values : ∀ e ∈ table, P e.2

theorem Tabled.nil {α : Type} {P : α → Prop} : Tabled P [] :=
  ⟨List.nodup_nil, List.forall_mem_nil _, List.forall_mem_nil _⟩

theorem Tabled.put {α : Type} {P : α → Prop} {table : List (Text × α)} {key : Text} {value : α}
    (tabled : Tabled P table) (utf8 : key.isUtf8 = true) (good : P value) :
    Tabled P (putEntry table key value) := by
  unfold putEntry
  split
  case isTrue =>
    have keys : (table.map fun e => if e.1 = key then (key, value) else e).map (·.1) = table.map (·.1) := by
      rw [List.map_map]
      refine List.map_congr_left fun e _ => ?_
      simp only [Function.comp]
      split
      case isTrue same => exact same.symm
      case isFalse => rfl
    refine ⟨keys ▸ tabled.distinct, List.forall_mem_map.2 fun e mem => ?_, List.forall_mem_map.2 fun e mem => ?_⟩
    · split
      · exact utf8
      · exact tabled.keys e mem
    · split
      · exact good
      · exact tabled.values e mem
  case isFalse absent =>
    refine ⟨?_, ?_, ?_⟩
    · rw [List.map_append, List.map_singleton, List.nodup_append]
      refine ⟨tabled.distinct, List.nodup_singleton _, ?_⟩
      rintro k mem _ last rfl
      obtain ⟨e, member, same⟩ := List.mem_map.1 mem
      refine absent (List.any_eq_true.2 ⟨e, member, ?_⟩)
      exact decide_eq_true (same.trans (List.mem_singleton.1 last))
    · exact List.forall_mem_append.2 ⟨tabled.keys, List.forall_mem_singleton.2 utf8⟩
    · exact List.forall_mem_append.2 ⟨tabled.values, List.forall_mem_singleton.2 good⟩

theorem sound_table {α : Type} {P : α → Prop} {over? : α → Datum → Option α} {zero : α}
    (sound : ∀ d v, d.Plain Double.IsNumber → over? zero d = some v → P v) :
    Sound (readTable over? zero) (Tabled P) := by
  intro ds table plain read
  refine foldlM_keeps (fun d mem t t' tabled step => ?_) Tabled.nil read
  rw [(plain d mem).plain?] at step
  cases plain d mem with
  | object keys values =>
    refine foldlM_keeps (fun m member t t' tabled step => ?_) tabled step
    obtain ⟨value, read, rfl⟩ := Option.map_eq_some_iff.1 step
    exact tabled.put (keys m member) (sound m.2 value (values m member) read)
  | null =>
    cases step
    exact .nil
  | _ => cases step

/-- The values that plain data give for fields are plain. -/
theorem Plain.given {P : Double → Prop} {α : Type} {rules : List (FieldRule α)} {d : Datum}
    {values : List (String × Datum)} (plain : d.Plain P) (given : given? rules d = some values) :
    ∀ e ∈ values, e.2.Plain P := by
  rw [given?, plain.plain?] at given
  cases plain with
  | null =>
    cases given
    exact List.forall_mem_nil _
  | object _ members =>
    cases given
    intro e mem
    obtain ⟨m, member, image⟩ := List.mem_filterMap.1 mem
    obtain ⟨rule, _, rfl⟩ := Option.map_eq_some_iff.1 image
    exact members m member
  | _ => cases given

end Datum

namespace FieldRule

/-- Does the rule keep a property of the record when it fills its field from plain data? -/
def Keeps {α : Type} (C : α → Prop) (rule : FieldRule α) : Prop :=
  ∀ r ds r', C r → (∀ d ∈ ds, d.Plain Double.IsNumber) → rule.read r ds = some r' → C r'

theorem keeps_of {α β : Type} {C : α → Prop} {P : β → Prop} {key : String} {read : List Datum → Option β}
    {set : α → β → α} (sound : Datum.Sound read P) (sets : ∀ r v, C r → P v → C (set r v)) :
    Keeps C ⟨key, fun r ds => (read ds).map (set r)⟩ := by
  intro r ds r' clean plain filled
  obtain ⟨v, value, rfl⟩ := Option.map_eq_some_iff.1 filled
  exact sets r v clean (sound ds v plain value)

/-- A rule for a field that the property does not speak of. -/
theorem keeps_of_set {α β : Type} {C : α → Prop} {key : String} {read : List Datum → Option β} {set : α → β → α}
    (sets : ∀ r v, C r → C (set r v)) : Keeps C ⟨key, fun r ds => (read ds).map (set r)⟩ := by
  intro r ds r' clean _ filled
  obtain ⟨v, _, rfl⟩ := Option.map_eq_some_iff.1 filled
  exact sets r v clean

end FieldRule

/-- A record is clean if it is when nothing is given and every rule keeps it so. -/
theorem Datum.sound_record {α : Type} {C : α → Prop} {rules : List (FieldRule α)} {zero : α} (blank : C zero)
    (keeps : ∀ rule ∈ rules, rule.Keeps C) : Datum.Sound (readRecord rules zero) C := by
  intro ds r plain read
  obtain ⟨lists, given, filled⟩ := Option.bind_eq_some_iff.1 read
  have values : ∀ e ∈ lists.flatten, e.2.Plain Double.IsNumber := by
    intro e mem
    obtain ⟨l, member, mem⟩ := List.mem_flatten.1 mem
    obtain ⟨d, here, image⟩ := mem_of_mapM given l member
    exact (plain d here).given image e mem
  refine foldlM_keeps (fun rule member r r' clean step => ?_) blank filled
  refine keeps rule member r _ r' clean (List.forall_mem_map.2 fun e mem => ?_) step
  exact values e (List.mem_filter.1 mem).1

end CilAudit
