import CilAudit.Proofs.CarriedData

/-!
# Written records are read back

A record is written as an object with a member for each field that is not left out, in the order
of its rules. The members come back as an object, or as a map in another order, and each rule finds
the value of its own key.
-/

set_option autoImplicit false

namespace CilAudit

theorem Text.ofString_injective : Function.Injective Text.ofString := by
  intro a b same
  have bytes : a.toByteArray.data = b.toByteArray.data := Array.toList_inj.1 same
  exact String.toByteArray_inj.1 (ByteArray.ext bytes)

namespace Datum

/-! ## Members and the values that rules find -/

/-- The fields of a record that have a value. -/
def present (parts : List (String × Option Datum)) : List (String × Datum) :=
  parts.filterMap fun p => p.2.map (p.1, ·)

/-- The members of a record: each key with its value, if it has one. -/
def fields (parts : List (String × Option Datum)) : List (Text × Datum) :=
  (present parts).map fun e => (Text.ofString e.1, e.2)

/-- The values that are read for a field after it was written. -/
def written {f : DumpFormat} (k : Carriage f) (part : Option Datum) : List Datum := part.toList.map k.carried

theorem fields_append (before after : List (String × Option Datum)) :
    fields before ++ fields after = fields (before ++ after) := by
  simp [fields, present, List.filterMap_append]

theorem filter_present {parts : List (String × Option Datum)} (distinct : (parts.map (·.1)).Nodup)
    {p : String × Option Datum} (mem : p ∈ parts) :
    (present parts).filter (·.1 = p.1) = p.2.toList.map (p.1, ·) := by
  have absent : ∀ {l : List (String × Option Datum)}, p.1 ∉ l.map (·.1) →
      (present l).filter (·.1 = p.1) = [] := by
    intro l missing
    refine List.filter_eq_nil_iff.2 fun e member same => missing ?_
    obtain ⟨q, here, image⟩ := List.mem_filterMap.1 member
    obtain ⟨d, _, rfl⟩ := Option.map_eq_some_iff.1 image
    exact List.mem_map.2 ⟨q, here, of_decide_eq_true same⟩
  induction parts with
  | nil => cases mem
  | cons q rest ih =>
    obtain ⟨fresh, distinct⟩ := List.nodup_cons.1 distinct
    rcases List.mem_cons.1 mem with rfl | mem
    · have none := absent fresh
      cases value : p.2 with
      | none => simpa [present, value] using none
      | some d => simpa [present, value] using none
    · have other : q.1 ≠ p.1 := by
        intro same
        exact fresh (List.mem_map.2 ⟨p, mem, same.symm⟩)
      cases value : q.2 with
      | none => simpa [present, value] using ih distinct mem
      | some d => simpa [present, value, other] using ih distinct mem

theorem distinct_present {parts : List (String × Option Datum)} (distinct : (parts.map (·.1)).Nodup) :
    ((present parts).map (·.1)).Nodup := by
  refine distinct.sublist ?_
  induction parts with
  | nil => exact .slnil
  | cons p rest ih =>
    have tail := ih (List.nodup_cons.1 distinct).2
    cases value : p.2 with
    | none => simpa [present, value] using tail.cons p.1
    | some d => simpa [present, value] using tail.cons_cons p.1

/-- A rule for the key itself goes before all others. -/
theorem find?_ofString {α : Type} {rules : List (FieldRule α)} {key : String}
    (known : ∃ rule ∈ rules, rule.key = key) :
    ∃ rule, (rules.find? fun r => Text.ofString r.key = Text.ofString key) = some rule ∧ rule.key = key := by
  obtain ⟨rule, member, same⟩ := known
  have found : (rules.find? fun r => Text.ofString r.key = Text.ofString key).isSome := by
    refine List.find?_isSome.2 ⟨rule, member, ?_⟩
    rw [same]
    exact decide_eq_true rfl
  obtain ⟨first, here⟩ := Option.isSome_iff_exists.1 found
  have equal := List.find?_some here
  exact ⟨first, here, Text.ofString_injective (of_decide_eq_true equal)⟩

theorem givenEntries?_of_known {α : Type} {rules : List (FieldRule α)} {entries : List (String × Datum)}
    (distinct : (entries.map (·.1)).Nodup) (known : ∀ e ∈ entries, ∃ rule ∈ rules, rule.key = e.1) :
    givenEntries? rules (entries.map fun e => (.text (Text.ofString e.1), e.2)) = some entries := by
  induction entries generalizing rules with
  | nil => rfl
  | cons e rest ih =>
    obtain ⟨fresh, distinct⟩ := List.nodup_cons.1 distinct
    obtain ⟨here, others⟩ := List.forall_mem_cons.1 known
    obtain ⟨rule, exact, same⟩ := find?_ofString here
    have found : FieldRule.forMapKey? rules (Text.ofString e.1) = some rule := by
      rw [FieldRule.forMapKey?, exact, Option.some_or]
    -- The rule is used up, and the entries that follow have other keys.
    have left : ∀ e' ∈ rest, ∃ r ∈ rules.filter (·.key ≠ rule.key), r.key = e'.1 := by
      intro e' mem
      obtain ⟨r, member, key⟩ := others e' mem
      refine ⟨r, List.mem_filter.2 ⟨member, decide_eq_true ?_⟩, key⟩
      rw [key, same]
      intro again
      exact fresh (List.mem_map.2 ⟨e', mem, again⟩)
    rw [List.map_cons, givenEntries?, found]
    simp only [ih distinct left, Option.map_some]
    rw [same]

/-- Members with the keys of rules give each rule its value. -/
theorem given?_holding {α : Type} (f : DumpFormat) {rules : List (FieldRule α)} {entries : List (String × Datum)}
    (distinct : (entries.map (·.1)).Nodup) (known : ∀ e ∈ entries, ∃ rule ∈ rules, rule.key = e.1) :
    given? rules (holding f (entries.map fun e => (Text.ofString e.1, e.2))) = some entries := by
  cases f with
  | json =>
    have each : ∀ e ∈ entries, ((FieldRule.forKey? rules (Text.ofString e.1)).map fun r => (r.key, e.2)) = some e := by
      intro e mem
      obtain ⟨rule, exact, same⟩ := find?_ofString (known e mem)
      rw [FieldRule.forKey?, exact, Option.some_or, Option.map_some, same]
    have kept : (entries.map fun e => (Text.ofString e.1, e.2)).filterMap
        (fun m => (FieldRule.forKey? rules m.1).map fun r => (r.key, m.2)) = entries := by
      rw [List.filterMap_map]
      exact (List.filterMap_congr each).trans List.filterMap_some
    exact congrArg some kept
  | cbor =>
    rw [holding, List.map_map]
    exact givenEntries?_of_known distinct known

/-- The image of a list, in another order, is the image of the list in another order. -/
theorem exists_perm_of_perm_map {α β : Type} {g : α → β} {l : List α} {image : List β} (perm : image.Perm (l.map g)) :
    ∃ sorted : List α, sorted.Perm l ∧ image = sorted.map g := by
  have pointwise : List.Forall₂ (fun b a => b = g a) (l.map g) l :=
    List.forall₂_map_left_iff.2 (List.forall₂_same.2 fun _ _ => rfl)
  obtain ⟨sorted, images, perm⟩ := List.perm_comp_forall₂ perm pointwise
  exact ⟨sorted, perm, List.forall₂_eq_eq_eq ▸ List.forall₂_map_right_iff.2 images⟩

theorem foldlM_congr {α β : Type} {f g : β → α → Option β} {l : List α}
    (same : ∀ a ∈ l, ∀ b, f b a = g b a) (b : β) : l.foldlM f b = l.foldlM g b := by
  induction l generalizing b with
  | nil => rfl
  | cons a l ih =>
    obtain ⟨first, others⟩ := List.forall_mem_cons.1 same
    rw [List.foldlM_cons, List.foldlM_cons, first]
    exact congrArg _ (funext fun b' => ih others b')

theorem key_of_mem_zip {α : Type} {rules : List (FieldRule α)} {parts : List (String × Option Datum)}
    (keys : rules.map (·.key) = parts.map (·.1)) : ∀ p ∈ rules.zip parts, p.1.key = p.2.1 := by
  induction rules generalizing parts with
  | nil => exact List.forall_mem_nil _
  | cons rule rules ih =>
    match parts, keys with
    | part :: parts, keys =>
      obtain ⟨first, others⟩ := List.cons.inj keys
      exact List.forall_mem_cons.2 ⟨first, ih others⟩

/-- Each rule is given what was written for its own field. -/
theorem readRecord_written {α : Type} {f : DumpFormat} (k : Carriage f) {rules : List (FieldRule α)}
    {parts : List (String × Option Datum)} (keys : rules.map (·.key) = parts.map (·.1))
    (distinct : (rules.map (·.key)).Nodup) (zero : α) :
    readRecord rules zero [k.carried (.object (fields parts))] =
      (rules.zip parts).foldlM (fun r p => p.1.read r (written k p.2.2)) zero := by
  -- The members come back in some order.
  obtain ⟨sorted, perm, order⟩ := exists_perm_of_perm_map (k.inOrder_perm (fields parts))
  have given : given? rules (k.carried (.object (fields parts))) =
      some (sorted.map fun e => (e.1, k.carried e.2)) := by
    have shape : (sorted.map fun e => (Text.ofString e.1, e.2)).map (fun m => (m.1, k.carried m.2)) =
        (sorted.map fun e => (e.1, k.carried e.2)).map fun e => (Text.ofString e.1, e.2) := by
      rw [List.map_map, List.map_map]
      rfl
    rw [k.object, order, shape]
    apply given?_holding
    · rw [List.map_map]
      exact (perm.map _).nodup_iff.2 (distinct_present (keys ▸ distinct))
    · refine List.forall_mem_map.2 fun e mem => ?_
      obtain ⟨p, member, image⟩ := List.mem_filterMap.1 (perm.mem_iff.1 mem)
      obtain ⟨d, _, rfl⟩ := Option.map_eq_some_iff.1 image
      exact List.mem_map.1 (keys ▸ List.mem_map_of_mem member)
  have found : ∀ p ∈ rules.zip parts,
      ((sorted.map fun e => (e.1, k.carried e.2)).filter (·.1 = p.1.key)).map (·.2) = written k p.2.2 := by
    intro p mem
    have key := key_of_mem_zip keys p mem
    have here := (perm.filter (·.1 = p.2.1)).trans
      (List.Perm.of_eq (filter_present (keys ▸ distinct) (List.of_mem_zip mem).2))
    have same : sorted.filter (·.1 = p.2.1) = p.2.2.toList.map (p.2.1, ·) := by
      cases value : p.2.2 with
      | none =>
        rw [value] at here
        exact here.eq_nil
      | some d =>
        rw [value] at here
        exact List.perm_singleton.1 here
    rw [key, List.filter_map, written]
    simp only [Function.comp_def, same, List.map_map]
  have first : (rules.zip parts).map (·.1) = rules :=
    List.map_fst_zip (by simpa using (congrArg List.length keys).le)
  unfold readRecord
  simp only [List.mapM_cons, List.mapM_nil, given, Option.pure_def, Option.bind_eq_bind,
    Option.bind_some, List.flatten_cons, List.flatten_nil, List.append_nil]
  conv => lhs; rw [← first]
  rw [List.foldlM_map]
  exact foldlM_congr (fun p mem r => by rw [found p mem]) zero

/-! ## Fields by their types -/

/-- A text that is left out when it is empty. -/
def textPart (t : Text) : Option Datum := if t.isEmpty then none else some (.text t)

/-- A truth value that is left out when it is false. -/
def boolPart (b : Bool) : Option Datum := if b then some (.bool true) else none

/-- A number that is left out when it is zero. -/
def intPart (n : Int) : Option Datum := if n = 0 then none else some (.int n)

/-- A list that is left out when it is empty. -/
def listPart {α : Type} (f : α → Datum) (l : List α) : Option Datum :=
  if l.isEmpty then none else some (.list (l.map f))

/-- A table that is left out when it is empty. -/
def tablePart {α : Type} (f : α → Datum) (t : List (Text × α)) : Option Datum :=
  if t.isEmpty then none
  else some (.object ((t.mergeSort fun a b => Text.le a.1 b.1).map fun (k, v) => (k, f v)))

theorem always_eq_fields (key : String) (d : Datum) : always key d = fields [(key, some d)] := rfl

theorem optionalText_eq_fields (key : String) (t : Text) : optionalText key t = fields [(key, textPart t)] := by
  unfold optionalText textPart
  split <;> rfl

theorem optionalBool_eq_fields (key : String) (b : Bool) : optionalBool key b = fields [(key, boolPart b)] := by
  unfold optionalBool boolPart
  split <;> rfl

theorem optionalInt_eq_fields (key : String) (n : Int) : optionalInt key n = fields [(key, intPart n)] := by
  unfold optionalInt intPart
  split <;> rfl

theorem optionalList_eq_fields {α : Type} (key : String) (f : α → Datum) (l : List α) :
    optionalList key f l = fields [(key, listPart f l)] := by
  unfold optionalList listPart
  split <;> rfl

theorem optionalTable_eq_fields {α : Type} (key : String) (f : α → Datum) (t : List (Text × α)) :
    optionalTable key f t = fields [(key, tablePart f t)] := by
  unfold optionalTable tablePart
  split <;> rfl

section Scalars

variable {f : DumpFormat} (k : Carriage f)

theorem readText_text (t : Text) : readText (written k (some (.text t))) = some t := by
  rw [written, Option.toList_some, List.map_singleton, k.text]
  rfl

theorem readText_textPart (t : Text) : readText (written k (textPart t)) = some t := by
  cases t with
  | nil => rfl
  | cons => exact readText_text k _

theorem readBool_boolPart (b : Bool) : readBool (written k (boolPart b)) = some b := by
  cases b with
  | false => rfl
  | true =>
    rw [boolPart, if_pos rfl, written, Option.toList_some, List.map_singleton, k.bool]
    rfl

theorem readInt_int {n : Int} (range : InInt64 n) : readInt (written k (some (.int n))) = some n := by
  have one : readInt (written k (some (.int n))) = intOver? 0 (k.carried (.int n)) := by
    simp [readInt, written]
  rw [one, k.int]
  cases f with
  | json => exact int64?_ofInt range.1 range.2
  | cbor =>
    rw [DumpFormat.int]
    split
    case isTrue => rfl
    case isFalse nonnegative =>
      have same : (n.toNat : Int) = n := Int.toNat_of_nonneg (Int.not_lt.1 nonnegative)
      simp only [intOver?, plain?, same]
      exact if_pos range

theorem readInt_intPart {n : Int} (range : InInt64 n) : readInt (written k (intPart n)) = some n := by
  unfold intPart
  split
  case isTrue zero =>
    subst zero
    rfl
  case isFalse => exact readInt_int k range

end Scalars

section Lists

variable {α β : Type} {f : DumpFormat} (k : Carriage f) {h : α → Datum} {g : α → β} {read : List Datum → Option β}
  {l : List α}

/-- A single list is read item by item. -/
theorem readList?_list (each : ∀ x ∈ l, read [k.carried (h x)] = some (g x)) :
    readList? read [k.carried (.list (l.map h))] = some (some (l.map g)) := by
  have columns : ∀ row : List Datum, addRow [] row = row.map ([·]) := by
    intro row
    induction row with
    | nil => rfl
    | cons d rest ih => rw [addRow, ih, List.map_cons]
  have row : ∀ d rest, readList? read [.list (d :: rest)] =
      ((addRow [] (d :: rest)).mapM read).map fun items => some (items.take (d :: rest).length) :=
    fun _ _ => rfl
  rw [k.list, List.map_map]
  cases l with
  | nil => rfl
  | cons x l =>
    have items : ((x :: l).map fun y => [k.carried (h y)]).mapM read = some ((x :: l).map g) := by
      rw [List.mapM_map]
      exact mapM_eq_some_map each
    rw [List.map_cons, row, ← List.map_cons, columns, List.map_map, List.length_map]
    have whole : ((x :: l).map g).take (x :: l).length = (x :: l).map g := by
      rw [← List.length_map g, List.take_length]
    simp only [Function.comp_def, items, Option.map_some, whole]

theorem readList?_listPart (each : ∀ x ∈ l, read [k.carried (h x)] = some (g x)) :
    readList? read (written k (listPart h l)) = some (if l.isEmpty then none else some (l.map g)) := by
  unfold listPart
  split
  case isTrue => rfl
  case isFalse => exact readList?_list k each

theorem readList_listPart (each : ∀ x ∈ l, read [k.carried (h x)] = some (g x)) :
    readList read (written k (listPart h l)) = some (l.map g) := by
  rw [readList, readList?_listPart k each]
  cases l <;> rfl

end Lists

theorem readList_texts {f : DumpFormat} (k : Carriage f) (l : List Text) :
    readList readText (written k (listPart .text l)) = some l := by
  rw [readList_listPart k fun t _ => readText_text k t]
  exact congrArg some (List.map_id' l)

/-! ## Plain fields -/

/-- Is the value of a field plain, if it has one? -/
def PlainPart (P : Double → Prop) (part : Option Datum) : Prop := ∀ d ∈ part, d.Plain P

section PlainFields

variable {P : Double → Prop}

theorem plain_fields {parts : List (String × Option Datum)} (plain : ∀ p ∈ parts, PlainPart P p.2) :
    (Datum.object (fields parts)).Plain P := by
  refine .object (List.forall_mem_map.2 fun e _ => Text.isUtf8_ofString e.1) (List.forall_mem_map.2 fun e mem => ?_)
  obtain ⟨p, member, image⟩ := List.mem_filterMap.1 mem
  obtain ⟨d, value, rfl⟩ := Option.map_eq_some_iff.1 image
  exact plain p member d value

theorem PlainPart.some {d : Datum} (plain : d.Plain P) : PlainPart P (some d) := by
  intro e same
  cases same
  exact plain

theorem plainPart_text {t : Text} (utf8 : t.isUtf8 = true) : PlainPart P (textPart t) := by
  unfold textPart
  split
  · exact nofun
  · exact .some (.text utf8)

theorem plainPart_bool (b : Bool) : PlainPart P (boolPart b) := by
  unfold boolPart
  split
  · exact .some (.bool true)
  · exact nofun

theorem plainPart_int {n : Int} (range : InInt64 n) : PlainPart P (intPart n) := by
  unfold intPart
  split
  · exact nofun
  · exact .some (.int range.1 range.2)

theorem plainPart_list {α : Type} {f : α → Datum} {l : List α} (each : ∀ x ∈ l, (f x).Plain P) :
    PlainPart P (listPart f l) := by
  unfold listPart
  split
  · exact nofun
  · exact .some (.list (List.forall_mem_map.2 each))

theorem plainPart_texts {l : List Text} (utf8 : ∀ t ∈ l, t.isUtf8 = true) : PlainPart P (listPart .text l) :=
  plainPart_list fun t mem => .text (utf8 t mem)

theorem plainPart_table {α : Type} {f : α → Datum} {Q : α → Prop} {t : List (Text × α)} (tabled : Tabled Q t)
    (each : ∀ x, Q x → (f x).Plain P) : PlainPart P (tablePart f t) := by
  unfold tablePart
  split
  · exact nofun
  · refine .some (.object (List.forall_mem_map.2 fun e mem => ?_) (List.forall_mem_map.2 fun e mem => ?_))
    · exact tabled.keys e (List.mem_mergeSort.1 mem)
    · exact each e.2 (tabled.values e (List.mem_mergeSort.1 mem))

end PlainFields

/-! ## Tables -/

/-- A table in the order in which it is read back. -/
def canonical {f : DumpFormat} (k : Carriage f) {α : Type} (t : List (Text × α)) : List (Text × α) :=
  k.inOrder (t.mergeSort fun a b => Text.le a.1 b.1)

theorem canonical_perm {f : DumpFormat} (k : Carriage f) {α : Type} (t : List (Text × α)) : (canonical k t).Perm t :=
  (k.inOrder_perm _).trans (List.mergeSort_perm _ _)

/-- An entry with a new key is added at the end. -/
theorem putEntry_of_new {α : Type} {table : List (Text × α)} {e : Text × α} {l : List (Text × α)}
    (distinct : ((table ++ e :: l).map (·.1)).Nodup) : putEntry table e.1 e.2 = table ++ [e] := by
  have new : table.any (·.1 = e.1) = false := by
    refine List.any_eq_false.2 fun e' mem same => ?_
    rw [List.map_append, List.nodup_append] at distinct
    exact distinct.2.2 e'.1 (List.mem_map_of_mem mem) e.1 List.mem_cons_self (of_decide_eq_true same)
  simp [putEntry, new]

section Tables

variable {α : Type} {over? : α → Datum → Option α} {h : α → Datum}

theorem foldlM_putEntry {l : List (Text × α)} (table : List (Text × α)) (zero : α)
    (distinct : ((table ++ l).map (·.1)).Nodup) (each : ∀ e ∈ l, over? zero (h e.2) = some e.2) :
    (l.map fun e => (e.1, h e.2)).foldlM (fun t m => (over? zero m.2).map (putEntry t m.1)) table =
      some (table ++ l) := by
  induction l generalizing table with
  | nil => rw [List.append_nil]; rfl
  | cons e l ih =>
    obtain ⟨here, others⟩ := List.forall_mem_cons.1 each
    have shift : table ++ e :: l = table ++ [e] ++ l := by rw [List.append_assoc, List.singleton_append]
    rw [List.map_cons, List.foldlM_cons]
    simp only [here, Option.map_some, putEntry_of_new distinct]
    rw [shift]
    exact ih _ (shift ▸ distinct) others

theorem foldlM_tableStep? {l : List (Text × α)} (table : List (Text × α)) (distinct : ((table ++ l).map (·.1)).Nodup)
    (each : ∀ e ∈ l, ∀ old, over? old (h e.2) = some e.2) (last : Text × α) :
    ∃ last', (l.map fun e => (text e.1, h e.2)).foldlM (tableStep? over?) (table, last) = some (table ++ l, last') := by
  induction l generalizing table last with
  | nil => exact ⟨last, by rw [List.append_nil]; rfl⟩
  | cons e l ih =>
    obtain ⟨here, others⟩ := List.forall_mem_cons.1 each
    have step : tableStep? over? (table, last) (text e.1, h e.2) = some (table ++ [e], e) := by
      have key : textOver? last.1 (text e.1) = some e.1 := rfl
      simp [tableStep?, key, here, putEntry_of_new distinct]
    have shift : table ++ e :: l = table ++ [e] ++ l := by rw [List.append_assoc, List.singleton_append]
    rw [List.map_cons, List.foldlM_cons, step, shift]
    exact ih _ (shift ▸ distinct) others e

/-- Members without repeated keys are read in their order. -/
theorem readTable_holding (f : DumpFormat) {l : List (Text × α)} {zero : α} (distinct : (l.map (·.1)).Nodup)
    (each : ∀ e ∈ l, ∀ old, over? old (h e.2) = some e.2) :
    readTable over? zero [holding f (l.map fun e => (e.1, h e.2))] = some l := by
  cases f with
  | json =>
    have folded := foldlM_putEntry [] zero distinct fun e mem => each e mem zero
    have one : readTable over? zero [.object (l.map fun e => (e.1, h e.2))] =
        ((l.map fun e => (e.1, h e.2)).foldlM (fun t m => (over? zero m.2).map (putEntry t m.1)) []).bind some := rfl
    rw [holding, one, folded]
    rfl
  | cbor =>
    obtain ⟨last, folded⟩ := foldlM_tableStep? [] distinct each ([], zero)
    simp only [holding, List.map_map, Function.comp_def]
    simp [readTable, plain?, folded]

/-- A table without repeated keys is read back in another order. -/
theorem readTable_tablePart {f : DumpFormat} (k : Carriage f) {t : List (Text × α)} {zero : α}
    (distinct : (t.map (·.1)).Nodup) (each : ∀ e ∈ t, ∀ old, over? old (k.carried (h e.2)) = some e.2) :
    readTable over? zero (written k (tablePart h t)) = some (canonical k t) := by
  have perm := canonical_perm k t
  unfold tablePart
  split
  case isTrue empty =>
    rw [List.isEmpty_iff.1 empty] at perm ⊢
    rw [perm.eq_nil]
    rfl
  case isFalse =>
    have shape : k.carried (.object ((t.mergeSort fun a b => Text.le a.1 b.1).map fun (k, v) => (k, h v))) =
        holding f ((canonical k t).map fun e => (e.1, k.carried (h e.2))) := by
      rw [k.object, k.inOrder_map, List.map_map]
      rfl
    rw [written, Option.toList_some, List.map_singleton, shape]
    exact readTable_holding f (h := fun v => k.carried (h v)) ((perm.map _).nodup_iff.2 distinct)
      fun e mem => each e (perm.mem_iff.1 mem)

end Tables

end Datum

end CilAudit
