import CilAudit.Dump.Build
import CilAudit.Proofs.LoadedData
import CilAudit.Proofs.WrittenDocuments
import CilAudit.Proofs.WrittenNumbers

/-!
# What a document carries

Plain data written in either of the two formats and read again. An encoding hands them on value by
value: in JSON every number comes back as its literal, in CBOR a number without a sign comes back
unsigned, and members may come back in another order. What is proved of data that were written and
read holds for every encoding that does so, whichever bytes it writes. The two encodings of the
program do, within the limits of their readers.
-/

set_option autoImplicit false

namespace CilAudit

namespace Datum

/-! ## Data as JSON -/

mutual

/-- What is read of plain data that were written as JSON. -/
def relit : Datum → Datum
  | .int n => .literal (Text.ofInt n)
  | .nat n => .literal (Text.ofNat n)
  | .float x => .literal (NumberNotation.document.render .double x.value)
  | .list items => .list (relitItems items)
  | .object members => .object (relitMembers members)
  | d => d

def relitItems : List Datum → List Datum
  | [] => []
  | d :: rest => d.relit :: relitItems rest

def relitMembers : List (Text × Datum) → List (Text × Datum)
  | [] => []
  | (k, d) :: rest => (k, d.relit) :: relitMembers rest

end

theorem relit_list (items : List Datum) : relit (.list items) = .list (items.map relit) := by
  have each : relitItems items = items.map relit := by
    induction items with
    | nil => rw [relitItems, List.map_nil]
    | cons d rest ih => rw [relitItems, List.map_cons, ih]
  rw [relit, each]

theorem relit_object (members : List (Text × Datum)) :
    relit (.object members) = .object (members.map fun m => (m.1, m.2.relit)) := by
  have each : relitMembers members = members.map fun m => (m.1, m.2.relit) := by
    induction members with
    | nil => rw [relitMembers, List.map_nil]
    | cons m rest ih => rw [relitMembers, List.map_cons, ih]
  rw [relit, each]

theorem itemsToJson_eq_map (items : List Datum) : itemsToJson items = items.map toJson := by
  induction items with
  | nil => rw [itemsToJson, List.map_nil]
  | cons d rest ih => rw [itemsToJson, List.map_cons, ih]

theorem membersToJson_eq_map (members : List (Text × Datum)) :
    membersToJson members = members.map fun m => (m.1, m.2.toJson) := by
  induction members with
  | nil => rw [membersToJson, List.map_nil]
  | cons m rest ih => rw [membersToJson, List.map_cons, ih]

/-- An array is written if all its items are. -/
theorem exists_of_arrayOf {results : List (Except JsonFault Json)} {done : List Json} {j : Json}
    (array : arrayOf done results = .ok j) :
    ∃ vs : List Json, List.Forall₂ (fun r v => r = .ok v) results vs ∧ j = .array (done.reverse ++ vs) := by
  induction results generalizing done with
  | nil =>
    cases array
    exact ⟨[], .nil, by rw [List.append_nil]⟩
  | cons first rest ih =>
    cases first with
    | error fault => cases array
    | ok v =>
      obtain ⟨vs, others, rfl⟩ := ih array
      exact ⟨v :: vs, .cons rfl others, by simp⟩

theorem exists_of_objectOf {results : List (Text × Except JsonFault Json)} {done : List (Text × Json)} {j : Json}
    (object : objectOf done results = .ok j) :
    ∃ ms : List (Text × Json), List.Forall₂ (fun r m => r = (m.1, .ok m.2)) results ms ∧
      j = .object (done.reverse ++ ms) := by
  induction results generalizing done with
  | nil =>
    cases object
    exact ⟨[], .nil, by rw [List.append_nil]⟩
  | cons first rest ih =>
    obtain ⟨k, first⟩ := first
    cases first with
    | error fault => cases object
    | ok v =>
      obtain ⟨ms, others, rfl⟩ := ih object
      exact ⟨(k, v) :: ms, .cons rfl others, by simp⟩

/-- Elements that are matched one by one have the same images. -/
theorem map_eq_of_forall₂ {α β γ : Type} {f : α → γ} {g : β → γ} {P : β → Prop} {l : List α} {l' : List β}
    (matched : List.Forall₂ (fun a b => g b = f a ∧ P b) l l') : l'.map g = l.map f ∧ ∀ b ∈ l', P b := by
  induction matched with
  | nil => exact ⟨rfl, List.forall_mem_nil _⟩
  | cons here _ ih => exact ⟨congrArg₂ List.cons here.1 ih.1, List.forall_mem_cons.2 ⟨here.2, ih.2⟩⟩

/-- Plain data that have a JSON form are read of it with their numbers as literals. -/
theorem ofJson_of_toJson {P : Double → Prop} {d : Datum} (plain : d.Plain P) :
    ∀ {j : Json}, d.toJson = .ok j → ofJson j = d.relit ∧ j.Clean := by
  induction plain with
  | null =>
    rintro j ⟨⟩
    exact ⟨rfl, .null⟩
  | bool b =>
    rintro j ⟨⟩
    exact ⟨rfl, .bool b⟩
  | @int n least most =>
    rintro j ⟨⟩
    exact ⟨rfl, .number (.ofInt n)⟩
  | @nat n most =>
    rintro j ⟨⟩
    exact ⟨rfl, .number (.unsigned (.ofNat n))⟩
  | float sort =>
    intro j json
    rw [toJson] at json
    split at json
    case isTrue finite =>
      cases json
      exact ⟨rfl, .number (numeral_render finite _)⟩
    case isFalse => cases json
  | literal numeral =>
    rintro j ⟨⟩
    exact ⟨rfl, .number numeral⟩
  | text utf8 =>
    rintro j ⟨⟩
    exact ⟨rfl, .string utf8⟩
  | @list items values ih =>
    intro j json
    rw [toJson, itemsToJson_eq_map] at json
    obtain ⟨vs, results, rfl⟩ := exists_of_arrayOf json
    rw [List.reverse_nil, List.nil_append, ofJson, ofJsonItems_eq_map, relit_list]
    have matched : List.Forall₂ (fun d v => ofJson v = d.relit ∧ v.Clean) items vs :=
      ((List.forall₂_and_left _ _).2 ⟨ih, List.forall₂_map_left_iff.1 results⟩).imp fun _ _ both => both.1 both.2
    obtain ⟨same, clean⟩ := map_eq_of_forall₂ matched
    exact ⟨congrArg _ same, .array clean⟩
  | @object members keys values ih =>
    intro j json
    rw [toJson, membersToJson_eq_map] at json
    obtain ⟨ms, results, rfl⟩ := exists_of_objectOf json
    rw [List.reverse_nil, List.nil_append, ofJson, ofJsonMembers_eq_map, relit_object]
    have matched : List.Forall₂ (fun m e => (e.1, ofJson e.2) = (m.1, m.2.relit) ∧ e.1.isUtf8 = true ∧ e.2.Clean)
        members ms := by
      refine ((List.forall₂_and_left _ _).2 ⟨fun m mem => And.intro (keys m mem) (@ih m mem),
        List.forall₂_map_left_iff.1 results⟩).imp ?_
      rintro ⟨k, d⟩ ⟨k', v⟩ ⟨⟨utf8, each⟩, ok⟩
      obtain ⟨rfl, json⟩ := Prod.mk.inj ok
      obtain ⟨same, clean⟩ := each json
      exact ⟨Prod.ext rfl same, utf8, clean⟩
    obtain ⟨same, clean⟩ := map_eq_of_forall₂ matched
    exact ⟨congrArg _ same, .object (fun m mem => (clean m mem).1) fun m mem => (clean m mem).2⟩

/-- The value has a JSON form. -/
def HasJson (d : Datum) : Prop := ∃ j, d.toJson = .ok j

/-- Members that were written, as an object or as a map. -/
def holding : DumpFormat → List (Text × Datum) → Datum
  | .json, members => .object members
  | .cbor, members => .map (members.map fun m => (.text m.1, m.2))

end Datum

/-! ## Encodings -/

namespace DumpFormat

/-- An integer as it is read back: by its literal, or unsigned where it has no sign. -/
def int : DumpFormat → Int → Datum
  | json, n => .literal (Text.ofInt n)
  | cbor, n => if n < 0 then .int n else .nat n.toNat

def nat : DumpFormat → Nat → Datum
  | json, n => .literal (Text.ofNat n)
  | cbor, n => .nat n

def literal : DumpFormat → Text → Datum
  | json, t => .literal t
  | cbor, t => .text t

/-- What may be read back of a float. Of NaN, in CBOR, any float may be. -/
def IsFloat : DumpFormat → Double → Datum → Prop
  | json, x, d => d = .literal (NumberNotation.document.render .double x.value)
  | cbor, x, d => ∃ y, d = .float y ∧ (x.IsNumber → y = x)

end DumpFormat

/-- How an encoding in a format hands data on, value by value. The order of members depends on their keys alone. -/
structure Carriage (f : DumpFormat) where
  carried : Datum → Datum
  inOrder : {α : Type} → List (Text × α) → List (Text × α)
  inOrder_perm {α : Type} (members : List (Text × α)) : (inOrder members).Perm members
  inOrder_map {α β : Type} (g : α → β) (members : List (Text × α)) :
    inOrder (members.map fun m => (m.1, g m.2)) = (inOrder members).map fun m => (m.1, g m.2)
  null : carried .null = .null
  bool (b : Bool) : carried (.bool b) = .bool b
  text (t : Text) : carried (.text t) = .text t
  int (n : Int) : carried (.int n) = f.int n
  nat (n : Nat) : carried (.nat n) = f.nat n
  literal (t : Text) : carried (.literal t) = f.literal t
  float (x : Double) : f.IsFloat x (carried (.float x))
  list (items : List Datum) : carried (.list items) = .list (items.map carried)
  object (members : List (Text × Datum)) :
    carried (.object members) = .holding f ((inOrder members).map fun m => (m.1, carried m.2))

/-- The encoding writes what it can, and reads back what it wrote of plain data within its limits. -/
structure Codec.ReadsBack {f : DumpFormat} (c : Codec) (k : Carriage f) (Within : Datum → Prop) : Prop where
  write {d : Datum} : (∃ bytes, c.write d = .ok bytes) ↔ (f = .json → d.HasJson)
  read {P : Double → Prop} {d : Datum} {bytes : Text} (plain : d.Plain P) (within : Within d)
    (written : c.write d = .ok bytes) : c.read? bytes = some (k.carried d)

/-- The encoding reads nothing but plain data. -/
def Codec.ReadsPlain (c : Codec) : Prop :=
  ∀ {bytes : Text} {d : Datum}, c.read? bytes = some d → d.Plain Double.IsNumber

/-! ## The encodings of the program -/

namespace DumpFormat

def carriage : (f : DumpFormat) → Carriage f
  | json =>
    { carried := Datum.relit
      inOrder := id
      inOrder_perm := fun _ => .refl _
      inOrder_map := fun _ _ => rfl
      null := rfl
      bool := fun _ => rfl
      text := fun _ => rfl
      int := fun _ => rfl
      nat := fun _ => rfl
      literal := fun _ => rfl
      float := fun _ => rfl
      list := Datum.relit_list
      object := Datum.relit_object }
  | cbor =>
    { carried := Datum.reread
      inOrder := Cbor.inKeyOrder
      inOrder_perm := fun _ => List.mergeSort_perm _ _
      inOrder_map := fun _ _ => by
        rw [Cbor.inKeyOrder, Cbor.inKeyOrder, List.map_mergeSort]
        exact fun _ _ _ _ => rfl
      null := rfl
      bool := fun _ => rfl
      text := fun _ => rfl
      int := fun _ => rfl
      nat := fun _ => rfl
      literal := fun _ => rfl
      float := fun x => ⟨x.kept, rfl, Double.kept_of_isNumber⟩
      list := fun items => by rw [Datum.reread, Datum.rereadItems_eq_map]
      object := fun members => by
        rw [Datum.holding, List.map_map]
        exact Cbor.reread_object members }

/-- Do data keep within the limits of the reader? -/
def Within : DumpFormat → Datum → Prop
  | json, d => ∀ j, d.toJson = .ok j → j.nesting ≤ Json.maxDepth
  | cbor, d => d.fits Cbor.maxDepth = true

theorem write_json_eq_ok_iff {d : Datum} {bytes : Text} :
    (codec .json).write d = .ok bytes ↔ ∃ j, d.toJson = .ok j ∧ j.indented = bytes := by
  cases json : d.toJson with
  | error fault => simp [codec, json, Except.map]
  | ok j => simp [codec, json, Except.map]

/-- **Both encodings read back what they wrote.** -/
theorem readsBack_codec (f : DumpFormat) : f.codec.ReadsBack f.carriage f.Within := by
  cases f with
  | json =>
    refine ⟨by simp [write_json_eq_ok_iff, Datum.HasJson], fun plain within written => ?_⟩
    obtain ⟨j, json, rfl⟩ := write_json_eq_ok_iff.1 written
    obtain ⟨relit, clean⟩ := Datum.ofJson_of_toJson plain json
    have read := Json.read?_indented clean (within j json)
    rw [codec]
    simp only [read, Option.map_some, relit]
    rfl
  | cbor =>
    refine ⟨by simp [codec], fun plain within written => ?_⟩
    cases written
    exact Cbor.read?_write plain within

theorem readsPlain_json : (codec .json).ReadsPlain := by
  intro bytes d read
  obtain ⟨v, found, rfl⟩ := Option.map_eq_some_iff.1 read
  exact Datum.plain_ofJson (Json.read?_clean found)

end DumpFormat

namespace Datum

/-! ## Values of any type -/

theorem mapM_eq_some_map {α β : Type} {f : α → Option β} {g : α → β} {l : List α}
    (each : ∀ x ∈ l, f x = some (g x)) : l.mapM f = some (l.map g) := by
  induction l with
  | nil => rfl
  | cons x l ih =>
    obtain ⟨first, others⟩ := List.forall_mem_cons.1 each
    rw [List.mapM_cons, first, ih others]
    rfl

theorem exists_mapM {α β : Type} {f : α → Option β} {l : List α} (each : ∀ x ∈ l, ∃ y, f x = some y) :
    ∃ l', l.mapM f = some l' := by
  induction l with
  | nil => exact ⟨[], rfl⟩
  | cons x l ih =>
    obtain ⟨⟨y, first⟩, others⟩ := List.forall_mem_cons.1 each
    obtain ⟨ys, rest⟩ := ih others
    exact ⟨y :: ys, by rw [List.mapM_cons, first, rest]; rfl⟩

/-- Members that can all be read are read together. -/
theorem exists_free?_holding (f : DumpFormat) {members : List (Text × Datum)}
    (each : ∀ m ∈ members, ∃ e, m.2.free? false = some e) : ∃ e, (holding f members).free? false = some e := by
  cases f with
  | json =>
    have pairs : ∀ m ∈ members, ∃ e, (m.2.free? false).map (m.1, ·) = some e := by
      intro m mem
      obtain ⟨e, free⟩ := each m mem
      exact ⟨(m.1, e), by rw [free]; rfl⟩
    obtain ⟨ms, freed⟩ := exists_mapM pairs
    exact ⟨_, by rw [holding, free?, freeMembers?_eq_mapM, freed, Option.map_some]⟩
  | cbor =>
    have entries : ∃ es, freeEntries? (members.map fun m => (.text m.1, m.2)) = some es := by
      induction members with
      | nil => exact ⟨[], rfl⟩
      | cons m rest ih =>
        obtain ⟨⟨e, first⟩, others⟩ := List.forall_mem_cons.1 each
        obtain ⟨es, later⟩ := ih others
        refine ⟨(.text m.1, e) :: es, ?_⟩
        rw [List.map_cons, freeEntries?]
        simp [first, later, free?, key?]
    obtain ⟨es, freed⟩ := entries
    exact ⟨_, by rw [holding, free?, freed, Option.map_some]⟩

section Returned

variable {f : DumpFormat} (k : Carriage f) {P : Double → Prop}

/-- Any plain value that was written is read. -/
theorem Plain.free?_carried {d : Datum} (plain : d.Plain P) : ∃ e, (k.carried d).free? false = some e := by
  induction plain with
  | null => exact ⟨_, by rw [k.null]; rfl⟩
  | bool b => exact ⟨_, by rw [k.bool]; rfl⟩
  | text utf8 => exact ⟨_, by rw [k.text]; rfl⟩
  | @int n least most =>
    rw [k.int]
    cases f with
    | json => exact ⟨_, rfl⟩
    | cbor =>
      rw [DumpFormat.int]
      split
      · exact ⟨_, rfl⟩
      · exact ⟨_, rfl⟩
  | nat most =>
    rw [k.nat]
    cases f <;> exact ⟨_, rfl⟩
  | @float x sort =>
    have float := k.float x
    cases f with
    | json => exact ⟨_, by rw [float]; rfl⟩
    | cbor =>
      obtain ⟨y, same, -⟩ := float
      exact ⟨_, by rw [same]; rfl⟩
  | literal numeral =>
    rw [k.literal]
    cases f <;> exact ⟨_, rfl⟩
  | list values ih =>
    obtain ⟨items, mapped⟩ := exists_mapM ih
    refine ⟨.list items, ?_⟩
    rw [k.list, free?, freeItems?_eq_mapM, List.mapM_map]
    exact congrArg (Option.map Datum.list) mapped
  | @object members keys values ih =>
    rw [k.object]
    refine exists_free?_holding f (List.forall_mem_map.2 fun m mem => ?_)
    exact ih m ((k.inOrder_perm members).mem_iff.1 mem)

/-- A value of any type as it is read back, with its literals as numbers. -/
def returned (d : Datum) : Datum := (((k.carried d).free? false).getD .null).withNumbers

theorem returned_null : returned k .null = .null := by
  rw [returned, k.null]
  rfl

theorem returned_text (t : Text) : returned k (.text t) = .text t := by
  rw [returned, k.text]
  rfl

theorem returned_list {items : List Datum} (plain : ∀ d ∈ items, d.Plain P) :
    returned k (.list items) = .list (items.map (returned k)) := by
  have each : ∀ d ∈ items, (k.carried d).free? false = some (((k.carried d).free? false).getD .null) := by
    intro d mem
    obtain ⟨e, free⟩ := (plain d mem).free?_carried k
    rw [free, Option.getD_some]
  have mapped : (items.map k.carried).mapM (free? false) =
      some (items.map fun d => ((k.carried d).free? false).getD .null) := by
    rw [List.mapM_map]
    exact mapM_eq_some_map each
  rw [returned, k.list, free?, freeItems?_eq_mapM, mapped, Option.map_some, Option.getD_some,
    withNumbers, itemsWithNumbers_eq_map, List.map_map]
  rfl

end Returned

section Unsigned

variable (k : Carriage .cbor)

theorem returned_of_neg {n : Int} (negative : n < 0) : returned k (.int n) = .int n := by
  rw [returned, k.int, DumpFormat.int, if_pos negative]
  rfl

theorem returned_of_nonneg {n : Int} (nonnegative : 0 ≤ n) : returned k (.int n) = .nat n.toNat := by
  rw [returned, k.int, DumpFormat.int, if_neg (Int.not_lt.2 nonnegative)]
  rfl

theorem returned_nat (n : Nat) : returned k (.nat n) = .nat n := by
  rw [returned, k.nat]
  rfl

theorem exists_returned_float (x : Double) : ∃ y, returned k (.float x) = .float y ∧ (x.IsNumber → y = x) := by
  obtain ⟨y, same, kept⟩ := k.float x
  exact ⟨y, by rw [returned, same]; rfl, kept⟩

theorem returned_of_isNumber {x : Double} (number : x.IsNumber) : returned k (.float x) = .float x := by
  obtain ⟨y, same, kept⟩ := exists_returned_float k x
  rw [same, kept number]

end Unsigned

end Datum

end CilAudit
