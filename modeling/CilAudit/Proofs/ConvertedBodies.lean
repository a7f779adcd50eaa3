import CilAudit.Proofs.TokenOrder

/-!
# Bodies of converted dumps

A dump that builds a module is written in either format and loaded again, by any encoding that reads
back what it wrote. Whether an operand can be converted does not depend on the tables of tokens, and
what is read back of one that can be can be converted too. Main statement: the loaded dump builds a
module with the same types and methods, in which those methods have a body that had one with code or
lines. A list of no lines is a body before and none after.
-/

set_option autoImplicit false

namespace CilAudit

/-! ## Modules that are recovered -/

/-- The second method is the first, and has a body if the first has one that is more than a list of
no instructions. -/
structure Method.Recovered (a b : Method) : Prop where
  signature : { a with body := none } = { b with body := none }
  body : b.body.isSome = true ↔ ∃ x ∈ a.body, x.instructions ≠ .raw []

/-- Types that are the same, method by method. -/
structure TypeDef.Recovered (a b : TypeDef) : Prop where
  members : { a with methods := [] } = { b with methods := [] }
  methods : List.Forall₂ Method.Recovered a.methods b.methods

/-- Modules that are the same, type by type. -/
structure Module.Recovered (a b : Module) : Prop where
  name : a.name = b.name
  types : List.Forall₂ TypeDef.Recovered a.types b.types

namespace Datum

/-! ## Operands in JSON -/

/-- A list can be matched if each of its elements can. -/
theorem exists_forall₂_iff {α β : Type} {R : α → β → Prop} {l : List α} :
    (∃ l', List.Forall₂ R l l') ↔ ∀ a ∈ l, ∃ b, R a b := by
  induction l with
  | nil => exact ⟨fun _ => List.forall_mem_nil _, fun _ => ⟨[], .nil⟩⟩
  | cons a l ih =>
    rw [List.forall_mem_cons, ← ih]
    constructor
    · rintro ⟨_, _ | ⟨here, rest⟩⟩
      exact ⟨⟨_, here⟩, _, rest⟩
    · rintro ⟨⟨b, here⟩, l', rest⟩
      exact ⟨b :: l', .cons here rest⟩

theorem HasJson.items {items : List Datum} (whole : (Datum.list items).HasJson) : ∀ d ∈ items, d.HasJson := by
  obtain ⟨j, json⟩ := whole
  rw [toJson, itemsToJson_eq_map] at json
  obtain ⟨vs, results, -⟩ := exists_of_arrayOf json
  exact exists_forall₂_iff.1 ⟨vs, List.forall₂_map_left_iff.1 results⟩

theorem HasJson.members {members : List (Text × Datum)} (whole : (Datum.object members).HasJson) :
    ∀ m ∈ members, m.2.HasJson := by
  obtain ⟨j, json⟩ := whole
  rw [toJson, membersToJson_eq_map] at json
  obtain ⟨ms, results, -⟩ := exists_of_objectOf json
  intro m mem
  obtain ⟨e, same⟩ := exists_forall₂_iff.1 ⟨ms, List.forall₂_map_left_iff.1 results⟩ m mem
  exact ⟨e.2, congrArg Prod.snd same⟩

/-- The value of each field of a record that is written. -/
theorem HasJson.part {parts : List (String × Option Datum)} (whole : (Datum.object (fields parts)).HasJson)
    {p : String × Option Datum} (mem : p ∈ parts) : ∀ d ∈ p.2, d.HasJson := by
  intro d value
  have member : (Text.ofString p.1, d) ∈ fields parts := by
    refine List.mem_map.2 ⟨(p.1, d), List.mem_filterMap.2 ⟨p, mem, ?_⟩, rfl⟩
    rw [Option.mem_def.1 value, Option.map_some]
  exact whole.members _ member

/-- The items of a list that is written, unless there are none. -/
theorem hasJson_of_listPart {α : Type} {h : α → Datum} {l : List α} (whole : ∀ d ∈ listPart h l, d.HasJson) :
    ∀ x ∈ l, (h x).HasJson := by
  intro x mem
  have given : listPart h l = some (.list (l.map h)) := by
    rw [listPart, if_neg]
    intro empty
    rw [List.isEmpty_iff.1 empty] at mem
    cases mem
  exact (whole _ given).items _ (List.mem_map_of_mem mem)

/-- Is neither the value nor an item of it an unsigned number past the signed ones? -/
def isSigned : Datum → Bool
  | .nat n => n < 0x8000000000000000
  | .list items => items.all fun
    | .nat n => n < 0x8000000000000000
    | _ => true
  | _ => true

section Literals

variable (k : Carriage .json)

theorem returned_int {n : Int} (range : InInt64 n) : returned k (.int n) = .int n := by
  rw [returned, k.int]
  exact ofLiteral_ofInt range.1 range.2

theorem returned_ofNat (n : Nat) : returned k (.nat n) = ofLiteral (Text.ofNat n) := by
  rw [returned, k.nat]
  rfl

theorem returned_small {n : Nat} (small : n < 0x8000000000000000) : returned k (.nat n) = .int n := by
  have same : Text.ofNat n = Text.ofInt n := by
    rw [Text.ofInt, if_neg (by omega), Int.toNat_natCast]
  rw [returned_ofNat, same, ofLiteral_ofInt (by omega) (by omega)]

theorem returned_float {x : Double} (written : (Datum.float x).HasJson) :
    (∃ n, returned k (.float x) = .int n) ∨ returned k (.float x) = .float x := by
  obtain ⟨j, json⟩ := written
  rw [toJson] at json
  split at json
  case isTrue finite =>
    rw [returned, k.float x]
    exact ofLiteral_render finite _
  case isFalse => cases json

end Literals

end Datum

namespace Dump

open Datum

/-! ## Which operands can be converted -/

/-- The operand is one that an opcode of the kind takes, whatever the tables say. -/
def Suits (d : Datum) : OperandKind → Prop
  | .none => d = .null
  | .shortVar | .var | .shortInt | .int32 | .int64 => ∃ n, integer d = .ok n
  | .float32 | .float64 => ∃ x, number d = .ok x
  | .shortTarget | .target => ∃ n, target d = .ok n
  | .targetTable => ∃ items, d = .list items ∧ ∀ i ∈ items, ∃ n, target i = .ok n
  | .string | .type => ∃ t, d = .text t
  | .method | .field | .token | .signature => ∃ t u, d = .text t ∧ token? t = some u

theorem convert_eq_ok_iff (table : TokenTable) {d : Datum} {kind : OperandKind} :
    (∃ x, convert table d kind = .ok x) ↔ Suits d kind := by
  have mapped : ∀ {α : Type} {r : Except OperandFault α} {f : α → Operand},
      (∃ x, r.map f = .ok x) ↔ ∃ v, r = .ok v := by
    intro α r f
    cases r with
    | error e => exact ⟨nofun, nofun⟩
    | ok v => exact ⟨fun _ => ⟨v, rfl⟩, fun _ => ⟨f v, rfl⟩⟩
  have refused : ∀ {e : OperandFault} {P : Prop}, ¬P → ((∃ x : Operand, Except.error e = .ok x) ↔ P) := by
    intro e P not
    exact ⟨nofun, fun holds => absurd holds not⟩
  cases kind with
  | none =>
    simp only [convert, Suits]
    split
    case h_1 => exact ⟨fun _ => rfl, fun _ => ⟨.none, rfl⟩⟩
    case h_2 other => exact refused other
  | shortVar | var | shortInt | int32 | int64 | float32 | float64 | shortTarget | target => exact mapped
  | targetTable =>
    simp only [convert, Suits]
    split
    case h_1 items =>
      have each : (∃ offsets, items.mapM target = .ok offsets) ↔ ∀ i ∈ items, ∃ n, target i = .ok n := by
        simp only [mapM_eq_ok_iff]
        exact exists_forall₂_iff
      refine mapped.trans (each.trans ⟨fun ok => ⟨items, rfl, ok⟩, ?_⟩)
      rintro ⟨_, ⟨⟩, ok⟩
      exact ok
    case h_2 other =>
      refine refused ?_
      rintro ⟨items, same, -⟩
      exact other items same
  | string | type =>
    simp only [convert, Suits]
    split
    case h_1 t => exact ⟨fun _ => ⟨t, rfl⟩, fun _ => ⟨_, rfl⟩⟩
    case h_2 other =>
      refine refused ?_
      rintro ⟨t, same⟩
      exact other t same
  | method | field | token | signature =>
    simp only [convert, convert.withToken, Suits]
    split
    case h_1 t =>
      cases named : token? t with
      | none => simp [named]
      | some u => simp [named]
    case h_2 other =>
      refine refused ?_
      rintro ⟨t, u, same, -⟩
      exact other t same

/-! ## Operands that are read back -/

/-- Does the opcode take any number, also one past the signed ones? -/
def takesFloat : OperandKind → Bool
  | .float32 | .float64 => true
  | _ => false

section Operands

variable {f : DumpFormat} (k : Carriage f) {P : Double → Prop} {d : Datum}

theorem exists_integer_returned (plain : d.Plain P) (settled : ∀ t, d = .literal t → Unreadable t)
    (json : f = .json → d.HasJson ∧ d.isSigned = true) (ok : ∃ n, integer d = .ok n) :
    ∃ n, integer (d.returned k) = .ok n := by
  obtain ⟨n, read⟩ := ok
  cases f with
  | cbor => exact ⟨n, integer_returned k plain settled read⟩
  | json =>
    obtain ⟨written, signed⟩ := json rfl
    cases plain with
    | int least most => exact ⟨_, by rw [returned_int k ⟨least, most⟩]; rfl⟩
    | nat most => exact ⟨_, by rw [returned_small k (of_decide_eq_true signed)]; rfl⟩
    | float sort =>
      rcases returned_float k written with ⟨i, same⟩ | same
      · exact ⟨i, by rw [same]; rfl⟩
      · exact ⟨n, by rw [same]; exact read⟩
    | @literal t numeral =>
      have unreadable := (settled t rfl).1
      cases number : Text.toInt? t <;> simp [integer, unreadable, number] at read
    | _ => cases read

theorem exists_number_returned (plain : d.Plain P) (settled : ∀ t, d = .literal t → Unreadable t)
    (json : f = .json → d.HasJson) (ok : ∃ x, number d = .ok x) :
    ∃ x, number (d.returned k) = .ok x := by
  obtain ⟨x, read⟩ := ok
  cases f with
  | cbor =>
    cases d with
    | float y =>
      obtain ⟨z, same, -⟩ := exists_returned_float k y
      exact ⟨z, by rw [same]; rfl⟩
    | _ => exact ⟨x, number_returned k plain settled nofun read⟩
  | json =>
    cases plain with
    | int least most => exact ⟨_, by rw [returned_int k ⟨least, most⟩]; rfl⟩
    | @nat n most =>
      rcases ofLiteral_ofNat most with ⟨i, same⟩ | ⟨y, same⟩
      · exact ⟨_, by rw [returned_ofNat, same]; rfl⟩
      · exact ⟨y, by rw [returned_ofNat, same]; rfl⟩
    | float sort =>
      rcases returned_float k (json rfl) with ⟨_, same⟩ | same
      · exact ⟨_, by rw [same]; rfl⟩
      · exact ⟨x, by rw [same]; exact read⟩
    | @literal t numeral =>
      have unreadable := (settled t rfl).2
      simp [number, unreadable] at read
    | _ => cases read

theorem exists_target_returned (plain : d.Plain P) (settled : ∀ t, d = .literal t → Unreadable t)
    (json : f = .json → d.HasJson ∧ d.isSigned = true) (ok : ∃ n, target d = .ok n) :
    ∃ n, target (d.returned k) = .ok n := by
  obtain ⟨n, read⟩ := ok
  by_cases label : ∃ t, d = .text t
  · obtain ⟨t, rfl⟩ := label
    exact ⟨n, by rw [returned_text]; exact read⟩
  · have number : integer d = .ok n := by
      cases d with
      | text t => exact absurd ⟨t, rfl⟩ label
      | _ => exact read
    obtain ⟨i, again⟩ := exists_integer_returned k plain settled json ⟨n, number⟩
    exact ⟨i, target_of_integer again⟩

/-- What is read back suits the opcode as before. -/
theorem Suits.returned {kind : OperandKind} (plain : d.Plain P) (settled : d.Settled)
    (json : f = .json → d.HasJson ∧ (takesFloat kind || d.isSigned) = true) (suits : Suits d kind) :
    Suits (d.returned k) kind := by
  have literal : ∀ t, d = .literal t → Unreadable t := by
    rintro t rfl
    exact settled
  cases kind with
  | none =>
    obtain rfl : d = .null := suits
    exact returned_null k
  | shortVar | var | shortInt | int32 | int64 => exact exists_integer_returned k plain literal json suits
  | float32 | float64 => exact exists_number_returned k plain literal (fun same => (json same).1) suits
  | shortTarget | target => exact exists_target_returned k plain literal json suits
  | targetTable =>
    obtain ⟨items, rfl, each⟩ := suits
    cases plain with
    | list values =>
      refine ⟨_, returned_list k values, List.forall_mem_map.2 fun i mem => ?_⟩
      have unreadable : ∀ t, i = .literal t → Unreadable t := fun t same => settled t (same ▸ mem)
      refine exists_target_returned k (values i mem) unreadable (fun same => ?_) (each i mem)
      obtain ⟨written, signed⟩ := json same
      refine ⟨written.items i mem, ?_⟩
      have small := List.all_eq_true.1 signed i mem
      cases i with
      | nat n => exact small
      | list inner => cases (each _ mem).choose_spec
      | _ => rfl
  | string | type =>
    obtain ⟨t, rfl⟩ := suits
    exact ⟨t, returned_text k t⟩
  | method | field | token | signature =>
    obtain ⟨t, u, rfl, named⟩ := suits
    exact ⟨t, u, returned_text k t, named⟩

end Operands

/-! ## Lines that are read back -/

/-- Has the opcode, if it takes an integer, an operand that is not past the signed numbers? -/
def Line.isSigned (l : Line) : Bool :=
  ((Code.ofMnemonic? l.op).bind Code.opcode?).all fun o => takesFloat o.operand || l.operand.isSigned

/-- In JSON the operand of the line has a form, and is not past the numbers that are read back. -/
def Line.Carried (f : DumpFormat) (l : Line) : Prop := f = .json → l.operand.HasJson ∧ l.isSigned = true

theorem exists_convertLine_returned {a : TokenTable} (b : TokenTable) {f : DumpFormat} (k : Carriage f)
    {P : Double → Prop} {l : Line} {r : RawInstruction} (clean : l.Clean P) (carried : l.Carried f)
    (converted : convertLine a l = .ok r) : ∃ r', convertLine b (l.returned k) = .ok r' := by
  unfold convertLine at converted
  split at converted
  case h_1 => cases converted
  case h_2 o found =>
    split at converted
    case h_1 operand here =>
      have json : f = .json → l.operand.HasJson ∧ (takesFloat o.operand || l.operand.isSigned) = true := by
        intro same
        obtain ⟨written, signed⟩ := carried same
        rw [Line.isSigned, found, Option.all_some] at signed
        exact ⟨written, signed⟩
      have suits := ((convert_eq_ok_iff a).1 ⟨operand, here⟩).returned k clean.operand clean.settled json
      obtain ⟨operand', again⟩ := (convert_eq_ok_iff b).2 suits
      refine ⟨⟨l.offset, o.code, operand'⟩, ?_⟩
      have op : (Code.ofMnemonic? (l.returned k).op).bind Code.opcode? = some o := found
      rw [convertLine, op]
      simp only
      rw [show (l.returned k).operand = l.operand.returned k from rfl, again]
      rfl
    case h_2 => cases converted

theorem exists_convertLines_returned {a : TokenTable} (b : TokenTable) {f : DumpFormat} (k : Carriage f)
    {P : Double → Prop} {lines : List Line} {previous : Option Int} {body : List RawInstruction}
    (clean : ∀ l ∈ lines, l.Clean P) (carried : ∀ l ∈ lines, l.Carried f) (converted : convertLines a previous lines = .ok body) :
    ∃ body', convertLines b previous (lines.map (Line.returned k)) = .ok body' := by
  induction lines generalizing previous body with
  | nil => exact ⟨[], rfl⟩
  | cons l rest ih =>
    obtain ⟨first, others⟩ := List.forall_mem_cons.1 clean
    obtain ⟨firstCarried, othersCarried⟩ := List.forall_mem_cons.1 carried
    obtain ⟨after, least, r, later, here, next, rfl⟩ := convertLines_cons_ok converted
    obtain ⟨r', here'⟩ := exists_convertLine_returned b k first firstCarried here
    obtain ⟨later', next'⟩ := ih others othersCarried next
    exact ⟨r' :: later', convertLines_cons (l := l.returned k) after least here' next'⟩

/-! ## Bodies that are read back -/

namespace Method

variable {a : TokenTable} (b : TokenTable) {f : DumpFormat} (k : Carriage f) {P : Double → Prop} {m : Method}
  {handlers : List CilAudit.Handler}

theorem lines_returned (m : Method) :
    (m.returned k).lines =
      if (m.lines.getD []).isEmpty then none else some ((m.lines.getD []).map (Line.returned k)) := by
  rw [returned]
  cases m.lines <;> rfl

/-- Without code and lines there is no body, also if there was a list of none. -/
theorem body_of_empty (uncoded : m.code.isEmpty = true) (empty : (m.lines.getD []).isEmpty = true) :
    (m.returned k).body b = .ok none := by
  have lines : (m.returned k).lines = none := by
    rw [lines_returned, if_pos empty]
  rw [body, lines, show (m.returned k).code = m.code from rfl, uncoded]
  rfl

theorem body_of_code {code : Text} (coded : ¬m.code.isEmpty = true) (hex : Text.ofHex m.code = .ok code)
    (named : m.handlers.mapM Handler.build = .ok handlers) :
    (m.returned k).body b = .ok (some ⟨.encoded code b, handlers, m.locals⟩) := by
  have instructions : (m.returned k).instructions b ((m.returned k).lines.getD []) = .ok (.encoded code b) := by
    rw [Method.instructions, show (m.returned k).code = m.code from rfl, if_neg coded, hex]
  rw [body, show (m.returned k).code = m.code from rfl, Bool.eq_false_iff.2 coded, Bool.false_and, if_neg (by simp),
    show (m.returned k).handlers = m.handlers from rfl, named, instructions]
  rfl

theorem body_of_lines {raw : List RawInstruction} (uncoded : m.code.isEmpty = true)
    (some : (m.lines.getD []).isEmpty = false) (named : m.handlers.mapM Handler.build = .ok handlers)
    (converted : mnemonicBody b ((m.lines.getD []).map (Line.returned k)) = .ok raw) :
    (m.returned k).body b = .ok (.some ⟨.raw raw, handlers, m.locals⟩) := by
  have lines : (m.returned k).lines = .some ((m.lines.getD []).map (Line.returned k)) := by
    rw [lines_returned, some]
    rfl
  have instructions : (m.returned k).instructions b ((m.returned k).lines.getD []) = .ok (.raw raw) := by
    rw [Method.instructions, show (m.returned k).code = m.code from rfl, if_pos uncoded, lines, Option.getD_some,
      converted]
  rw [body, instructions, lines, Option.isNone_some, Bool.and_false, if_neg (by simp),
    show (m.returned k).handlers = m.handlers from rfl, named]
  rfl

/-- The body is read back, unless it is a list of no lines. -/
theorem body_recovered {found : Option MethodBody} (clean : m.Clean P)
    (carried : m.code.isEmpty = true → ∀ l ∈ m.lines.getD [], l.Carried f) (built : m.body a = .ok found) :
    ∃ found', (m.returned k).body b = .ok found' ∧
      (found'.isSome = true ↔ ∃ x ∈ found, x.instructions ≠ .raw []) := by
  have cleanLines : ∀ l ∈ m.lines.getD [], l.Clean P := by
    cases given : m.lines with
    | none => exact List.forall_mem_nil _
    | some l => exact clean.lines l given
  unfold body at built
  split at built
  case isTrue bodiless =>
    cases built
    obtain ⟨uncoded, missing⟩ := Bool.and_eq_true_iff.1 bodiless
    refine ⟨none, body_of_empty b k uncoded ?_, by simp⟩
    rw [Option.isNone_iff_eq_none.1 missing]
    rfl
  case isFalse =>
    obtain ⟨handlers, named, built⟩ := Except.bind_eq_ok_iff.1 built
    obtain ⟨instructions, read, built⟩ := Except.bind_eq_ok_iff.1 built
    cases built
    unfold Method.instructions at read
    split at read
    case isFalse coded =>
      split at read
      case h_1 code hex =>
        cases read
        exact ⟨_, body_of_code b k coded hex named, by simp⟩
      case h_2 => cases read
    case isTrue uncoded =>
      split at read
      case h_1 raw converted =>
        cases read
        cases empty : (m.lines.getD []).isEmpty with
        | true =>
          rw [List.isEmpty_iff.1 empty] at converted
          cases converted
          exact ⟨none, body_of_empty b k uncoded empty, by simp⟩
        | false =>
          obtain ⟨raw', again⟩ := exists_convertLines_returned b k cleanLines (carried uncoded) converted
          have nonempty : raw ≠ [] := by
            obtain ⟨l, rest, lines⟩ := List.exists_cons_of_ne_nil (List.isEmpty_eq_false_iff.1 empty)
            rw [lines] at converted
            obtain ⟨_, _, r, later, _, _, rfl⟩ := convertLines_cons_ok converted
            exact List.cons_ne_nil r later
          exact ⟨_, body_of_lines b k uncoded empty named again, by simpa using nonempty⟩
      case h_2 => cases read

theorem build_recovered {type : Text} {built : CilAudit.Method} (clean : m.Clean P)
    (carried : m.code.isEmpty = true → ∀ l ∈ m.lines.getD [], l.Carried f) (build : m.build a type = .ok built) :
    ∃ built', (m.returned k).build b type = .ok built' ∧ built.Recovered built' := by
  obtain ⟨found, here, build⟩ := Except.bind_eq_ok_iff.1 build
  obtain ⟨found', again, kept⟩ := body_recovered b k clean carried here
  refine ⟨{ built with body := found' }, ?_, rfl, ?_⟩
  · cases build
    rw [Method.build, again]
    rfl
  · cases build
    exact kept

end Method

/-! ## Modules that are read back -/

/-- The lines of a dump that bodies are made of; those of a method with code are not. -/
def Lined (P : Line → Prop) (d : Dump) : Prop :=
  ∀ t ∈ d.types.getD [], ∀ m ∈ t.methods, m.code.isEmpty = true → ∀ l ∈ m.lines.getD [], P l

theorem TypeDef.build_recovered {a : TokenTable} (b : TokenTable) {f : DumpFormat} (k : Carriage f)
    {P : Double → Prop} {t : TypeDef} {built : CilAudit.TypeDef} (clean : t.Clean P)
    (carried : ∀ m ∈ t.methods, m.code.isEmpty = true → ∀ l ∈ m.lines.getD [], l.Carried f)
    (build : t.build a = .ok built) : ∃ built', (t.returned k).build b = .ok built' ∧ built.Recovered built' := by
  obtain ⟨methods, rest⟩ := (TypeDef.build_eq_ok_iff b).1 build
  obtain ⟨methods', rebuilt, kept⟩ := mapM_returned (mapM_eq_ok_iff.2 methods) fun m mem _ =>
    Method.build_recovered b k (clean.methods m mem) (carried m mem)
  refine ⟨{ built with methods := methods' }, ?_, rfl, kept⟩
  exact (TypeDef.build_eq_ok_iff b).2 ⟨mapM_eq_ok_iff.1 rebuilt, rest⟩

theorem Tokens.reorders_returned {f : DumpFormat} (k : Carriage f) (r : Tokens) : r.Reorders (r.returned k) :=
  ⟨canonical_perm k _, canonical_perm k _, canonical_perm k _, canonical_perm k _⟩

/-- The dump that is read back builds a module in which the bodies are recovered. -/
theorem build_recovered {f : DumpFormat} (k : Carriage f) {P : Double → Prop} {d : Dump} {m : Module}
    (clean : d.Clean P) (carried : d.Lined (Line.Carried f)) (build : d.build = .ok m) :
    ∃ m', (d.returned k).build = .ok m' ∧ m.Recovered m' := by
  obtain ⟨table, ht, build⟩ := Except.bind_eq_ok_iff.1 build
  obtain ⟨types, hy, build⟩ := Except.bind_eq_ok_iff.1 build
  cases build
  obtain ⟨table', ht'⟩ := Tokens.exists_table_of_reorders (d.tokens.reorders_returned k) ht
  have cleanTypes : ∀ t ∈ d.types.getD [], t.Clean P := by
    cases found : d.types with
    | none => exact List.forall_mem_nil _
    | some l => exact clean.types l found
  obtain ⟨types', hy', kept⟩ := mapM_returned hy fun t mem _ =>
    TypeDef.build_recovered table' k (cleanTypes t mem) (carried t mem)
  have found : (d.returned k).types.getD [] = (d.types.getD []).map (TypeDef.returned k) := by
    rw [returned]
    cases d.types <;> rfl
  refine ⟨⟨d.name, types'⟩, ?_, rfl, kept⟩
  rw [Dump.build, show (d.returned k).tokens = d.tokens.returned k from rfl, ht', found]
  simp only [bind, Except.bind, hy']
  rfl

/-- A dump that is written as JSON is so in all its operands. -/
theorem hasJson_operands {d : Dump} (whole : d.toDatum.HasJson) : d.Lined fun l => l.operand.HasJson := by
  have line : ∀ {l : Line}, l.toDatum.HasJson → l.operand.HasJson := by
    intro l whole
    rw [Line.toDatum_eq_fields] at whole
    have part := whole.part (p := ("operand", Line.operandPart l.operand)) (by simp [Line.parts])
    cases operand : l.operand with
    | null => exact ⟨.null, rfl⟩
    | _ => exact part _ (by rw [operand]; rfl)
  have method : ∀ {m : Method}, m.toDatum.HasJson → ∀ l ∈ m.lines.getD [], l.toDatum.HasJson := by
    intro m whole
    rw [Method.toDatum_eq_fields] at whole
    exact hasJson_of_listPart
      (whole.part (p := ("il", listPart Line.toDatum (m.lines.getD []))) (by simp [Method.parts]))
  have type : ∀ {t : TypeDef}, t.toDatum.HasJson → ∀ m ∈ t.methods, m.toDatum.HasJson := by
    intro t whole
    rw [TypeDef.toDatum_eq_fields] at whole
    exact hasJson_of_listPart
      (whole.part (p := ("methods", listPart Method.toDatum t.methods)) (by simp [TypeDef.parts]))
  have types : ∀ t ∈ d.types.getD [], t.toDatum.HasJson := by
    rw [toDatum_eq_fields] at whole
    have part := whole.part (p := ("types", some d.typesDatum)) (by simp [parts]) _ rfl
    unfold typesDatum at part
    cases found : d.types with
    | none => exact List.forall_mem_nil _
    | some l =>
      rw [found] at part
      exact fun t mem => part.items _ (List.mem_map_of_mem mem)
  exact fun t ht m hm _ l hl => line (method (type (types t ht) m hm) l hl)

/-- **Bodies of a converted dump.** Let an encoding for a format be given that reads back what it wrote. A clean dump
that builds a module and is written in the format, within the limits of the reader and, as JSON, without an unsigned
operand past the signed numbers where an integer is taken, is loaded again and builds a module with the same types and
methods. A method then has a body exactly if it had one that is more than a list of no instructions. -/
theorem recovered_of_converted {codecs : DumpFormat → Codec} {f : DumpFormat} {k : Carriage f} {Within : Datum → Prop}
    (faithful : (codecs f).ReadsBack k Within) {P : Double → Prop} {d : Dump} {m : Module} {bytes : Text}
    (clean : d.Clean P) (built : d.build = .ok m) (written : d.writeBy codecs f.name = .ok bytes)
    (within : Within d.toDatum) (signed : f = .json → d.Lined (·.isSigned = true)) :
    ∃ d' m', Dump.readBy codecs f.name bytes = .ok d' ∧ d'.build = .ok m' ∧ m.Recovered m' := by
  have carried : d.Lined (Line.Carried f) := by
    intro t ht x hx uncoded l hl json
    have operands := hasJson_operands (faithful.write.1 ⟨bytes, writeBy_eq_ok_iff.1 written⟩ json)
    exact ⟨operands t ht x hx uncoded l hl, signed json t ht x hx uncoded l hl⟩
  obtain ⟨m', rebuilt, recovered⟩ := build_recovered k clean carried built
  exact ⟨d.returned k, m', readBy_of_writeBy faithful clean within written, rebuilt, recovered⟩

theorem exists_ok_of_any {ε α : Type} {x : Except ε α} {p : α → Bool} (holds : x.toOption.any p = true) :
    ∃ a, x = .ok a ∧ p a = true := by
  cases x with
  | error e => cases holds
  | ok a => exact ⟨a, rfl, holds⟩

/-- A method without a body, one by a list of no lines, one by its lines and one by its code. -/
def assorted : Text :=
  Text.ofString "\x7b\"types\":[\x7b\"name\":\"T\",\"methods\":[\x7b\"name\":\"A\"\x7d," ++
  "\x7b\"name\":\"B\",\"il\":[]\x7d,\x7b\"name\":\"C\",\"il\":[\x7b\"op\":\"ldc.r8\",\"operand\":0.5\x7d," ++
  "\x7b\"offset\":9,\"op\":\"switch\",\"operand\":[9,\"IL_0016\"]\x7d]\x7d," ++
  "\x7b\"name\":\"D\",\"code\":\"2A\"\x7d]\x7d]\x7d"

theorem recovered_of_converted_assorted :
    ∃ d m, Dump.read "json" assorted = .ok d ∧ d.build = .ok m ∧ ∀ f : DumpFormat, ∃ bytes d' m',
      d.write f.name = .ok bytes ∧ Dump.read f.name bytes = .ok d' ∧ d'.build = .ok m' ∧ m.Recovered m' := by
  -- The text is read once, for all that is asked of the dump.
  have holds : (Dump.read "json" assorted).toOption.any (fun d => d.build.toOption.any (fun _ => true) &&
      d.toDatum.fits Cbor.maxDepth && d.toDatum.toJson.toOption.any (fun j => j.nesting ≤ Json.maxDepth) &&
      (d.types.getD []).all fun t => t.methods.all fun x => (x.lines.getD []).all Line.isSigned) = true := by
    decide +kernel
  obtain ⟨d, loaded, holds⟩ := exists_ok_of_any holds
  simp only [Bool.and_eq_true, List.all_eq_true] at holds
  obtain ⟨⟨⟨build, small⟩, json⟩, signed⟩ := holds
  obtain ⟨m, built, -⟩ := exists_ok_of_any build
  obtain ⟨j, json, shallow⟩ := exists_ok_of_any json
  refine ⟨d, m, loaded, built, fun f => ?_⟩
  have within : f.Within d.toDatum := by
    cases f with
    | json =>
      intro j' found
      cases json.symm.trans found
      exact of_decide_eq_true shallow
    | cbor => exact small
  obtain ⟨bytes, encoded⟩ := f.readsBack_codec.write.2 fun _ => ⟨j, json⟩
  have written : d.write f.name = .ok bytes := writeBy_eq_ok_iff.2 encoded
  obtain ⟨d', m', read, rebuilt, recovered⟩ :=
    recovered_of_converted f.readsBack_codec (clean_of_readBy DumpFormat.readsPlain_json loaded) built written within
      fun _ t ht x hx _ => signed t ht x hx
  exact ⟨bytes, d', m', written, read, rebuilt, recovered⟩

/-- Which methods of a module have a body, one after another. -/
def bodied (m : Module) : List Bool := m.types.flatMap fun t => t.methods.map (·.body.isSome)

/-- A method by a list of no lines. -/
def hollow : Dump where
  types := some [{ methods := [{ lines := some [] }] }]

theorem clean_hollow : hollow.Clean Double.IsNumber := by
  have utf8 := Text.isUtf8_nil
  have lines : ∀ l ∈ some ([] : List Line), ∀ line ∈ l, line.Clean Double.IsNumber := by
    rintro l ⟨⟩
    exact List.forall_mem_nil _
  have method : Method.Clean Double.IsNumber { lines := some [] } :=
    ⟨utf8, utf8, List.forall_mem_nil _, List.forall_mem_nil _, nofun, utf8, lines, List.forall_mem_nil _,
      List.forall_mem_nil _⟩
  have type : TypeDef.Clean Double.IsNumber { methods := [{ lines := some [] }] } :=
    ⟨utf8, utf8, List.forall_mem_nil _, List.forall_mem_nil _, List.forall_mem_nil _,
      List.forall_mem_singleton.2 method⟩
  refine ⟨utf8, ?_, .nil, .nil, .nil, .nil⟩
  rintro l ⟨⟩
  exact List.forall_mem_singleton.2 type

/-- In either encoding the one method loses its body. -/
theorem hollow_loses_body :
    ∃ m, hollow.build = .ok m ∧ bodied m = [true] ∧
      ∀ f : DumpFormat, ∃ bytes d' m', hollow.write f.name = .ok bytes ∧ Dump.read f.name bytes = .ok d' ∧
        d'.build = .ok m' ∧ bodied m' = [false] := by
  refine ⟨_, rfl, rfl, fun f => ?_⟩
  have json : hollow.toDatum.toJson.toOption.any (fun j => j.nesting ≤ Json.maxDepth) = true := by decide +kernel
  obtain ⟨j, json, shallow⟩ := exists_ok_of_any json
  have within : f.Within hollow.toDatum := by
    cases f with
    | json =>
      intro j' found
      cases json.symm.trans found
      exact of_decide_eq_true shallow
    | cbor => exact (by decide +kernel : hollow.toDatum.fits Cbor.maxDepth = true)
  obtain ⟨bytes, encoded⟩ := f.readsBack_codec.write.2 fun _ => ⟨j, json⟩
  have written : hollow.write f.name = .ok bytes := writeBy_eq_ok_iff.2 encoded
  have rebuilt : (hollow.returned f.carriage).build.toOption.any (bodied · = [false]) = true := by
    cases f <;> decide +kernel
  obtain ⟨m', rebuilt, none⟩ := exists_ok_of_any rebuilt
  have read := readBy_of_writeBy f.readsBack_codec clean_hollow within written
  exact ⟨bytes, _, m', written, read, rebuilt, of_decide_eq_true none⟩

end Dump

end CilAudit
