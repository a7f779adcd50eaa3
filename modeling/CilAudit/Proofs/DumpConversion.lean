import CilAudit.Dump.Build
import CilAudit.Proofs.BodyForms
import CilAudit.Proofs.DumpRecords

/-!
# Converted dumps build the same module

A dump loaded from JSON that builds a module is written in CBOR and loaded again, by any encodings
that read back what they wrote. It then builds a module with the same types, members and bodies. The
tables of tokens come back in another order, so no token may be spelled in two ways, and operands come
back in another form, which is converted to the same operand.
-/

set_option autoImplicit false

namespace CilAudit

theorem Except.bind_eq_ok_iff {ε α β : Type} {x : Except ε α} {f : α → Except ε β} {b : β} :
    (x >>= f) = .ok b ↔ ∃ a, x = .ok a ∧ f a = .ok b := by
  cases x with
  | error e => simp [bind, Except.bind]
  | ok a => simp [bind, Except.bind]

/-! ## Modules that agree -/

/-- Bodies with the same instructions once they are read, the same handlers and locals. -/
structure MethodBody.Agrees (a b : MethodBody) : Prop where
  instructions : a.rawInstructions = b.rawInstructions
  handlers : a.handlers = b.handlers
  locals : a.locals = b.locals

/-- Methods that are the same but for the form of their bodies. -/
structure Method.Agrees (a b : Method) : Prop where
  signature : { a with body := none } = { b with body := none }
  body : Option.Rel MethodBody.Agrees a.body b.body

/-- Types that are the same, method by method. -/
structure TypeDef.Agrees (a b : TypeDef) : Prop where
  members : { a with methods := [] } = { b with methods := [] }
  methods : List.Forall₂ Method.Agrees a.methods b.methods

/-- Modules that are the same, type by type. -/
structure Module.Agrees (a b : Module) : Prop where
  name : a.name = b.name
  types : List.Forall₂ TypeDef.Agrees a.types b.types

/-! ## Tables of tokens -/

/-- The tables give the same member for every token. -/
structure TokenTable.Agrees (a b : TokenTable) : Prop where
  strings : a.string? = b.string?
  methods : a.method? = b.method?
  fields : a.field? = b.field?
  types : a.type? = b.type?

theorem TokenTable.Agrees.read {a b : TokenTable} (agree : a.Agrees b) (code : Text) : read a code = read b code := by
  have member : a.member? = b.member? := by
    funext kind t
    cases kind <;> simp [TokenTable.member?, agree.strings, agree.methods, agree.fields, agree.types]
  have resolve : RawInstruction.resolve a = RawInstruction.resolve b := by
    funext r
    simp only [RawInstruction.resolve, Operand.resolve, member]
  rw [CilAudit.read, CilAudit.read, readFrom_resolve a, readFrom_resolve b, resolve]

namespace Dump

/-- Does the table spell every token in one way only? -/
def OneSpelling {α : Type} (table : List (Text × α)) : Prop :=
  ∀ a ∈ table, ∀ b ∈ table, token? a.1 = token? b.1 → a.1 = b.1

instance {α : Type} (table : List (Text × α)) : Decidable (OneSpelling table) :=
  inferInstanceAs (Decidable (∀ a ∈ table, ∀ b ∈ table, _ → _))

/-- The token that a key names, if it names one. -/
def tokenOf (key : Text) : UInt32 := (token? key).getD 0

theorem parseKeys_eq_ok_iff {α : Type} {entries : List (Text × α)} {table : List (UInt32 × α)} :
    parseKeys entries = .ok table ↔
      (∀ e ∈ entries, token? e.1 = some (tokenOf e.1)) ∧
        table = (entries.map fun e => (tokenOf e.1, e.2)).reverse := by
  rw [parseKeys, ← List.append_nil (entries.map fun e => (tokenOf e.1, e.2)).reverse]
  -- What was parsed before stands behind.
  generalize ([] : List (UInt32 × α)) = before
  induction entries generalizing before with
  | nil => simp [pure, Except.pure, eq_comm]
  | cons e rest ih =>
    rw [List.foldlM_cons]
    cases token : token? e.1 with
    | none => simp [token, bind, Except.bind]
    | some t =>
      have named : tokenOf e.1 = t := by rw [tokenOf, token, Option.getD_some]
      simp only [token, bind, Except.bind, ih, List.forall_mem_cons, List.map_cons, List.reverse_cons,
        List.append_assoc, List.singleton_append, named, true_and]

/-- Do any two entries that name one token hold the same? -/
def OneMeaning {α : Type} (table : List (Text × α)) : Prop :=
  ∀ a ∈ table, ∀ b ∈ table, token? a.1 = token? b.1 → a.2 = b.2

theorem oneMeaning_of_oneSpelling {α : Type} {table : List (Text × α)} (distinct : (table.map (·.1)).Nodup)
    (spelled : OneSpelling table) : OneMeaning table := by
  intro a ha b hb same
  rw [List.inj_on_of_nodup_map distinct ha hb (spelled a ha b hb same)]

/-- Then a token stands for what any of its entries holds. -/
theorem lookup_parsed {α : Type} {entries : List (Text × α)} {table : List (UInt32 × α)}
    (parsed : parseKeys entries = .ok table) (meaning : OneMeaning entries) {t : UInt32} {v : α} :
    table.lookup t = some v ↔ ∃ e ∈ entries, token? e.1 = some t ∧ e.2 = v := by
  obtain ⟨tokens, rfl⟩ := parseKeys_eq_ok_iff.1 parsed
  have held : ∀ {w : α}, List.lookup t (entries.map fun e => (tokenOf e.1, e.2)).reverse = some w →
      ∃ e ∈ entries, token? e.1 = some t ∧ e.2 = w := by
    intro w found
    obtain ⟨before, after, split, -⟩ := List.lookup_eq_some_iff.1 found
    have member : (t, w) ∈ (entries.map fun e => (tokenOf e.1, e.2)).reverse := by simp [split]
    obtain ⟨e, mem, same⟩ := List.mem_map.1 (List.mem_reverse.1 member)
    cases same
    exact ⟨e, mem, tokens e mem, rfl⟩
  refine ⟨held, ?_⟩
  rintro ⟨e, mem, named, rfl⟩
  have key : tokenOf e.1 = t := by rw [tokenOf, named, Option.getD_some]
  have some : (List.lookup t (entries.map fun e => (tokenOf e.1, e.2)).reverse).isSome = true :=
    List.lookup_isSome_iff.2 ⟨(t, e.2), List.mem_reverse.2 (List.mem_map.2 ⟨e, mem, by rw [key]⟩), by simp⟩
  obtain ⟨w, found⟩ := Option.isSome_iff_exists.1 some
  obtain ⟨e', mem', named', rfl⟩ := held found
  rw [found, meaning e' mem' e mem (named'.trans named.symm)]

/-- In another order the keys can be parsed, or not, as before. -/
theorem exists_parsed_of_perm {α : Type} {entries entries' : List (Text × α)} {table : List (UInt32 × α)}
    (perm : entries'.Perm entries) (parsed : parseKeys entries = .ok table) :
    ∃ table', parseKeys entries' = .ok table' := by
  obtain ⟨tokens, -⟩ := parseKeys_eq_ok_iff.1 parsed
  exact ⟨_, parseKeys_eq_ok_iff.2 ⟨fun e mem => tokens e (perm.mem_iff.1 mem), rfl⟩⟩

theorem lookup_of_perm {α : Type} {entries entries' : List (Text × α)} {table table' : List (UInt32 × α)}
    (perm : entries'.Perm entries) (meaning : OneMeaning entries) (parsed : parseKeys entries = .ok table)
    (parsed' : parseKeys entries' = .ok table') (t : UInt32) : table.lookup t = table'.lookup t := by
  have meaning' : OneMeaning entries' := fun a ha b hb => meaning a (perm.mem_iff.1 ha) b (perm.mem_iff.1 hb)
  refine Option.ext fun v => ?_
  simp only [lookup_parsed parsed meaning, lookup_parsed parsed' meaning', perm.mem_iff]

/-- The same entries in another order are the same table. -/
theorem parseKeys_of_perm {α : Type} {entries entries' : List (Text × α)} {table : List (UInt32 × α)}
    (parsed : parseKeys entries = .ok table) (perm : entries'.Perm entries)
    (distinct : (entries.map (·.1)).Nodup) (spelled : OneSpelling entries) :
    ∃ table', parseKeys entries' = .ok table' ∧ ∀ t, table.lookup t = table'.lookup t := by
  obtain ⟨table', parsed'⟩ := exists_parsed_of_perm perm parsed
  exact ⟨table', parsed', lookup_of_perm perm (oneMeaning_of_oneSpelling distinct spelled) parsed parsed'⟩

/-- The tables of a dump spell every token in one way only, each by itself. -/
structure Tokens.Spelled (r : Tokens) : Prop where
  strings : OneSpelling r.strings
  methods : OneSpelling r.methods
  fields : OneSpelling r.fields
  types : OneSpelling r.types

variable (k : Carriage .cbor)

theorem Tokens.table_returned {r : Tokens} {table : TokenTable} (clean : r.Clean) (spelled : r.Spelled)
    (built : r.table = .ok table) : ∃ table', (r.returned k).table = .ok table' ∧ table.Agrees table' := by
  obtain ⟨strings, hs, built⟩ := Except.bind_eq_ok_iff.1 built
  obtain ⟨methods, hm, built⟩ := Except.bind_eq_ok_iff.1 built
  obtain ⟨fields, hf, built⟩ := Except.bind_eq_ok_iff.1 built
  obtain ⟨types, ht, built⟩ := Except.bind_eq_ok_iff.1 built
  cases built
  obtain ⟨strings', hs', sameStrings⟩ :=
    parseKeys_of_perm hs (Datum.canonical_perm k _) clean.strings.distinct spelled.strings
  obtain ⟨methods', hm', sameMethods⟩ :=
    parseKeys_of_perm hm (Datum.canonical_perm k _) clean.methods.distinct spelled.methods
  obtain ⟨fields', hf', sameFields⟩ :=
    parseKeys_of_perm hf (Datum.canonical_perm k _) clean.fields.distinct spelled.fields
  obtain ⟨types', ht', sameTypes⟩ :=
    parseKeys_of_perm ht (Datum.canonical_perm k _) clean.types.distinct spelled.types
  refine ⟨⟨strings', methods', fields', types'⟩, ?_, funext sameStrings, funext sameMethods, funext sameFields,
    funext sameTypes⟩
  simp [Tokens.table, Tokens.returned, hs', hm', hf', ht', bind, Except.bind, pure, Except.pure]

/-! ## Operands -/

open Datum

theorem integer_returned {P : Double → Prop} {d : Datum} {n : Int} (plain : d.Plain P)
    (settled : ∀ t, d = .literal t → Unreadable t) (read : integer d = .ok n) : integer (d.returned k) = .ok n := by
  cases plain with
  | @int m least most =>
    cases read
    by_cases negative : n < 0
    · rw [returned_of_neg k negative]
      rfl
    · have nonnegative : 0 ≤ n := Int.not_lt.1 negative
      rw [returned_of_nonneg k nonnegative, integer, Int.toNat_of_nonneg nonnegative]
      exact congrArg Except.ok (Int.bmod_eq_of_le (by omega) (by omega))
  | nat most =>
    rw [returned_nat]
    exact read
  | @float x sort =>
    have number : x.IsNumber := by
      intro nan
      simp [integer, Double.toInt64?, nan] at read
    rw [returned_of_isNumber k number]
    exact read
  | @literal t numeral =>
    have unreadable := (settled t rfl).1
    cases number : Text.toInt? t <;> simp [integer, unreadable, number] at read
  | _ => cases read

theorem number_returned {P : Double → Prop} {d : Datum} {x : Double} (plain : d.Plain P)
    (settled : ∀ t, d = .literal t → Unreadable t) (numbers : ∀ y, d = .float y → y.IsNumber)
    (read : number d = .ok x) : number (d.returned k) = .ok x := by
  cases plain with
  | @int n least most =>
    by_cases negative : n < 0
    · rw [returned_of_neg k negative]
      exact read
    · have nonnegative : 0 ≤ n := Int.not_lt.1 negative
      rw [returned_of_nonneg k nonnegative, number, Int.toNat_of_nonneg nonnegative]
      exact read
  | nat most =>
    rw [returned_nat]
    exact read
  | @float y sort =>
    rw [returned_of_isNumber k (numbers y rfl)]
    exact read
  | @literal t numeral =>
    have unreadable := (settled t rfl).2
    simp [number, unreadable] at read
  | _ => cases read

/-- Only a text is taken for a label. -/
theorem target_of_integer {d : Datum} {n : Int} (read : integer d = .ok n) : target d = .ok n := by
  cases d with
  | text t => cases read
  | _ => exact read

theorem target_returned {P : Double → Prop} {d : Datum} {n : Int} (plain : d.Plain P)
    (settled : ∀ t, d = .literal t → Unreadable t) (read : target d = .ok n) : target (d.returned k) = .ok n := by
  cases plain with
  | text utf8 =>
    rw [returned_text]
    exact read
  | int least most => exact target_of_integer (integer_returned k (P := P) (.int least most) settled read)
  | nat most =>
    rw [returned_nat]
    exact read
  | float sort => exact target_of_integer (integer_returned k (.float sort) settled read)
  | literal numeral => exact target_of_integer (integer_returned k (P := P) (.literal numeral) settled read)
  | _ => cases read

/-- Successful traversal is pointwise. -/
theorem mapM_eq_ok_iff {ε α β : Type} {f : α → Except ε β} {xs : List α} {ys : List β} :
    xs.mapM f = .ok ys ↔ List.Forall₂ (fun x y => f x = .ok y) xs ys := by
  induction xs generalizing ys with
  | nil => cases ys <;> simp [pure, Except.pure]
  | cons x xs ih =>
    rw [List.mapM_cons, List.forall₂_cons_left_iff]
    simp only [Except.bind_eq_ok_iff, ih, pure, Except.pure, Except.ok.injEq]
    constructor
    · rintro ⟨y, first, rest, others, rfl⟩
      exact ⟨y, rest, first, others, rfl⟩
    · rintro ⟨y, rest, first, others, rfl⟩
      exact ⟨y, first, rest, others, rfl⟩

theorem convert_returned {a b : TokenTable} (agree : a.Agrees b) {d : Datum} {kind : OperandKind} {x : Operand}
    (plain : d.Plain Double.IsNumber) (settled : d.Settled) (converted : convert a d kind = .ok x) :
    convert b (d.returned k) kind = .ok x := by
  have literal : ∀ t, d = .literal t → Unreadable t := by
    rintro t rfl
    exact settled
  have numbers : ∀ x, d = .float x → x.IsNumber := by
    rintro x rfl
    cases plain with
    | float number => exact number
  have mapped : ∀ {α : Type} {r r' : Except OperandFault α} {f : α → Operand}, r.map f = .ok x →
      (∀ v, r = .ok v → r' = .ok v) → r'.map f = .ok x := by
    intro α r r' f ok same
    cases r with
    | error e => cases ok
    | ok v => rw [same v rfl]; exact ok
  cases kind with
  | none =>
    cases plain with
    | null =>
      rw [returned_null]
      exact converted
    | _ => cases converted
  | shortVar | var | shortInt | int32 | int64 => exact mapped converted fun _ => integer_returned k plain literal
  | float32 | float64 => exact mapped converted fun _ => number_returned k plain literal numbers
  | shortTarget | target => exact mapped converted fun _ => target_returned k plain literal
  | targetTable =>
    cases plain with
    | @list items values =>
      rw [returned_list k values]
      refine mapped converted fun offsets read => ?_
      rw [mapM_eq_ok_iff] at read ⊢
      have each : ∀ d ∈ items, d.Plain Double.IsNumber ∧ ∀ t, d = .literal t → Unreadable t := fun d mem =>
        ⟨values d mem, fun t same => settled t (same ▸ mem)⟩
      refine List.forall₂_map_left_iff.2 ((List.forall₂_and_left _ _ |>.2 ⟨each, read⟩).imp ?_)
      rintro d n ⟨⟨plain, literal⟩, here⟩
      exact target_returned k plain literal here
    | _ => cases converted
  | string | method | field | token | signature | type =>
    cases plain with
    | text utf8 =>
      rw [returned_text]
      simp only [convert, convert.withToken, agree.strings, agree.methods, agree.fields, agree.types] at converted
      exact converted
    | _ => cases converted

/-! ## Bodies -/

theorem convertLine_returned {a b : TokenTable} (agree : a.Agrees b) {l : Line} {r : RawInstruction}
    (clean : l.Clean Double.IsNumber) (converted : convertLine a l = .ok r) :
    convertLine b (l.returned k) = .ok r := by
  unfold convertLine at converted ⊢
  split at converted
  case h_1 => cases converted
  case h_2 o found =>
    have op : (Code.ofMnemonic? (l.returned k).op).bind Code.opcode? = some o := found
    split at converted
    case h_1 operand here =>
      have same := convert_returned k agree clean.operand clean.settled here
      rw [op]
      simp only
      rw [show (l.returned k).operand = l.operand.returned k from rfl, same]
      exact converted
    case h_2 => cases converted

/-- What a line and those after it have to be. -/
theorem convertLines_cons_ok {table : TokenTable} {previous : Option Int} {l : Line} {rest : List Line}
    {body : List RawInstruction} (converted : convertLines table previous (l :: rest) = .ok body) :
    (∀ p ∈ previous, p < l.offset) ∧ 0 ≤ l.offset ∧ ∃ r later, convertLine table l = .ok r ∧
      convertLines table (some l.offset) rest = .ok later ∧ body = r :: later := by
  have notNegative : ¬ l.offset < 0 := by
    intro negative
    cases previous with
    | none => simp [convertLines, negative, bind, Except.bind, throw, throwThe, MonadExceptOf.throw] at converted
    | some p =>
      by_cases order : l.offset ≤ p <;>
        simp [convertLines, negative, order, bind, Except.bind, throw, throwThe, MonadExceptOf.throw] at converted
  have ascends : ∀ p ∈ previous, ¬ l.offset ≤ p := by
    rintro p ⟨⟩ order
    simp [convertLines, order, bind, Except.bind, throw, throwThe, MonadExceptOf.throw] at converted
  have steps : (convertLine table l >>= fun r => convertLines table (some l.offset) rest >>= fun later =>
      .ok (r :: later)) = .ok body := by
    cases previous with
    | none => simpa [convertLines, notNegative, bind, Except.bind, pure, Except.pure] using converted
    | some p => simpa [convertLines, notNegative, ascends p rfl, bind, Except.bind, pure, Except.pure] using converted
  obtain ⟨r, here, steps⟩ := Except.bind_eq_ok_iff.1 steps
  obtain ⟨later, next, steps⟩ := Except.bind_eq_ok_iff.1 steps
  cases steps
  exact ⟨fun p mem => Int.not_le.1 (ascends p mem), Int.not_lt.1 notNegative, r, later, here, next, rfl⟩

theorem convertLines_returned {a b : TokenTable} (agree : a.Agrees b) {lines : List Line} {previous : Option Int}
    {body : List RawInstruction} (clean : ∀ l ∈ lines, l.Clean Double.IsNumber)
    (converted : convertLines a previous lines = .ok body) :
    convertLines b previous (lines.map (Line.returned k)) = .ok body := by
  induction lines generalizing previous body with
  | nil => exact converted
  | cons l rest ih =>
    obtain ⟨first, others⟩ := List.forall_mem_cons.1 clean
    obtain ⟨after, least, r, later, here, next, rfl⟩ := convertLines_cons_ok converted
    exact convertLines_cons (l := l.returned k) after least (convertLine_returned k agree first here) (ih others next)

/-- The instructions may hold another table, which makes no difference to what is read. -/
theorem Method.instructions_returned {a b : TokenTable} (agree : a.Agrees b) {m : Method} {lines : List Line}
    {found : Instructions} (clean : ∀ l ∈ lines, l.Clean Double.IsNumber)
    (read : m.instructions a lines = .ok found) :
    ∃ found', (m.returned k).instructions b (lines.map (Line.returned k)) = .ok found' ∧ ∀ handlers locals,
      MethodBody.rawInstructions ⟨found, handlers, locals⟩ = MethodBody.rawInstructions ⟨found', handlers, locals⟩ := by
  unfold Method.instructions at read ⊢
  rw [show (m.returned k).code = m.code from rfl]
  split at read
  case isTrue empty =>
    rw [if_pos empty]
    split at read
    case h_1 raw converted =>
      cases read
      refine ⟨.raw raw, ?_, fun _ _ => rfl⟩
      rw [mnemonicBody, convertLines_returned k agree clean converted]
    case h_2 => cases read
  case isFalse coded =>
    rw [if_neg coded]
    split at read
    case h_1 code hex =>
      cases read
      exact ⟨.encoded code b, rfl, fun _ _ => agree.read code⟩
    case h_2 => cases read

theorem Method.body_returned {a b : TokenTable} (agree : a.Agrees b) {m : Method} {body : Option MethodBody}
    (clean : m.Clean Double.IsNumber) (bodied : m.lines ≠ some []) (built : m.body a = .ok body) :
    ∃ body', (m.returned k).body b = .ok body' ∧ Option.Rel MethodBody.Agrees body body' := by
  have kept : (m.returned k).lines = m.lines.map (·.map (Line.returned k)) := by
    rw [Method.returned]
    cases found : m.lines with
    | none => rfl
    | some l =>
      cases l with
      | nil => exact absurd found bodied
      | cons => rfl
  have lines : (m.returned k).lines.getD [] = (m.lines.getD []).map (Line.returned k) := by
    rw [kept]
    cases m.lines <;> rfl
  have cleanLines : ∀ l ∈ m.lines.getD [], l.Clean Double.IsNumber := by
    cases found : m.lines with
    | none => exact List.forall_mem_nil _
    | some l => exact clean.lines l found
  have bodiless : ((m.returned k).code.isEmpty && (m.returned k).lines.isNone) =
      (m.code.isEmpty && m.lines.isNone) := by
    rw [kept, Option.isNone_map]
    rfl
  unfold Method.body at built ⊢
  rw [bodiless, lines]
  split at built
  case isTrue none =>
    rw [if_pos none]
    cases built
    exact ⟨_, rfl, .none⟩
  case isFalse some =>
    rw [if_neg some]
    obtain ⟨handlers, hh, built⟩ := Except.bind_eq_ok_iff.1 built
    obtain ⟨found, read, built⟩ := Except.bind_eq_ok_iff.1 built
    cases built
    obtain ⟨found', read', same⟩ := Method.instructions_returned k agree cleanLines read
    have handlers' : (m.returned k).handlers.mapM Handler.build = .ok handlers := hh
    refine ⟨Option.some ⟨found', handlers, m.locals⟩, ?_, .some ⟨same handlers m.locals, rfl, rfl⟩⟩
    rw [handlers', read']
    rfl

/-! ## Modules -/

theorem Method.build_returned {a b : TokenTable} (agree : a.Agrees b) {m : Method} {type : Text}
    {built : CilAudit.Method} (clean : m.Clean Double.IsNumber) (bodied : m.lines ≠ some [])
    (build : m.build a type = .ok built) :
    ∃ built', (m.returned k).build b type = .ok built' ∧ built.Agrees built' := by
  obtain ⟨body, hb, build⟩ := Except.bind_eq_ok_iff.1 build
  obtain ⟨body', hb', same⟩ := Method.body_returned k agree clean bodied hb
  refine ⟨{ built with body := body' }, ?_, rfl, ?_⟩
  · cases build
    rw [Method.build, hb']
    rfl
  · cases build
    exact same

/-- Elements that are built into agreeing ones, one by one. -/
theorem mapM_returned {ε α β : Type} {f f' : α → Except ε β} {g : α → α} {R : β → β → Prop} {xs : List α} {ys : List β}
    (mapped : xs.mapM f = .ok ys) (each : ∀ x ∈ xs, ∀ y, f x = .ok y → ∃ y', f' (g x) = .ok y' ∧ R y y') :
    ∃ ys', (xs.map g).mapM f' = .ok ys' ∧ List.Forall₂ R ys ys' := by
  simp only [mapM_eq_ok_iff, List.forall₂_map_left_iff] at mapped ⊢
  induction mapped with
  | nil => exact ⟨[], .nil, .nil⟩
  | cons first _ ih =>
    obtain ⟨here, others⟩ := List.forall_mem_cons.1 each
    obtain ⟨y', built, agree⟩ := here _ first
    obtain ⟨ys', rest, agrees⟩ := ih others
    exact ⟨y' :: ys', .cons built rest, .cons agree agrees⟩

/-- A type is built from its methods, one by one, and from the rest of it, which needs no table. -/
theorem TypeDef.build_eq_ok_iff {table : TokenTable} (table' : TokenTable) {t : TypeDef} {built : CilAudit.TypeDef} :
    t.build table = .ok built ↔
      List.Forall₂ (fun m x => m.build table t.name = .ok x) t.methods built.methods ∧
        ({ t with methods := [] } : TypeDef).build table' = .ok { built with methods := [] } := by
  unfold TypeDef.build
  rw [Except.bind_eq_ok_iff]
  simp only [mapM_eq_ok_iff]
  constructor
  · rintro ⟨methods, each, rest⟩
    cases rest
    refine ⟨each.imp fun m x build => ?_, rfl⟩
    split at build
    case h_1 here =>
      cases build
      exact here
    case h_2 => cases build
  · rintro ⟨each, rest⟩
    refine ⟨built.methods, each.imp fun m x build => by rw [build], ?_⟩
    cases built
    cases rest
    rfl

theorem TypeDef.build_returned {a b : TokenTable} (agree : a.Agrees b) {t : TypeDef} {built : CilAudit.TypeDef}
    (clean : t.Clean Double.IsNumber) (bodied : ∀ m ∈ t.methods, m.lines ≠ some [])
    (build : t.build a = .ok built) :
    ∃ built', (t.returned k).build b = .ok built' ∧ built.Agrees built' := by
  obtain ⟨methods, rest⟩ := (TypeDef.build_eq_ok_iff b).1 build
  obtain ⟨methods', rebuilt, same⟩ := mapM_returned (mapM_eq_ok_iff.2 methods) fun m mem _ =>
    Method.build_returned k agree (clean.methods m mem) (bodied m mem)
  refine ⟨{ built with methods := methods' }, ?_, rfl, same⟩
  exact (TypeDef.build_eq_ok_iff b).2 ⟨mapM_eq_ok_iff.1 rebuilt, rest⟩

/-- The dump that is read back builds a module that agrees. -/
theorem build_returned {d : Dump} {m : Module} (clean : d.Clean Double.IsNumber) (spelled : d.tokens.Spelled)
    (bodied : ∀ t ∈ d.types.getD [], ∀ x ∈ t.methods, x.lines ≠ some []) (build : d.build = .ok m) :
    ∃ m', (d.returned k).build = .ok m' ∧ m.Agrees m' := by
  obtain ⟨table, ht, build⟩ := Except.bind_eq_ok_iff.1 build
  obtain ⟨types, hy, build⟩ := Except.bind_eq_ok_iff.1 build
  cases build
  obtain ⟨table', ht', agree⟩ := Tokens.table_returned k clean.tokens spelled ht
  have cleanTypes : ∀ t ∈ d.types.getD [], t.Clean Double.IsNumber := by
    cases found : d.types with
    | none => exact List.forall_mem_nil _
    | some l => exact clean.types l found
  obtain ⟨types', hy', same⟩ := mapM_returned hy fun t mem _ =>
    TypeDef.build_returned k agree (cleanTypes t mem) (bodied t mem)
  have found : (d.returned k).types.getD [] = (d.types.getD []).map (TypeDef.returned k) := by
    rw [returned]
    cases d.types <;> rfl
  refine ⟨⟨d.name, types'⟩, ?_, rfl, same⟩
  rw [Dump.build, show (d.returned k).tokens = d.tokens.returned k from rfl, ht', found]
  simp only [bind, Except.bind, hy']
  rfl

/-! ## Encodings -/

theorem ofName?_name (f : DumpFormat) : DumpFormat.ofName? f.name = some f := by
  cases f <;> decide +kernel

section Codecs

variable {codecs : DumpFormat → Codec} {f : DumpFormat} {d : Dump} {bytes : Text}

theorem writeBy_eq_ok_iff : d.writeBy codecs f.name = .ok bytes ↔ (codecs f).write d.toDatum = .ok bytes := by
  rw [writeBy, ofName?_name]
  cases written : (codecs f).write d.toDatum with
  | error fault => simp [written, Except.mapError]
  | ok text => simp [written, Except.mapError]

theorem readBy_eq_ok_iff :
    Dump.readBy codecs f.name bytes = .ok d ↔ ∃ e, (codecs f).read? bytes = some e ∧ ofDatum? e = some d := by
  rw [readBy, ofName?_name]
  cases found : (codecs f).read? bytes with
  | none => simp [found]
  | some e => cases dump : ofDatum? e <;> simp [found, dump]

/-- What was written is read back. -/
theorem readBy_of_writeBy {k : Carriage f} {Within : Datum → Prop} (faithful : (codecs f).ReadsBack k Within)
    {P : Double → Prop} (clean : d.Clean P) (within : Within d.toDatum)
    (written : d.writeBy codecs f.name = .ok bytes) : Dump.readBy codecs f.name bytes = .ok (d.returned k) :=
  readBy_eq_ok_iff.2
    ⟨_, faithful.read clean.plain within (writeBy_eq_ok_iff.1 written), ofDatum?_written k clean⟩

theorem clean_of_readBy (plain : (codecs f).ReadsPlain) (loaded : Dump.readBy codecs f.name bytes = .ok d) :
    d.Clean Double.IsNumber := by
  obtain ⟨e, read, dump⟩ := readBy_eq_ok_iff.1 loaded
  exact clean_of_plain (plain read) dump

end Codecs

/-- **Conversion keeps the module.** Let encodings be given, of which the one for JSON reads nothing but plain
data and the one for CBOR reads back what it wrote. A dump that was loaded from JSON and builds a module, has no
body of no lines, spells no token in two ways and keeps within the limits of the reader, is written in CBOR, is
loaded from that, and then builds a module that agrees with the first in every part. -/
theorem converted_agrees {codecs : DumpFormat → Codec} {k : Carriage .cbor} {Within : Datum → Prop} {text : Text}
    {d : Dump} {m : Module} (plain : (codecs .json).ReadsPlain) (faithful : (codecs .cbor).ReadsBack k Within)
    (loaded : Dump.readBy codecs "json" text = .ok d) (built : d.build = .ok m)
    (bodied : ∀ t ∈ d.types.getD [], ∀ x ∈ t.methods, x.lines ≠ some []) (spelled : d.tokens.Spelled)
    (small : Within d.toDatum) :
    ∃ bytes d' m', d.writeBy codecs "cbor" = .ok bytes ∧ Dump.readBy codecs "cbor" bytes = .ok d' ∧
      d'.build = .ok m' ∧ m.Agrees m' := by
  have clean := clean_of_readBy plain loaded
  obtain ⟨bytes, encoded⟩ := faithful.write.2 nofun
  have written : d.writeBy codecs DumpFormat.cbor.name = .ok bytes := writeBy_eq_ok_iff.2 encoded
  obtain ⟨m', build, agrees⟩ := build_returned k clean spelled bodied built
  exact ⟨bytes, d.returned k, m', written, readBy_of_writeBy faithful clean small written, build, agrees⟩

/-- A body by its lines, with a float, a table of targets and a token, and one by its code. -/
def parcel : Text :=
  Text.ofString "\x7b\"types\":[\x7b\"name\":\"T\",\"methods\":[\x7b\"il\":[" ++
  "\x7b\"op\":\"ldc.r8\",\"operand\":0.5\x7d," ++
  "\x7b\"offset\":9,\"op\":\"switch\",\"operand\":[9,\"IL_0016\"]\x7d," ++
  "\x7b\"offset\":22,\"op\":\"ldstr\",\"operand\":\"0x7\"\x7d]," ++
  "\"handlers\":[\x7b\"try_end\":9\x7d]\x7d,\x7b\"code\":\"7207000000\"\x7d]\x7d]," ++
  "\"tokens\":\x7b\"strings\":\x7b\"0x7\":\"hi\"\x7d\x7d\x7d"

theorem converted_agrees_parcel :
    ∃ d m, Dump.read "json" parcel = .ok d ∧ d.build = .ok m ∧
      ∃ bytes d' m', d.write "cbor" = .ok bytes ∧ Dump.read "cbor" bytes = .ok d' ∧ d'.build = .ok m' ∧
        m.Agrees m' := by
  -- The text is read once, for all that is asked of the dump.
  have holds : (Dump.read "json" parcel).toOption.any (fun d => d.build.toOption.isSome &&
      (d.types.getD []).all (fun t => t.methods.all fun x => !x.lines.any List.isEmpty) &&
      decide (OneSpelling d.tokens.strings ∧ OneSpelling d.tokens.methods ∧ OneSpelling d.tokens.fields ∧
        OneSpelling d.tokens.types) && d.toDatum.fits Cbor.maxDepth) = true := by
    decide +kernel
  cases loaded : Dump.read "json" parcel with
  | error e =>
    rw [loaded] at holds
    cases holds
  | ok d =>
    rw [loaded] at holds
    simp only [Except.toOption, Option.any_some, Bool.and_eq_true, List.all_eq_true, Bool.not_eq_true',
      decide_eq_true_eq] at holds
    obtain ⟨⟨⟨some, bodied⟩, strings, methods, fields, types⟩, small⟩ := holds
    cases built : d.build with
    | error e =>
      rw [built] at some
      cases some
    | ok m =>
      refine ⟨d, m, rfl, built, converted_agrees DumpFormat.readsPlain_json (DumpFormat.readsBack_codec .cbor) loaded
        built ?_ ⟨strings, methods, fields, types⟩ small⟩
      intro t ht x hx empty
      have nonempty := bodied t ht x hx
      rw [empty] at nonempty
      cases nonempty

end Dump

end CilAudit
