import CilAudit.Proofs.DumpConversion

/-!
# The order of token tables

The entries of a token table have no order of their own, and of two that name one token the later
counts. Main statement: whether the tables can be parsed does not depend on the order; what they say
does not exactly if no two entries of a table name one token and hold different members. The module
that is built is then the same in every order.
-/

set_option autoImplicit false

namespace CilAudit.Dump

/-! ## Outcomes that differ in their results only -/

/-- The same error, or results that are related. -/
inductive Alike {ε α β : Type} (R : α → β → Prop) : Except ε α → Except ε β → Prop where
  | ok {a : α} {b : β} (related : R a b) : Alike R (.ok a) (.ok b)
  | error (e : ε) : Alike R (.error e) (.error e)

namespace Alike

variable {ε α β γ δ : Type} {R : α → β → Prop} {S : γ → δ → Prop}

theorem bind {x : Except ε α} {y : Except ε β} {f : α → Except ε γ} {g : β → Except ε δ} (first : Alike R x y)
    (next : ∀ a b, R a b → Alike S (f a) (g b)) : Alike S (x >>= f) (y >>= g) := by
  cases first with
  | ok related => exact next _ _ related
  | error e => exact .error e

theorem mapM {f : α → Except ε γ} {g : α → Except ε δ} {xs : List α} (each : ∀ x ∈ xs, Alike S (f x) (g x)) :
    Alike (List.Forall₂ S) (xs.mapM f) (xs.mapM g) := by
  induction xs with
  | nil => exact .ok .nil
  | cons x xs ih =>
    obtain ⟨here, others⟩ := List.forall_mem_cons.1 each
    rw [List.mapM_cons, List.mapM_cons]
    refine here.bind fun c d first => (ih others).bind fun cs ds rest => ?_
    exact .ok (.cons first rest)

end Alike

variable {a b : TokenTable}

/-! ## Building with tables that agree -/

theorem convert_agrees (agree : a.Agrees b) : convert a = convert b := by
  funext d kind
  cases kind <;> simp only [convert, convert.withToken, agree.strings, agree.methods, agree.fields, agree.types]

theorem convertLines_agrees (agree : a.Agrees b) (previous : Option Int) (lines : List Line) :
    convertLines a previous lines = convertLines b previous lines := by
  have line : convertLine a = convertLine b := by
    funext l
    rw [convertLine, convertLine, convert_agrees agree]
  induction lines generalizing previous with
  | nil => rfl
  | cons l rest ih => simp only [convertLines, line, ih]

theorem Method.instructions_agrees (agree : a.Agrees b) (m : Method) (lines : List Line) :
    Alike (fun found found' => ∀ handlers locals, MethodBody.rawInstructions ⟨found, handlers, locals⟩ =
        MethodBody.rawInstructions ⟨found', handlers, locals⟩) (m.instructions a lines) (m.instructions b lines) := by
  unfold Method.instructions
  split
  case isTrue =>
    rw [mnemonicBody, mnemonicBody, convertLines_agrees agree]
    cases convertLines b none lines with
    | ok raw => exact .ok fun _ _ => rfl
    | error fault => exact .error _
  case isFalse =>
    cases Text.ofHex m.code with
    | ok code => exact .ok fun _ _ => agree.read code
    | error e => exact .error _

theorem Method.build_agrees (agree : a.Agrees b) (type : Text) (m : Method) :
    Alike CilAudit.Method.Agrees (m.build a type) (m.build b type) := by
  have body : Alike (Option.Rel MethodBody.Agrees) (m.body a) (m.body b) := by
    unfold Method.body
    split
    case isTrue => exact .ok .none
    case isFalse =>
      cases m.handlers.mapM Handler.build with
      | error e => exact .error e
      | ok handlers =>
        refine (m.instructions_agrees agree _).bind fun found found' same => ?_
        exact .ok (.some ⟨same handlers m.locals, rfl, rfl⟩)
  exact body.bind fun found found' same => .ok ⟨rfl, same⟩

theorem TypeDef.build_agrees (agree : a.Agrees b) (t : TypeDef) :
    Alike CilAudit.TypeDef.Agrees (t.build a) (t.build b) := by
  refine Alike.bind (R := List.Forall₂ CilAudit.Method.Agrees) (.mapM fun m _ => ?_)
    fun methods methods' same => .ok ⟨rfl, same⟩
  have same := m.build_agrees agree t.name
  generalize m.build a t.name = x, m.build b t.name = y at same ⊢
  cases same with
  | ok same => exact .ok same
  | error e => exact .error _

/-! ## Other orders -/

/-- The tables hold the same entries, each perhaps in another order. -/
structure Tokens.Reorders (r r' : Tokens) : Prop where
  strings : r'.strings.Perm r.strings
  methods : r'.methods.Perm r.methods
  fields : r'.fields.Perm r.fields
  types : r'.types.Perm r.types

/-- No table gives a token two meanings. -/
structure Tokens.Unambiguous (r : Tokens) : Prop where
  strings : OneMeaning r.strings
  methods : OneMeaning r.methods
  fields : OneMeaning r.fields
  types : OneMeaning r.types

namespace Tokens

variable {r r' : Tokens} {table table' : TokenTable}

theorem Reorders.refl (r : Tokens) : r.Reorders r := ⟨.refl _, .refl _, .refl _, .refl _⟩

theorem Reorders.symm (reorders : r.Reorders r') : r'.Reorders r :=
  ⟨reorders.strings.symm, reorders.methods.symm, reorders.fields.symm, reorders.types.symm⟩

/-- The four tables are parsed one by one. -/
theorem table_eq_ok_iff :
    r.table = .ok table ↔ parseKeys r.strings = .ok table.strings ∧ parseKeys r.methods = .ok table.methods ∧
      parseKeys r.fields = .ok table.fields ∧ parseKeys r.types = .ok table.types := by
  simp only [Tokens.table, Except.bind_eq_ok_iff, pure, Except.pure, Except.ok.injEq]
  constructor
  · rintro ⟨strings, hs, methods, hm, fields, hf, types, ht, rfl⟩
    exact ⟨hs, hm, hf, ht⟩
  · rintro ⟨hs, hm, hf, ht⟩
    exact ⟨_, hs, _, hm, _, hf, _, ht, rfl⟩

theorem exists_table_of_reorders (reorders : r.Reorders r') (parsed : r.table = .ok table) :
    ∃ table', r'.table = .ok table' := by
  obtain ⟨hs, hm, hf, ht⟩ := table_eq_ok_iff.1 parsed
  obtain ⟨strings, hs'⟩ := exists_parsed_of_perm reorders.strings hs
  obtain ⟨methods, hm'⟩ := exists_parsed_of_perm reorders.methods hm
  obtain ⟨fields, hf'⟩ := exists_parsed_of_perm reorders.fields hf
  obtain ⟨types, ht'⟩ := exists_parsed_of_perm reorders.types ht
  exact ⟨⟨strings, methods, fields, types⟩, table_eq_ok_iff.2 ⟨hs', hm', hf', ht'⟩⟩

theorem isOk_table_of_reorders (reorders : r.Reorders r') : r.table.isOk = r'.table.isOk := by
  cases parsed : r.table with
  | ok table =>
    obtain ⟨table', parsed'⟩ := exists_table_of_reorders reorders parsed
    rw [parsed']
    rfl
  | error e =>
    cases parsed' : r'.table with
    | error e' => rfl
    | ok table' =>
      obtain ⟨other, ok⟩ := exists_table_of_reorders reorders.symm parsed'
      rw [parsed] at ok
      cases ok

theorem Unambiguous.agrees (meaning : r.Unambiguous) (reorders : r.Reorders r') (parsed : r.table = .ok table)
    (parsed' : r'.table = .ok table') : table.Agrees table' := by
  obtain ⟨hs, hm, hf, ht⟩ := table_eq_ok_iff.1 parsed
  obtain ⟨hs', hm', hf', ht'⟩ := table_eq_ok_iff.1 parsed'
  exact ⟨funext (lookup_of_perm reorders.strings meaning.strings hs hs'),
    funext (lookup_of_perm reorders.methods meaning.methods hm hm'),
    funext (lookup_of_perm reorders.fields meaning.fields hf hf'),
    funext (lookup_of_perm reorders.types meaning.types ht ht')⟩

end Tokens

/-- If every order of the entries gives the same table, then any two entries for one token hold the same: either can
be put last. -/
theorem oneMeaning_of_same {α : Type} {entries : List (Text × α)} {table : List (UInt32 × α)}
    (parsed : parseKeys entries = .ok table)
    (same : ∀ entries' table', entries'.Perm entries → parseKeys entries' = .ok table' →
      ∀ t, table.lookup t = table'.lookup t) : OneMeaning entries := by
  obtain ⟨tokens, -⟩ := parseKeys_eq_ok_iff.1 parsed
  have last : ∀ e ∈ entries, table.lookup (tokenOf e.1) = some e.2 := by
    intro e mem
    obtain ⟨before, after, split⟩ := List.append_of_mem mem
    have perm : (before ++ after ++ [e]).Perm entries :=
      split ▸ (List.perm_append_singleton e _).trans List.perm_middle.symm
    obtain ⟨table', parsed'⟩ := exists_parsed_of_perm perm parsed
    obtain ⟨-, rfl⟩ := parseKeys_eq_ok_iff.1 parsed'
    rw [same _ _ perm parsed']
    simp
  intro e mem e' mem' named
  have key : tokenOf e.1 = tokenOf e'.1 := by rw [tokenOf, tokenOf, named]
  exact Option.some.inj ((last e mem).symm.trans (key ▸ last e' mem'))

theorem Tokens.unambiguous_of_agrees {r : Tokens} {table : TokenTable} (parsed : r.table = .ok table)
    (same : ∀ r' table', r.Reorders r' → r'.table = .ok table' → table.Agrees table') : r.Unambiguous := by
  obtain ⟨hs, hm, hf, ht⟩ := table_eq_ok_iff.1 parsed
  have whole := Reorders.refl r
  exact
    { strings := oneMeaning_of_same hs fun entries found perm ok => congrFun
        (same { r with strings := entries } { table with strings := found } { whole with strings := perm }
          (table_eq_ok_iff.2 ⟨ok, hm, hf, ht⟩)).strings
      methods := oneMeaning_of_same hm fun entries found perm ok => congrFun
        (same { r with methods := entries } { table with methods := found } { whole with methods := perm }
          (table_eq_ok_iff.2 ⟨hs, ok, hf, ht⟩)).methods
      fields := oneMeaning_of_same hf fun entries found perm ok => congrFun
        (same { r with fields := entries } { table with fields := found } { whole with fields := perm }
          (table_eq_ok_iff.2 ⟨hs, hm, ok, ht⟩)).fields
      types := oneMeaning_of_same ht fun entries found perm ok => congrFun
        (same { r with types := entries } { table with types := found } { whole with types := perm }
          (table_eq_ok_iff.2 ⟨hs, hm, hf, ok⟩)).types }

/-- **The order of token tables.** Tables are parsed in every order or in none. If they are, every order gives each
token the same members exactly if no table gives a token two meanings; then every order builds the same module, or
fails for the same reason. -/
theorem table_order_free_iff (d : Dump) :
    (∀ r, d.tokens.Reorders r → d.tokens.table.isOk = r.table.isOk) ∧
    ∀ table, d.tokens.table = .ok table →
      ((∀ r table', d.tokens.Reorders r → r.table = .ok table' → table.Agrees table') ↔ d.tokens.Unambiguous) ∧
      (d.tokens.Unambiguous → ∀ r, d.tokens.Reorders r →
        Alike Module.Agrees d.build { d with tokens := r }.build) := by
  refine ⟨fun r => Tokens.isOk_table_of_reorders, fun table parsed => ⟨⟨Tokens.unambiguous_of_agrees parsed,
    fun meaning r table' reorders => meaning.agrees reorders parsed⟩, fun meaning r reorders => ?_⟩⟩
  obtain ⟨table', parsed'⟩ := Tokens.exists_table_of_reorders reorders parsed
  have agree := meaning.agrees reorders parsed parsed'
  rw [Dump.build, Dump.build, parsed, parsed']
  exact Alike.bind (R := List.Forall₂ CilAudit.TypeDef.Agrees) (.mapM fun t _ => TypeDef.build_agrees agree t)
    fun types types' same => .ok ⟨rfl, same⟩

/-- All instructions of a module, method by method. -/
def loaded (m : Module) : List (Option (List RawInstruction)) :=
  m.types.flatMap fun t => t.methods.map fun x => x.body.bind (·.rawInstructions.toOption)

theorem loaded_of_agrees {m m' : Module} (agree : m.Agrees m') : loaded m = loaded m' := by
  have method : ∀ x x', CilAudit.Method.Agrees x x' →
      x.body.bind (·.rawInstructions.toOption) = x'.body.bind (·.rawInstructions.toOption) := by
    intro x x' same
    have body := same.body
    generalize x.body = found, x'.body = found' at body
    cases body with
    | none => rfl
    | some same => rw [Option.bind_some, Option.bind_some, same.instructions]
  have type : ∀ t t', CilAudit.TypeDef.Agrees t t' → t.methods.map (fun x => x.body.bind (·.rawInstructions.toOption)) =
      t'.methods.map fun x => x.body.bind (·.rawInstructions.toOption) := by
    intro t t' same
    exact List.forall₂_eq_eq_eq ▸ List.forall₂_map_left_iff.2 (List.forall₂_map_right_iff.2 (same.methods.imp method))
  rw [Dump.loaded, Dump.loaded, List.flatMap_def, List.flatMap_def]
  congr 1
  exact List.forall₂_eq_eq_eq ▸ List.forall₂_map_left_iff.2 (List.forall₂_map_right_iff.2 (agree.types.imp type))

/-- A method that loads a string, in a dump with two entries for the one token. -/
def twice (first second : Text) : Dump where
  types := some [{ methods := [{ lines := some [⟨0, "ldstr", .text "0x1"⟩] }] }]
  tokens := { strings := [("0x1", first), ("0x01", second)] }

/-- Two entries that hold the same do no harm: whichever comes last, the module is the same. -/
theorem table_order_free_iff_twice :
    ∃ table, (twice "a" "a").tokens.table = .ok table ∧
      ∀ r, (twice "a" "a").tokens.Reorders r →
        Alike Module.Agrees (twice "a" "a").build { (twice "a" "a") with tokens := r }.build := by
  have meaning : (twice "a" "a").tokens.Unambiguous := by
    refine ⟨?_, ?_, ?_, ?_⟩ <;> simp [OneMeaning, twice]
  refine ⟨_, rfl, ((table_order_free_iff (twice "a" "a")).2 _ rfl).2 meaning⟩

/-- With two entries that differ, the order decides what is loaded. -/
theorem build_depends_on_order :
    ∃ r m m', (twice "a" "b").tokens.Reorders r ∧ ((twice "a" "b").tokens.strings.map (·.1)).Nodup ∧
      (twice "a" "b").build = .ok m ∧ { (twice "a" "b") with tokens := r }.build = .ok m' ∧ ¬ m.Agrees m' := by
  refine ⟨{ strings := [("0x01", "b"), ("0x1", "a")] }, _, _, ⟨.swap _ _ _, .refl _, .refl _, .refl _⟩, by decide,
    rfl, rfl, ?_⟩
  exact fun agree => absurd (loaded_of_agrees agree) (by decide +kernel)

end CilAudit.Dump
