import CilAudit.Proofs.WrittenRecords

/-!
# Dumps are read back

For each record of a dump: it is clean when it was loaded from plain data, a clean one is written
as plain data, and what is read of that in either encoding is the record again. Only operands and
the order of token tables may differ, and a list of no lines is lost.
-/

set_option autoImplicit false

namespace CilAudit

open Datum FieldRule

namespace MethodRef

/-- Are all texts of the reference UTF-8? -/
structure Clean (r : MethodRef) : Prop where
  declaringType : r.declaringType.isUtf8 = true
  name : r.name.isUtf8 = true
  returnType : r.returnType.isUtf8 = true
  params : ∀ t ∈ r.params, t.isUtf8 = true
  genericArgs : ∀ t ∈ r.genericArgs, t.isUtf8 = true

theorem sound_ofData : Sound ofData Clean := by
  have blank : Clean blank :=
    ⟨Text.isUtf8_nil, Text.isUtf8_nil, Text.isUtf8_nil, List.forall_mem_nil _, List.forall_mem_nil _⟩
  refine sound_record blank ?_
  simp only [rules, List.forall_mem_cons]
  exact ⟨keeps_of sound_text fun _ _ clean h => { clean with declaringType := h },
    keeps_of sound_text fun _ _ clean h => { clean with name := h },
    keeps_of sound_text fun _ _ clean h => { clean with returnType := h },
    keeps_of (sound_list sound_text) fun _ _ clean h => { clean with params := h },
    keeps_of (sound_list sound_text) fun _ _ clean h => { clean with genericArgs := h },
    keeps_of_set fun _ _ clean => { clean with name := clean.name },
    List.forall_mem_nil _⟩

/-- The fields as they are written, in the order of the rules. -/
def parts (r : MethodRef) : List (String × Option Datum) :=
  [("type", some (.text r.declaringType)), ("name", some (.text r.name)), ("return", textPart r.returnType),
   ("params", listPart .text r.params), ("generic", listPart .text r.genericArgs), ("this", boolPart r.hasThis)]

theorem toDatum_eq_fields (r : MethodRef) : r.toDatum = .object (fields r.parts) := by
  simp only [toDatum, parts, always_eq_fields, optionalText_eq_fields, optionalList_eq_fields,
    optionalBool_eq_fields, fields_append, List.cons_append, List.nil_append]

theorem Clean.plain {P : Double → Prop} {r : MethodRef} (clean : r.Clean) : r.toDatum.Plain P := by
  rw [toDatum_eq_fields]
  apply plain_fields
  simp only [parts, List.forall_mem_cons]
  exact ⟨.some (.text clean.declaringType), .some (.text clean.name), plainPart_text clean.returnType,
    plainPart_texts clean.params, plainPart_texts clean.genericArgs, plainPart_bool r.hasThis, List.forall_mem_nil _⟩

theorem ofData_written {f : DumpFormat} (k : Carriage f) (r : MethodRef) : ofData [k.carried r.toDatum] = some r := by
  rw [toDatum_eq_fields, ofData, readRecord_written k rfl (by decide +kernel)]
  simp [rules, parts, readText_text, readText_textPart, readList_texts, readBool_boolPart]

end MethodRef

namespace FieldRef

structure Clean (r : FieldRef) : Prop where
  declaringType : r.declaringType.isUtf8 = true
  name : r.name.isUtf8 = true
  fieldType : r.fieldType.isUtf8 = true

theorem sound_ofData : Sound ofData Clean := by
  have blank : Clean blank := ⟨Text.isUtf8_nil, Text.isUtf8_nil, Text.isUtf8_nil⟩
  refine sound_record blank ?_
  simp only [rules, List.forall_mem_cons]
  exact ⟨keeps_of sound_text fun _ _ clean h => { clean with declaringType := h },
    keeps_of sound_text fun _ _ clean h => { clean with name := h },
    keeps_of sound_text fun _ _ clean h => { clean with fieldType := h }, List.forall_mem_nil _⟩

def parts (r : FieldRef) : List (String × Option Datum) :=
  [("type", some (.text r.declaringType)), ("name", some (.text r.name)), ("field_type", textPart r.fieldType)]

theorem toDatum_eq_fields (r : FieldRef) : r.toDatum = .object (fields r.parts) := by
  simp only [toDatum, parts, always_eq_fields, optionalText_eq_fields, fields_append, List.cons_append,
    List.nil_append]

theorem Clean.plain {P : Double → Prop} {r : FieldRef} (clean : r.Clean) : r.toDatum.Plain P := by
  rw [toDatum_eq_fields]
  apply plain_fields
  simp only [parts, List.forall_mem_cons]
  exact ⟨.some (.text clean.declaringType), .some (.text clean.name), plainPart_text clean.fieldType,
    List.forall_mem_nil _⟩

theorem ofData_written {f : DumpFormat} (k : Carriage f) (r : FieldRef) : ofData [k.carried r.toDatum] = some r := by
  rw [toDatum_eq_fields, ofData, readRecord_written k rfl (by decide +kernel)]
  simp [rules, parts, readText_text, readText_textPart]

end FieldRef

namespace Dump

namespace Tokens

structure Clean (r : Tokens) : Prop where
  strings : Tabled (·.isUtf8 = true) r.strings
  methods : Tabled MethodRef.Clean r.methods
  fields : Tabled FieldRef.Clean r.fields
  types : Tabled (·.isUtf8 = true) r.types

theorem sound_ofData : Sound ofData Clean := by
  have texts : ∀ d v, d.Plain Double.IsNumber → textOver? [] d = some v → v.isUtf8 = true := fun _ _ plain read =>
    textOver?_utf8 plain Text.isUtf8_nil read
  have methods : ∀ d v, d.Plain Double.IsNumber → MethodRef.ofData [d] = some v → v.Clean := fun d v plain read =>
    MethodRef.sound_ofData [d] v (List.forall_mem_singleton.2 plain) read
  have fields : ∀ d v, d.Plain Double.IsNumber → FieldRef.ofData [d] = some v → v.Clean := fun d v plain read =>
    FieldRef.sound_ofData [d] v (List.forall_mem_singleton.2 plain) read
  have blank : Clean {} := ⟨.nil, .nil, .nil, .nil⟩
  refine sound_record blank ?_
  simp only [rules, List.forall_mem_cons]
  exact ⟨keeps_of (sound_table texts) fun _ _ clean h => { clean with strings := h },
    keeps_of (sound_table methods) fun _ _ clean h => { clean with methods := h },
    keeps_of (sound_table fields) fun _ _ clean h => { clean with fields := h },
    keeps_of (sound_table texts) fun _ _ clean h => { clean with types := h }, List.forall_mem_nil _⟩

def parts (r : Tokens) : List (String × Option Datum) :=
  [("strings", tablePart .text r.strings), ("methods", tablePart MethodRef.toDatum r.methods),
   ("fields", tablePart FieldRef.toDatum r.fields), ("types", tablePart .text r.types)]

theorem toDatum_eq_fields (r : Tokens) : r.toDatum = .object (Datum.fields r.parts) := by
  simp only [toDatum, parts, optionalTable_eq_fields, fields_append, List.cons_append, List.nil_append]

theorem Clean.plain {P : Double → Prop} {r : Tokens} (clean : r.Clean) : r.toDatum.Plain P := by
  rw [toDatum_eq_fields]
  apply plain_fields
  simp only [parts, List.forall_mem_cons]
  exact ⟨plainPart_table clean.strings fun _ utf8 => .text utf8,
    plainPart_table clean.methods fun _ ref => ref.plain, plainPart_table clean.fields fun _ ref => ref.plain,
    plainPart_table clean.types fun _ utf8 => .text utf8, List.forall_mem_nil _⟩

/-- The tables as they are read back. -/
def returned {f : DumpFormat} (k : Carriage f) (r : Tokens) : Tokens :=
  ⟨canonical k r.strings, canonical k r.methods, canonical k r.fields, canonical k r.types⟩

theorem ofData_written {f : DumpFormat} (k : Carriage f) {r : Tokens} (clean : r.Clean) :
    ofData [k.carried r.toDatum] = some (r.returned k) := by
  have texts : ∀ {t : List (Text × Text)}, (t.map (·.1)).Nodup →
      readTable textOver? [] (written k (tablePart .text t)) = some (canonical k t) := fun distinct =>
    readTable_tablePart k distinct fun _ _ _ => by rw [k.text]; rfl
  have methods : readTable (fun _ d => MethodRef.ofData [d]) MethodRef.blank
      (written k (tablePart MethodRef.toDatum r.methods)) = some (canonical k r.methods) :=
    readTable_tablePart k clean.methods.distinct fun e _ _ => MethodRef.ofData_written k e.2
  have fields : readTable (fun _ d => FieldRef.ofData [d]) FieldRef.blank
      (written k (tablePart FieldRef.toDatum r.fields)) = some (canonical k r.fields) :=
    readTable_tablePart k clean.fields.distinct fun e _ _ => FieldRef.ofData_written k e.2
  rw [toDatum_eq_fields, ofData, readRecord_written k rfl (by decide +kernel)]
  simp [rules, parts, returned, texts clean.strings.distinct, methods, fields, texts clean.types.distinct]

end Tokens

namespace Field

structure Clean (r : Field) : Prop where
  name : r.name.isUtf8 = true
  type : r.type.isUtf8 = true

theorem sound_ofData : Sound ofData Clean := by
  have blank : Clean {} := ⟨Text.isUtf8_nil, Text.isUtf8_nil⟩
  refine sound_record blank ?_
  simp only [rules, List.forall_mem_cons]
  exact ⟨keeps_of sound_text fun _ _ clean h => { clean with name := h },
    keeps_of sound_text fun _ _ clean h => { clean with type := h },
    keeps_of_set fun _ _ clean => ⟨clean.name, clean.type⟩,
    keeps_of_set fun _ _ clean => ⟨clean.name, clean.type⟩,
    keeps_of_set fun _ _ clean => ⟨clean.name, clean.type⟩,
    keeps_of_set fun _ _ clean => ⟨clean.name, clean.type⟩, List.forall_mem_nil _⟩

def parts (r : Field) : List (String × Option Datum) :=
  [("name", some (.text r.name)), ("type", some (.text r.type)), ("public", boolPart r.isPublic),
   ("family", boolPart r.isFamily), ("static", boolPart r.isStatic), ("init_only", boolPart r.isInitOnly)]

theorem toDatum_eq_fields (r : Field) : r.toDatum = .object (fields r.parts) := by
  simp only [toDatum, parts, always_eq_fields, optionalBool_eq_fields, fields_append, List.cons_append,
    List.nil_append]

theorem Clean.plain {P : Double → Prop} {r : Field} (clean : r.Clean) : r.toDatum.Plain P := by
  rw [toDatum_eq_fields]
  apply plain_fields
  simp only [parts, List.forall_mem_cons]
  exact ⟨.some (.text clean.name), .some (.text clean.type), plainPart_bool r.isPublic, plainPart_bool r.isFamily,
    plainPart_bool r.isStatic, plainPart_bool r.isInitOnly, List.forall_mem_nil _⟩

theorem ofData_written {f : DumpFormat} (k : Carriage f) (r : Field) : ofData [k.carried r.toDatum] = some r := by
  rw [toDatum_eq_fields, ofData, readRecord_written k rfl (by decide +kernel)]
  simp [rules, parts, readText_text, readBool_boolPart]

end Field

namespace Property

structure Clean (r : Property) : Prop where
  name : r.name.isUtf8 = true
  type : r.type.isUtf8 = true

theorem sound_ofData : Sound ofData Clean := by
  have blank : Clean {} := ⟨Text.isUtf8_nil, Text.isUtf8_nil⟩
  refine sound_record blank ?_
  simp only [rules, List.forall_mem_cons]
  exact ⟨keeps_of sound_text fun _ _ clean h => { clean with name := h },
    keeps_of sound_text fun _ _ clean h => { clean with type := h }, List.forall_mem_nil _⟩

def parts (r : Property) : List (String × Option Datum) :=
  [("name", some (.text r.name)), ("type", some (.text r.type))]

theorem toDatum_eq_fields (r : Property) : r.toDatum = .object (fields r.parts) := by
  simp only [toDatum, parts, always_eq_fields, fields_append, List.cons_append, List.nil_append]

theorem Clean.plain {P : Double → Prop} {r : Property} (clean : r.Clean) : r.toDatum.Plain P := by
  rw [toDatum_eq_fields]
  apply plain_fields
  simp only [parts, List.forall_mem_cons]
  exact ⟨.some (.text clean.name), .some (.text clean.type), List.forall_mem_nil _⟩

theorem ofData_written {f : DumpFormat} (k : Carriage f) (r : Property) : ofData [k.carried r.toDatum] = some r := by
  rw [toDatum_eq_fields, ofData, readRecord_written k rfl (by decide +kernel)]
  simp [rules, parts, readText_text]

end Property

namespace Param

structure Clean (r : Param) : Prop where
  name : r.name.isUtf8 = true
  type : r.type.isUtf8 = true

theorem sound_ofData : Sound ofData Clean := by
  have blank : Clean {} := ⟨Text.isUtf8_nil, Text.isUtf8_nil⟩
  refine sound_record blank ?_
  simp only [rules, List.forall_mem_cons]
  exact ⟨keeps_of sound_text fun _ _ clean h => { clean with name := h },
    keeps_of sound_text fun _ _ clean h => { clean with type := h }, List.forall_mem_nil _⟩

def parts (r : Param) : List (String × Option Datum) :=
  [("name", textPart r.name), ("type", some (.text r.type))]

theorem toDatum_eq_fields (r : Param) : r.toDatum = .object (fields r.parts) := by
  simp only [toDatum, parts, always_eq_fields, optionalText_eq_fields, fields_append, List.cons_append,
    List.nil_append]

theorem Clean.plain {P : Double → Prop} {r : Param} (clean : r.Clean) : r.toDatum.Plain P := by
  rw [toDatum_eq_fields]
  apply plain_fields
  simp only [parts, List.forall_mem_cons]
  exact ⟨plainPart_text clean.name, .some (.text clean.type), List.forall_mem_nil _⟩

theorem ofData_written {f : DumpFormat} (k : Carriage f) (r : Param) : ofData [k.carried r.toDatum] = some r := by
  rw [toDatum_eq_fields, ofData, readRecord_written k rfl (by decide +kernel)]
  simp [rules, parts, readText_text, readText_textPart]

end Param

namespace Import

structure Clean (r : Import) : Prop where
  library : r.library.isUtf8 = true
  entry : r.entry.isUtf8 = true

theorem sound_ofData? : Sound ofData? fun found => ∀ r ∈ found, r.Clean := by
  have blank : Clean {} := ⟨Text.isUtf8_nil, Text.isUtf8_nil⟩
  refine sound_optional (sound_record blank ?_)
  simp only [rules, List.forall_mem_cons]
  exact ⟨keeps_of sound_text fun _ _ clean h => { clean with library := h },
    keeps_of sound_text fun _ _ clean h => { clean with entry := h }, List.forall_mem_nil _⟩

def parts (r : Import) : List (String × Option Datum) :=
  [("module", some (.text r.library)), ("entry", textPart r.entry)]

theorem toDatum_eq_fields (r : Import) : r.toDatum = .object (fields r.parts) := by
  simp only [toDatum, parts, always_eq_fields, optionalText_eq_fields, fields_append, List.cons_append,
    List.nil_append]

theorem Clean.plain {P : Double → Prop} {r : Import} (clean : r.Clean) : r.toDatum.Plain P := by
  rw [toDatum_eq_fields]
  apply plain_fields
  simp only [parts, List.forall_mem_cons]
  exact ⟨.some (.text clean.library), plainPart_text clean.entry, List.forall_mem_nil _⟩

theorem ofData?_written {f : DumpFormat} (k : Carriage f) (found : Option Import) :
    ofData? (written k (found.map toDatum)) = some found := by
  cases found with
  | none => rfl
  | some r =>
    have value : readRecord rules {} [k.carried r.toDatum] = some r := by
      rw [toDatum_eq_fields, readRecord_written k rfl (by decide +kernel)]
      simp [rules, parts, readText_text, readText_textPart]
    -- An object is never missing.
    have given : ∀ members, readOptional? (readRecord rules {}) [] [holding f members] =
        (readRecord rules {} [holding f members]).map some := by
      intro members
      cases f <;> rfl
    rw [toDatum_eq_fields, k.object] at value
    rw [Option.map_some, toDatum_eq_fields, ofData?, written, Option.toList_some, List.map_singleton,
      k.object, given, value, Option.map_some]

end Import

namespace Line

/-- Texts are UTF-8, the offset has 64 bits, floats are of a given sort, and no literal that is a number is left in
the operand. -/
structure Clean (P : Double → Prop) (r : Line) : Prop where
  offset : InInt64 r.offset
  op : r.op.isUtf8 = true
  operand : r.operand.Plain P
  settled : r.operand.Settled

theorem sound_ofData : Sound ofData (Clean Double.IsNumber) := by
  have blank : Clean Double.IsNumber {} := ⟨by simp [InInt64], Text.isUtf8_nil, .null, trivial⟩
  refine sound_record blank ?_
  simp only [rules, List.forall_mem_cons]
  exact ⟨keeps_of sound_int fun _ _ clean h => { clean with offset := h },
    keeps_of sound_text fun _ _ clean h => { clean with op := h },
    keeps_of sound_free fun _ d clean h =>
      { clean with operand := h.withNumbers, settled := settled_withNumbers d },
    List.forall_mem_nil _⟩

/-- An operand that is left out when there is none. -/
def operandPart : Datum → Option Datum
  | .null => none
  | d => some d

def parts (r : Line) : List (String × Option Datum) :=
  [("offset", some (.int r.offset)), ("op", some (.text r.op)), ("operand", operandPart r.operand)]

theorem toDatum_eq_fields (r : Line) : r.toDatum = .object (fields r.parts) := by
  obtain ⟨offset, op, operand⟩ := r
  cases operand <;> rfl

theorem Clean.plain {P : Double → Prop} {r : Line} (clean : r.Clean P) : r.toDatum.Plain P := by
  have operand : PlainPart P (operandPart r.operand) := by
    unfold operandPart
    split
    · exact nofun
    · exact .some clean.operand
  rw [toDatum_eq_fields]
  apply plain_fields
  simp only [parts, List.forall_mem_cons]
  exact ⟨.some (.int clean.offset.1 clean.offset.2), .some (.text clean.op), operand, List.forall_mem_nil _⟩

/-- The line as it is read back. -/
def returned {f : DumpFormat} (k : Carriage f) (r : Line) : Line := { r with operand := r.operand.returned k }

theorem readFree_operandPart {f : DumpFormat} (k : Carriage f) (d : Datum) :
    readFree (written k (operandPart d)) = (k.carried d).free? false := by
  cases d with
  | null =>
    rw [k.null]
    rfl
  | _ => simp [operandPart, written, readFree]

theorem ofData_written {f : DumpFormat} (k : Carriage f) {P : Double → Prop} {r : Line} (clean : r.Clean P) :
    ofData [k.carried r.toDatum] = some (r.returned k) := by
  obtain ⟨e, free⟩ := clean.operand.free?_carried k
  rw [toDatum_eq_fields, ofData, readRecord_written k rfl (by decide +kernel)]
  simp [rules, parts, returned, Datum.returned, readText_text, readInt_int k clean.offset, readFree_operandPart, free]

end Line

namespace Handler

structure Clean (r : Handler) : Prop where
  kind : r.kind.isUtf8 = true
  tryStart : InInt64 r.tryStart
  tryEnd : InInt64 r.tryEnd
  handlerStart : InInt64 r.handlerStart
  handlerEnd : InInt64 r.handlerEnd
  filterStart : InInt64 r.filterStart
  catchType : r.catchType.isUtf8 = true

theorem sound_ofData : Sound ofData Clean := by
  have zero : InInt64 0 := by simp [InInt64]
  have blank : Clean {} := ⟨Text.isUtf8_nil, zero, zero, zero, zero, zero, Text.isUtf8_nil⟩
  refine sound_record blank ?_
  simp only [rules, List.forall_mem_cons]
  exact ⟨keeps_of sound_text fun _ _ clean h => { clean with kind := h },
    keeps_of sound_int fun _ _ clean h => { clean with tryStart := h },
    keeps_of sound_int fun _ _ clean h => { clean with tryEnd := h },
    keeps_of sound_int fun _ _ clean h => { clean with handlerStart := h },
    keeps_of sound_int fun _ _ clean h => { clean with handlerEnd := h },
    keeps_of sound_int fun _ _ clean h => { clean with filterStart := h },
    keeps_of sound_text fun _ _ clean h => { clean with catchType := h }, List.forall_mem_nil _⟩

def parts (r : Handler) : List (String × Option Datum) :=
  [("kind", some (.text r.kind)), ("try_start", some (.int r.tryStart)), ("try_end", some (.int r.tryEnd)),
   ("handler_start", some (.int r.handlerStart)), ("handler_end", some (.int r.handlerEnd)),
   ("filter_start", intPart r.filterStart), ("catch_type", textPart r.catchType)]

theorem toDatum_eq_fields (r : Handler) : r.toDatum = .object (fields r.parts) := by
  simp only [toDatum, parts, always_eq_fields, optionalInt_eq_fields, optionalText_eq_fields, fields_append,
    List.cons_append, List.nil_append]

theorem Clean.plain {P : Double → Prop} {r : Handler} (clean : r.Clean) : r.toDatum.Plain P := by
  have number : ∀ {n : Int}, InInt64 n → PlainPart P (some (.int n)) := fun range => .some (.int range.1 range.2)
  rw [toDatum_eq_fields]
  apply plain_fields
  simp only [parts, List.forall_mem_cons]
  exact ⟨.some (.text clean.kind), number clean.tryStart, number clean.tryEnd, number clean.handlerStart,
    number clean.handlerEnd, plainPart_int clean.filterStart, plainPart_text clean.catchType, List.forall_mem_nil _⟩

theorem ofData_written {f : DumpFormat} (k : Carriage f) {r : Handler} (clean : r.Clean) :
    ofData [k.carried r.toDatum] = some r := by
  rw [toDatum_eq_fields, ofData, readRecord_written k rfl (by decide +kernel)]
  simp [rules, parts, readText_text, readText_textPart, readInt_int k clean.tryStart, readInt_int k clean.tryEnd,
    readInt_int k clean.handlerStart, readInt_int k clean.handlerEnd, readInt_intPart k clean.filterStart]

end Handler

namespace Method

structure Clean (P : Double → Prop) (r : Method) : Prop where
  name : r.name.isUtf8 = true
  returns : r.returns.isUtf8 = true
  params : ∀ p ∈ r.params, p.Clean
  genericParams : ∀ t ∈ r.genericParams, t.isUtf8 = true
  nativeImport : ∀ i ∈ r.nativeImport, i.Clean
  code : r.code.isUtf8 = true
  lines : ∀ l ∈ r.lines, ∀ line ∈ l, line.Clean P
  handlers : ∀ h ∈ r.handlers, h.Clean
  locals : ∀ t ∈ r.locals, t.isUtf8 = true

theorem sound_ofData : Sound ofData (Clean Double.IsNumber) := by
  have blank : Clean Double.IsNumber {} :=
    ⟨Text.isUtf8_nil, Text.isUtf8_nil, List.forall_mem_nil _, List.forall_mem_nil _, nofun, Text.isUtf8_nil,
      nofun, List.forall_mem_nil _, List.forall_mem_nil _⟩
  refine sound_record blank ?_
  simp only [rules, List.forall_mem_cons]
  exact ⟨keeps_of sound_text fun _ _ clean h => { clean with name := h },
    keeps_of sound_text fun _ _ clean h => { clean with returns := h },
    keeps_of (sound_list Param.sound_ofData) fun _ _ clean h => { clean with params := h },
    keeps_of (sound_list sound_text) fun _ _ clean h => { clean with genericParams := h },
    keeps_of_set fun _ _ clean => { clean with name := clean.name },
    keeps_of_set fun _ _ clean => { clean with name := clean.name },
    keeps_of_set fun _ _ clean => { clean with name := clean.name },
    keeps_of_set fun _ _ clean => { clean with name := clean.name },
    keeps_of_set fun _ _ clean => { clean with name := clean.name },
    keeps_of Import.sound_ofData? fun _ _ clean h => { clean with nativeImport := h },
    keeps_of sound_text fun _ _ clean h => { clean with code := h },
    keeps_of (sound_list? Line.sound_ofData) fun _ _ clean h => { clean with lines := h },
    keeps_of (sound_list Handler.sound_ofData) fun _ _ clean h => { clean with handlers := h },
    keeps_of (sound_list sound_text) fun _ _ clean h => { clean with locals := h }, List.forall_mem_nil _⟩

def parts (r : Method) : List (String × Option Datum) :=
  [("name", some (.text r.name)), ("returns", textPart r.returns), ("params", listPart Param.toDatum r.params),
   ("generic_params", listPart .text r.genericParams), ("public", boolPart r.isPublic),
   ("static", boolPart r.isStatic), ("virtual", boolPart r.isVirtual), ("new_slot", boolPart r.isNewSlot),
   ("abstract", boolPart r.isAbstract), ("pinvoke", r.nativeImport.map Import.toDatum), ("code", textPart r.code),
   ("il", listPart Line.toDatum (r.lines.getD [])), ("handlers", listPart Handler.toDatum r.handlers),
   ("locals", listPart .text r.locals)]

theorem toDatum_eq_fields (r : Method) : r.toDatum = .object (fields r.parts) := by
  have native : ∀ found : Option Import, (found.map fun i => always "pinvoke" i.toDatum).getD [] =
      fields [("pinvoke", found.map Import.toDatum)] := by
    intro found
    cases found <;> rfl
  rw [toDatum, native]
  simp only [parts, always_eq_fields, optionalText_eq_fields, optionalList_eq_fields,
    optionalBool_eq_fields, fields_append, List.cons_append, List.nil_append]

theorem Clean.plain {P : Double → Prop} {r : Method} (clean : r.Clean P) : r.toDatum.Plain P := by
  have native : PlainPart P (r.nativeImport.map Import.toDatum) := by
    intro d mem
    obtain ⟨i, here, rfl⟩ := Option.map_eq_some_iff.1 mem
    exact (clean.nativeImport i here).plain
  have lines : ∀ line ∈ r.lines.getD [], line.toDatum.Plain P := by
    cases found : r.lines with
    | none => exact List.forall_mem_nil _
    | some l => exact fun line mem => (clean.lines l found line mem).plain
  rw [toDatum_eq_fields]
  apply plain_fields
  simp only [parts, List.forall_mem_cons]
  exact ⟨.some (.text clean.name), plainPart_text clean.returns,
    plainPart_list fun p mem => (clean.params p mem).plain, plainPart_texts clean.genericParams,
    plainPart_bool r.isPublic, plainPart_bool r.isStatic, plainPart_bool r.isVirtual, plainPart_bool r.isNewSlot,
    plainPart_bool r.isAbstract, native, plainPart_text clean.code, plainPart_list lines,
    plainPart_list fun h mem => (clean.handlers h mem).plain, plainPart_texts clean.locals, List.forall_mem_nil _⟩

/-- The method as it is read back. A list of no lines is left out, and then it is missing. -/
def returned {f : DumpFormat} (k : Carriage f) (r : Method) : Method :=
  { r with lines := r.lines.bind fun l => if l.isEmpty then none else some (l.map (Line.returned k)) }

theorem ofData_written {f : DumpFormat} (k : Carriage f) {P : Double → Prop} {r : Method} (clean : r.Clean P) :
    ofData [k.carried r.toDatum] = some (r.returned k) := by
  have params : readList Param.ofData (written k (listPart Param.toDatum r.params)) = some r.params := by
    rw [readList_listPart k fun p _ => Param.ofData_written k p]
    exact congrArg some (List.map_id' _)
  have handlers : readList Handler.ofData (written k (listPart Handler.toDatum r.handlers)) = some r.handlers := by
    rw [readList_listPart k fun h mem => Handler.ofData_written k (clean.handlers h mem)]
    exact congrArg some (List.map_id' _)
  have lines : readList? Line.ofData (written k (listPart Line.toDatum (r.lines.getD []))) =
      some (r.lines.bind fun l => if l.isEmpty then none else some (l.map (Line.returned k))) := by
    cases found : r.lines with
    | none => rfl
    | some l => exact readList?_listPart k fun line mem => Line.ofData_written k (clean.lines l found line mem)
  rw [toDatum_eq_fields, ofData, readRecord_written k rfl (by decide +kernel)]
  simp only [rules, parts, List.zip_cons_cons, List.zip_nil_right, List.foldlM_cons, List.foldlM_nil, readText_text,
    readText_textPart, readList_texts, readBool_boolPart, params, handlers, lines, Import.ofData?_written,
    Option.map_some, Option.bind_eq_bind, Option.bind_some]
  rfl

end Method

namespace TypeDef

structure Clean (P : Double → Prop) (r : TypeDef) : Prop where
  name : r.name.isUtf8 = true
  base : r.base.isUtf8 = true
  interfaces : ∀ t ∈ r.interfaces, t.isUtf8 = true
  fields : ∀ f ∈ r.fields, f.Clean
  properties : ∀ p ∈ r.properties, p.Clean
  methods : ∀ m ∈ r.methods, m.Clean P

theorem sound_ofData : Sound ofData (Clean Double.IsNumber) := by
  have blank : Clean Double.IsNumber {} :=
    ⟨Text.isUtf8_nil, Text.isUtf8_nil, List.forall_mem_nil _, List.forall_mem_nil _, List.forall_mem_nil _,
      List.forall_mem_nil _⟩
  refine sound_record blank ?_
  simp only [rules, List.forall_mem_cons]
  exact ⟨keeps_of sound_text fun _ _ clean h => { clean with name := h },
    keeps_of sound_text fun _ _ clean h => { clean with base := h },
    keeps_of (sound_list sound_text) fun _ _ clean h => { clean with interfaces := h },
    keeps_of_set fun _ _ clean => { clean with name := clean.name },
    keeps_of_set fun _ _ clean => { clean with name := clean.name },
    keeps_of_set fun _ _ clean => { clean with name := clean.name },
    keeps_of_set fun _ _ clean => { clean with name := clean.name },
    keeps_of_set fun _ _ clean => { clean with name := clean.name },
    keeps_of_set fun _ _ clean => { clean with name := clean.name },
    keeps_of_set fun _ _ clean => { clean with name := clean.name },
    keeps_of (sound_list Field.sound_ofData) fun _ _ clean h => { clean with fields := h },
    keeps_of (sound_list Property.sound_ofData) fun _ _ clean h => { clean with properties := h },
    keeps_of (sound_list Method.sound_ofData) fun _ _ clean h => { clean with methods := h }, List.forall_mem_nil _⟩

def parts (r : TypeDef) : List (String × Option Datum) :=
  [("name", some (.text r.name)), ("base", textPart r.base), ("interfaces", listPart .text r.interfaces),
   ("public", boolPart r.isPublic), ("sealed", boolPart r.isSealed), ("abstract", boolPart r.isAbstract),
   ("value_type", boolPart r.isValueType), ("interface", boolPart r.isInterface),
   ("compiler_generated", boolPart r.isCompilerGenerated), ("external", boolPart r.isExternal),
   ("fields", listPart Field.toDatum r.fields), ("properties", listPart Property.toDatum r.properties),
   ("methods", listPart Method.toDatum r.methods)]

theorem toDatum_eq_fields (r : TypeDef) : r.toDatum = .object (Datum.fields r.parts) := by
  simp only [toDatum, parts, always_eq_fields, optionalText_eq_fields, optionalList_eq_fields,
    optionalBool_eq_fields, fields_append, List.cons_append, List.nil_append]

theorem Clean.plain {P : Double → Prop} {r : TypeDef} (clean : r.Clean P) : r.toDatum.Plain P := by
  rw [toDatum_eq_fields]
  apply plain_fields
  simp only [parts, List.forall_mem_cons]
  exact ⟨.some (.text clean.name), plainPart_text clean.base, plainPart_texts clean.interfaces,
    plainPart_bool r.isPublic, plainPart_bool r.isSealed, plainPart_bool r.isAbstract, plainPart_bool r.isValueType,
    plainPart_bool r.isInterface, plainPart_bool r.isCompilerGenerated, plainPart_bool r.isExternal,
    plainPart_list fun f mem => (clean.fields f mem).plain,
    plainPart_list fun p mem => (clean.properties p mem).plain,
    plainPart_list fun m mem => (clean.methods m mem).plain, List.forall_mem_nil _⟩

/-- The type as it is read back. -/
def returned {f : DumpFormat} (k : Carriage f) (r : TypeDef) : TypeDef :=
  { r with methods := r.methods.map (Method.returned k) }

theorem ofData_written {f : DumpFormat} (k : Carriage f) {P : Double → Prop} {r : TypeDef} (clean : r.Clean P) :
    ofData [k.carried r.toDatum] = some (r.returned k) := by
  have fields : readList Field.ofData (written k (listPart Field.toDatum r.fields)) = some r.fields := by
    rw [readList_listPart k fun x _ => Field.ofData_written k x]
    exact congrArg some (List.map_id' _)
  have properties :
      readList Property.ofData (written k (listPart Property.toDatum r.properties)) = some r.properties := by
    rw [readList_listPart k fun p _ => Property.ofData_written k p]
    exact congrArg some (List.map_id' _)
  have methods : readList Method.ofData (written k (listPart Method.toDatum r.methods)) =
      some (r.methods.map (Method.returned k)) :=
    readList_listPart k fun m mem => Method.ofData_written k (clean.methods m mem)
  rw [toDatum_eq_fields, ofData, readRecord_written k rfl (by decide +kernel)]
  simp [rules, parts, returned, readText_text, readText_textPart, readList_texts, readBool_boolPart, fields,
    properties, methods]

end TypeDef

structure Clean (P : Double → Prop) (r : Dump) : Prop where
  name : r.name.isUtf8 = true
  types : ∀ l ∈ r.types, ∀ t ∈ l, t.Clean P
  tokens : r.tokens.Clean

/-- A dump loaded from plain data is clean. -/
theorem clean_of_plain {d : Datum} {r : Dump} (plain : d.Plain Double.IsNumber) (read : ofDatum? d = some r) :
    r.Clean Double.IsNumber := by
  have blank : Clean Double.IsNumber {} := ⟨Text.isUtf8_nil, nofun, ⟨.nil, .nil, .nil, .nil⟩⟩
  refine sound_record blank ?_ [d] r (List.forall_mem_singleton.2 plain) read
  simp only [rules, List.forall_mem_cons]
  exact ⟨keeps_of sound_text fun _ _ clean h => { clean with name := h },
    keeps_of (sound_list? TypeDef.sound_ofData) fun _ _ clean h => { clean with types := h },
    keeps_of Tokens.sound_ofData fun _ _ clean h => { clean with tokens := h }, List.forall_mem_nil _⟩

/-- The list of types, or that there is none. -/
def typesDatum (r : Dump) : Datum := (r.types.map fun l => Datum.list (l.map TypeDef.toDatum)).getD .null

def parts (r : Dump) : List (String × Option Datum) :=
  [("name", some (.text r.name)), ("types", some r.typesDatum), ("tokens", some r.tokens.toDatum)]

theorem toDatum_eq_fields (r : Dump) : r.toDatum = .object (fields r.parts) := rfl

theorem Clean.plain {P : Double → Prop} {r : Dump} (clean : r.Clean P) : r.toDatum.Plain P := by
  have types : r.typesDatum.Plain P := by
    unfold typesDatum
    cases found : r.types with
    | none => exact .null
    | some l => exact .list (List.forall_mem_map.2 fun t mem => (clean.types l found t mem).plain)
  rw [toDatum_eq_fields]
  apply plain_fields
  simp only [parts, List.forall_mem_cons]
  exact ⟨.some (.text clean.name), .some types, .some clean.tokens.plain, List.forall_mem_nil _⟩

/-- The dump as it is read back. -/
def returned {f : DumpFormat} (k : Carriage f) (r : Dump) : Dump :=
  { r with types := r.types.map (·.map (TypeDef.returned k)), tokens := r.tokens.returned k }

theorem ofDatum?_written {f : DumpFormat} (k : Carriage f) {P : Double → Prop} {r : Dump} (clean : r.Clean P) :
    ofDatum? (k.carried r.toDatum) = some (r.returned k) := by
  have types : readList? TypeDef.ofData (written k (some r.typesDatum)) =
      some (r.types.map (·.map (TypeDef.returned k))) := by
    unfold typesDatum
    cases found : r.types with
    | none =>
      rw [written, Option.toList_some, List.map_singleton, Option.map_none, Option.getD_none, k.null]
      rfl
    | some l => exact readList?_list k fun t mem => TypeDef.ofData_written k (clean.types l found t mem)
  have tokens : Tokens.ofData (written k (some r.tokens.toDatum)) = some (r.tokens.returned k) :=
    Tokens.ofData_written k clean.tokens
  rw [toDatum_eq_fields, ofDatum?, readRecord_written k rfl (by decide +kernel)]
  simp [rules, parts, returned, readText_text, types, tokens]

end Dump

end CilAudit
