import CilAudit.Dump
import CilAudit.Datum.Record

/-!
# Dumps as documents

The keys under which a document holds the parts of a dump, for reading and for writing. When
written, fields stand in the order given here, and those marked optional are left out when
they are empty, false or zero.
-/

set_option autoImplicit false

namespace CilAudit

/-- A member that is always written. -/
def always (key : String) (d : Datum) : List (Text × Datum) := [(key, d)]

def optionalText (key : String) (t : Text) : List (Text × Datum) :=
  if t.isEmpty then [] else [(key, .text t)]

def optionalBool (key : String) (b : Bool) : List (Text × Datum) :=
  if b then [(key, .bool true)] else []

def optionalInt (key : String) (n : Int) : List (Text × Datum) :=
  if n = 0 then [] else [(key, .int n)]

def optionalList {α : Type} (key : String) (f : α → Datum) (l : List α) : List (Text × Datum) :=
  if l.isEmpty then [] else [(key, .list (l.map f))]

/-- A table with its keys in order. -/
def optionalTable {α : Type} (key : String) (f : α → Datum) (t : List (Text × α)) :
    List (Text × Datum) :=
  if t.isEmpty then []
  else [(key, .object ((t.mergeSort fun a b => Text.le a.1 b.1).map fun (k, v) => (k, f v)))]

namespace MethodRef

def rules : List (FieldRule MethodRef) :=
  [⟨"type", fun r ds => (Datum.readText ds).map fun t => { r with declaringType := t }⟩,
   ⟨"name", fun r ds => (Datum.readText ds).map fun t => { r with name := t }⟩,
   ⟨"return", fun r ds => (Datum.readText ds).map fun t => { r with returnType := t }⟩,
   ⟨"params", fun r ds => (Datum.readList Datum.readText ds).map fun l => { r with params := l }⟩,
   ⟨"generic", fun r ds =>
      (Datum.readList Datum.readText ds).map fun l => { r with genericArgs := l }⟩,
   ⟨"this", fun r ds => (Datum.readBool ds).map fun b => { r with hasThis := b }⟩]

/-- What a reference is before anything is given. -/
def blank : MethodRef := ⟨[], [], [], [], [], false⟩

def ofData (ds : List Datum) : Option MethodRef := Datum.readRecord rules blank ds

def toDatum (r : MethodRef) : Datum :=
  .object (always "type" (.text r.declaringType) ++ always "name" (.text r.name) ++
    optionalText "return" r.returnType ++ optionalList "params" .text r.params ++
    optionalList "generic" .text r.genericArgs ++ optionalBool "this" r.hasThis)

end MethodRef

namespace FieldRef

def rules : List (FieldRule FieldRef) :=
  [⟨"type", fun r ds => (Datum.readText ds).map fun t => { r with declaringType := t }⟩,
   ⟨"name", fun r ds => (Datum.readText ds).map fun t => { r with name := t }⟩,
   ⟨"field_type", fun r ds => (Datum.readText ds).map fun t => { r with fieldType := t }⟩]

/-- What a reference is before anything is given. -/
def blank : FieldRef := ⟨[], [], []⟩

def ofData (ds : List Datum) : Option FieldRef := Datum.readRecord rules blank ds

def toDatum (r : FieldRef) : Datum :=
  .object (always "type" (.text r.declaringType) ++ always "name" (.text r.name) ++
    optionalText "field_type" r.fieldType)

end FieldRef

namespace Dump

namespace Tokens

def rules : List (FieldRule Tokens) :=
  [⟨"strings", fun r ds =>
      (Datum.readTable Datum.textOver? [] ds).map fun t => { r with strings := t }⟩,
   ⟨"methods", fun r ds =>
      (Datum.readTable (fun _ d => MethodRef.ofData [d]) MethodRef.blank ds).map
        fun t => { r with methods := t }⟩,
   ⟨"fields", fun r ds =>
      (Datum.readTable (fun _ d => FieldRef.ofData [d]) FieldRef.blank ds).map fun t => { r with fields := t }⟩,
   ⟨"types", fun r ds =>
      (Datum.readTable Datum.textOver? [] ds).map fun t => { r with types := t }⟩]

def ofData (ds : List Datum) : Option Tokens := Datum.readRecord rules {} ds

def toDatum (r : Tokens) : Datum :=
  .object (optionalTable "strings" .text r.strings ++
    optionalTable "methods" MethodRef.toDatum r.methods ++
    optionalTable "fields" FieldRef.toDatum r.fields ++ optionalTable "types" .text r.types)

end Tokens

namespace Field

def rules : List (FieldRule Field) :=
  [⟨"name", fun r ds => (Datum.readText ds).map fun t => { r with name := t }⟩,
   ⟨"type", fun r ds => (Datum.readText ds).map fun t => { r with type := t }⟩,
   ⟨"public", fun r ds => (Datum.readBool ds).map fun b => { r with isPublic := b }⟩,
   ⟨"family", fun r ds => (Datum.readBool ds).map fun b => { r with isFamily := b }⟩,
   ⟨"static", fun r ds => (Datum.readBool ds).map fun b => { r with isStatic := b }⟩,
   ⟨"init_only", fun r ds => (Datum.readBool ds).map fun b => { r with isInitOnly := b }⟩]

def ofData (ds : List Datum) : Option Field := Datum.readRecord rules {} ds

def toDatum (r : Field) : Datum :=
  .object (always "name" (.text r.name) ++ always "type" (.text r.type) ++
    optionalBool "public" r.isPublic ++ optionalBool "family" r.isFamily ++
    optionalBool "static" r.isStatic ++ optionalBool "init_only" r.isInitOnly)

end Field

namespace Property

def rules : List (FieldRule Property) :=
  [⟨"name", fun r ds => (Datum.readText ds).map fun t => { r with name := t }⟩,
   ⟨"type", fun r ds => (Datum.readText ds).map fun t => { r with type := t }⟩]

def ofData (ds : List Datum) : Option Property := Datum.readRecord rules {} ds

def toDatum (r : Property) : Datum :=
  .object (always "name" (.text r.name) ++ always "type" (.text r.type))

end Property

namespace Param

def rules : List (FieldRule Param) :=
  [⟨"name", fun r ds => (Datum.readText ds).map fun t => { r with name := t }⟩,
   ⟨"type", fun r ds => (Datum.readText ds).map fun t => { r with type := t }⟩]

def ofData (ds : List Datum) : Option Param := Datum.readRecord rules {} ds

def toDatum (r : Param) : Datum :=
  .object (optionalText "name" r.name ++ always "type" (.text r.type))

end Param

namespace Import

def rules : List (FieldRule Import) :=
  [⟨"module", fun r ds => (Datum.readText ds).map fun t => { r with library := t }⟩,
   ⟨"entry", fun r ds => (Datum.readText ds).map fun t => { r with entry := t }⟩]

/-- An import that may be missing. -/
def ofData? (ds : List Datum) : Option (Option Import) :=
  Datum.readOptional? (Datum.readRecord rules {}) [] ds

def toDatum (r : Import) : Datum :=
  .object (always "module" (.text r.library) ++ optionalText "entry" r.entry)

end Import

namespace Line

def rules : List (FieldRule Line) :=
  [⟨"offset", fun r ds => (Datum.readInt ds).map fun n => { r with offset := n }⟩,
   ⟨"op", fun r ds => (Datum.readText ds).map fun t => { r with op := t }⟩,
   ⟨"operand", fun r ds =>
      (Datum.readFree ds).map fun d => { r with operand := d.withNumbers }⟩]

def ofData (ds : List Datum) : Option Line := Datum.readRecord rules {} ds

def toDatum (r : Line) : Datum :=
  let operand := match r.operand with
    | .null => []
    | d => always "operand" d
  .object (always "offset" (.int r.offset) ++ always "op" (.text r.op) ++ operand)

end Line

namespace Handler

def rules : List (FieldRule Handler) :=
  [⟨"kind", fun r ds => (Datum.readText ds).map fun t => { r with kind := t }⟩,
   ⟨"try_start", fun r ds => (Datum.readInt ds).map fun n => { r with tryStart := n }⟩,
   ⟨"try_end", fun r ds => (Datum.readInt ds).map fun n => { r with tryEnd := n }⟩,
   ⟨"handler_start", fun r ds =>
      (Datum.readInt ds).map fun n => { r with handlerStart := n }⟩,
   ⟨"handler_end", fun r ds => (Datum.readInt ds).map fun n => { r with handlerEnd := n }⟩,
   ⟨"filter_start", fun r ds => (Datum.readInt ds).map fun n => { r with filterStart := n }⟩,
   ⟨"catch_type", fun r ds => (Datum.readText ds).map fun t => { r with catchType := t }⟩]

def ofData (ds : List Datum) : Option Handler := Datum.readRecord rules {} ds

def toDatum (r : Handler) : Datum :=
  .object (always "kind" (.text r.kind) ++ always "try_start" (.int r.tryStart) ++
    always "try_end" (.int r.tryEnd) ++ always "handler_start" (.int r.handlerStart) ++
    always "handler_end" (.int r.handlerEnd) ++ optionalInt "filter_start" r.filterStart ++
    optionalText "catch_type" r.catchType)

end Handler

namespace Method

def rules : List (FieldRule Method) :=
  [⟨"name", fun r ds => (Datum.readText ds).map fun t => { r with name := t }⟩,
   ⟨"returns", fun r ds => (Datum.readText ds).map fun t => { r with returns := t }⟩,
   ⟨"params", fun r ds => (Datum.readList Param.ofData ds).map fun l => { r with params := l }⟩,
   ⟨"generic_params", fun r ds =>
      (Datum.readList Datum.readText ds).map fun l => { r with genericParams := l }⟩,
   ⟨"public", fun r ds => (Datum.readBool ds).map fun b => { r with isPublic := b }⟩,
   ⟨"static", fun r ds => (Datum.readBool ds).map fun b => { r with isStatic := b }⟩,
   ⟨"virtual", fun r ds => (Datum.readBool ds).map fun b => { r with isVirtual := b }⟩,
   ⟨"new_slot", fun r ds => (Datum.readBool ds).map fun b => { r with isNewSlot := b }⟩,
   ⟨"abstract", fun r ds => (Datum.readBool ds).map fun b => { r with isAbstract := b }⟩,
   ⟨"pinvoke", fun r ds =>
      (Import.ofData? ds).map fun i => { r with nativeImport := i }⟩,
   ⟨"code", fun r ds => (Datum.readText ds).map fun t => { r with code := t }⟩,
   ⟨"il", fun r ds => (Datum.readList? Line.ofData ds).map fun l => { r with lines := l }⟩,
   ⟨"handlers", fun r ds =>
      (Datum.readList Handler.ofData ds).map fun l => { r with handlers := l }⟩,
   ⟨"locals", fun r ds =>
      (Datum.readList Datum.readText ds).map fun l => { r with locals := l }⟩]

def ofData (ds : List Datum) : Option Method := Datum.readRecord rules {} ds

def toDatum (r : Method) : Datum :=
  .object (always "name" (.text r.name) ++ optionalText "returns" r.returns ++
    optionalList "params" Param.toDatum r.params ++
    optionalList "generic_params" .text r.genericParams ++ optionalBool "public" r.isPublic ++
    optionalBool "static" r.isStatic ++ optionalBool "virtual" r.isVirtual ++
    optionalBool "new_slot" r.isNewSlot ++ optionalBool "abstract" r.isAbstract ++
    (r.nativeImport.map fun i => always "pinvoke" i.toDatum).getD [] ++ optionalText "code" r.code ++
    optionalList "il" Line.toDatum (r.lines.getD []) ++
    optionalList "handlers" Handler.toDatum r.handlers ++ optionalList "locals" .text r.locals)

end Method

namespace TypeDef

def rules : List (FieldRule TypeDef) :=
  [⟨"name", fun r ds => (Datum.readText ds).map fun t => { r with name := t }⟩,
   ⟨"base", fun r ds => (Datum.readText ds).map fun t => { r with base := t }⟩,
   ⟨"interfaces", fun r ds =>
      (Datum.readList Datum.readText ds).map fun l => { r with interfaces := l }⟩,
   ⟨"public", fun r ds => (Datum.readBool ds).map fun b => { r with isPublic := b }⟩,
   ⟨"sealed", fun r ds => (Datum.readBool ds).map fun b => { r with isSealed := b }⟩,
   ⟨"abstract", fun r ds => (Datum.readBool ds).map fun b => { r with isAbstract := b }⟩,
   ⟨"value_type", fun r ds => (Datum.readBool ds).map fun b => { r with isValueType := b }⟩,
   ⟨"interface", fun r ds => (Datum.readBool ds).map fun b => { r with isInterface := b }⟩,
   ⟨"compiler_generated", fun r ds =>
      (Datum.readBool ds).map fun b => { r with isCompilerGenerated := b }⟩,
   ⟨"external", fun r ds => (Datum.readBool ds).map fun b => { r with isExternal := b }⟩,
   ⟨"fields", fun r ds => (Datum.readList Field.ofData ds).map fun l => { r with fields := l }⟩,
   ⟨"properties", fun r ds =>
      (Datum.readList Property.ofData ds).map fun l => { r with properties := l }⟩,
   ⟨"methods", fun r ds =>
      (Datum.readList Method.ofData ds).map fun l => { r with methods := l }⟩]

def ofData (ds : List Datum) : Option TypeDef := Datum.readRecord rules {} ds

def toDatum (r : TypeDef) : Datum :=
  .object (always "name" (.text r.name) ++ optionalText "base" r.base ++
    optionalList "interfaces" .text r.interfaces ++ optionalBool "public" r.isPublic ++
    optionalBool "sealed" r.isSealed ++ optionalBool "abstract" r.isAbstract ++
    optionalBool "value_type" r.isValueType ++ optionalBool "interface" r.isInterface ++
    optionalBool "compiler_generated" r.isCompilerGenerated ++
    optionalBool "external" r.isExternal ++ optionalList "fields" Field.toDatum r.fields ++
    optionalList "properties" Property.toDatum r.properties ++
    optionalList "methods" Method.toDatum r.methods)

end TypeDef

def rules : List (FieldRule Dump) :=
  [⟨"name", fun r ds => (Datum.readText ds).map fun t => { r with name := t }⟩,
   ⟨"types", fun r ds => (Datum.readList? TypeDef.ofData ds).map fun l => { r with types := l }⟩,
   ⟨"tokens", fun r ds => (Tokens.ofData ds).map fun t => { r with tokens := t }⟩]

/-- The dump a document holds, if every field has the right type. -/
def ofDatum? (d : Datum) : Option Dump := Datum.readRecord rules {} [d]

def toDatum (r : Dump) : Datum :=
  let types := (r.types.map fun l => Datum.list (l.map TypeDef.toDatum)).getD .null
  .object (always "name" (.text r.name) ++ always "types" types ++
    always "tokens" r.tokens.toDatum)

end Dump

end CilAudit
