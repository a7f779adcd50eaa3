import CilAudit.Cbor
import CilAudit.Datum.Json
import CilAudit.Dump.Body
import CilAudit.Dump.Document
import CilAudit.Json.Reader
import CilAudit.Log
import CilAudit.Path
import CilAudit.Text.Hex

/-!
# Loading dumps

A document is read into a dump by one of two encodings, and a dump is built into a module:
tokens are parsed, handlers named, and bodies split as far as they are given by mnemonic.
Others can take the place of the two encodings.
-/

set_option autoImplicit false

namespace CilAudit

/-- The encodings of a dump. -/
inductive DumpFormat where
  | json
  | cbor
  deriving DecidableEq, Repr

namespace DumpFormat

def ofName? (name : Text) : Option DumpFormat :=
  if name = "json" then some json else if name = "cbor" then some cbor else none

def name : DumpFormat → String
  | json => "json"
  | cbor => "cbor"

/-- The encoding that a path's extension stands for, in upper or lower case. -/
def ofPath? (path : Text) : Option DumpFormat :=
  let ext := (Path.extension path).lower
  if ext = ".json" then some json else if ext = ".cbor" then some cbor else none

end DumpFormat

/-- An encoding of data: the text that is written of them, if one can be, and the data that are read of a text. -/
structure Codec where
  write : Datum → Except JsonFault Text
  read? : Text → Option Datum

def DumpFormat.codec : DumpFormat → Codec
  | json => { write := fun d => d.toJson.map (·.indented), read? := fun data => (Json.read? data).map Datum.ofJson }
  | cbor => { write := fun d => .ok (Cbor.write d), read? := Cbor.read? }

/-- Why a method of a dump cannot be built. -/
inductive MethodFault where
  | handlerKind (kind : Text)
  | code (error : HexError)
  | line (fault : Dump.LineFault)
  deriving Repr

namespace MethodFault

def message : MethodFault → Text
  | handlerKind kind => "unknown handler kind " ++ kind.quoted
  | code e => "code: " ++ e.message
  | line f => f.message

end MethodFault

/-- Why a dump cannot be loaded. -/
inductive LoadError where
  | unknownFormat (name : Text)
  | document (format : DumpFormat)
  | tokenKey (key : Text)
  | method (type name : Text) (fault : MethodFault)
  deriving Repr

namespace LoadError

def message : LoadError → Text
  | unknownFormat name => "unknown format " ++ name.quoted
  | document format => "decode " ++ Text.ofString format.name
  | tokenKey key => "tokens: bad key " ++ key.quoted
  | method type name fault => type ++ "::" ++ name ++ ": " ++ fault.message

end LoadError

namespace Dump

/-- The dump that a text in the named format holds, with given encodings. -/
def readBy (codecs : DumpFormat → Codec) (format : Text) (data : Text) : Except LoadError Dump :=
  match DumpFormat.ofName? format with
  | none => .error (.unknownFormat format)
  | some f => (((codecs f).read? data).bind ofDatum?).elim (.error (.document f)) .ok

def read (format : Text) (data : Text) : Except LoadError Dump := readBy DumpFormat.codec format data

/-- Why a dump cannot be written. -/
inductive WriteError where
  | unknownFormat (name : Text)
  | document (fault : JsonFault)
  deriving Repr

def WriteError.message : WriteError → Text
  | unknownFormat name => "loader: unknown format " ++ name.quoted
  | document fault => fault.message

/-- The text of a dump in the named format, with given encodings. -/
def writeBy (codecs : DumpFormat → Codec) (format : Text) (d : Dump) : Except WriteError Text :=
  match DumpFormat.ofName? format with
  | none => .error (.unknownFormat format)
  | some f => ((codecs f).write d.toDatum).mapError .document

def write (format : Text) (d : Dump) : Except WriteError Text := d.writeBy DumpFormat.codec format

/-- The entries with their keys parsed; later entries stand in front. -/
def parseKeys {α : Type} (entries : List (Text × α)) : Except LoadError (List (UInt32 × α)) :=
  entries.foldlM (fun table (key, value) =>
    match token? key with
    | some t => .ok ((t, value) :: table)
    | none => .error (.tokenKey key)) []

def Tokens.table (t : Tokens) : Except LoadError TokenTable := do
  let strings ← parseKeys t.strings
  let methods ← parseKeys t.methods
  let fields ← parseKeys t.fields
  let types ← parseKeys t.types
  return { strings, methods, fields, types }

def handlerKind (kind : Text) : Except MethodFault HandlerKind :=
  if kind = "catch" ∨ kind = [] then .ok .catch
  else if kind = "filter" then .ok .filter
  else if kind = "finally" then .ok .finally
  else if kind = "fault" then .ok .fault
  else .error (.handlerKind kind)

def Handler.build (h : Handler) : Except MethodFault CilAudit.Handler := do
  let kind ← handlerKind h.kind
  return { kind, tryStart := h.tryStart, tryEnd := h.tryEnd, handlerStart := h.handlerStart
           handlerEnd := h.handlerEnd, filterStart := h.filterStart, catchType := h.catchType }

/-- The instructions of a method that has a body: its code if there is any, else its lines. -/
def Method.instructions (m : Method) (table : TokenTable) (lines : List Line) :
    Except MethodFault Instructions :=
  if m.code.isEmpty then
    match mnemonicBody table lines with
    | .ok raw => .ok (.raw raw)
    | .error fault => .error (.line fault)
  else
    match Text.ofHex m.code with
    | .ok code => .ok (.encoded code table)
    | .error e => .error (.code e)

/-- The body of a method; a method with neither code nor a list of lines has none. -/
def Method.body (m : Method) (table : TokenTable) : Except MethodFault (Option MethodBody) :=
  if m.code.isEmpty && m.lines.isNone then .ok none
  else do
    let handlers ← m.handlers.mapM Handler.build
    let instructions ← m.instructions table (m.lines.getD [])
    return some { instructions, handlers, locals := m.locals }

def Method.build (table : TokenTable) (declaringType : Text) (m : Method) :
    Except MethodFault CilAudit.Method := do
  let body ← m.body table
  return { name := m.name, declaringType, returnType := m.returns
           params := m.params.map fun p => ⟨p.name, p.type⟩
           genericParams := m.genericParams, isPublic := m.isPublic, isStatic := m.isStatic
           isVirtual := m.isVirtual, isNewSlot := m.isNewSlot, isAbstract := m.isAbstract
           nativeImport := m.nativeImport.map fun i => ⟨i.library, i.entry⟩
           body }

def TypeDef.build (table : TokenTable) (t : TypeDef) : Except LoadError CilAudit.TypeDef := do
  let methods ← t.methods.mapM fun m =>
    match m.build table t.name with
    | .ok built => .ok built
    | .error fault => .error (LoadError.method t.name m.name fault)
  return { fullName := t.name, base := t.base, interfaces := t.interfaces
           isPublic := t.isPublic, isSealed := t.isSealed, isAbstract := t.isAbstract
           isValueType := t.isValueType, isInterface := t.isInterface
           isMarkedGenerated := t.isCompilerGenerated, isExternal := t.isExternal
           fields := t.fields.map fun f =>
             ⟨f.name, f.type, f.isPublic, f.isFamily, f.isStatic, f.isInitOnly⟩
           properties := t.properties.map fun p => ⟨p.name, p.type⟩
           methods }

/-- The module a dump describes. -/
def build (d : Dump) : Except LoadError Module := do
  let table ← d.tokens.table
  let types ← (d.types.getD []).mapM (TypeDef.build table)
  return { name := d.name, types }

end Dump

namespace Module

/-- Loads the module from a text in the named format. -/
def load (format : Text) (data : Text) : Except LoadError Module :=
  (Dump.read format data).bind Dump.build

/-- The entry that the log gets for a loaded module. -/
def builtEntry (m : Module) : LogEntry :=
  ⟨.debug, "cilscan.loader",
    "built " ++ m.name ++ ": " ++ Text.ofNat m.types.length ++ " types"⟩

end Module

end CilAudit
