import CilAudit.Dump
import CilAudit.Module
import CilAudit.Text.Quoted

/-!
# Bodies by mnemonic

A list of lines becomes a list of raw instructions. Offsets must ascend and be no less than
zero; operands are converted as their opcode asks. A token that the table does not resolve
stays as it is, for decoding to report.
-/

set_option autoImplicit false

namespace CilAudit.Dump

/-- Why an operand cannot be converted. -/
inductive OperandFault where
  | unexpected (operand : Datum)
  | notList (operand : Datum)
  | notString (operand : Datum)
  | notToken (operand : Datum)
  | badToken (text : Text)
  | badTarget (text : Text)
  | notInteger (operand : Datum)
  | notNumber (operand : Datum)
  /-- A literal that is no integer at all. -/
  | integerSyntax (literal : Text)
  /-- An integer literal that does not fit 64 bits. -/
  | integerRange (literal : Text)
  /-- A literal beyond the largest floating-point value. -/
  | floatRange (literal : Text)
  deriving Repr

namespace OperandFault

def message : OperandFault → Text
  | unexpected d => "unexpected operand " ++ d.toText
  | notList d => "switch operand " ++ d.typeName ++ " is not a list"
  | notString d => "string operand " ++ d.typeName
  | notToken d => "token operand " ++ d.typeName
  | badToken t => "bad token " ++ t.quoted
  | badTarget t => "bad branch target " ++ t.quoted
  | notInteger d => "operand " ++ d.toText ++ " (" ++ d.typeName ++ ") is not an integer"
  | notNumber d => "operand " ++ d.toText ++ " (" ++ d.typeName ++ ") is not a number"
  | integerSyntax t => "strconv.ParseInt: parsing " ++ t.quoted ++ ": invalid syntax"
  | integerRange t => "strconv.ParseInt: parsing " ++ t.quoted ++ ": value out of range"
  | floatRange t => "strconv.ParseFloat: parsing " ++ t.quoted ++ ": value out of range"

end OperandFault

/-- Why a list of lines is no body. -/
inductive LineFault where
  | notAscending (offset previous : Int)
  | negativeOffset (offset : Int)
  | unknownOpcode (offset : Int) (op : Text)
  | operand (offset : Int) (op : Text) (fault : OperandFault)
  deriving Repr

namespace LineFault

def message : LineFault → Text
  | notAscending offset previous =>
    offsetLabel offset ++ ": offset not after " ++ offsetLabel previous
  | negativeOffset offset => "negative offset " ++ Text.ofInt offset
  | unknownOpcode offset op => offsetLabel offset ++ ": unknown opcode " ++ op.quoted
  | operand offset op fault => offsetLabel offset ++ ": " ++ op ++ ": " ++ fault.message

end LineFault

/-- The token that a text names: hexadecimal digits after `0x`, at most 32 bits. -/
def token? (t : Text) : Option UInt32 :=
  match t with
  | 0x30 :: x :: digits =>
    if x = 0x78 ∨ x = 0x58 then
      (Text.toNatHex? digits).bind fun n => if n < 0x100000000 then some n.toUInt32 else none
    else none
  | _ => none

/-- The 64-bit integer of an operand. An unsigned one keeps its bits. -/
def integer (d : Datum) : Except OperandFault Int :=
  match d with
  | .literal t =>
    match Datum.int64? t, Text.toInt? t with
    | some n, _ => .ok n
    | none, some _ => .error (.integerRange t)
    | none, none => .error (.integerSyntax t)
  | .int n => .ok n
  | .nat n => .ok (Int.bmod n 0x10000000000000000)
  | .float x => (x.toInt64?).elim (.error (.notInteger d)) .ok
  | d => .error (.notInteger d)

/-- The floating-point value of an operand. -/
def number (d : Datum) : Except OperandFault Double :=
  match d with
  | .literal t =>
    let x := Datum.doubleOf t
    if x.isFinite then .ok x else .error (.floatRange t)
  | .float x => .ok x
  | .int n => .ok (.ofInt n)
  | .nat n => .ok (.ofInt n)
  | d => .error (.notNumber d)

/-- The offset of a branch target, given as a number or as a label such as `IL_001f`. -/
def target (d : Datum) : Except OperandFault Int :=
  match d with
  | .text t =>
    let offset? := if t.startsWith "IL_" then Text.toNatHex? (t.drop 3) else none
    match offset? with
    | some n => if n < 0x80000000 then .ok n else .error (.badTarget t)
    | none => .error (.badTarget t)
  | d => integer d

/-- An operand as an opcode of the given kind takes it. -/
def convert (table : TokenTable) (d : Datum) (kind : OperandKind) : Except OperandFault Operand :=
  match kind with
  | .none => match d with
    | .null => .ok .none
    | d => .error (.unexpected d)
  | .shortVar | .var => (integer d).map (.int .int)
  | .shortInt | .int32 => (integer d).map fun n => .int .int32 (Int.bmod n 0x100000000)
  | .int64 => (integer d).map (.int .int64)
  | .float32 => (number d).map fun x => .float32 x.toSingle
  | .float64 => (number d).map .float64
  | .shortTarget | .target => (target d).map (.int .int)
  | .targetTable => match d with
    | .list items => (items.mapM target).map .offsets
    | d => .error (.notList d)
  | .string => match d with
    | .text t => .ok (.text (((token? t).bind table.string?).getD t))
    | d => .error (.notString d)
  | .method => withToken fun t => ((table.method? t).map .method).getD (.token t)
  | .field => withToken fun t => ((table.field? t).map .field).getD (.token t)
  | .token => withToken fun t => ((table.type? t).map .text).getD (.token t)
  | .signature => withToken .token
  | .type => match d with
    | .text t =>
      .ok (((token? t).map fun t => ((table.type? t).map Operand.text).getD (.token t)).getD (.text t))
    | d => .error (.notToken d)
where
  /-- What `f` makes of the token the operand names. -/
  withToken (f : UInt32 → Operand) : Except OperandFault Operand :=
    match d with
    | .text t => (token? t).elim (.error (.badToken t)) fun t => .ok (f t)
    | d => .error (.notToken d)

/-- One line as a raw instruction. -/
def convertLine (table : TokenTable) (l : Line) : Except LineFault RawInstruction :=
  match (Code.ofMnemonic? l.op).bind Code.opcode? with
  | none => .error (.unknownOpcode l.offset l.op)
  | some o =>
    match convert table l.operand o.operand with
    | .ok operand => .ok ⟨l.offset, o.code, operand⟩
    | .error fault => .error (.operand l.offset l.op fault)

/-- Lines as raw instructions, after a line at offset `previous`. -/
def convertLines (table : TokenTable) (previous : Option Int) :
    List Line → Except LineFault (List RawInstruction)
  | [] => .ok []
  | l :: rest => do
    if let some p := previous then
      if l.offset ≤ p then throw (.notAscending l.offset p)
    if l.offset < 0 then throw (.negativeOffset l.offset)
    let first ← convertLine table l
    let others ← convertLines table (some l.offset) rest
    return first :: others

/-- A body given by its lines. -/
def mnemonicBody (table : TokenTable) (lines : List Line) :
    Except LineFault (List RawInstruction) :=
  convertLines table none lines

end CilAudit.Dump
