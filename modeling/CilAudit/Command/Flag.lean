import CilAudit.Duration
import CilAudit.Text.Fields
import CilAudit.Text.Literal
import CilAudit.Text.Quoted

/-!
# Flags

The flags of commands and the values they take. A flag that takes no value may still be
given one after an equals sign.
-/

set_option autoImplicit false

namespace CilAudit

inductive FlagKind where
  | text
  | switch
  /-- Counts how often it is given. -/
  | count
  | integer
  | duration
  /-- Texts with commas between them; each use adds some. -/
  | texts
  deriving DecidableEq, Repr

structure Flag where
  name : Text
  short : Option UInt8 := none
  kind : FlagKind := .text
  deriving DecidableEq, Repr

/-- What one use of a flag says. -/
inductive FlagValue where
  | text (value : Text)
  | switch (isOn : Bool)
  | countOnce
  | countTo (n : Int)
  | integer (n : Int)
  | duration (d : Duration)
  | texts (values : List Text)
  deriving DecidableEq, Repr

/-- Why a text is no value for a flag. -/
inductive FlagFault where
  | integer (value : Text) (fault : Text.IntegerFault)
  | switch (value : Text)
  | duration (cause : DurationError)
  | fields (cause : FieldFault)
  deriving DecidableEq, Repr

def FlagFault.message : FlagFault → Text
  | integer value .malformed => "strconv.ParseInt: parsing " ++ value.quoted ++ ": invalid syntax"
  | integer value .outOfRange =>
    "strconv.ParseInt: parsing " ++ value.quoted ++ ": value out of range"
  | switch value => "strconv.ParseBool: parsing " ++ value.quoted ++ ": invalid syntax"
  | duration cause => cause.message
  | fields cause => cause.message

namespace Flag

/-- The flag as error messages name it. -/
def title (f : Flag) : Text :=
  match f.short with
  | some b => "-" ++ [b] ++ ", --" ++ f.name
  | none => "--" ++ f.name

/-- Does the flag stand alone, without a value? -/
def standsAlone (f : Flag) : Bool := f.kind = .switch || f.kind = .count

/-- What the flag says when it stands alone. -/
def alone (f : Flag) : FlagValue := if f.kind = .count then .countOnce else .switch true

def readSwitch (t : Text) : Except FlagFault Bool :=
  let on : List Text := ["1", "t", "T", "TRUE", "true", "True"]
  let off : List Text := ["0", "f", "F", "FALSE", "false", "False"]
  if on.contains t then .ok true else if off.contains t then .ok false else .error (.switch t)

def readInteger (t : Text) : Except FlagFault Int := (Text.readInteger t).mapError (.integer t)

/-- The texts of a line with commas between them; one with a comma in it stands in quotes. -/
def readTexts (t : Text) : Except FlagFault (List Text) :=
  if t.isEmpty then .ok [] else t.firstRecord.mapError .fields

/-- The value of the flag in a text. -/
def read (f : Flag) (t : Text) : Except FlagFault FlagValue :=
  match f.kind with
  | .text => .ok (.text t)
  | .switch => (readSwitch t).map .switch
  | .count => if t = "+1" then .ok .countOnce else (readInteger t).map .countTo
  | .integer => (readInteger t).map .integer
  | .duration => ((Duration.read t).mapError .duration).map .duration
  | .texts => (readTexts t).map .texts

end Flag

end CilAudit
