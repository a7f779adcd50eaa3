import CilAudit.Command.Flag
import CilAudit.Text.Letter

/-!
# Arguments

The words of a command line split into flags and operands. Flags and operands may be mixed;
two dashes end the flags.
-/

set_option autoImplicit false

namespace CilAudit

inductive UsageError where
  | badSyntax (word : Text)
  | unknownFlag (name : Text)
  | unknownShort (short : UInt8) (shorts : Text)
  | missingValue (word : Text)
  | missingShortValue (short : UInt8) (shorts : Text)
  | invalidValue (value : Text) (flag : Flag) (cause : FlagFault)
  | unknownCommand (word program : Text) (suggestions : List Text)
  | tooFew (least given : Nat)
  | wrongNumber (wanted given : Nat)
  deriving DecidableEq, Repr

namespace UsageError

/-- A byte, taken as the character with its number, between apostrophes. -/
def quotedByte (b : UInt8) : Text :=
  let c := Char.ofNat b.toNat
  let shown : Text :=
    if b = 0x27 then "\\'" else if b = 0x22 then [b] else Text.quotedPiece (.char c)
  "'" ++ shown ++ "'"

def message : UsageError → Text
  | badSyntax word => "bad flag syntax: " ++ word
  | unknownFlag name => "unknown flag: --" ++ name
  | unknownShort short shorts =>
    "unknown shorthand flag: " ++ quotedByte short ++ " in -" ++ shorts
  | missingValue word => "flag needs an argument: " ++ word
  | missingShortValue short shorts =>
    "flag needs an argument: " ++ quotedByte short ++ " in -" ++ shorts
  | invalidValue value flag cause =>
    "invalid argument " ++ value.quoted ++ " for " ++ flag.title.quoted ++ " flag: " ++ cause.message
  | unknownCommand word program suggestions =>
    let lines : Text := Text.concat (suggestions.map fun s => "\t" ++ s ++ "\n")
    "unknown command " ++ word.quoted ++ " for " ++ program.quoted
      ++ Text.ledBy "\n\nDid you mean this?\n" lines
  | tooFew least given =>
    "requires at least " ++ Text.ofNat least ++ " arg(s), only received " ++ Text.ofNat given
  | wrongNumber wanted given =>
    "accepts " ++ Text.ofNat wanted ++ " arg(s), received " ++ Text.ofNat given

end UsageError

/-- The uses of flags, in order, and the other words. -/
structure Arguments where
  uses : List (Text × FlagValue) := []
  operands : List Text := []
  deriving DecidableEq, Repr

namespace Arguments

/-- One use of a flag with a value. -/
def use (f : Flag) (value : Text) : Except UsageError (Text × FlagValue) :=
  match f.read value with
  | .ok v => .ok (f.name, v)
  | .error cause => .error (.invalidValue value f cause)

/-- A flag by its name, from the word that starts with two dashes. Also whether the word after
it was its value. -/
def long (flags : List Flag) (word : Text) (next : Option Text) :
    Except UsageError ((Text × FlagValue) × Bool) := do
  let body := word.drop 2
  if body.head? = some 0x2D ∨ body.head? = some 0x3D then throw (.badSyntax word)
  let (name, value?) : Text × Option Text :=
    match Text.cutAt 0x3D body with
    | some (name, value) => (name, some value)
    | none => (body, none)
  match flags.find? (·.name = name) with
  | none => throw (.unknownFlag name)
  | some f =>
    match value? with
    | some value => return (← use f value, false)
    | none =>
      if f.standsAlone then return ((f.name, f.alone), false)
      match next with
      | some value => return (← use f value, true)
      | none => throw (.missingValue word)

/-- The letters in front of which a word is left to a test runner. -/
def testMark : Text := "test."

/-- Flags by their letters, one after another, up to one that takes a value or to the mark of
flags for a test runner. Also whether the word after them was that value. -/
def shorts (flags : List Flag) (next : Option Text) :
    Text → Except UsageError (List (Text × FlagValue) × Bool)
  | [] => .ok ([], false)
  | b :: rest => do
    if Text.startsWith (b :: rest) testMark then return ([], false)
    match flags.find? (·.short = some b) with
    | none => throw (.unknownShort b (b :: rest))
    | some f =>
      match rest with
      | 0x3D :: c :: value => return ([← use f (c :: value)], false)
      | _ =>
        if f.standsAlone then
          let (uses, taken) ← shorts flags next rest
          return ((f.name, f.alone) :: uses, taken)
        if !rest.isEmpty then return ([← use f rest], false)
        match next with
        | some value => return ([← use f value], true)
        | none => throw (.missingShortValue b (b :: rest))

/-- Is the word a flag, or several? A single dash is none. -/
def isFlagWord (word : Text) : Bool := word.head? = some 0x2D && 1 < word.length

/-- Splits the words of a command line. -/
def parse (flags : List Flag) (words : List Text) : Except UsageError Arguments :=
  match words with
  | [] => .ok {}
  | word :: rest => do
    if !isFlagWord word then
      let more ← parse flags rest
      return { more with operands := word :: more.operands }
    if word = "--" then return { operands := rest }
    let (uses, taken) ←
      if word.startsWith "--" then (long flags word rest.head?).map fun (u, taken) => ([u], taken)
      else shorts flags rest.head? (word.drop 1)
    let more ← if taken then parse flags (rest.drop 1) else parse flags rest
    return { more with uses := uses ++ more.uses }
termination_by words.length
decreasing_by all_goals simp only [List.length_drop, List.length_cons]; omega

variable (a : Arguments)

/-- The last value of a flag that takes texts. -/
def text? (name : Text) : Option Text :=
  a.uses.reverse.findSome? fun
    | (n, .text t) => if n = name then some t else none
    | _ => none

def text (name : Text) : Text := (a.text? name).getD []

def isOn (name : Text) : Bool :=
  (a.uses.reverse.findSome? fun
    | (n, .switch b) => if n = name then some b else none
    | _ => none).getD false

def integer? (name : Text) : Option Int :=
  a.uses.reverse.findSome? fun
    | (n, .integer i) => if n = name then some i else none
    | _ => none

def duration? (name : Text) : Option Duration :=
  a.uses.reverse.findSome? fun
    | (n, .duration d) => if n = name then some d else none
    | _ => none

/-- All texts of all uses. -/
def texts (name : Text) : List Text :=
  a.uses.flatMap fun
    | (n, .texts ts) => if n = name then ts else []
    | _ => []

/-- What the uses of a counting flag add up to. -/
def count (name : Text) : Int :=
  a.uses.foldl (fun total u =>
    if u.1 = name then
      match u.2 with
      | .countOnce => total + 1
      | .countTo n => n
      | _ => total
    else total) 0

end Arguments

end CilAudit
