import CilAudit.Command.Arguments

/-!
# Command lines

Which command a command line asks for, and with which options. The command is the first
word that is neither a flag nor the value of one.
-/

set_option autoImplicit false

namespace CilAudit

inductive CommandName where
  | check
  | dump
  | cfg
  | rules
  | convert
  | help
  deriving DecidableEq, Repr

structure CheckOptions where
  /-- The report format, if it is given. -/
  format : Option Text
  database : Text
  disabled : List Text
  timeout : Duration
  /-- Where statistics go; nowhere if empty. -/
  summary : Text
  /-- Where the report goes; to the output of the run if empty. -/
  out : Text
  deriving DecidableEq, Repr

structure DumpOptions where
  /-- Are string literals annotated? -/
  strings : Bool
  /-- Is the outline shown instead of listings? -/
  tree : Bool
  /-- A part of the full names of the methods shown. -/
  method : Text
  deriving DecidableEq, Repr

structure GraphOptions where
  out : Text
  /-- How many calls from a signal method its context goes. -/
  distance : Int
  /-- A part of the full names of the methods drawn one by one; none if empty. -/
  method : Text
  svg : Bool
  deriving DecidableEq, Repr

/-- What a command line asks for. -/
inductive Request where
  | help
  | check (options : CheckOptions) (paths : List Text)
  | dump (options : DumpOptions) (path : Text)
  | graphs (options : GraphOptions) (path : Text)
  | rules
  | convert (source target : Text)
  deriving DecidableEq, Repr

structure CommandLine where
  /-- The settings document; looked for if empty. -/
  config : Text
  verbosity : Int
  logFile : Text
  request : Request
  deriving DecidableEq, Repr

namespace CommandName

def name : CommandName → Text
  | check => "check"
  | dump => "dump"
  | cfg => "cfg"
  | rules => "rules"
  | convert => "convert"
  | help => "help"

/-- The commands that are suggested for a misspelt word. -/
def suggested : List CommandName := [check, dump, cfg, rules, convert]

def ofName? (t : Text) : Option CommandName := (suggested ++ [help]).find? (·.name = t)

end CommandName

namespace CommandLine

def program : Text := "cilscan"

/-- The flags of all commands. -/
def commonFlags : List Flag :=
  [⟨"config", none, .text⟩, ⟨"verbose", some 0x76, .count⟩, ⟨"log", none, .text⟩]

def helpFlag : Flag := ⟨"help", some 0x68, .switch⟩

def flagsOf : CommandName → List Flag
  | .check =>
    [⟨"format", none, .text⟩, ⟨"db", none, .text⟩, ⟨"disable", none, .texts⟩,
      ⟨"timeout", none, .duration⟩, ⟨"summary", none, .text⟩, ⟨"out", some 0x6F, .text⟩]
  | .dump =>
    [⟨"strings", none, .switch⟩, ⟨"tree", none, .switch⟩, ⟨"method", none, .text⟩]
  | .cfg =>
    [⟨"out", some 0x6F, .text⟩, ⟨"k", none, .integer⟩, ⟨"method", none, .text⟩,
      ⟨"svg", none, .switch⟩]
  | .rules | .convert | .help => []

/-- Before the command is known, is the word a flag whose value is the next word? -/
def takesNext (word : Text) : Bool :=
  if word.contains "=" then false
  else if word.startsWith "--" then
    !(commonFlags.any fun f => f.name = word.drop 2 && f.standsAlone)
  else
    match word with
    | [0x2D, b] => !(commonFlags.any fun f => f.short = some b && f.standsAlone)
    | _ => false

/-- The words that are neither flags nor values of flags. A flag before the very last word
hides that word. -/
def bareWords (words : List Text) : List Text :=
  match words with
  | [] => []
  | word :: rest =>
    if word = "--" then []
    else if takesNext word then if rest.length ≤ 1 then [] else bareWords (rest.drop 1)
    else if word.isEmpty ∨ word.head? = some 0x2D then bareWords rest
    else word :: bareWords rest
termination_by words.length
decreasing_by all_goals simp only [List.length_drop, List.length_cons]; omega

/-- The words without the first one that is the given word and no flag or value of one. -/
def without (name : Text) (words : List Text) : List Text :=
  match words with
  | [] => []
  | word :: rest =>
    if word = "--" then words
    else if takesNext word then
      match rest with
      | [] => [word]
      | value :: rest => word :: value :: without name rest
    else if word = name then rest
    else word :: without name rest

/-- One row of the table of distances below, from the row above it. -/
def distanceRow (b : UInt8) (left : Nat) : Text → List Nat → List Nat
  | c :: cs, diagonal :: above :: more =>
    let d := if b = c then diagonal else min (min above left) diagonal + 1
    d :: distanceRow b d cs (above :: more)
  | _, _ => []

/-- How many bytes have to be changed, added or removed to get from one text to the other. -/
def distance (a b : Text) : Nat :=
  let first := List.range (b.length + 1)
  let last := a.foldl (fun (row : List Nat × Nat) c =>
    ((row.2 + 1) :: distanceRow c (row.2 + 1) b row.1, row.2 + 1)) (first, 0)
  last.1.getLastD 0

/-- The commands that a misspelt word may mean. -/
def suggestions (word : Text) : List Text :=
  (CommandName.suggested.map CommandName.name).filter fun name =>
    distance word.lower name ≤ 2 || name.startsWith word.lower

/-- The command of a command line, and its other words. -/
def commandOf (words : List Text) : Except UsageError (CommandName × List Text) :=
  match bareWords words with
  | [] => .ok (.help, words)
  | first :: _ =>
    match CommandName.ofName? first with
    | some command => .ok (command, without first words)
    | none => .error (.unknownCommand first program (suggestions first))

/-- The only operand. -/
def single (operands : List Text) : Except UsageError Text :=
  match operands with
  | [path] => .ok path
  | _ => .error (.wrongNumber 1 operands.length)

/-- What a command is asked to do. -/
def requestOf (command : CommandName) (a : Arguments) : Except UsageError Request :=
  match command with
  | .help => .ok .help
  | .check =>
    if a.operands.isEmpty then .error (.tooFew 1 0)
    else
      .ok (.check
        { format := a.text? "format", database := a.text "db", disabled := a.texts "disable"
          timeout := (a.duration? "timeout").getD ⟨0⟩, summary := a.text "summary"
          out := a.text "out" } a.operands)
  | .dump => (single a.operands).map fun path =>
      .dump { strings := a.isOn "strings", tree := a.isOn "tree", method := a.text "method" } path
  | .cfg => (single a.operands).map fun path =>
      .graphs
        { out := (a.text? "out").getD "graphs", distance := (a.integer? "k").getD 2
          method := a.text "method", svg := a.isOn "svg" } path
  | .rules =>
    match a.operands with
    | [] => .ok .rules
    | word :: _ => .error (.unknownCommand word (program ++ " " ++ CommandName.rules.name) [])
  | .convert =>
    match a.operands with
    | [source, target] => .ok (.convert source target)
    | _ => .error (.wrongNumber 2 a.operands.length)

/-- Reads a command line. -/
def parse (words : List Text) : Except UsageError CommandLine := do
  let (command, words) ← commandOf words
  let a ← Arguments.parse (flagsOf command ++ commonFlags ++ [helpFlag]) words
  let request ← if a.isOn "help" then pure .help else requestOf command a
  return { config := a.text "config", verbosity := a.count "verbose", logFile := a.text "log", request }

end CommandLine

end CilAudit
