import CilAudit.Path
import CilAudit.Text.Numeral

/-!
# Places of stores

Where the name of a store says it is kept: in a file, or only in memory. A name may end in a
query, which is a list of settings after a question mark. Names that start with `file:` are
locators: their path and their settings may hold bytes as `%` and two hexadecimal digits, and
settings of theirs say how the file is to be opened.
-/

set_option autoImplicit false

namespace CilAudit

inductive StorePlace where
  | memory
  /-- In a file, which is created if it is missing and may be. -/
  | file (path : Text) (mayCreate : Bool)
  deriving DecidableEq, Repr

/-- What the name of a store says. -/
structure StoreName where
  place : StorePlace
  isReadOnly : Bool := false
  /-- Can the settings be made that are left until the store is open? -/
  isSettled : Bool := true
  deriving DecidableEq, Repr

namespace StoreName

/-- The byte that two hexadecimal digits stand for. -/
def hexByte? (a b : UInt8) : Option UInt8 := do
  let high ← Text.hexDigit? a
  let low ← Text.hexDigit? b
  return (high * 16 + low).toUInt8

/-- A part of a query with its escapes resolved; a plus sign is a blank. -/
def unescape? : Text → Option Text
  | [] => some []
  | 0x25 :: a :: b :: rest => do
    let c ← hexByte? a b
    return c :: (← unescape? rest)
  | 0x25 :: _ => none
  | b :: rest => (unescape? rest).map ((if b = 0x2B then 0x20 else b) :: ·)

/-- A setting of a query. -/
def setting? (part : Text) : Option (Text × Text) := do
  if part.elem 0x3B then none
  let (name, value) := (Text.cutAt 0x3D part).getD (part, [])
  return (← unescape? name, ← unescape? value)

/-- The settings of a query. -/
def settings? (query : Text) : Option (List (Text × Text)) :=
  ((Text.splitAt 0x26 query).filter (!·.isEmpty)).mapM setting?

/-- The values of a setting. -/
def valuesOf (settings : List (Text × Text)) (name : Text) : List Text :=
  (settings.filter (·.1 = name)).map (·.2)

/-- The file system layer that is asked for, which is empty for the usual one. Two different ones
cannot be had. -/
def layer? (settings : List (Text × Text)) : Option Text :=
  (valuesOf settings "vfs").foldlM
    (fun found v => if found.isEmpty ∨ found = v then some v else none) []

def fileLayers : List Text := [[], "unix", "unix-dotfile", "unix-excl", "unix-none"]

/-- The layer whose files are in memory. -/
def memoryLayer : Text := "memdb"

/-- The first value of a setting, if it has one that is not empty. -/
def first? (settings : List (Text × Text)) (name : Text) : Option Text :=
  ((valuesOf settings name).head?).filter (!·.isEmpty)

/-- The bytes of names and numbers. -/
def isWordByte (b : UInt8) : Bool :=
  Text.isDigit b || (0x61 ≤ b && b ≤ 0x7A) || (0x41 ≤ b && b ≤ 0x5A) || b = 0x5F || b = 0x24 ||
    0x80 ≤ b

def isBlank (b : UInt8) : Bool := b = 0x20 || (0x09 ≤ b && b ≤ 0x0D && b ≠ 0x0B)

def skipBlank (t : Text) : Text := t.dropWhile isBlank

/-- A word or number, and what follows it and the blanks after it. -/
def takeWord? (t : Text) : Option (Text × Text) :=
  let word := t.takeWhile isWordByte
  if word.isEmpty then none else some (word, skipBlank (t.drop word.length))

/-- The value of a pragma, without its sign or quotes, and what follows it. -/
def pragmaValue? (t : Text) : Option (Text × Text) :=
  match skipBlank t with
  | 0x27 :: rest => (Text.cutAt 0x27 rest).map fun (v, rest) => (v, skipBlank rest)
  | 0x22 :: rest => (Text.cutAt 0x22 rest).map fun (v, rest) => (v, skipBlank rest)
  | 0x2B :: rest | 0x2D :: rest => takeWord? (skipBlank rest)
  | t => takeWord? t

/-- A pragma: a name, and a value after an equals sign or in parentheses, if it has one. -/
def pragma? (t : Text) : Option (Text × Text) := do
  let (name, rest) ← takeWord? (skipBlank t)
  if name.head?.any Text.isDigit then none
  match rest with
  | 0x3D :: rest =>
    let (value, rest) ← pragmaValue? rest
    if rest.isEmpty then some (name, value) else none
  | 0x28 :: rest =>
    match ← pragmaValue? rest with
    | (value, 0x29 :: rest) => if (skipBlank rest).isEmpty then some (name, value) else none
    | _ => none
  | rest => if rest.isEmpty then some (name, []) else none

/-- Does a word or number say yes? -/
def isYes (t : Text) : Bool :=
  let words : List Text := ["on", "yes", "true", "full", "extra"]
  words.contains (Text.lowerAscii t) ||
    (Text.toNat? (t.takeWhile Text.isDigit)).any (· ≠ 0)

/-- Do pragmas keep a store from being changed? The last one that says something counts. -/
def isQueryOnly (pragmas : List (Text × Text)) : Bool :=
  let said := pragmas.filter fun p => Text.lowerAscii p.1 = "query_only" ∧ !p.2.isEmpty
  said.getLast?.any fun p => isYes p.2

/-- The ways a transaction may take its lock. -/
def lockKinds : List Text := ["deferred", "immediate", "exclusive"]

def timeFormats : List Text := ["sqlite", "datetime"]

def integerTimeFormats : List Text := ["unix", "unix_milli", "unix_micro", "unix_nano"]

/-- Can the settings that concern a connection be made, its pragmas apart? -/
def areSettled (settings : List (Text × Text)) : Bool :=
  let isOneOf (name : Text) (values : List Text) : Bool :=
    (first? settings name).all values.contains
  isOneOf "_time_format" timeFormats && isOneOf "_time_integer_format" integerTimeFormats &&
    (first? settings "_txlock").all fun v => lockKinds.contains (Text.lowerAscii v)

/-- A section of a locator up to a byte that ends it, with its escapes resolved, and what follows.
An escaped zero makes the rest of the section be left out. -/
def takeSection (ends : UInt8 → Bool) (t : Text) : Text × Text :=
  match t with
  | [] => ([], [])
  | 0x25 :: a :: b :: rest =>
    match hexByte? a b with
    | some c =>
      if c = 0 then ([], rest.dropWhile (!ends ·))
      else
        let (section_, after) := takeSection ends rest
        (c :: section_, after)
    | none =>
      let (section_, after) := takeSection ends (a :: b :: rest)
      (0x25 :: section_, after)
  | b :: rest =>
    if ends b then ([], b :: rest)
    else
      let (section_, after) := takeSection ends rest
      (b :: section_, after)
termination_by t.length

/-- The settings of a locator, of which there are at most `fuel`, after the byte before them. Those
without a name are left out. -/
def locatorSettings : (fuel : Nat) → Text → List (Text × Text)
  | 0, _ | _, [] => []
  | fuel + 1, t =>
    let (name, rest) := takeSection (fun b => b = 0x3D || b = 0x26) t
    match rest with
    | 0x3D :: rest =>
      let (value, rest) := takeSection (· = 0x26) rest
      let others := locatorSettings fuel (rest.drop 1)
      if name.isEmpty then others else (name, value) :: others
    | rest =>
      let others := locatorSettings fuel (rest.drop 1)
      if name.isEmpty then others else (name, []) :: others

/-- What follows the host of a locator, which can only be this one. -/
def afterHost? (t : Text) : Option Text :=
  if t.startsWith "//" then
    let host := (t.drop 2).takeWhile (· ≠ 0x2F)
    if host.isEmpty ∨ host = "localhost" then some (t.drop (2 + host.length)) else none
  else some t

/-- The ways to open a file by name, each with its rank. -/
def modes : List (Text × Nat) := [("ro", 1), ("rw", 2), ("rwc", 6), ("memory", 128)]

/-- The rank of the mode that settings leave. A mode may not ask for more than the one before. -/
def modeRank? (settings : List (Text × Text)) : Option Nat :=
  (valuesOf settings "mode").foldlM (fun limit value => do
    let rank ← modes.lookup value
    if rank % 128 ≤ limit then some rank else none) 6

/-- What a locator says after its scheme, where the query of its name asks for a layer. -/
def ofLocator? (layer : Text) (t : Text) : Option StoreName := do
  let t := (← afterHost? t).takeWhile (· ≠ 0x23)
  let (path, rest) := takeSection (· = 0x3F) t
  let settings := locatorSettings t.length (rest.drop 1)
  let rank ← modeRank? settings
  if (valuesOf settings "cache").any fun v => v ≠ "shared" ∧ v ≠ "private" then none
  let layer := (valuesOf settings "vfs").getLastD layer
  if path.isEmpty ∨ path = ":memory:" ∨ 128 ≤ rank then
    some { place := .memory, isReadOnly := rank = 1 }
  else
    let isReadOnly := rank = 1 || (valuesOf settings "immutable").head?.any isYes
    if layer = memoryLayer then some { place := .memory, isReadOnly }
    else if !fileLayers.contains layer then none
    else some { place := .file (Path.clean path) (2 < rank), isReadOnly }

/-- What a name says, unless it says nothing that can be followed. -/
def read? (name : Text) : Option StoreName := do
  let (path, query) : Text × Text :=
    match Text.cutAt 0x3F name with
    | some (path, query) => if path.isEmpty then (name, []) else (path, query)
    | none => (name, [])
  let settings ← settings? query
  let layer ← layer? settings
  let n : StoreName ←
    if name.startsWith "file:" then ofLocator? layer (name.drop 5)
    else if path = ":memory:" ∨ layer = memoryLayer then some { place := .memory }
    else if fileLayers.contains layer then some { place := .file (Path.clean path) true }
    else none
  match (valuesOf settings "_pragma").mapM pragma? with
  | some pragmas =>
    return { n with
      isReadOnly := n.isReadOnly || isQueryOnly pragmas
      isSettled := areSettled settings }
  | none => return { n with isSettled := false }

end StoreName

end CilAudit
