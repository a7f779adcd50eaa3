import CilAudit.Text.Utf8
import CilAudit.Binary.Notation

/-!
# JSON documents

A document as a value: numbers keep their literal, objects the order of their members and
every repeated key. Writing is compact or indented by two spaces, and escapes what would be
markup in a page, the line separators, and controls.
-/

set_option autoImplicit false

namespace CilAudit

/-- A JSON value. -/
inductive Json where
  | null
  | bool (value : Bool)
  | number (literal : Text)
  | string (value : Text)
  | array (items : List Json)
  | object (members : List (Text × Json))
  deriving Repr, Inhabited

namespace Json

instance : Coe String Json := ⟨fun s => string s⟩

def ofNat (n : Nat) : Json := number (Text.ofNat n)
def ofInt (n : Int) : Json := number (Text.ofInt n)

/-- The number of a finite value. -/
def ofDouble (x : Double) : Json := number (NumberNotation.document.render .double x.value)

/-- Strings as an array. -/
def strings (ts : List Text) : Json := array (ts.map string)

/-- One byte below U+0080 as it stands in a string. -/
def escapedAscii (n : Nat) : Text :=
  match n with
  | 0x22 => "\\\""
  | 0x5C => "\\\\"
  | 0x08 => "\\b"
  | 0x0C => "\\f"
  | 0x0A => "\\n"
  | 0x0D => "\\r"
  | 0x09 => "\\t"
  | _ =>
    if n < 0x20 ∨ n = 0x3C ∨ n = 0x3E ∨ n = 0x26 then "\\u" ++ Text.hex 4 n else [n.toUInt8]

/-- One piece of a string; stray bytes read as U+FFFD. -/
def escapedPiece : Text.Piece → Text
  | .stray _ => "\\ufffd"
  | .char c =>
    let n := c.toNat
    if n < 0x80 then escapedAscii n
    else if n = 0x2028 ∨ n = 0x2029 then "\\u" ++ Text.hex 4 n
    else Text.Piece.bytes (.char c)

/-- A string between its quotes. -/
def quote (t : Text) : Text := 0x22 :: (t.pieces.flatMap escapedPiece ++ [0x22])

mutual

/-- The value without blanks. -/
def compact : Json → Text
  | null => "null"
  | bool b => if b then "true" else "false"
  | number literal => literal
  | string t => quote t
  | array items => 0x5B :: (compactItems items ++ [0x5D])
  | object members => 0x7B :: (compactMembers members ++ [0x7D])

def compactItems : List Json → Text
  | [] => []
  | [v] => compact v
  | v :: rest => compact v ++ 0x2C :: compactItems rest

def compactMembers : List (Text × Json) → Text
  | [] => []
  | [(k, v)] => quote k ++ 0x3A :: compact v
  | (k, v) :: rest => quote k ++ 0x3A :: (compact v ++ 0x2C :: compactMembers rest)

end

/-- A line feed and the blanks of a nesting depth. -/
def newline (depth : Nat) : Text := 0x0A :: Text.replicate (2 * depth) 0x20

mutual

/-- The value over several lines, as it stands at a nesting depth. -/
def indentedAt (depth : Nat) : Json → Text
  | array (v :: rest) =>
    0x5B :: (indentedItems (depth + 1) (v :: rest) ++ newline depth ++ [0x5D])
  | object (m :: rest) =>
    0x7B :: (indentedMembers (depth + 1) (m :: rest) ++ newline depth ++ [0x7D])
  | array [] => "[]"
  | object [] => "\x7b\x7d"
  | null => "null"
  | bool b => if b then "true" else "false"
  | number literal => literal
  | string t => quote t

def indentedItems (depth : Nat) : List Json → Text
  | [] => []
  | [v] => newline depth ++ indentedAt depth v
  | v :: rest => newline depth ++ indentedAt depth v ++ 0x2C :: indentedItems depth rest

def indentedMembers (depth : Nat) : List (Text × Json) → Text
  | [] => []
  | [(k, v)] => newline depth ++ quote k ++ ": " ++ indentedAt depth v
  | (k, v) :: rest =>
    newline depth ++ quote k ++ ": " ++ indentedAt depth v ++ 0x2C :: indentedMembers depth rest

end

/-- The value over several lines, two blanks for each level. -/
def indented (v : Json) : Text := indentedAt 0 v

/-- The members of an object, none for any other value. -/
def members : Json → List (Text × Json)
  | object ms => ms
  | _ => []

/-- The value of a key, the last one if it is repeated. -/
def field? (v : Json) (key : Text) : Option Json := v.members.reverse.lookup key

/-- The items of an array, none for any other value. -/
def items : Json → List Json
  | array vs => vs
  | _ => []

end Json

end CilAudit
