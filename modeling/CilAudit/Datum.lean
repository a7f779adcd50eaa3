import CilAudit.Instant
import CilAudit.Json
import CilAudit.Text.Letter

/-!
# Document data

A value of a document in either of the two encodings a module dump can have. What only one
of them can hold has a constructor of its own: literals of numbers and objects come from
JSON; unsigned, big and simple numbers, byte strings, maps with any keys, tags and what tags
stand for from CBOR.
-/

set_option autoImplicit false

namespace CilAudit

namespace Double

/-- A number in the order of the values, which has one place for both zeros. -/
def orderKey (x : Double) : Int :=
  if x.bits.toNat < 0x8000000000000000 then x.bits.toNat else 0x8000000000000000 - x.bits.toNat

/-- The order of keys: what is no number first, then by value. -/
def keyLe (x y : Double) : Bool :=
  x.value = .nan || (y.value ≠ .nan && x.orderKey ≤ y.orderKey)

/-- Do the values count as one key? What is no number is no key that can be found again. -/
def isSameKey (x y : Double) : Bool := x.value ≠ .nan && y.value ≠ .nan && x.orderKey = y.orderKey

end Double

/-- A document value. -/
inductive Datum where
  | null
  | bool (value : Bool)
  /-- A signed integer of 64 bits. -/
  | int (value : Int)
  /-- An unsigned integer of 64 bits. -/
  | nat (value : Nat)
  /-- An integer of any size. -/
  | big (value : Int)
  /-- A value that has a number and no meaning. -/
  | simple (number : Nat)
  | float (value : Double)
  /-- A number kept as it was written. -/
  | literal (digits : Text)
  | text (value : Text)
  | bytes (value : Text)
  /-- Bytes as the key of a map. -/
  | keyBytes (value : Text)
  | instant (value : Instant)
  | list (items : List Datum)
  | object (members : List (Text × Datum))
  | map (entries : List (Datum × Datum))
  | tag (number : Nat) (content : Datum)
  /-- Text that is not UTF-8; no field takes it. -/
  | malformed
  deriving Repr, Inhabited

namespace Datum

/-- The name of the value's type in messages. -/
def typeName : Datum → Text
  | null => "<nil>"
  | bool _ => "bool"
  | int _ => "int64"
  | nat _ => "uint64"
  | big _ => "big.Int"
  | simple _ => "cbor.SimpleValue"
  | float _ => "float64"
  | literal _ => "json.Number"
  | text _ => "string"
  | bytes _ => "[]uint8"
  | keyBytes _ => "cbor.ByteString"
  | instant _ => "time.Time"
  | list _ => "[]interface \x7b\x7d"
  | object _ => "map[string]interface \x7b\x7d"
  | map _ => "map[interface \x7b\x7d]interface \x7b\x7d"
  | tag .. => "cbor.Tag"
  | malformed => "string"

/-- The place of a key's type among the types of keys. -/
def keyRank : Datum → Nat
  | null => 0
  | bool _ => 1
  | float _ => 2
  | int _ => 3
  | text _ => 4
  | nat _ => 5
  | simple _ => 6
  | keyBytes _ => 7
  | tag .. => 8
  | instant _ => 9
  | _ => 10

/-- The order of map keys in messages: by type, then by value. -/
def keyLe : Datum → Datum → Bool
  | bool a, bool b => !a || b
  | float a, float b => a.keyLe b
  | int a, int b => a ≤ b
  | text a, text b => Text.le a b
  | nat a, nat b => a ≤ b
  | simple a, simple b => a ≤ b
  | keyBytes a, keyBytes b => Text.le a b
  | tag m a, tag n b => m < n || (m = n && keyLe a b)
  | instant a, instant b => a.keyLe b
  | a, b => a.keyRank ≤ b.keyRank

/-- Are the keys one key? A floating-point key is found by its value. -/
def isSameKey : Datum → Datum → Bool
  | null, null => true
  | bool a, bool b => a = b
  | float a, float b => a.isSameKey b
  | int a, int b => a = b
  | text a, text b => a = b
  | nat a, nat b => a = b
  | simple a, simple b => a = b
  | keyBytes a, keyBytes b => a = b
  | tag m a, tag n b => m = n && isSameKey a b
  | instant a, instant b => a.isSameKey b
  | _, _ => false

/-- The digits of a number to the base of 64-bit words, the least significant first. -/
def words64 (n : Nat) : List Nat :=
  if h : n = 0 then [] else n % 0x10000000000000000 :: words64 (n / 0x10000000000000000)
termination_by n
decreasing_by omega

mutual

/-- The value as messages show it; a big number by its sign and its words. -/
def toText : Datum → Text
  | null => "<nil>"
  | bool b => if b then "true" else "false"
  | int n => Text.ofInt n
  | nat n => Text.ofNat n
  | big n =>
    "\x7b" ++ (if n < 0 then "true [" else "false [") ++
      Text.joinWith " " ((words64 n.natAbs).map Text.ofNat) ++ "]\x7d"
  | simple n => Text.ofNat n
  | float x => x.toText
  | literal t => t
  | text t => t
  | keyBytes t => t
  | instant i => i.toText
  | bytes t => "[" ++ Text.joinWith " " (t.map fun b => Text.ofNat b.toNat) ++ "]"
  | list items => "[" ++ Text.joinWith " " (textsOf items) ++ "]"
  | object members => "map[" ++ Text.joinWith " " (memberTexts members) ++ "]"
  | map entries =>
    let sorted := (entryTexts entries).mergeSort fun a b => keyLe a.1 b.1
    "map[" ++ Text.joinWith " " (sorted.map (·.2)) ++ "]"
  | tag n d => "\x7b" ++ Text.ofNat n ++ " " ++ toText d ++ "\x7d"
  | malformed => []

def textsOf : List Datum → List Text
  | [] => []
  | d :: rest => toText d :: textsOf rest

def memberTexts : List (Text × Datum) → List Text
  | [] => []
  | (k, d) :: rest => (k ++ ":" ++ toText d) :: memberTexts rest

def entryTexts : List (Datum × Datum) → List (Datum × Text)
  | [] => []
  | (k, d) :: rest => (k, toText k ++ ":" ++ toText d) :: entryTexts rest

end

/-- The pairs without those whose key comes again later, in key order. -/
def sortedMembers {α : Type} (members : List (Text × α)) : List (Text × α) :=
  let kept := members.foldr (fun m acc => if acc.any (·.1 = m.1) then acc else m :: acc) []
  kept.mergeSort fun a b => Text.le a.1 b.1

mutual

/-- A JSON value with every number kept as it was written. -/
def ofJson : Json → Datum
  | .null => null
  | .bool b => bool b
  | .number t => literal t
  | .string t => text t
  | .array items => list (ofJsonItems items)
  | .object members => object (ofJsonMembers members)

def ofJsonItems : List Json → List Datum
  | [] => []
  | v :: rest => ofJson v :: ofJsonItems rest

def ofJsonMembers : List (Text × Json) → List (Text × Datum)
  | [] => []
  | (k, v) :: rest => (k, ofJson v) :: ofJsonMembers rest

end

/-- An integer literal, if the digits are one and it fits 64 signed bits. -/
def int64? (digits : Text) : Option Int :=
  match Text.toInt? digits with
  | some n => if -0x8000000000000000 ≤ n ∧ n < 0x8000000000000000 then some n else none
  | none => none

/-- The decimal exponent of a number literal, 0 if it has none. -/
def exponentOf (t : Text) : Text × Int :=
  match t.cutAtLast fun b => b = 0x65 || b = 0x45 with
  | some (mantissa, e) => (mantissa, (Text.toInt? e).getD 0)
  | none => (t, 0)

/-- The nearest floating-point value of a number literal. -/
def doubleOf (digits : Text) : Double :=
  let (negative, digits) := match digits with
    | 0x2D :: rest => (true, rest)
    | t => (false, t)
  let (mantissa, exponent) := exponentOf digits
  let (whole, fraction) := (Text.cutAt 0x2E mantissa).getD (mantissa, [])
  Double.ofDecimal negative ((Text.toNat? (whole ++ fraction)).getD 0) (exponent - fraction.length)

/-- The number of a literal: an integer if it is written as one that fits, else the nearest
floating-point value, else the literal itself. -/
def ofLiteral (digits : Text) : Datum :=
  match int64? digits with
  | some n => int n
  | none =>
    let x := doubleOf digits
    if x.isFinite then float x else literal digits

/-- The pairs without those whose key comes again later. -/
def distinctEntries (entries : List (Datum × Datum)) : List (Datum × Datum) :=
  entries.foldr (fun e acc => if acc.any fun a => a.1.isSameKey e.1 then acc else e :: acc) []

mutual

/-- Literals outside objects turned into numbers. -/
def withNumbers : Datum → Datum
  | literal t => ofLiteral t
  | list items => list (itemsWithNumbers items)
  | d => d

def itemsWithNumbers : List Datum → List Datum
  | [] => []
  | d :: rest => withNumbers d :: itemsWithNumbers rest

end

end Datum

end CilAudit
