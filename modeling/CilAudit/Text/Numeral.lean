import CilAudit.Text

/-!
# Numerals

Numbers written in and read from text: decimal, and hexadecimal with a least width.
-/

set_option autoImplicit false

namespace CilAudit.Text

/-- The digit `d < 16` in lower case. -/
def digit (d : Nat) : UInt8 := if d < 10 then (0x30 + d).toUInt8 else (0x57 + d).toUInt8

/-- The digits of `n` in `base`, most significant first, in front of `tail`. -/
def digitsAnd (base : Nat) (n : Nat) (tail : Text) : Text :=
  if h : 1 < base ∧ base ≤ n then
    have : n / base < n := Nat.div_lt_self (by omega) h.1
    digitsAnd base (n / base) (digit (n % base) :: tail)
  else digit (n % base) :: tail

def digitsIn (base n : Nat) : Text := digitsAnd base n []

/-- Zeros added on the left up to `width` bytes. -/
def padZeros (width : Nat) (t : Text) : Text := List.replicate (width - t.length) 0x30 ++ t

def ofNat (n : Nat) : Text := digitsIn 10 n

def ofInt (n : Int) : Text :=
  if n < 0 then 0x2D :: ofNat n.natAbs else ofNat n.toNat

/-- Hexadecimal with at least `width` places; a sign takes one of them. -/
def hex (width : Nat) (n : Int) : Text :=
  if n < 0 then 0x2D :: padZeros (width - 1) (digitsIn 16 n.natAbs)
  else padZeros width (digitsIn 16 n.toNat)

/-- Letters `a` to `z` in upper case, all other bytes as they are. -/
def upperAscii (t : Text) : Text := t.map fun b => if 0x61 ≤ b ∧ b ≤ 0x7A then b - 0x20 else b

/-- Letters `A` to `Z` in lower case, all other bytes as they are. -/
def lowerAscii (t : Text) : Text := t.map fun b => if 0x41 ≤ b ∧ b ≤ 0x5A then b + 0x20 else b

def hexUpper (width : Nat) (n : Int) : Text := upperAscii (hex width n)

def isDigit (b : UInt8) : Bool := 0x30 ≤ b && b ≤ 0x39

/-- The value of a hexadecimal digit of either case. -/
def hexDigit? (b : UInt8) : Option Nat :=
  if isDigit b then some (b.toNat - 0x30)
  else if 0x61 ≤ b ∧ b ≤ 0x66 then some (b.toNat - 0x57)
  else if 0x41 ≤ b ∧ b ≤ 0x46 then some (b.toNat - 0x37)
  else none

/-- The value of a non-empty run of decimal digits. -/
def toNat? (t : Text) : Option Nat :=
  if t.isEmpty then none
  else t.foldl (fun acc b => acc.bind fun n => if isDigit b then some (n * 10 + (b.toNat - 0x30)) else none) (some 0)

/-- The value of a non-empty run of hexadecimal digits. -/
def toNatHex? (t : Text) : Option Nat :=
  if t.isEmpty then none
  else t.foldl (fun acc b => acc.bind fun n => (hexDigit? b).map (n * 16 + ·)) (some 0)

/-- A decimal integer with an optional sign. -/
def toInt? : Text → Option Int
  | 0x2D :: rest => (toNat? rest).map fun n => -(n : Int)
  | 0x2B :: rest => (toNat? rest).map Int.ofNat
  | t => (toNat? t).map Int.ofNat

/-- Two lower-case hexadecimal digits per byte. -/
def toHex (t : Text) : Text := t.flatMap fun b => [digit (b.toNat / 16), digit (b.toNat % 16)]

end CilAudit.Text
