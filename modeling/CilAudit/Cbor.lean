import CilAudit.Datum
import CilAudit.Instruction.Encoding

/-!
# CBOR documents

Reading takes one data item and nothing after it, of definite or indefinite lengths, nested
at most 32 levels deep, and keeps its tags as they are. Writing is canonical: the shortest head
for every length and integer, the shortest float that keeps the value, and map keys by length,
then byte-wise.
-/

set_option autoImplicit false

namespace CilAudit.Cbor

/-- The deepest nesting of arrays, maps and tags. -/
def maxDepth : Nat := 32

/-- The most items of an array, and the most entries of a map. -/
def maxItems : Nat := 131072

/-- The value of bytes, most significant first. -/
def bigEndian (t : Text) : Nat := littleEndian t.reverse

/-- `n` in `width` bytes, most significant first. -/
def bigEndianBytes (width n : Nat) : Text :=
  (List.range width).reverse.map fun i => (n >>> (8 * i) % 256).toUInt8

/-- The head of an item: its major type, and its argument, or `none` for an indefinite
length. -/
structure Head where
  major : Nat
  info : Nat
  argument : Option Nat

/-- The first `n` bytes and what follows them. -/
def cut? (n : Nat) (s : Text) : Option (Text × Text) :=
  let t := s.take n
  if t.length < n then none else some (t, s.drop n)

def head? : Text → Option (Head × Text)
  | [] => none
  | b :: rest =>
    let major := b.toNat / 32
    let info := b.toNat % 32
    let wide (width : Nat) : Option (Head × Text) :=
      (cut? width rest).map fun (t, r) => (⟨major, info, some (bigEndian t)⟩, r)
    if info < 24 then some (⟨major, info, some info⟩, rest)
    else if info = 24 then wide 1
    else if info = 25 then wide 2
    else if info = 26 then wide 4
    else if info = 27 then wide 8
    else if info = 31 then some (⟨major, info, none⟩, rest)
    else none

/-- The 64-bit value of a float of another format. -/
def widen (f : BinaryFormat) (bits : Nat) : Double :=
  ⟨(BinaryFormat.double.ofBinary (f.value bits)).toUInt64⟩

/-- An item of major type 7. -/
def simple? (h : Head) : Option Datum :=
  match h.info, h.argument with
  | 20, _ => some (.bool false)
  | 21, _ => some (.bool true)
  | 22, _ | 23, _ => some .null
  | 24, some n => if n < 32 then none else some (.simple n)
  | 25, some n => some (.float (widen .half n))
  | 26, some n => some (.float (widen .single n))
  | 27, some n => some (.float ⟨n.toUInt64⟩)
  | _, some n => some (.simple n)
  | _, none => none

def textItem (t : Text) : Datum := if t.isUtf8 then .text t else .malformed

/-- The chunks of a string of indefinite length up to its end, at most `bound` of them. -/
def chunks? (major : Nat) : Nat → Text → Option (List Text × Text)
  | 0, _ => none
  | bound + 1, s =>
    match s with
    | 0xFF :: rest => some ([], rest)
    | s => do
      let (h, rest) ← head? s
      let n ← h.argument
      if h.major ≠ major then none
      let (chunk, rest) ← cut? n rest
      let (more, rest) ← chunks? major bound rest
      return (chunk :: more, rest)

/-- A byte or text string after its head. -/
def string? (h : Head) (s : Text) : Option (Datum × Text) :=
  match h.argument with
  | some n => (cut? n s).map fun (t, r) => (if h.major = 2 then .bytes t else textItem t, r)
  | none =>
    (chunks? h.major (s.length + 1) s).map fun (parts, r) =>
      (if h.major = 2 then .bytes parts.flatten
       else if parts.all Text.isUtf8 then .text parts.flatten else .malformed, r)

/-- The tags in front of an item, at most `bound` of them. -/
def tags? : Nat → Text → Option (List Nat × Text)
  | 0, s => some ([], s)
  | bound + 1, s =>
    match head? s with
    | some (⟨6, _, some n⟩, rest) => (tags? bound rest).map fun (ns, r) => (n :: ns, r)
    | some (⟨6, _, none⟩, _) => none
    | _ => some ([], s)

mutual

/-- One item, nested at most `depth` levels deep. All tags in front of it but the first count as
levels. -/
def item? (depth : Nat) (s : Text) : Option (Datum × Text) := do
  let (numbers, s) ← tags? (depth + 2) s
  let (h, rest) ← head? s
  if depth < numbers.length - 1 then none
  let (d, rest) ← untagged? (depth - (numbers.length - 1)) h rest
  return (numbers.foldr .tag d, rest)
termination_by (depth, 1, 0)
decreasing_by
  rcases Nat.eq_or_lt_of_le (Nat.sub_le depth (numbers.length - 1)) with same | less
  · rw [same]; exact Prod.Lex.right _ (Prod.Lex.left _ _ (by decide))
  · exact Prod.Lex.left _ _ less

/-- An item without tags, after its head. -/
def untagged? (depth : Nat) (h : Head) (s : Text) : Option (Datum × Text) :=
  match h.major, h.argument with
  | 0, some n => some (.nat n, s)
  | 1, some n =>
    some (if n < 0x8000000000000000 then .int (-1 - n) else .big (-1 - n), s)
  | 2, _ | 3, _ => string? h s
  | 4, count =>
    match depth with
    | 0 => none
    | depth + 1 =>
      match count with
      | some n =>
        if maxItems < n then none else (items? depth n s).map fun (l, r) => (.list l, r)
      | none => (itemsUntilBreak? depth (maxItems + 1) s).map fun (l, r) => (.list l, r)
  | 5, count =>
    match depth with
    | 0 => none
    | depth + 1 =>
      match count with
      | some n =>
        if maxItems < n then none else (entries? depth n s).map fun (l, r) => (.map l, r)
      | none => (entriesUntilBreak? depth (maxItems + 1) s).map fun (l, r) => (.map l, r)
  | 7, _ => (simple? h).map fun d => (d, s)
  | _, _ => none
termination_by (depth, 0, 0)

/-- `count` items. -/
def items? (depth count : Nat) (s : Text) : Option (List Datum × Text) :=
  match count with
  | 0 => some ([], s)
  | count + 1 => do
    let (d, s) ← item? depth s
    let (rest, s) ← items? depth count s
    return (d :: rest, s)
termination_by (depth, 2, count)

/-- Items up to a break, at most `bound` of them. -/
def itemsUntilBreak? (depth bound : Nat) (s : Text) : Option (List Datum × Text) :=
  match bound, s with
  | 0, _ => none
  | _, 0xFF :: s => some ([], s)
  | bound + 1, s => do
    let (d, s) ← item? depth s
    let (rest, s) ← itemsUntilBreak? depth bound s
    return (d :: rest, s)
termination_by (depth, 2, bound)

/-- `count` pairs of items. -/
def entries? (depth count : Nat) (s : Text) : Option (List (Datum × Datum) × Text) :=
  match count with
  | 0 => some ([], s)
  | count + 1 => do
    let (k, s) ← item? depth s
    let (v, s) ← item? depth s
    let (rest, s) ← entries? depth count s
    return ((k, v) :: rest, s)
termination_by (depth, 2, count)

/-- Pairs of items up to a break, at most `bound` of them. -/
def entriesUntilBreak? (depth bound : Nat) (s : Text) : Option (List (Datum × Datum) × Text) :=
  match bound, s with
  | 0, _ => none
  | _, 0xFF :: s => some ([], s)
  | bound + 1, s => do
    let (k, s) ← item? depth s
    let (v, s) ← item? depth s
    let (rest, s) ← entriesUntilBreak? depth bound s
    return ((k, v) :: rest, s)
termination_by (depth, 2, bound)

end

/-- The item that is the whole of a document. -/
def read? (s : Text) : Option Datum :=
  match item? maxDepth s with
  | some (d, []) => some d
  | _ => none

/-- The shortest head with an argument. -/
def writeHead (major n : Nat) : Text :=
  let first (info : Nat) : UInt8 := (major * 32 + info).toUInt8
  if n < 24 then [first n]
  else if n < 0x100 then first 24 :: bigEndianBytes 1 n
  else if n < 0x10000 then first 25 :: bigEndianBytes 2 n
  else if n < 0x100000000 then first 26 :: bigEndianBytes 4 n
  else first 27 :: bigEndianBytes 8 n

def writeInt (n : Int) : Text :=
  if n < 0 then writeHead 1 (-1 - n).toNat else writeHead 0 n.toNat

/-- The shortest float that keeps the value; every NaN is the same. -/
def writeFloat (x : Double) : Text :=
  let keeps (f : BinaryFormat) : Bool := widen f (f.ofBinary x.value) = x
  match x.value with
  | .nan => 0xF9 :: bigEndianBytes 2 0x7E00
  | v =>
    if keeps .half then 0xF9 :: bigEndianBytes 2 (BinaryFormat.half.ofBinary v)
    else if keeps .single then 0xFA :: bigEndianBytes 4 (BinaryFormat.single.ofBinary v)
    else 0xFB :: bigEndianBytes 8 x.bits.toNat

def writeText (t : Text) : Text := writeHead 3 t.length ++ t

/-- The order of encoded keys: the shorter first, then byte-wise. -/
def keyLe (a b : Text) : Bool := a.length < b.length || (a.length = b.length && Text.le a b)

/-- Encoded entries as a map, in key order. -/
def writeMap (entries : List (Text × Text)) : Text :=
  writeHead 5 entries.length ++
    (entries.mergeSort fun a b => keyLe a.1 b.1).flatMap fun (k, v) => k ++ v

/-- A number of any size: as an integer if it fits 64 bits, else as tagged bytes. -/
def writeBig (n : Int) : Text :=
  let (major, magnitude) := if n < 0 then (1, (-1 - n).toNat) else (0, n.toNat)
  if magnitude < 0x10000000000000000 then writeHead major magnitude
  else
    let bytes := bigEndianBytes (magnitude.log2 / 8 + 1) magnitude
    writeHead 6 (2 + major) ++ writeHead 2 bytes.length ++ bytes

mutual

/-- The canonical encoding of a value. -/
def write : Datum → Text
  | .null => [0xF6]
  | .bool b => if b then [0xF5] else [0xF4]
  | .int n => writeInt n
  | .nat n => writeHead 0 n
  | .big n => writeBig n
  | .simple n => if n < 24 then [(0xE0 + n).toUInt8] else [0xF8, n.toUInt8]
  | .float x => writeFloat x
  | .literal t => writeText t
  | .text t => writeText t
  | .bytes t | .keyBytes t => writeHead 2 t.length ++ t
  | .instant i => if i.isZero then [0xF6] else writeInt i.seconds
  | .list items => writeHead 4 items.length ++ writeItems items
  | .object members => writeMap (writeMembers members)
  | .map entries => writeMap (writeEntries entries)
  | .tag n d => writeHead 6 n ++ write d
  | .malformed => writeText []

def writeItems : List Datum → Text
  | [] => []
  | d :: rest => write d ++ writeItems rest

def writeMembers : List (Text × Datum) → List (Text × Text)
  | [] => []
  | (k, d) :: rest => (writeText k, write d) :: writeMembers rest

def writeEntries : List (Datum × Datum) → List (Text × Text)
  | [] => []
  | (k, d) :: rest => (write k, write d) :: writeEntries rest

end

end CilAudit.Cbor
