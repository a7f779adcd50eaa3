import CilAudit.Text.Letter

/-!
# Patterns

What a literal may hold somewhere, said with characters, sequences and alternatives. A pattern
is read at a cursor and gives every cursor at which a reading can end, so a search is the
question whether some cursor of the literal has one.
-/

set_option autoImplicit false

namespace CilAudit

/-- A place in a literal: the character before it, if there is one, and all that follows. -/
structure Cursor where
  before : Option Char
  rest : List Char
  deriving DecidableEq, Repr

namespace Cursor

/-- The places of a literal from left to right, the end included. -/
def allFrom (before : Option Char) : List Char → List Cursor
  | [] => [⟨before, []⟩]
  | c :: rest => ⟨before, c :: rest⟩ :: allFrom (some c) rest

def all (cs : List Char) : List Cursor := allFrom none cs

/-- The place behind the next character, if that satisfies `p`. -/
def step? (c : Cursor) (p : Char → Bool) : Option Cursor :=
  match c.rest with
  | [] => none
  | next :: rest => if p next then some ⟨some next, rest⟩ else none

/-- The place behind `word`, if it follows. -/
def skip? (c : Cursor) (word : List Char) : Option Cursor :=
  match word with
  | [] => some c
  | letter :: more =>
    match c.step? (· = letter) with
    | none => none
    | some next => next.skip? more

/-- The places behind each non-empty run of characters that satisfy `p`. -/
def runs (p : Char → Bool) : List Char → List Cursor
  | [] => []
  | c :: rest => if p c then ⟨some c, rest⟩ :: runs p rest else []

end Cursor

/-- Letters, digits and the underscore of ASCII. -/
def isWordChar (c : Char) : Bool := c.isAlphanum || c = '_'

inductive Pattern where
  | word (text : String)
  | one (allowed : Char → Bool)
  /-- One or more characters of a class. -/
  | run (allowed : Char → Bool)
  | optional (p : Pattern)
  | seq (first second : Pattern)
  | either (first second : Pattern)
  | start
  | finish
  /-- A word character on exactly one side. -/
  | boundary

namespace Pattern

/-- The places at which a reading of the pattern from `c` can end. -/
def ends : Pattern → Cursor → List Cursor
  | word text, c => (c.skip? text.toList).toList
  | one allowed, c => (c.step? allowed).toList
  | run allowed, c => Cursor.runs allowed c.rest
  | optional p, c => c :: p.ends c
  | seq first second, c => (first.ends c).flatMap second.ends
  | either first second, c => first.ends c ++ second.ends c
  | start, c => if c.before.isNone then [c] else []
  | finish, c => if c.rest.isEmpty then [c] else []
  | boundary, c =>
    if c.before.any isWordChar != c.rest.head?.any isWordChar then [c] else []

/-- Can the pattern be read somewhere in the literal? -/
def occursIn (p : Pattern) (cs : List Char) : Bool :=
  (Cursor.all cs).any fun c => !(p.ends c).isEmpty

/-- The patterns one after another. -/
def inOrder : List Pattern → Pattern
  | [] => word ""
  | [p] => p
  | p :: rest => seq p (inOrder rest)

/-- Any one of the patterns; with none, a pattern that nothing satisfies. -/
def anyOf : List Pattern → Pattern
  | [] => one fun _ => false
  | [p] => p
  | p :: rest => either p (anyOf rest)

/-- Any one of the words. -/
def anyWord (words : List String) : Pattern := anyOf (words.map word)

end Pattern

end CilAudit
