import Linearize.Regex.Basic

/-!
# Linearize.Regex.Match

Places of a text and what a match records of them.
-/

namespace Linearize
namespace Regex

/-- A place in a text: the character before it, the text behind it, and how many characters those
are. -/
structure Cursor where
  before : Option Char
  rest : List Char
  left : Nat
  deriving DecidableEq, Repr

namespace Cursor

def atStart (text : List Char) : Cursor := ⟨none, text, text.length⟩

def next? (c : Cursor) : Option (Char × Cursor) :=
  match c.rest with
  | [] => none
  | x :: xs => some (x, ⟨some x, xs, c.left - 1⟩)

/-- Exactly one of the characters before and behind belongs to a word. -/
def isBoundary (c : Cursor) : Bool :=
  c.before.any Text.isWordChar != c.rest.head?.any Text.isWordChar

def upTo (c d : Cursor) : List Char := c.rest.take (c.left - d.left)

def isAt (c : Cursor) : Anchor → Bool
  | .textStart => c.before.isNone
  | .textEnd => c.rest.isEmpty
  | .boundary => c.isBoundary
  | .notBoundary => !c.isBoundary

end Cursor

/-- Recorded places by slot, latest first. Group `i` begins in slot `2 * i` and ends in the slot
behind that. -/
abbrev Captures := List (Nat × Cursor)

structure Match where
  start : Cursor
  stop : Cursor
  captures : Captures
  deriving DecidableEq, Repr

namespace Match

def group? (m : Match) (i : Nat) : Option (List Char) :=
  match m.captures.lookup (2 * i), m.captures.lookup (2 * i + 1) with
  | some c, some d => some (c.upTo d)
  | _, _ => none

end Match

end Regex
end Linearize
