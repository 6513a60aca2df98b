import Linearize.Text.CharSet

/-!
# Linearize.Regex.Basic

Regular expressions over characters, with capture groups, greedy and lazy repetition. A dot is
the set of all characters, line feeds included.
-/

namespace Linearize

/-- Places of a text that can be asked for. A boundary has a character of a word on one side. -/
inductive Anchor where
  | textStart
  | textEnd
  | boundary
  | notBoundary
  deriving DecidableEq, Repr

inductive Regex where
  | empty
  | text (cs : List Char)
  | one (s : CharSet)
  | anchor (a : Anchor)
  | seq (a b : Regex)
  | alt (a b : Regex)
  /-- At least `low` and at most `high` times, without a limit if there is no `high`. -/
  | times (greedy : Bool) (low : Nat) (high : Option Nat) (r : Regex)
  | group (index : Nat) (r : Regex)
  deriving DecidableEq, Repr

namespace Regex

/-- Built of anchors and empty texts, so that it matches no character. -/
def isVoid : Regex → Bool
  | .empty | .anchor _ => true
  | .text _ | .one _ => false
  | .seq a b | .alt a b => a.isVoid && b.isVoid
  | .times _ _ _ r | .group _ r => r.isVoid

/-- A part of it is the empty set, which matches nothing. -/
def hasEmptySet : Regex → Bool
  | .empty | .anchor _ | .text _ => false
  | .one s => s.ranges.isEmpty
  | .seq a b | .alt a b => a.hasEmptySet || b.hasEmptySet
  | .times _ _ _ r | .group _ r => r.hasEmptySet

/-- Every match has at least one character. -/
def consumes : Regex → Bool
  | .empty | .anchor _ => false
  | .text cs => !cs.isEmpty
  | .one _ => true
  | .seq a b => a.consumes || b.consumes
  | .alt a b => a.consumes && b.consumes
  | .times _ low _ r => decide (0 < low) && r.consumes
  | .group _ r => r.consumes

/-- It consumes, and each of its parts can match. -/
def advances (r : Regex) : Bool := r.consumes && !r.hasEmptySet

end Regex

end Linearize
