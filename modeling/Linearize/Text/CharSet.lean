import Linearize.Text.CharClass

/-!
# Linearize.Text.CharSet

Sets of characters as ranges of code points. The ranges are in order and do not touch, so that sets
of the same characters are equal.
-/

namespace Linearize

structure CharSet where
  ranges : List (Nat × Nat)
  deriving DecidableEq, Repr

namespace CharSet

def last : Nat := 0x10FFFF

def contains (s : CharSet) (c : Char) : Bool := Text.inRanges s.ranges c

def empty : CharSet := ⟨[]⟩

def any : CharSet := ⟨[(0, last)]⟩

def span (low high : Nat) : CharSet := ⟨[(low, high)]⟩

def single (c : Char) : CharSet := span c.toNat c.toNat

/-- Puts a range in its place and joins it with those that it touches. -/
def insertRange (low high : Nat) : List (Nat × Nat) → List (Nat × Nat)
  | [] => [(low, high)]
  | (a, b) :: rest =>
    if high + 1 < a then (low, high) :: (a, b) :: rest
    else if b + 1 < low then (a, b) :: insertRange low high rest
    else insertRange (min low a) (max high b) rest

def union (s t : CharSet) : CharSet :=
  ⟨s.ranges.foldl (fun ranges r => insertRange r.1 r.2 ranges) t.ranges⟩

/-- What the ranges leave out from a code point on. -/
def gapsFrom (start : Nat) : List (Nat × Nat) → List (Nat × Nat)
  | [] => if start ≤ last then [(start, last)] else []
  | (a, b) :: rest => if start < a then (start, a - 1) :: gapsFrom (b + 1) rest
    else gapsFrom (b + 1) rest

def compl (s : CharSet) : CharSet := ⟨gapsFrom 0 s.ranges⟩

def inter (s t : CharSet) : CharSet := (s.compl.union t.compl).compl

def diff (s t : CharSet) : CharSet := s.inter t.compl

/-- What is in one of two sets only. -/
def symmDiff (s t : CharSet) : CharSet := (s.diff t).union (t.diff s)

/-- The character of a set that has no other. -/
def toChar? (s : CharSet) : Option Char :=
  match s.ranges with
  | [(a, _)] => if s = single (Char.ofNat a) then some (Char.ofNat a) else none
  | _ => none

theorem contains_single (x c : Char) : (single x).contains c = decide (x = c) := by
  rw [Bool.eq_iff_iff]
  simp only [contains, single, span, Text.inRanges, List.any_cons, List.any_nil, Bool.or_false,
    Bool.and_eq_true, decide_eq_true_eq]
  constructor
  · intro h
    exact Char.toNat_inj.1 (Nat.le_antisymm h.1 h.2)
  · rintro rfl
    exact ⟨Nat.le_refl _, Nat.le_refl _⟩

end CharSet

end Linearize
