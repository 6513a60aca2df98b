import Linearize.Regex.Match

/-!
# Linearize.Regex.Backtrack

Matching by trial, without a program. An expression tries its ways in the order of preference, and
whatever follows it is tried at each place where it can end; the first success counts. A search has
to find the first success at the leftmost place that has one.
-/

namespace Linearize
namespace Regex

/-- Where a trial ends and the places that it records on the way, latest first. -/
abbrev Ending := Cursor × Captures

/-- What comes of going on from a place. -/
abbrev Trial := Cursor → Option Ending

namespace Trial

def done : Trial := fun c => some (c, [])

def record (slot : Nat) (c : Cursor) (r : Option Ending) : Option Ending :=
  r.map fun e => (e.1, e.2 ++ [(slot, c)])

/-- What is preferred by a greedy expression, and what by a lazy one. -/
def pick (greedy : Bool) (body exit : Option Ending) : Option Ending :=
  if greedy then body.or exit else exit.or body

def one (s : CharSet) (k : Trial) : Trial := fun c =>
  match c.next? with
  | some (x, d) => if s.contains x then k d else none
  | none => none

def text : List Char → Trial → Trial
  | [], k => k
  | x :: xs, k => one (.single x) (text xs k)

def rounds (body : Trial → Trial) : Nat → Trial → Trial
  | 0, k => k
  | n + 1, k => body (rounds body n k)

def roundsAtMost (greedy : Bool) (body : Trial → Trial) : Nat → Trial → Trial
  | 0, k => k
  | n + 1, k => fun c => pick greedy (body (roundsAtMost greedy body n k) c) (k c)

/-- Any number of rounds. A round has to advance. -/
def loop (greedy : Bool) (body : Trial → Trial) (k : Trial) (c : Cursor) : Option Ending :=
  pick greedy
    (body (fun d => if d.rest.length < c.rest.length then loop greedy body k d else none) c) (k c)
termination_by c.rest.length

end Trial

open Trial

def run : Regex → Trial → Trial
  | .empty, k => k
  | .text cs, k => Trial.text cs k
  | .one s, k => Trial.one s k
  | .anchor a, k => fun c => if c.isAt a then k c else none
  | .seq a b, k => a.run (b.run k)
  | .alt a b, k => fun c => (a.run k c).or (b.run k c)
  | .times greedy low none r, k => rounds r.run low (loop greedy r.run k)
  | .times greedy low (some high) r, k =>
    rounds r.run low (roundsAtMost greedy r.run (high - low) k)
  | .group i r, k => fun c =>
    record (2 * i) c (r.run (fun d => record (2 * i + 1) d (k d)) c)

def loopsAdvance : Regex → Bool
  | .empty | .text _ | .one _ | .anchor _ => true
  | .seq a b | .alt a b => a.loopsAdvance && b.loopsAdvance
  | .times _ _ none r => r.advances && r.loopsAdvance
  | .times _ _ (some _) r => r.loopsAdvance
  | .group _ r => r.loopsAdvance

def matchAt? (r : Regex) (c : Cursor) : Option Match :=
  (r.run done c).map fun e => ⟨c, e.1, e.2⟩

def leftmost? (r : Regex) (before : Option Char) (left : Nat) : List Char → Option Match
  | [] => r.matchAt? ⟨before, [], left⟩
  | x :: xs => (r.matchAt? ⟨before, x :: xs, left⟩).or (r.leftmost? (some x) (left - 1) xs)

end Regex
end Linearize
