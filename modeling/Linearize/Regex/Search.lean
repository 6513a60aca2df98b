import Linearize.Regex.Match
import Linearize.Regex.Program

/-!
# Linearize.Regex.Search

Search for a match in one pass over the text. Threads run side by side, one behind another in the
order of preference, and no place of the program is visited twice at a place of the text: what is
preferred comes first, so a later visit can add nothing. Of all matches the leftmost counts, and of
those that start there the preferred one.
-/

namespace Linearize
namespace Regex

structure Thread where
  place : Nat
  start : Cursor
  captures : Captures
  deriving DecidableEq, Repr

def Thread.moveTo (t : Thread) (place : Nat) : Thread := { t with place := place }

/-- What is known at a place of the text: the places of the program that were visited, the threads
that wait for a character, latest first, and the thread that accepts. -/
structure Front where
  visited : Array Bool
  waiting : List Thread
  accepted : Option Thread

namespace Front

def ofSize (size : Nat) : Front := ⟨Array.replicate size false, [], none⟩

def isVisited (f : Front) (place : Nat) : Bool := f.visited.getD place true

def visit (f : Front) (place : Nat) : Front :=
  { f with visited := f.visited.setIfInBounds place true }

def wait (f : Front) (t : Thread) : Front := { f with waiting := t :: f.waiting }

def accept (f : Front) (t : Thread) : Front := { f with accepted := some t }

/-- A match that ends here is preferred to one that was found before. -/
def best (f : Front) (c : Cursor) (found : Option Match) : Option Match :=
  match f.accepted with
  | none => found
  | some t => some ⟨t.start, c, t.captures⟩

theorem isVisited_ofSize (size place : Nat) :
    (ofSize size).isVisited place = decide (size ≤ place) := by
  by_cases h : place < size
  · simp [isVisited, ofSize, Array.getD, h]
  · simp [isVisited, ofSize, Array.getD, h, Nat.le_of_not_lt h]

theorem isVisited_visit (f : Front) (place other : Nat) :
    (f.visit place).isVisited other = (decide (other = place) || f.isVisited other) := by
  by_cases h : other = place
  · subst h
    by_cases hs : other < f.visited.size <;> simp [isVisited, visit, Array.getD, hs]
  · simp [isVisited, visit, h, Ne.symm h]

end Front

end Regex

namespace Program
open Regex

/-- The threads that a thread becomes by an instruction that reads no character. -/
def expand (c : Cursor) (t : Thread) : Instr → List Thread
  | .one _ _ | .accept => []
  | .anchor a next => if c.isAt a then [t.moveTo next] else []
  | .mark slot next => [{ t with place := next, captures := (slot, c) :: t.captures }]
  | .fork first second => [t.moveTo first, t.moveTo second]
  | .jump next => [t.moveTo next]

/-- Lets the threads on a stack go on until each waits for a character, is dropped or accepts.
Threads below the one that accepts are dropped. -/
def settle (p : Program) (c : Cursor) : Nat → List Thread → Front → Front
  | 0, _, f => f
  | _ + 1, [], f => f
  | limit + 1, t :: rest, f =>
    if f.isVisited t.place then settle p c limit rest f
    else
      match p.instr? t.place with
      | none => settle p c limit rest f
      | some .accept => (f.visit t.place).accept t
      | some (.one _ _) => settle p c limit rest ((f.visit t.place).wait t)
      | some i => settle p c limit (expand c t i ++ rest) (f.visit t.place)

/-- Each place of the program is visited once and puts two threads on the stack at most, which
bounds the number of steps. -/
def front (p : Program) (c : Cursor) (threads : List Thread) : Front :=
  p.settle c (threads.length + 2 * p.size + 1) threads (.ofSize p.size)

def advance? (p : Program) (x : Char) (t : Thread) : Option Thread :=
  match p.instr? t.place with
  | some (.one s next) => if s.contains x then some (t.moveTo next) else none
  | _ => none

/-- The threads at a place: those that come from the place before, and until there is a match one
that starts here. -/
def threadsAt (c : Cursor) (moved : List Thread) (best : Option Match) : List Thread :=
  match best with
  | none => moved ++ [⟨0, c, []⟩]
  | some _ => moved

/-- The match that a search finds that has come to the place before `rest`. -/
def scan (p : Program) (moved : List Thread) (best : Option Match) (before : Option Char)
    (left : Nat) : List Char → Option Match
  | [] =>
    let c : Cursor := ⟨before, [], left⟩
    (p.front c (threadsAt c moved best)).best c best
  | x :: xs =>
    let c : Cursor := ⟨before, x :: xs, left⟩
    match threadsAt c moved best with
    | [] => best
    | threads =>
      let f := p.front c threads
      p.scan (f.waiting.reverse.filterMap (p.advance? x)) (f.best c best) (some x) (left - 1)
        xs

def searchFrom? (p : Program) (c : Cursor) : Option Match := p.scan [] none c.before c.left c.rest

/-- Matches from left to right that do not overlap, at most `limit` of them. -/
def matchesFrom (p : Program) : Nat → Cursor → List Match
  | 0, _ => []
  | limit + 1, c =>
    match p.searchFrom? c with
    | none => []
    | some m =>
      if m.stop.left = m.start.left then
        match m.stop.next? with
        | none => [m]
        | some (_, c') => m :: matchesFrom p limit c'
      else m :: matchesFrom p limit m.stop

end Program

namespace Regex

def search? (r : Regex) (text : List Char) : Option Match :=
  (Program.ofRegex r).searchFrom? (.atStart text)

/-- All matches that do not overlap. Each but the last lies before at least one character of its
own, which bounds their number. -/
def allMatches (r : Regex) (text : List Char) : List Match :=
  (Program.ofRegex r).matchesFrom (text.length + 1) (.atStart text)

end Regex

end Linearize
