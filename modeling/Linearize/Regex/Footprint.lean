import Linearize.Regex.Basic
import Linearize.Text.ByteRanges

/-!
# Linearize.Regex.Footprint

How much memory a pattern takes once its repetitions are written out. What is counted is a machine
that reads the bytes of a text, forwards or backwards, with 32 bytes for each of its states and more
for those with several ways to go on. A pattern is too large if one of its two machines is.
-/

namespace Linearize
namespace Regex

inductive Direction where
  | forward
  | backward
  deriving DecidableEq, Repr

/-- The states that are laid out, and the bytes that they take beyond 32 each. A new state has the
number of states before it as its name. -/
structure Footprint where
  states : Nat
  extra : Nat
  deriving DecidableEq, Repr

namespace Footprint

def add (f : Footprint) (states extra : Nat) : Footprint := ⟨f.states + states, f.extra + extra⟩

def bytes (f : Footprint) : Nat := 32 * f.states + f.extra

/-- 10 MiB. -/
def limit : Nat := 10485760

def isTooLarge (f : Footprint) : Bool := limit < f.bytes

def iterate (step : Footprint → Footprint) : Nat → Footprint → Footprint
  | 0, f => f
  | n + 1, f => if f.isTooLarge then f else iterate step n (step f)

end Footprint

/-! ## Sets -/

/-- States that may be used a second time, with slot and key, latest first. The key says what a
state does. A later state takes the slot of an earlier one, which is then laid out again if it is
needed. -/
structure SharedStates where
  slots : Nat
  entries : List (Nat × List Nat × Nat)
  footprint : Footprint

namespace SharedStates

/-- The hash of a key, reduced to the slots that there are. -/
def slotOf (slots : Nat) (key : List Nat) : Nat :=
  (key.foldl (fun (h : UInt64) n => (h ^^^ n.toUInt64) * 1099511628211)
    14695981039346656037).toNat % slots

def find? (s : SharedStates) (key : List Nat) : Option Nat :=
  match s.entries.lookup (slotOf s.slots key) with
  | none => none
  | some (held, state) => if held = key then some state else none

/-- The state of a key, which is new unless it is found. -/
def state (s : SharedStates) (key : List Nat) (extra : Nat) : Nat × SharedStates :=
  match s.find? key with
  | some state => (state, s)
  | none =>
    (s.footprint.states,
      { s with
        entries := (slotOf s.slots key, key, s.footprint.states) :: s.entries
        footprint := s.footprint.add 1 extra })

/-- The states of a byte sequence, each of which goes on to the one before. -/
def addBackward : List Text.ByteRange → Nat → SharedStates → SharedStates
  | [], _, s => s
  | (a, b) :: ranges, next, s =>
    let r := s.state [next, a, b] 0
    addBackward ranges r.1 r.2

/-- The state from which byte sequences in order are read, at most `length` bytes each, with one
way for each range that they begin with. -/
def addForward (target : Nat) : Nat → List (List Text.ByteRange) → SharedStates →
    Nat × SharedStates
  | 0, _, s => (target, s)
  | length + 1, sequences, s =>
    if sequences.all List.isEmpty then (target, s)
    else
      let groups := sequences.splitBy fun p q => p.head? == q.head?
      let r := groups.foldl (fun (key, s) group =>
        let r := addForward target length (group.map List.tail) s
        let ends := (group.filterMap List.head?).headD (0, 0)
        (key ++ [ends.1, ends.2, r.1], r.2)) (([] : List Nat), s)
      r.2.state r.1 (8 * groups.length)

end SharedStates

/-- A set of the first 128 characters is one state. Others branch by their encodings, backwards
with a way for each byte sequence. -/
def setFootprint (d : Direction) (s : CharSet) (f : Footprint) : Footprint :=
  if s.ranges.all fun r => r.2 < 128 then f.add 2 (8 * s.ranges.length)
  else
    let sequences := s.ranges.flatMap fun r => Text.byteRanges r.1 r.2
    match d with
    | .forward =>
      (SharedStates.addForward f.states 4 sequences ⟨10000, [], f.add 1 0⟩).2.footprint
    | .backward =>
      let start : SharedStates := ⟨1000, [], f.add 2 0⟩
      (sequences.foldl (fun s ranges => s.addBackward ranges (f.states + 1)) start).footprint.add
        0 (4 * sequences.length)

/-! ## Alternatives that are texts -/

def textBytes (d : Direction) (cs : List Char) : List Nat :=
  let bytes := (cs.flatMap String.utf8EncodeChar).map UInt8.toNat
  match d with
  | .forward => bytes
  | .backward => bytes.reverse

def texts? : Regex → Option (List (List Char))
  | .text cs => some [cs]
  | .alt a b =>
    match a.texts?, b.texts? with
    | some as, some bs => some (as ++ bs)
    | _, _ => none
  | _ => none

/-- The pieces between texts that end. -/
def piecesOf : List (List Nat) → List (List (List Nat))
  | [] => [[]]
  | [] :: tails => [] :: piecesOf tails
  | tail :: tails =>
    match piecesOf tails with
    | [] => [[tail]]
    | piece :: pieces => (tail :: piece) :: pieces

/-- A text that ends before any other begins need not end twice. -/
def dropRepeatedEnd (tails : List (List Nat)) : List (List Nat) :=
  match tails with
  | [] :: rest => [] :: rest.dropWhile List.isEmpty
  | _ => tails

/-- The tree of texts, of at most `length` bytes each, which are in the order of preference: what
stands behind a text that ends branches anew. -/
def treeFootprint : Nat → List (List Nat) → Footprint → Footprint
  | 0, _, f => f
  | length + 1, tails, f =>
    if tails.all List.isEmpty then f
    else
      let pieces := piecesOf (dropRepeatedEnd tails)
      let f := pieces.foldl (fun f piece =>
        let heads := (piece.filterMap List.head?).eraseDups
        let f := heads.foldl (fun f b =>
          treeFootprint length ((piece.filter fun tail => tail.head? == some b).map List.tail) f) f
        if heads.length ≤ 1 then f.add heads.length 0 else f.add 1 (8 * heads.length)) f
      f.add 1 (4 * ((pieces.filter fun piece => !piece.isEmpty).length + (pieces.length - 1)))

/-- The alternatives with the state in which they end. -/
def textsFootprint (d : Direction) (texts : List (List Char)) (f : Footprint) : Footprint :=
  let tails := texts.map (textBytes d)
  treeFootprint ((tails.map List.length).foldl max 0) tails (f.add 1 0)

/-! ## Expressions -/

/-- Where an expression stands in an alternation, if it is a branch of one. -/
inductive BranchPlace where
  | first
  | second
  | later

/-- The states that join the branches come behind the second one. -/
def BranchPlace.close : BranchPlace → Footprint → Footprint
  | .first, f => f
  | .second, f => f.add 2 8
  | .later, f => f.add 0 4

/-- What is there after an expression is laid out behind what was there before. -/
def layOut (d : Direction) : BranchPlace → Regex → Footprint → Footprint
  | place, .empty, f => place.close (f.add 1 0)
  | place, .text cs, f => place.close (f.add (textBytes d cs).length 0)
  | place, .one s, f => place.close (setFootprint d s f)
  | place, .anchor _, f => place.close (f.add 1 0)
  | place, .seq a b, f =>
    match d with
    | .forward => place.close (layOut d .first b (layOut d .first a f))
    | .backward => place.close (layOut d .first a (layOut d .first b f))
  | .first, .alt a b, f =>
    match texts? (.alt a b) with
    | some texts => textsFootprint d texts f
    | none => layOut d .second b (layOut d .first a f)
  | place, .alt a b, f => layOut d .later b (place.close (layOut d .first a f))
  | place, .times _ 0 none r, f =>
    if r.advances then place.close ((layOut d .first r (f.add 1 0)).add 0 8)
    else place.close ((layOut d .first r f).add 3 16)
  | place, .times _ (low + 1) none r, f =>
    place.close ((Footprint.iterate (layOut d .first r) (low + 1) f).add 1 8)
  | place, .times _ 0 (some 1) r, f =>
    place.close ((layOut d .first r (f.add 1 0)).add 1 8)
  | place, .times _ low (some high) r, f =>
    let f := Footprint.iterate (layOut d .first r) low (if low = 0 then f.add 1 0 else f)
    if low = high then place.close f
    else
      place.close (Footprint.iterate (fun f => (layOut d .first r (f.add 1 0)).add 0 8) (high - low)
        (f.add 1 0))
  | place, .group _ r, f =>
    match d with
    | .forward => place.close ((layOut d .first r (f.add 1 0)).add 1 0)
    | .backward => place.close (layOut d .first r f)

/-- Every match begins at the start of the text or, backwards, at its end. -/
def isPinned (d : Direction) : Regex → Bool
  | .empty | .text _ | .one _ => false
  | .anchor a =>
    match d with
    | .forward => a == .textStart
    | .backward => a == .textEnd
  | .seq a b =>
    match d with
    | .forward => isPinned d a || (a.isVoid && isPinned d b)
    | .backward => isPinned d b || (b.isVoid && isPinned d a)
  | .alt a b => isPinned d a && isPinned d b
  | .times _ low _ r => decide (0 < low) && isPinned d r
  | .group _ r => isPinned d r

/-- The machine of a whole pattern. It is a group by itself, and if it may match anywhere it begins
with a loop over the bytes before. -/
def footprint (d : Direction) (r : Regex) : Footprint :=
  (layOut d .first (.group 0 r) (if isPinned d r then ⟨1, 0⟩ else ⟨3, 16⟩)).add 1 0

def isTooLarge (r : Regex) : Bool :=
  (r.footprint .forward).isTooLarge || (r.footprint .backward).isTooLarge

end Regex
end Linearize
