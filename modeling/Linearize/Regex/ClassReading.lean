import Linearize.Regex.Escape

/-!
# Linearize.Regex.ClassReading

The written form of sets, in brackets: characters, ranges, escapes, named sets such as `[:alpha:]`
and sets inside sets, with `^` for the complement and the operators `&&`, `--` and `~~`. Items next
to each other are a union, which binds tighter than the operators; the operators have one rank and
group to the left.
-/

namespace Linearize
namespace Regex

/-- Code points of the sets that have a name. -/
def namedRanges : List (String × List (Nat × Nat)) := [
  ("alnum", [(48, 57), (65, 90), (97, 122)]),
  ("alpha", [(65, 90), (97, 122)]),
  ("ascii", [(0, 127)]),
  ("blank", [(9, 9), (32, 32)]),
  ("cntrl", [(0, 31), (127, 127)]),
  ("digit", [(48, 57)]),
  ("graph", [(33, 126)]),
  ("lower", [(97, 122)]),
  ("print", [(32, 126)]),
  ("punct", [(33, 47), (58, 64), (91, 96), (123, 126)]),
  ("space", [(9, 13), (32, 32)]),
  ("upper", [(65, 90)]),
  ("word", [(48, 57), (65, 90), (95, 95), (97, 122)]),
  ("xdigit", [(48, 57), (65, 70), (97, 102)])]

def readName? (cs : List Char) : Option (CharSet × List Char) :=
  match cs.dropWhile (· != ':') with
  | ':' :: ']' :: rest =>
    (namedRanges.lookup (String.ofList (cs.takeWhile (· != ':')))).map fun ranges => (⟨ranges⟩, rest)
  | _ => none

/-- A named set behind its opening bracket. What does not have this form may still be a set inside
the set. -/
def readNamed? : List Char → Option (CharSet × List Char)
  | ':' :: '^' :: cs => (readName? cs).map fun r => (r.1.compl, r.2)
  | ':' :: cs => readName? cs
  | _ => none

/-- One end of a range, or an item by itself. -/
inductive ClassAtom where
  | char (c : Char)
  | set (s : CharSet)

def ClassAtom.toSet : ClassAtom → CharSet
  | .char c => .single c
  | .set s => s

def readClassAtom? : List Char → Option (ClassAtom × List Char)
  | [] => none
  | ['\\'] => none
  | '\\' :: c :: rest =>
    match setEscape? c with
    | some s => some (.set s, rest)
    | none => (charEscape? c).map fun x => (.char x, rest)
  | c :: rest => some (.char c, rest)

/-- What follows the dash of a range. A dash before another or before the end of the class is no
part of a range. -/
def afterDash? : List Char → Option (List Char)
  | '-' :: ']' :: _ => none
  | '-' :: '-' :: _ => none
  | '-' :: rest => some rest
  | _ => none

/-- A range has characters at both ends, the lower one first. -/
def rangeOf? : ClassAtom → ClassAtom → Option CharSet
  | .char low, .char high => if low ≤ high then some (.span low.toNat high.toNat) else none
  | _, _ => none

/-- A character, an escape or a range, with something behind it. -/
def readItem? (cs : List Char) : Option (CharSet × List Char) :=
  match readClassAtom? cs with
  | none => none
  | some (_, []) => none
  | some (a, rest) =>
    match afterDash? rest with
    | none => some (a.toSet, rest)
    | some rest' =>
      match readClassAtom? rest' with
      | none => none
      | some (b, rest'') => (rangeOf? a b).map fun s => (s, rest'')

/-- The items read so far: their union, how many they are and how deeply they nest. -/
structure ClassItems where
  set : CharSet
  count : Nat
  depth : Nat

namespace ClassItems

def empty : ClassItems := ⟨.empty, 0, 0⟩

def add (items : ClassItems) (s : CharSet) (depth : Nat) : ClassItems :=
  ⟨items.set.union s, items.count + 1, max items.depth depth⟩

/-- The items as one set; a union of several is one level more. -/
def close (items : ClassItems) : CharSet × Nat :=
  (items.set, if 2 ≤ items.count then items.depth + 1 else items.depth)

end ClassItems

abbrev ClassOperand := Option ((CharSet → CharSet → CharSet) × CharSet × Nat)

def ClassOperand.close (left : ClassOperand) (items : ClassItems) : CharSet × Nat :=
  match left with
  | none => items.close
  | some (op, s, depth) => (op s items.close.1, max depth items.close.2 + 1)

def readOperator? : List Char → Option ((CharSet → CharSet → CharSet) × List Char)
  | '&' :: '&' :: rest => some (CharSet.inter, rest)
  | '-' :: '-' :: rest => some (CharSet.diff, rest)
  | '~' :: '~' :: rest => some (CharSet.symmDiff, rest)
  | _ => none

/-- What comes first in a class: dashes are characters, and so is a bracket that would close it. -/
def readLeading (cs : List Char) : ClassItems × List Char :=
  let dashes := cs.takeWhile (· == '-')
  let items := dashes.foldl (fun items c => items.add (.single c) 0) .empty
  match dashes, cs.dropWhile (· == '-') with
  | [], ']' :: rest => (items.add (.single ']') 0, rest)
  | _, rest => (items, rest)

mutual

def readItems? : Nat → ClassOperand → ClassItems → List Char →
    Option (CharSet × Nat × List Char)
  | 0, _, _, _ => none
  | _ + 1, _, _, [] => none
  | _ + 1, left, items, ']' :: rest =>
    some ((left.close items).1, (left.close items).2, rest)
  | limit + 1, left, items, '[' :: rest =>
    match readNamed? rest with
    | some (s, rest') => readItems? limit left (items.add s 0) rest'
    | none =>
      match readClass? limit rest with
      | none => none
      | some (s, depth, rest') => readItems? limit left (items.add s depth) rest'
  | limit + 1, left, items, cs =>
    match readOperator? cs with
    | some (op, rest) => readItems? limit (some (op, left.close items)) .empty rest
    | none =>
      match readItem? cs with
      | none => none
      | some (s, rest) => readItems? limit left (items.add s 0) rest

/-- A class behind its opening bracket, how deeply it nests and the text behind it. -/
def readClass? : Nat → List Char → Option (CharSet × Nat × List Char)
  | 0, _ => none
  | limit + 1, '^' :: cs =>
    (readItems? limit none (readLeading cs).1 (readLeading cs).2).map fun (s, depth, rest) =>
      (s.compl, depth + 1, rest)
  | limit + 1, cs =>
    (readItems? limit none (readLeading cs).1 (readLeading cs).2).map fun (s, depth, rest) =>
      (s, depth + 1, rest)

end

end Regex
end Linearize
