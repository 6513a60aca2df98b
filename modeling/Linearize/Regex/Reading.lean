import Linearize.Regex.ClassReading
import Linearize.Regex.Footprint
import Linearize.Regex.Normal
import Linearize.Text.Numeral

/-!
# Linearize.Regex.Reading

The written form of regular expressions: literals, `.`, classes, escapes, groups that capture or
not, alternatives, the quantifiers `*`, `+`, `?`, `{n}`, `{n,}` and `{n,m}` with their lazy
variants, and the anchors. Whatever else has a meaning in a pattern is refused, and so are patterns
that nest too deeply or are too large.
-/

namespace Linearize
namespace Regex

/-- An expression and how deeply its written form nests. -/
structure Part where
  regex : Regex
  depth : Nat

namespace Part

def maxDepth (parts : List Part) : Nat := (parts.map Part.depth).foldl max 0

/-- Several parts one after the other are one level more. -/
def concat (parts : List Part) : Part :=
  ⟨Regex.concat (parts.map Part.regex),
    if 2 ≤ parts.length then maxDepth parts + 1 else maxDepth parts⟩

/-- Alternatives are one level more. -/
def alternation : List Part → Part
  | [p] => p
  | parts => ⟨Regex.alternation (parts.map Part.regex), maxDepth parts + 1⟩

def ofBranches (branches : List (List Part)) : Part := alternation (branches.map concat)

end Part

/-- Digits between white space, and the text behind them. The number has 32 bits. -/
def readCount? (cs : List Char) : Option (Nat × List Char) :=
  let cs := cs.dropWhile Text.isBlank
  let digits := cs.takeWhile Char.isDigit
  let n := Text.digitsValue 0 digits
  if digits.isEmpty || 4294967296 ≤ n then none
  else some (n, (cs.dropWhile Char.isDigit).dropWhile Text.isBlank)

def readLimits? (cs : List Char) : Option (Nat × Option Nat × List Char) :=
  match readCount? cs with
  | none => none
  | some (low, '}' :: rest) => some (low, some low, rest)
  | some (low, ',' :: '}' :: rest) => some (low, none, rest)
  | some (low, ',' :: rest) =>
    match readCount? rest with
    | some (high, '}' :: rest') => if low ≤ high then some (low, some high, rest') else none
    | _ => none
  | some _ => none

inductive Quantifier where
  | absent
  | malformed
  | limits (low : Nat) (high : Option Nat) (rest : List Char)

def readQuantifier : List Char → Quantifier
  | '*' :: rest => .limits 0 none rest
  | '+' :: rest => .limits 1 none rest
  | '?' :: rest => .limits 0 (some 1) rest
  | '{' :: rest =>
    match readLimits? rest with
    | none => .malformed
    | some (low, high, rest') => .limits low high rest'
  | _ => .absent

def readQuantified? (p : Part) : Nat → List Char → Option (Part × List Char)
  | 0, cs => some (p, cs)
  | limit + 1, cs =>
    match readQuantifier cs with
    | .absent => some (p, cs)
    | .malformed => none
    | .limits low high ('?' :: rest) =>
      readQuantified? ⟨p.regex.repeated false low high, p.depth + 1⟩ limit rest
    | .limits low high rest =>
      readQuantified? ⟨p.regex.repeated true low high, p.depth + 1⟩ limit rest

/-- What an escape stands for outside a class. -/
def escape? (c : Char) : Option Regex :=
  match setEscape? c, anchorEscape? c with
  | some s, _ => some (ofSet s)
  | none, some a => some (.anchor a)
  | none, none => (charEscape? c).map fun x => .text [x]

mutual

/-- Alternatives, with groups numbered from `n` on; gives the next number and the text behind. -/
def readBranches? : Nat → Nat → List Char → Option (List (List Part) × Nat × List Char)
  | 0, _, _ => none
  | limit + 1, n, cs =>
    match readParts? limit n cs with
    | none => none
    | some (parts, n', '|' :: rest) =>
      match readBranches? limit n' rest with
      | none => none
      | some (branches, n'', rest') => some (parts :: branches, n'', rest')
    | some (parts, n', rest) => some ([parts], n', rest)

def readParts? : Nat → Nat → List Char → Option (List Part × Nat × List Char)
  | 0, _, _ => none
  | limit + 1, n, cs =>
    match cs with
    | [] => some ([], n, [])
    | '|' :: _ => some ([], n, cs)
    | ')' :: _ => some ([], n, cs)
    | _ =>
      match readPart? limit n cs with
      | none => none
      | some (p, n', rest) =>
        match readQuantified? p limit rest with
        | none => none
        | some (p', rest') =>
          match readParts? limit n' rest' with
          | none => none
          | some (parts, n'', rest'') => some (p' :: parts, n'', rest'')

/-- One part without its quantifiers. A quantifier is no part. -/
def readPart? : Nat → Nat → List Char → Option (Part × Nat × List Char)
  | 0, _, _ => none
  | limit + 1, n, cs =>
    match cs with
    | '(' :: '?' :: ':' :: rest =>
      match readBranches? limit n rest with
      | some (branches, n', ')' :: rest') =>
        let p := Part.ofBranches branches
        some (⟨p.regex, p.depth + 1⟩, n', rest')
      | _ => none
    | '(' :: '?' :: _ => none
    | '(' :: rest =>
      match readBranches? limit (n + 1) rest with
      | some (branches, n', ')' :: rest') =>
        let p := Part.ofBranches branches
        some (⟨.group n p.regex, p.depth + 1⟩, n', rest')
      | _ => none
    | '[' :: rest =>
      match readClass? limit rest with
      | none => none
      | some (s, depth, rest') => some (⟨ofSet s, depth⟩, n, rest')
    | '\\' :: c :: rest => (escape? c).map fun r => (⟨r, 0⟩, n, rest)
    | '.' :: rest => some (⟨.one .any, 0⟩, n, rest)
    | '^' :: rest => some (⟨.anchor .textStart, 0⟩, n, rest)
    | '$' :: rest => some (⟨.anchor .textEnd, 0⟩, n, rest)
    | c :: rest =>
      if c = '*' || c = '+' || c = '?' || c = '{' || c = '\\' then none
      else some (⟨.text [c], 0⟩, n, rest)
    | [] => none

end

def depthLimit : Nat := 250

/-- Neither too deep nor too large. -/
def Part.isAcceptable (p : Part) : Bool := p.depth ≤ depthLimit && !p.regex.isTooLarge

/-- The alternatives of a whole pattern, the first of which begins with an unwritten empty part. -/
def ofWhole : List (List Part) → Part
  | [] => .ofBranches []
  | parts :: branches => .ofBranches ((⟨.empty, 0⟩ :: parts) :: branches)

/-- The regular expression that a text writes; `none` if it is no valid pattern. -/
def parse? (cs : List Char) : Option Regex :=
  match readBranches? (3 * cs.length + 3) 1 cs with
  | some (branches, _, []) =>
    if (ofWhole branches).isAcceptable then some (ofWhole branches).regex else none
  | _ => none

end Regex
end Linearize
