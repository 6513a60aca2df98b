import Linearize.Text.CharClass
import Linearize.Text.Numeral

/-!
# Linearize.Statement.Tree

The written form of statements: lists in parentheses whose elements are lists, identifiers,
integers and operators, separated by space. Reading is by descent with a bound on its depth that
every text respects.
-/

namespace Linearize

inductive Tree where
  | ident (name : String)
  | int (n : Int)
  | node (children : List Tree)
  deriving Repr

namespace Tree

/-- Space between elements; a statement has no other white space inside. -/
def isSpace (c : Char) : Bool := c = ' ' || c = '\t' || c = '\r' || c = '\n'

def skipSpace (cs : List Char) : List Char := cs.dropWhile isSpace

def isIdentStart (c : Char) : Bool := c.isAlpha

def isIdentChar (c : Char) : Bool :=
  Text.isAlphanumeric c || c = '[' || c = ']' || c = '_' || c = '.'

def stripWord? : List Char → List Char → Option (List Char)
  | [], cs => some cs
  | w :: ws, c :: cs => if w = c then stripWord? ws cs else none
  | _ :: _, [] => none

/-- The first of some fixed words that the text starts with. -/
def readWord? : List String → List Char → Option (Tree × List Char)
  | [], _ => none
  | w :: ws, cs =>
    match stripWord? w.toList cs with
    | some rest => some (.ident w, rest)
    | none => readWord? ws cs

def readIdent? : List Char → Option (Tree × List Char)
  | [] => none
  | c :: cs =>
    if isIdentStart c then
      some (.ident (String.ofList (c :: cs.takeWhile isIdentChar)), cs.dropWhile isIdentChar)
    else none

def readDigits? (negative : Bool) (cs : List Char) : Option (Tree × List Char) :=
  let digits := cs.takeWhile Char.isDigit
  if digits.isEmpty then none
  else
    match Text.readInt? negative digits with
    | none => none
    | some n => some (.int n, cs.dropWhile Char.isDigit)

/-- An integer in the range of 64 bits; digits out of it are no integer. -/
def readInt? : List Char → Option (Tree × List Char)
  | '-' :: cs => readDigits? true cs
  | cs => readDigits? false cs

/-- Words that are not identifiers although they start with letters. -/
def hyphenated : List String := ["xor-truncated-wordwise", "xor-truncated"]

def operators : List String := ["<=", ">=", "=", "+", "-", "*"]

/-- A leaf: a hyphenated word, an identifier, an integer or an operator, in this order. -/
def readLeaf? (cs : List Char) : Option (Tree × List Char) :=
  match readWord? hyphenated cs with
  | some r => some r
  | none =>
    match readIdent? cs with
    | some r => some r
    | none =>
      match readInt? cs with
      | some r => some r
      | none => readWord? operators cs

mutual

def readItem? : Nat → List Char → Option (Tree × List Char)
  | depth + 1, '(' :: cs =>
    let r := readElements depth (skipSpace cs)
    match skipSpace r.2 with
    | ')' :: rest => some (.node r.1, rest)
    | _ => none
  | _, cs => readLeaf? cs

/-- The elements of a list up to the first text that is no element. -/
def readElements : Nat → List Char → List Tree × List Char
  | 0, cs => ([], cs)
  | depth + 1, cs =>
    match readItem? depth cs with
    | none => ([], cs)
    | some (t, rest) =>
      let r := readMore depth rest
      (t :: r.1, r.2)

/-- Further elements, each behind a space. Space that no element follows is not consumed. -/
def readMore : Nat → List Char → List Tree × List Char
  | 0, cs => ([], cs)
  | depth + 1, cs =>
    match cs with
    | [] => ([], [])
    | c :: _ =>
      if isSpace c then
        match readItem? depth (skipSpace cs) with
        | none => ([], cs)
        | some (t, rest) =>
          let r := readMore depth rest
          (t :: r.1, r.2)
      else ([], cs)

end

/-- One element with space around it and nothing else. An error is the text where reading ended:
from the element on if it cannot be read, else what follows it. -/
def parse (cs : List Char) : Except (List Char) Tree :=
  let start := skipSpace cs
  match readItem? (2 * start.length + 1) start with
  | none => .error start
  | some (t, rest) =>
    match skipSpace rest with
    | [] => .ok t
    | more => .error more

end Tree

end Linearize
