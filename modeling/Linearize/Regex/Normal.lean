import Linearize.Regex.Basic

/-!
# Linearize.Regex.Normal

Normal forms. Concatenations and alternations are flat and nest to the right, neighbouring texts are
one text, a set of one character is a text, alternatives of one character are a set, and what all
alternatives begin with stands before them once. The loop of an expression that may match nothing
depends on its form, so the form is part of what a pattern means.
-/

namespace Linearize
namespace Regex

def factors : Regex → List Regex
  | .empty => []
  | .seq a b => a.factors ++ b.factors
  | r => [r]

def ofFactors : List Regex → Regex
  | [] => .empty
  | [r] => r
  | r :: rs => .seq r (ofFactors rs)

/-- Puts a factor in front, joined with a text behind it if it is a text as well. -/
def joinFactor : Regex → List Regex → List Regex
  | .text a, .text b :: rs => .text (a ++ b) :: rs
  | r, rs => r :: rs

def concat (rs : List Regex) : Regex := ofFactors ((rs.flatMap factors).foldr joinFactor [])

def ofSet (s : CharSet) : Regex :=
  match s.toChar? with
  | some c => .text [c]
  | none => .one s

def branches : Regex → List Regex
  | .alt a b => a.branches ++ b.branches
  | r => [r]

/-- Without branches it matches nothing. -/
def ofBranches : List Regex → Regex
  | [] => .one .empty
  | [r] => r
  | r :: rs => .alt r (ofBranches rs)

def toChar? : Regex → Option Char
  | .text [c] => some c
  | _ => none

def toSet? : Regex → Option CharSet
  | .one s => some s
  | _ => none

/-- The union of what all of the expressions stand for, if all are characters or all are sets. -/
def unionOf? (rs : List Regex) : Option CharSet :=
  match rs.mapM toChar? with
  | some cs => some (cs.foldl (fun s c => (CharSet.single c).union s) .empty)
  | none => (rs.mapM toSet?).map fun sets => sets.foldl (fun s t => t.union s) .empty

def ofDistinctBranches (rs : List Regex) : Regex :=
  match unionOf? rs with
  | some s => ofSet s
  | none => ofBranches rs

/-- How many factors two lists have in common from the start. -/
def commonLength : List Regex → List Regex → Nat
  | r :: rs, t :: ts => if r = t then commonLength rs ts + 1 else 0
  | _, _ => 0

/-- The factors that all branches begin with; none unless all are concatenations. -/
def commonFactors : List Regex → List Regex
  | [] => []
  | r :: rs =>
    if (r :: rs).all fun t => 2 ≤ t.factors.length then
      r.factors.take (rs.foldl (fun n t => min n (commonLength r.factors t.factors))
        r.factors.length)
    else []

/-- The alternation of branches that are flat. -/
def ofFlatBranches (rs : List Regex) : Regex :=
  match rs with
  | [r] => r
  | _ =>
    match unionOf? rs, commonFactors rs with
    | some s, _ => ofSet s
    | none, [] => ofBranches rs
    | none, common =>
      let rests := rs.map fun r => concat (r.factors.drop common.length)
      concat (common ++ [ofDistinctBranches (rests.flatMap branches)])

def alternation (rs : List Regex) : Regex := ofFlatBranches (rs.flatMap branches)

/-- More than once makes no difference to what matches no character. -/
def repeated (greedy : Bool) (low : Nat) (high : Option Nat) (r : Regex) : Regex :=
  let low := if r.isVoid then min low 1 else low
  let high := if r.isVoid then some (min (high.getD 1) 1) else high
  if high = some 0 then .empty
  else if low = 1 ∧ high = some 1 then r
  else .times greedy low high r

end Regex
end Linearize
