import Linearize.Expr
import Linearize.Regex.Reading
import Linearize.Regex.Search
import Linearize.Table

/-!
# Linearize.Solver.Values

Values of variables from the text of a solution. A record is `x_`, `y_` or `z_` with the number of a
column, counted from 1, then white space, perhaps a star, and a decimal number. Of several records
of a column the first counts.
-/

namespace Linearize

def recordPattern : String :=
  "\\b[xyz]_(\\d+)\\s+\\*?\\s*(-?[0-9]*\\.?[0-9]+(?:[eE][-+]?[0-9]+)?)"

/-- Column and value of a record whose numbers can be read. -/
def recordOf? (m : Regex.Match) : Option (Nat × Float) :=
  match m.group? 1, m.group? 2 with
  | some column, some value =>
    match Text.parseNatural? column, Text.parseFloat? value with
    | some n, some x => some (n, x)
    | _, _ => none
  | _, _ => none

def records (solution : List Char) : List (Nat × Float) :=
  match Regex.parse? recordPattern.toList with
  | none => []
  | some r => (r.allMatches solution).filterMap recordOf?

structure VariableValues where
  values : Table Float
  /-- Names without a record; their value is 0. -/
  unmatched : List String

namespace VariableValues

def empty : VariableValues := ⟨[], []⟩

def addAll (found : List (Nat × Float)) : VariableValues → List (String × Var) → VariableValues
  | acc, [] => acc
  | acc, (name, v) :: rest =>
    match found.lookup (v + 1) with
    | some x => addAll found { acc with values := acc.values.put name x } rest
    | none =>
      addAll found ⟨acc.values.put name 0.0, acc.unmatched ++ [name]⟩ rest

/-- The value of every requested name; of a name requested twice the last one. -/
def ofSolution (requested : List (String × Var)) (solution : List Char) : VariableValues :=
  addAll (records solution) empty requested

end VariableValues

end Linearize
