import Linearize.Model.Naming
import Linearize.Solver.Summary
import Linearize.Solver.Values

/-!
# Linearize.Solver.Report

The report of a finished run: the summary of the transcript and, unless the model is infeasible,
the values of all variables and the weight of the solution.
-/

namespace Linearize

inductive ModelType where
  | cipher
  | xorDifferential
  | xorLinear
  | truncatedDifferential
  | wordwiseTruncatedDifferential
  deriving DecidableEq, Repr

namespace ModelType

def all : List ModelType :=
  [.cipher, .xorDifferential, .xorLinear, .truncatedDifferential, .wordwiseTruncatedDifferential]

def name : ModelType → String
  | .cipher => "cipher"
  | .xorDifferential => "xor_differential"
  | .xorLinear => "xor_linear"
  | .truncatedDifferential => "deterministic_truncated_xor_differential"
  | .wordwiseTruncatedDifferential => "wordwise_deterministic_truncated_xor_differential"

def ofName? (s : String) : Option ModelType := all.find? fun t => t.name = s

/-- Whether the weight is reported as it is, and not in tenths. -/
def isTruncated : ModelType → Bool
  | .truncatedDifferential => true
  | .wordwiseTruncatedDifferential => true
  | _ => false

end ModelType

/-- The integer variable that holds the weight. -/
def probabilityName : String := "probability"

structure Report where
  status : SolveStatus
  /-- Absent if the model is infeasible or has no variable for it. -/
  totalWeight : Option Float
  integers : VariableValues
  binaries : VariableValues
  solveTime : Float

def weightOf (type : ModelType) (p : Float) : Float := if type.isTruncated then p else p / 10.0

namespace Report

def infeasible (summary : Summary) : Report :=
  ⟨summary.status, none, .empty, .empty, summary.solveTime⟩

def ofSolution (summary : Summary) (type : ModelType) (binaries integers : VariableValues) :
    Report :=
  ⟨summary.status, (integers.values.get? probabilityName).map (weightOf type), integers, binaries,
    summary.solveTime⟩

end Report

/-- The report of a run. The solution is looked at only if the model is not infeasible; `none` is
one that is not there or not text. -/
def Model.report (m : Model) (specs : SolverSpecs) (type : ModelType) (solver : String)
    (transcript : List Char) (solution : Option (List Char)) : Except SolverError Report :=
  match specs.summary solver transcript with
  | .error e => .error e
  | .ok summary =>
    match summary.status, solution with
    | .unsatisfiable, _ => .ok (.infeasible summary)
    | .satisfiable, none => .error .unreadableSolution
    | .satisfiable, some text =>
      match m.binaryNames, m.integerNames with
      | some binaries, some integers =>
        .ok (.ofSolution summary type (.ofSolution binaries text) (.ofSolution integers text))
      | _, _ => .error .unnamedColumn

end Linearize
