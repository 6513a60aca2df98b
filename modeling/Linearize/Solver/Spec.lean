import Linearize.Regex.Reading
import Linearize.Regex.Search
import Linearize.Table

/-!
# Linearize.Solver.Spec

What has to be known of a solver to read its transcript: a pattern whose first group holds the
solve time, and the text that it prints iff the model is infeasible.
-/

namespace Linearize

structure SolverSpec where
  timePattern : Regex
  infeasible : String
  deriving DecidableEq, Repr

/-- `none` if the pattern is not valid. -/
def SolverSpec.ofText? (timePattern infeasible : String) : Option SolverSpec :=
  (Regex.parse? timePattern.toList).map fun r => ⟨r, infeasible⟩

abbrev SolverSpecs := Table SolverSpec

namespace SolverSpecs

/-- Name, time pattern and text of infeasibility of the solvers that are known from the start. -/
def defaultTexts : List (String × String × String) := [
  ("glpk", "Time used:[\\s]+([0-9]+\\.[0-9]+)", "PROBLEM HAS NO PRIMAL FEASIBLE SOLUTION"),
  ("cplex", "Solution time =[\\s]+([0-9]+\\.[0-9]+)", "MIP - Integer infeasible."),
  ("Gurobi",
    "Explored [0-9]+ nodes \\([0-9]+ simplex iterations\\) in ([0-9]+\\.[0-9]+) seconds",
    "Model is infeasible"),
  ("scip", "Solving Time \\(sec\\)[\\s]+:[\\s]+([0-9]+\\.[0-9]+)", "problem is infeasible")]

def default : SolverSpecs :=
  defaultTexts.foldl (fun specs (name, pattern, infeasible) =>
    match SolverSpec.ofText? pattern infeasible with
    | none => specs
    | some spec => specs.put name spec) []

end SolverSpecs

end Linearize
