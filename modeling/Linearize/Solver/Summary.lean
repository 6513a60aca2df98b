import Linearize.Solver.Spec

/-!
# Linearize.Solver.Summary

Status and solve time from the transcript of a solver.
-/

namespace Linearize

inductive SolveStatus where
  | satisfiable
  | unsatisfiable
  deriving DecidableEq, Repr

def SolveStatus.text : SolveStatus → String
  | .satisfiable => "SATISFIABLE"
  | .unsatisfiable => "UNSATISFIABLE"

inductive SolverError where
  | unknownSolver (name : String)
  | missingOutput (solver : String)
  | invalidTime (text : String)
  /-- The solution is not there, or is not text. -/
  | unreadableSolution
  /-- A column of the model has no name. -/
  | unnamedColumn
  deriving DecidableEq, Repr

def SolverError.message : SolverError → String
  | .unknownSolver n => "unknown solver: " ++ n
  | .missingOutput n =>
    "no solve time in the output of " ++ n ++ "; the solver license may be missing"
  | .invalidTime t => "invalid solve time \x60" ++ t ++ "\x60"
  | .unreadableSolution => "the solution cannot be read"
  | .unnamedColumn => "a column has no name"

structure Summary where
  status : SolveStatus
  /-- In seconds. -/
  solveTime : Float

/-- Whether `part` occurs in a text. -/
def occursIn (part : List Char) : List Char → Bool
  | [] => part.isEmpty
  | c :: cs => part.isPrefixOf (c :: cs) || occursIn part cs

namespace SolverSpec

/-- The text of the solve time, empty if the group that holds it took no part in the match. -/
def timeText? (spec : SolverSpec) (transcript : List Char) : Option (List Char) :=
  match spec.timePattern.search? transcript with
  | none => none
  | some m => some ((m.group? 1).getD [])

def status (spec : SolverSpec) (transcript : List Char) : SolveStatus :=
  if occursIn spec.infeasible.toList transcript then .unsatisfiable else .satisfiable

end SolverSpec

def SolverSpecs.summary (specs : SolverSpecs) (solver : String) (transcript : List Char) :
    Except SolverError Summary :=
  match specs.get? solver with
  | none => .error (.unknownSolver solver)
  | some spec =>
    match spec.timeText? transcript with
    | none => .error (.missingOutput solver)
    | some text =>
      match Text.parseFloat? text with
      | none => .error (.invalidTime (String.ofList text))
      | some time => .ok ⟨spec.status transcript, time⟩

end Linearize
