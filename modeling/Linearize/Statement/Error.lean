/-!
# Linearize.Statement.Error

What is wrong with a line that is no statement in its scope.
-/

namespace Linearize

/-- What a place in a statement asks for. -/
inductive Expectation where
  | list
  | statement
  | identifier
  | integer
  | branchCondition
  | linearConstraint
  | expression
  | constantFactor
  deriving DecidableEq, Repr

def Expectation.text : Expectation → String
  | .list => "list"
  | .statement => "statement"
  | .identifier => "identifier"
  | .integer => "integer"
  | .branchCondition => "branch condition"
  | .linearConstraint => "linear constraint"
  | .expression => "expression"
  | .constantFactor => "constant factor"

inductive ReadError where
  | malformed (near : String)
  | unknownOperator (name : String)
  | undefinedVariable (name : String)
  | duplicateVariable (name : String)
  | notBinary (name : String)
  | expected (what : Expectation)
  | wrongArgumentCount (name : String)
  | nonPositiveBigM (n : Int)
  | overflow
  deriving DecidableEq, Repr

def quoted (s : String) : String := "\x60" ++ s ++ "\x60"

def ReadError.message : ReadError → String
  | .malformed s => "syntax error near " ++ quoted s
  | .unknownOperator s => "unknown operator " ++ quoted s
  | .undefinedVariable s => "undefined variable " ++ quoted s
  | .duplicateVariable s => quoted s ++ " is declared twice"
  | .notBinary s => quoted s ++ " is not a binary variable"
  | .expected w => w.text ++ " expected"
  | .wrongArgumentCount s => "wrong number of arguments for " ++ quoted s
  | .nonPositiveBigM n => "big-M must be positive, got " ++ toString n
  | .overflow => "overflow"

end Linearize
