import Linearize.Encode.Comparison
import Linearize.Table

/-!
# Linearize.Statement.Basic

Statements after reading: variables are columns, terms are expressions, and a big-M is there if it
was written. A scope tells which column a declared name stands for and of which kind it is.
-/

namespace Linearize

inductive Statement where
  | compare (op : Comparison) (a b : Expr) (bigM : Option Int)
  | conjunction (operands : List Var)
  | disjunction (operands : List Var)
  | xor (inputs : List Var) (output : Var)
  | truncatedXor (operands : List Var)
  | truncatedWordXor (operands : List Var)
  | linear (row : Constraint)
  | ifThen (cond : Var) (body : List Constraint) (bigM : Option Int)
  | ifThenElse (cond : Var) (body otherwise : List Constraint) (bigM : Option Int)
  | chain (conds : List Var) (bodies : List (List Constraint)) (otherwise : List Constraint)
      (bigM : Option Int)
  deriving DecidableEq, Repr

/-- What a line says: a declaration, or a statement about declared variables. -/
inductive Clause where
  | declareBinary (name : String)
  | declareInteger (name : String) (lower upper : Int)
  | state (s : Statement)
  deriving DecidableEq, Repr

inductive Declared where
  | binary (v : Var)
  | integer (v : Var)
  deriving DecidableEq, Repr

def Declared.var : Declared → Var
  | .binary v => v
  | .integer v => v

/-- Declared names with their columns. -/
abbrev Scope := Table Declared

end Linearize
