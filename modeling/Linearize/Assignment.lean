import Linearize.Expr

/-!
# Linearize.Assignment

Assignments give values to some of the variables. An expression is evaluated term by term in the
order of its variables, and the first fault met, a variable without a value or an overflow, is
the result.
-/

namespace Linearize

abbrev Assignment := Var → Option Int

inductive EvalError where
  | unassigned (v : Var)
  | overflow
  deriving DecidableEq, Repr

namespace Assignment

def empty : Assignment := fun _ => none

def set (s : Assignment) (v : Var) (n : Int) : Assignment := fun w => if w = v then some n else s w

def setBool (s : Assignment) (v : Var) (b : Bool) : Assignment := s.set v (if b then 1 else 0)

end Assignment

namespace Expr

def evalTerms (s : Assignment) (acc : Int) : List (Var × Int) → Except EvalError Int
  | [] => .ok acc
  | (v, c) :: rest =>
    match s v with
    | none => .error (.unassigned v)
    | some n =>
      match (fit? (c * n)).bind fun p => fit? (acc + p) with
      | none => .error .overflow
      | some acc' => evalTerms s acc' rest

/-- The value at an assignment, computed within the range of 64-bit integers. -/
def eval (e : Expr) (s : Assignment) : Except EvalError Int := evalTerms s e.constant e.terms

end Expr

end Linearize
