import Linearize.Assignment
import Linearize.Sense

/-!
# Linearize.Constraint

Linear constraints between two expressions, with their exact meaning `Holds` and the check
`isSatisfied` that a program can run on an assignment.
-/

namespace Linearize

inductive Constraint where
  | le (lhs rhs : Expr)
  | eq (lhs rhs : Expr)
  deriving DecidableEq, Repr

namespace Constraint

/-- `lhs ≥ rhs` is kept as `rhs ≤ lhs`. -/
def ofSense (lhs : Expr) (s : Sense) (rhs : Expr) : Constraint :=
  match s with
  | .le => .le lhs rhs
  | .ge => .le rhs lhs
  | .eq => .eq lhs rhs

def lhs : Constraint → Expr
  | .le l _ => l
  | .eq l _ => l

def rhs : Constraint → Expr
  | .le _ r => r
  | .eq _ r => r

def sense : Constraint → Sense
  | .le _ _ => .le
  | .eq _ _ => .eq

def isInequality (c : Constraint) : Bool := c.sense = .le

/-- The constraint as pairs `lhs ≤ rhs`: both directions for an equality. -/
def inequalities : Constraint → List (Expr × Expr)
  | .le l r => [(l, r)]
  | .eq l r => [(l, r), (r, l)]

/-- `lhs - rhs` with the relation it has to 0. -/
def normalized (c : Constraint) : Option (Expr × Sense) :=
  match c.lhs.sub c.rhs with
  | none => none
  | some d => some (d, c.sense)

def insertVar (v : Var) : List Var → List Var
  | [] => [v]
  | w :: rest => if v < w then v :: w :: rest else if v = w then w :: rest else w :: insertVar v rest

def vars (c : Constraint) : List Var :=
  (c.lhs.vars ++ c.rhs.vars).foldr insertVar []

/-- The two values are in the relation, over exact integers. -/
def Holds (c : Constraint) (σ : Var → Int) : Prop :=
  match c with
  | .le l r => l.value σ ≤ r.value σ
  | .eq l r => l.value σ = r.value σ

instance (c : Constraint) (σ : Var → Int) : Decidable (c.Holds σ) := by
  cases c <;> unfold Holds <;> infer_instance

/-- Evaluates the normalized form, so a variable that cancels needs no value. -/
def isSatisfied (c : Constraint) (s : Assignment) : Except EvalError Bool :=
  match c.normalized with
  | none => .error .overflow
  | some (d, sense) =>
    match d.eval s with
    | .error e => .error e
    | .ok n => .ok (sense.compare n 0)

end Constraint

/-- Whether every constraint is satisfied. The first one that is not decides; one over a
variable without a value is not. `none` is an overflow met before the decision. -/
def Assignment.satisfies (s : Assignment) : List Constraint → Option Bool
  | [] => some true
  | c :: rest =>
    match c.isSatisfied s with
    | .ok true => s.satisfies rest
    | .ok false => some false
    | .error (.unassigned _) => some false
    | .error .overflow => none

end Linearize
