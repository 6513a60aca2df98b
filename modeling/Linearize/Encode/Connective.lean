import Linearize.Model

/-!
# Linearize.Encode.Connective

Indicators of conjunctions and disjunctions. Each encoder gives a binary indicator and the rows
that tie it to its operands; the indicator is found under the list of operands in their order.
-/

namespace Linearize

/-- A model, an indicator in it and the rows that define the indicator; the rows are not yet part
of the model. -/
structure Encoded where
  model : Model
  indicator : Var
  rows : List Constraint
  deriving DecidableEq, Repr

/-- `r = 1` iff `a = 1` and `b = 1`. -/
def and2Rows (a b r : Var) : Option (List Constraint) := do
  let sum ← (Expr.ofVar a).add (.ofVar b)
  let both ← sum.addConst (-1)
  return [.le both (.ofVar r), .le (.ofVar r) (.ofVar a), .le (.ofVar r) (.ofVar b)]

/-- `r = 1` iff `a = 1` or `b = 1`. -/
def or2Rows (a b r : Var) : Option (List Constraint) := do
  let sum ← (Expr.ofVar a).add (.ofVar b)
  return [.le (.ofVar r) sum, .le (.ofVar a) (.ofVar r), .le (.ofVar b) (.ofVar r)]

/-- `r = 1` iff every operand is 1. -/
def andRows (vs : List Var) (r : Var) : Option (List Constraint) := do
  let sum ← Expr.sum vs
  let low ← sum.addConst (-vs.length)
  let all ← low.addConst 1
  return .le all (.ofVar r) :: vs.map fun v => .le (.ofVar r) (.ofVar v)

/-- `r = 1` iff some operand is 1. -/
def orRows (vs : List Var) (r : Var) : Option (List Constraint) := do
  let sum ← Expr.sum vs
  return .le (.ofVar r) sum :: vs.map fun v => .le (.ofVar v) (.ofVar r)

namespace Model

def indicate (m : Model) (k : Key) (rows : Var → Option (List Constraint)) : Option Encoded :=
  match rows (m.binary k).2 with
  | none => none
  | some cs => some ⟨(m.binary k).1, (m.binary k).2, cs⟩

def and2 (m : Model) (a b : Var) : Option Encoded := m.indicate (.and [a, b]) (and2Rows a b)

def or2 (m : Model) (a b : Var) : Option Encoded := m.indicate (.or [a, b]) (or2Rows a b)

def conjunction (m : Model) (vs : List Var) : Option Encoded := m.indicate (.and vs) (andRows vs)

def disjunction (m : Model) (vs : List Var) : Option Encoded := m.indicate (.or vs) (orRows vs)

end Model

end Linearize
