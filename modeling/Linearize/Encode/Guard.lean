import Linearize.Encode.Connective
import Linearize.Encode.Error

/-!
# Linearize.Encode.Guard

Constraint sets that hold under a condition. A constraint is switched off by a slack on its
right-hand side: `M (1 - c)` leaves it in force for `c = 1` only, provided that `M` is no less than
the violation that a switched-off constraint can reach.
-/

namespace Linearize

def relaxPairs (slack : Expr) : List (Expr × Expr) → Option (List Constraint)
  | [] => some []
  | (l, r) :: rest =>
    match r.add slack with
    | none => none
    | some r' =>
      match relaxPairs slack rest with
      | none => none
      | some cs => some (.le l r' :: cs)

/-- Every constraint as `lhs ≤ rhs + slack`, both directions of an equality. -/
def relax (cs : List Constraint) (slack : Expr) : Option (List Constraint) :=
  relaxPairs slack (cs.flatMap Constraint.inequalities)

/-- Enforces `body` when `cond = 1`. -/
def ifThen (cond : Var) (body : List Constraint) (bigM : Int) : Option (List Constraint) :=
  match (Expr.complement cond).scale bigM with
  | none => none
  | some slack => relax body slack

def ifThenElse (cond : Var) (body otherwise : List Constraint) (bigM : Int) :
    Option (List Constraint) := do
  let on ← ifThen cond body bigM
  let slack ← (Expr.ofVar cond).scale bigM
  let off ← relax otherwise slack
  return on ++ off

/-- The rows of branch `i` of a chain with the selector `s`. With
`p = cond + sum of (1 - c) over the conditions c before`, the selector has to be 1 exactly if
`p = i + 1`, which is `p ≤ s + i` and `p ≥ (i + 1) s`. -/
def branchRows (reach : Expr) (i : Nat) (cond s : Var) (body : List Constraint) (bigM : Int) :
    Option (List Constraint) := do
  let p ← reach.add (.ofVar cond)
  let upper ← (Expr.ofVar s).addConst i
  let lower ← (Expr.ofVar s).scale (i + 1)
  let slack ← (Expr.complement s).scale bigM
  let rest ← relax body slack
  return .le p upper :: .le lower p :: rest

/-- The rows of the branches from `i` on; `reach` counts the conditions before that are 0. -/
def chainRows (bigM : Int) (reach : Expr) (i : Nat) :
    List (Var × Var × List Constraint) → Option (List Constraint)
  | [] => some []
  | (cond, s, body) :: rest => do
    let rows ← branchRows reach i cond s body bigM
    let reach' ← reach.add (.complement cond)
    let later ← chainRows bigM reach' (i + 1) rest
    return rows ++ later

namespace Model

/-- The selector of every position of a chain, from position `i` on. -/
def selectors (m : Model) (conds : List Var) (i : Nat) : List Var → Model × List Var
  | [] => (m, [])
  | _ :: rest =>
    let (m', s) := m.binary (.selector conds i)
    let (m'', ss) := m'.selectors conds (i + 1) rest
    (m'', s :: ss)

/-- Enforces the list of the first condition that is 1, and `otherwise` if none is. With two or
more conditions every branch gets a selector. -/
def chain (m : Model) (conds : List Var) (bodies : List (List Constraint))
    (otherwise : List Constraint) (bigM : Int) : Except EncodeError (Model × List Constraint) :=
  if conds.length ≠ bodies.length then .error (.arityMismatch conds.length bodies.length)
  else
    match conds, bodies with
    | [], _ => .ok (m, otherwise)
    | [cond], body :: _ =>
      orOverflow ((ifThenElse cond body otherwise bigM).map fun cs => (m, cs))
    | _, _ =>
      let (m', ss) := m.selectors conds 0 conds
      orOverflow do
        let rows ← chainRows bigM .zero 0 (conds.zip (ss.zip bodies))
        let total ← Expr.sum ss
        let slack ← total.scale bigM
        let last ← relax otherwise slack
        return (m', rows ++ last)

end Model

end Linearize
