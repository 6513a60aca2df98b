import Linearize.Encode.Connective

/-!
# Linearize.Encode.Comparison

Indicators of comparisons. A comparison of two expressions has a binary indicator which is 1 iff
the comparison is true, provided that the big-M exceeds the distance of the two values. All
comparisons go back to `less`.
-/

namespace Linearize

inductive Comparison where
  | less
  | leq
  | greater
  | geq
  | eq
  | neq
  deriving DecidableEq, Repr

def Comparison.Holds : Comparison → Int → Int → Prop
  | .less, x, y => x < y
  | .leq, x, y => x ≤ y
  | .greater, x, y => y < x
  | .geq, x, y => y ≤ x
  | .eq, x, y => x = y
  | .neq, x, y => x ≠ y

/-- `a ≤ b - 1 + (1 - r) M` and `a ≥ b - r M`. -/
def lessRows (a b : Expr) (bigM : Int) (r : Var) : Option (List Constraint) := do
  let below ← b.addConst (-1)
  let off ← (Expr.complement r).scale bigM
  let upper ← below.add off
  let on ← (Expr.ofVar r).scale bigM
  let lower ← b.sub on
  return [.le a upper, .le lower a]

namespace Model

def less (m : Model) (a b : Expr) (bigM : Int) : Option Encoded :=
  m.indicate (.less a b) (lessRows a b bigM)

/-- `a ≤ b` is `a < b + 1`. -/
def leq (m : Model) (a b : Expr) (bigM : Int) : Option Encoded :=
  match b.addConst 1 with
  | none => none
  | some b' => m.less a b' bigM

def greater (m : Model) (a b : Expr) (bigM : Int) : Option Encoded := m.less b a bigM

/-- `a ≥ b` is `b < a + 1`. -/
def geq (m : Model) (a b : Expr) (bigM : Int) : Option Encoded :=
  match a.addConst 1 with
  | none => none
  | some a' => m.less b a' bigM

/-- Joins the indicators of two comparisons, both of which keep their rows. -/
def joined (first : Model → Option Encoded) (second : Model → Option Encoded)
    (join : Model → Var → Var → Option Encoded) (m : Model) : Option Encoded :=
  match first m with
  | none => none
  | some p =>
    match second p.model with
    | none => none
    | some q =>
      match join q.model p.indicator q.indicator with
      | none => none
      | some r => some ⟨r.model, r.indicator, p.rows ++ q.rows ++ r.rows⟩

/-- `a = b` is `a ≤ b` and `a ≥ b`. -/
def eq (m : Model) (a b : Expr) (bigM : Int) : Option Encoded :=
  joined (leq · a b bigM) (geq · a b bigM) and2 m

/-- `a ≠ b` is `a < b` or `a > b`. -/
def neq (m : Model) (a b : Expr) (bigM : Int) : Option Encoded :=
  joined (less · a b bigM) (greater · a b bigM) or2 m

def compare (m : Model) (op : Comparison) (a b : Expr) (bigM : Int) : Option Encoded :=
  match op with
  | .less => m.less a b bigM
  | .leq => m.leq a b bigM
  | .greater => m.greater a b bigM
  | .geq => m.geq a b bigM
  | .eq => m.eq a b bigM
  | .neq => m.neq a b bigM

end Model

end Linearize
