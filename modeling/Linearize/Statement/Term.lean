import Mathlib.Algebra.Ring.Int.Defs
import Linearize.Statement.Basic
import Linearize.Statement.Tree

/-!
# Linearize.Statement.Term

Terms as arithmetic: which trees are terms in a scope, and which value a term has at a point, with
exact integers and without a look at the expressions that reading makes of terms.
-/

namespace Linearize

namespace Tree

/-- A declared name, an integer, a sum of any number of terms, a negation, a difference, or a
product in which an integer is written on one side at least. -/
inductive IsTerm (s : Scope) : Tree → Prop where
  | name {name : String} {d : Declared} : s.get? name = some d → IsTerm s (.ident name)
  | int (n : Int) : IsTerm s (.int n)
  | sum {ts : List Tree} : (∀ t ∈ ts, IsTerm s t) → IsTerm s (.node (.ident "+" :: ts))
  | negation {t : Tree} : IsTerm s t → IsTerm s (.node [.ident "-", t])
  | difference {t u : Tree} : IsTerm s t → IsTerm s u → IsTerm s (.node [.ident "-", t, u])
  | leftProduct {n : Int} {t : Tree} : IsTerm s t → IsTerm s (.node [.ident "*", .int n, t])
  | rightProduct {n : Int} {t : Tree} : IsTerm s t → IsTerm s (.node [.ident "*", t, .int n])

/-- What an operator makes of the values of its arguments. -/
def arithmetic (op : String) (xs : List Int) : Int :=
  if op = "+" then xs.sum
  else if op = "-" then
    match xs with
    | [x] => -x
    | [x, y] => x - y
    | _ => 0
  else if op = "*" then
    match xs with
    | [x, y] => x * y
    | _ => 0
  else 0

mutual

/-- The value of a term at a point. Other trees have no value of their own and count as 0. -/
def value (s : Scope) (σ : Var → Int) : Tree → Int
  | .ident name =>
    match s.get? name with
    | some d => σ d.var
    | none => 0
  | .int n => n
  | .node (.ident op :: args) => arithmetic op (values s σ args)
  | .node _ => 0

def values (s : Scope) (σ : Var → Int) : List Tree → List Int
  | [] => []
  | t :: ts => t.value s σ :: values s σ ts

end

end Tree
end Linearize
