import Linearize.Constraint

/-!
# Linearize.Cover.Pattern

Ternary patterns over a vector of binary variables. A pattern stands for the inequality
`1 ≤ sum of contributions`, where a cell `1` contributes `1 - v`, a cell `0` contributes `v` and a
don't-care nothing; so a pattern without don't-cares cuts off the single point it spells out.
A cover is a list of patterns, and a point belongs to it if every pattern admits the point.
-/

namespace Linearize

inductive Ternary where
  | zero
  | one
  | any
  deriving DecidableEq, Repr

namespace Ternary

def ofChar : Char → Ternary
  | '0' => .zero
  | '1' => .one
  | _ => .any

def toChar : Ternary → Char
  | .zero => '0'
  | .one => '1'
  | .any => '-'

/-- Whether a bit differs from the cell; it never differs from a don't-care. -/
def differs : Ternary → Bool → Bool
  | .one, b => !b
  | .zero, b => b
  | .any, _ => false

end Ternary

abbrev Pattern := List Ternary

namespace Pattern

def ofText (s : String) : Pattern := s.toList.map Ternary.ofChar

def text (p : Pattern) : String := String.ofList (p.map Ternary.toChar)

/-- Some bit differs from its cell. Of lists of unequal length the longer one is cut. -/
def admits : Pattern → List Bool → Bool
  | t :: p, b :: bits => t.differs b || admits p bits
  | _, _ => false

/-- Adds the contributions of the cells to `acc`, position by position. -/
def contributions (acc : Expr) : Pattern → List Var → Option Expr
  | .one :: p, v :: vs =>
    match acc.add (.complement v) with
    | none => none
    | some acc' => contributions acc' p vs
  | .zero :: p, v :: vs =>
    match acc.add (.ofVar v) with
    | none => none
    | some acc' => contributions acc' p vs
  | .any :: p, _ :: vs => contributions acc p vs
  | _, _ => some acc

def row (p : Pattern) (vs : List Var) : Option Constraint :=
  match contributions .zero p vs with
  | none => none
  | some sum => some (.le (.const 1) sum)

end Pattern

def coverRows (vs : List Var) : List Pattern → Option (List Constraint)
  | [] => some []
  | p :: rest =>
    match p.row vs with
    | none => none
    | some c =>
      match coverRows vs rest with
      | none => none
      | some cs => some (c :: cs)

/-- A point belongs to a cover if every pattern admits it. -/
def coverAdmits (cover : List Pattern) (bits : List Bool) : Bool := cover.all fun p => p.admits bits

end Linearize
