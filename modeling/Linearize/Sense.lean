/-!
# Linearize.Sense

The relation between the two sides of a linear constraint. Strict relations and inequality of
values are not linear; they are encoded by indicators instead.
-/

namespace Linearize

inductive Sense where
  | eq
  | le
  | ge
  deriving DecidableEq, Repr

namespace Sense

def symbol : Sense → String
  | .eq => "="
  | .le => "<="
  | .ge => ">="

def compare : Sense → Int → Int → Bool
  | .eq, x, y => decide (x = y)
  | .le, x, y => decide (x ≤ y)
  | .ge, x, y => decide (y ≤ x)

end Sense

end Linearize
