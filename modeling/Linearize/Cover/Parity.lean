import Linearize.Cover.Pattern

/-!
# Linearize.Cover.Parity

The cover of parity: over `n` inputs and an output it cuts off every point with an odd number of
ones, one full-width pattern for each. Parity has no larger implicants, so none can be left out.
-/

namespace Linearize

/-- The points of a width with an even or an odd number of ones, in counting order, first cell
most significant. -/
def parityPoints : Nat → Bool → List Pattern
  | 0, false => [[]]
  | 0, true => []
  | n + 1, odd =>
    (parityPoints n odd).map (Ternary.zero :: ·) ++ (parityPoints n !odd).map (Ternary.one :: ·)

def parityCover (arity : Nat) : List Pattern := parityPoints (arity + 1) true

def countOnes (width point : Nat) : Nat := (List.range width).countP point.testBit

/-- The low `width` bits of a point, most significant first. -/
def cells (width point : Nat) : Pattern :=
  (List.range width).map fun i => if point.testBit (width - 1 - i) then .one else .zero

/-- The cover of parity by a loop over all points that takes those with an odd number of ones. -/
def parityLoop (arity : Nat) : List Pattern :=
  let width := arity + 1
  ((List.range (1 <<< width)).filter fun point => countOnes width point % 2 = 1).map (cells width)

/-- The greatest number of inputs for which a cover is provided; it has `2 ^ 20` patterns. -/
def maxArity : Nat := 20

end Linearize
