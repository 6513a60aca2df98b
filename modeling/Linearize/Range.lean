/-!
# Linearize.Range

The range of coefficients and constants: signed integers of 64 bits. Arithmetic is done on `Int`
and its result is kept only if it stays in the range, so no operation ever wraps around.
-/

namespace Linearize

/-- `n` lies between `-2^63` and `2^63 - 1`. -/
def Fits (n : Int) : Prop := -9223372036854775808 ≤ n ∧ n ≤ 9223372036854775807

instance (n : Int) : Decidable (Fits n) := inferInstanceAs (Decidable (_ ∧ _))

/-- `n` itself when it is in the range, `none` when it overflows. -/
def fit? (n : Int) : Option Int := if Fits n then some n else none

theorem fit?_eq_some_iff {n m : Int} : fit? n = some m ↔ Fits n ∧ n = m := by
  by_cases h : Fits n <;> simp [fit?, h]

theorem fit?_eq_none_iff {n : Int} : fit? n = none ↔ ¬ Fits n := by
  by_cases h : Fits n <;> simp [fit?, h]

end Linearize
