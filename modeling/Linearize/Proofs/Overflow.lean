import Linearize.Proofs.Equality

/-!
# Linearize.Proofs.Overflow

When arithmetic on expressions overflows. An operation fails exactly if one of the numbers that it
has to compute leaves the range: no order of the terms and no cancellation brings in another
failure or hides one. Where it succeeds, the result has the exact value at every point.
-/

namespace Linearize
namespace Expr

variable {a b e s : Expr} {k : Int} {v : Var}

/-! ## The numbers that an operation computes -/

/-- The constants, or the coefficients of a variable of both expressions, have a sum out of
range. -/
def SumOverflows (a b : Expr) : Prop :=
  ¬ Fits (a.constant + b.constant) ∨ ∃ v ∈ a.vars, v ∈ b.vars ∧ ¬ Fits (a.coef v + b.coef v)

def MultipleOverflows (a : Expr) (k : Int) : Prop :=
  ¬ Fits (a.constant * k) ∨ ∃ v ∈ a.vars, ¬ Fits (a.coef v * k)

def NegationOverflows (a : Expr) : Prop := ¬ Fits (-a.constant) ∨ ∃ v ∈ a.vars, ¬ Fits (-a.coef v)

/-- The subtrahend has no negation, or the constants, or the coefficients of a variable of both
expressions, have a difference out of range. -/
def DifferenceOverflows (a b : Expr) : Prop :=
  NegationOverflows b ∨ ¬ Fits (a.constant - b.constant) ∨
    ∃ v ∈ a.vars, v ∈ b.vars ∧ ¬ Fits (a.coef v - b.coef v)

/-! ## Variables and coefficients -/

theorem Regular.mem_vars_iff {ts : List (Var × Int)} (h : Regular ts) :
    v ∈ ts.map (·.1) ↔ coefOf v ts ≠ 0 := by
  induction ts with
  | nil => simp [coefOf]
  | cons t ts ih =>
    obtain ⟨w, c⟩ := t
    obtain ⟨-, hc, -, hrest⟩ := regular_cons_iff.1 h
    rw [List.map_cons, List.mem_cons, ih hrest, coefOf]
    by_cases hw : w = v
    · simp [hw, hc]
    · simp [hw, Ne.symm hw]

theorem WellFormed.mem_vars_iff (h : e.WellFormed) : v ∈ e.vars ↔ e.coef v ≠ 0 := by
  rw [coef_eq_coefOf]
  exact h.regular.mem_vars_iff

/-- An operation that gives what it should, and fails only for want of a number in the range, fails
exactly at a constant or a coefficient out of range. -/
theorem eq_none_iff_of_spec {r : Option Expr} {c : Int} {f : Var → Int}
    (hspec : ∀ s, r = some s → s.WellFormed ∧ s.constant = c ∧ ∀ w, s.coef w = f w)
    (hex : Fits c → (∀ v, Fits (f v)) → ∃ s, r = some s) :
    r = none ↔ ¬ Fits c ∨ ∃ v, ¬ Fits (f v) := by
  cases r with
  | none =>
    simp only [true_iff]
    by_cases hc : Fits c
    · refine .inr (Classical.not_forall.1 fun hall => ?_)
      obtain ⟨s, hs⟩ := hex hc hall
      cases hs
    · exact .inl hc
  | some s =>
    obtain ⟨hwf, hconst, hcoef⟩ := hspec s rfl
    simp only [reduceCtorEq, false_iff]
    rintro (h | ⟨v, h⟩)
    · exact h (hconst ▸ hwf.constant_fits)
    · exact h (hcoef v ▸ hwf.coef_fits v)

/-! ## Sums -/

theorem exists_addTerms {ts : List (Var × Int)} (he : e.WellFormed) (hts : Regular ts)
    (h : ∀ w, Fits (e.coef w + coefOf w ts)) : ∃ s, e.addTerms ts = some s := by
  induction ts generalizing e with
  | nil => exact ⟨e, rfl⟩
  | cons t ts ih =>
    obtain ⟨v, c⟩ := t
    obtain ⟨hv, -, hc, hrest⟩ := regular_cons_iff.1 hts
    have hfit : Fits (e.coef v + c) := by
      have hat := h v
      rwa [coefOf, if_pos rfl] at hat
    obtain ⟨e₁, h₁⟩ := exists_addCoef hfit
    obtain ⟨hwf, -, hcoef⟩ := addCoef_spec he hc h₁
    simp only [addTerms, h₁]
    refine ih hwf hrest ?_
    intro w
    by_cases hw : v = w
    · -- no later term changes this coefficient again
      subst hw
      rw [coefOf_eq_zero_of_lt hv, Int.add_zero]
      exact hwf.coef_fits v
    · have hat := h w
      rw [coefOf, if_neg hw] at hat
      rwa [hcoef w, if_neg (Ne.symm hw), Int.add_zero]

theorem exists_add (ha : a.WellFormed) (hb : b.WellFormed) (hc : Fits (a.constant + b.constant))
    (h : ∀ v, Fits (a.coef v + b.coef v)) : ∃ s, a.add b = some s := by
  obtain ⟨s₁, h₁⟩ := exists_addTerms ha hb.regular fun w => by
    rw [← coef_eq_coefOf]
    exact h w
  obtain ⟨-, hconst, -⟩ := (addTerms_eq_some_iff ha hb.regular).1 h₁
  rw [← hconst] at hc
  simp only [add, h₁, addConst, fit?_eq_some_iff.2 ⟨hc, rfl⟩]
  exact ⟨_, rfl⟩

theorem add_eq_none_iff (ha : a.WellFormed) (hb : b.WellFormed) :
    a.add b = none ↔ SumOverflows a b := by
  rw [eq_none_iff_of_spec (fun s => (add_eq_some_iff ha hb).1) (exists_add ha hb)]
  refine or_congr_right ⟨?_, fun ⟨v, _, _, h⟩ => ⟨v, h⟩⟩
  rintro ⟨v, h⟩
  -- a variable of one expression only has a coefficient that is there already
  refine ⟨v, ha.mem_vars_iff.2 ?_, hb.mem_vars_iff.2 ?_, h⟩
  · intro hv
    rw [hv, Int.zero_add] at h
    exact h (hb.coef_fits v)
  · intro hv
    rw [hv, Int.add_zero] at h
    exact h (ha.coef_fits v)

/-! ## Multiples -/

theorem exists_scale (ha : a.WellFormed) (hc : Fits (a.constant * k))
    (h : ∀ v, Fits (a.coef v * k)) : ∃ s, a.scale k = some s := by
  obtain ⟨ts, hts⟩ := exists_scaleTerms ha.regular fun w => by
    rw [← coef_eq_coefOf]
    exact h w
  simp only [scale, fit?_eq_some_iff.2 ⟨hc, rfl⟩, hts]
  split
  · exact ⟨_, rfl⟩
  · exact ⟨_, rfl⟩

theorem scale_eq_none_iff (ha : a.WellFormed) : a.scale k = none ↔ MultipleOverflows a k := by
  rw [eq_none_iff_of_spec (fun s => (scale_eq_some_iff ha).1) (exists_scale ha)]
  refine or_congr_right ⟨?_, fun ⟨v, _, h⟩ => ⟨v, h⟩⟩
  rintro ⟨v, h⟩
  refine ⟨v, ha.mem_vars_iff.2 ?_, h⟩
  intro hv
  rw [hv, Int.zero_mul] at h
  exact h (by decide)

theorem neg_eq_none_iff (ha : a.WellFormed) : a.neg = none ↔ NegationOverflows a := by
  rw [neg, scale_eq_none_iff ha]
  simp only [MultipleOverflows, NegationOverflows, Int.mul_neg_one]

/-! ## Differences -/

theorem sub_eq_none_iff (ha : a.WellFormed) (hb : b.WellFormed) :
    a.sub b = none ↔ DifferenceOverflows a b := by
  rw [sub, DifferenceOverflows, ← neg_eq_none_iff hb]
  cases hn : b.neg with
  | none => simp
  | some b' =>
    obtain ⟨hb', hconst, hcoef⟩ := (scale_eq_some_iff hb).1 hn
    have hvars : ∀ v, v ∈ b'.vars ↔ v ∈ b.vars := by
      intro v
      rw [hb'.mem_vars_iff, hb.mem_vars_iff, hcoef v, Int.mul_neg_one, Ne, Int.neg_eq_zero]
    simp only [reduceCtorEq, false_or]
    rw [add_eq_none_iff ha hb', SumOverflows]
    simp only [hvars, hconst, hcoef, Int.mul_neg_one, Int.sub_eq_add_neg]

/-! ## Exactness -/

/-- `r` is missing exactly in case of an overflow, and else it is well-formed and has the value `f`
at every point. -/
structure Computes (r : Option Expr) (overflow : Prop) (f : (Var → Int) → Int) : Prop where
  eq_none_iff : r = none ↔ overflow
  wellFormed : ∀ s, r = some s → s.WellFormed
  value : ∀ s, r = some s → ∀ σ, s.value σ = f σ

/-- Arithmetic on expressions is exact or fails, and it fails exactly if one of the numbers that it
has to compute leaves the range. The product with 0 never fails. -/
theorem arithmetic_exact (a b : Expr) (k : Int) (ha : a.WellFormed) (hb : b.WellFormed) :
    Computes (a.add b) (SumOverflows a b) (fun σ => a.value σ + b.value σ) ∧
    Computes (a.sub b) (DifferenceOverflows a b) (fun σ => a.value σ - b.value σ) ∧
    Computes (a.scale k) (MultipleOverflows a k) (fun σ => a.value σ * k) ∧
    a.scale 0 = some zero ∧
    Computes a.neg (NegationOverflows a) (fun σ => -a.value σ) ∧ a.neg = a.scale (-1) := by
  refine ⟨?_, ?_, ?_, rfl, ?_, rfl⟩
  · exact ⟨add_eq_none_iff ha hb, fun s hs => ha.add hb hs, fun s hs σ => value_add σ hs⟩
  · exact ⟨sub_eq_none_iff ha hb, fun s hs => ha.sub hb hs, fun s hs σ => value_sub σ hs⟩
  · exact ⟨scale_eq_none_iff ha, fun s hs => ha.scale hs, fun s hs σ => value_scale σ hs⟩
  · exact ⟨neg_eq_none_iff ha, fun s hs => ha.scale hs, fun s hs σ => value_neg σ hs⟩

/-- `-x`. -/
def opposite : Expr := ⟨[(0, -1)], 0⟩

/-- `-2^63 x`, which has no negation. -/
def lowest : Expr := ⟨[(0, -9223372036854775808)], 0⟩

/-- The exact difference of `-x` and `-2^63 x` is in the range, and yet it is out of reach. -/
theorem lowest_exact :
    (Fits (opposite.coef 0 - lowest.coef 0) ∧ opposite.sub lowest = none) ∧
    Computes (opposite.add lowest) (SumOverflows opposite lowest)
      (fun σ => opposite.value σ + lowest.value σ) ∧
    Computes (opposite.scale 7) (MultipleOverflows opposite 7) (fun σ => opposite.value σ * 7) ∧
    opposite.scale 0 = some zero ∧
    Computes opposite.neg (NegationOverflows opposite) (fun σ => -opposite.value σ) ∧
    opposite.neg = opposite.scale (-1) := by
  obtain ⟨hadd, hsub, hrest⟩ := arithmetic_exact opposite lowest 7
    ⟨trivial, by decide, by decide, by decide⟩ ⟨trivial, by decide, by decide, by decide⟩
  have hnone : opposite.sub lowest = none :=
    hsub.eq_none_iff.2 (.inl (.inr ⟨0, by decide, by decide⟩))
  exact ⟨⟨by decide, hnone⟩, hadd, hrest⟩

end Expr
end Linearize
