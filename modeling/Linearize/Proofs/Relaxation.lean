import Mathlib.Algebra.GroupWithZero.Nat
import Linearize.Proofs.Guards

/-!
# Linearize.Proofs.Relaxation

A set of constraints under one condition. Its rows hold iff the list that the condition selects
holds and no pair of the other list is violated by more than the big-M, whatever the constraints
say of the condition itself. One list under a condition is the case in which the other one is empty.
-/

namespace Linearize

variable {cond : Var} {body otherwise cs rows : List Constraint} {bigM : Int} {slack : Expr}

/-! ## The number of rows -/

/-- How many rows a relaxed list takes: one for each inequality and two for each equality. -/
def relaxedCount (cs : List Constraint) : Nat :=
  (cs.map fun c => if c.isInequality then 1 else 2).sum

theorem relaxedCount_append (cs ds : List Constraint) :
    relaxedCount (cs ++ ds) = relaxedCount cs + relaxedCount ds := by
  simp [relaxedCount]

theorem Constraint.length_inequalities (c : Constraint) :
    c.inequalities.length = if c.isInequality then 1 else 2 := by
  cases c <;> rfl

theorem length_relaxPairs {ps : List (Expr × Expr)} (h : relaxPairs slack ps = some rows) :
    rows.length = ps.length := by
  induction ps generalizing rows with
  | nil =>
    cases h
    rfl
  | cons p rest ih =>
    obtain ⟨l, r⟩ := p
    simp only [relaxPairs] at h
    split at h
    · cases h
    · split at h
      · cases h
      · rename_i later hlater
        cases h
        rw [List.length_cons, List.length_cons, ih hlater]

theorem length_relax (h : relax cs slack = some rows) : rows.length = relaxedCount cs := by
  rw [length_relaxPairs h, List.length_flatMap, relaxedCount]
  simp only [Constraint.length_inequalities]

theorem length_ifThen (h : ifThen cond body bigM = some rows) :
    rows.length = relaxedCount body := by
  simp only [ifThen] at h
  split at h
  · cases h
  · exact length_relax h

theorem length_ifThenElse (h : ifThenElse cond body otherwise bigM = some rows) :
    rows.length = relaxedCount (body ++ otherwise) := by
  simp only [ifThenElse, Option.bind_eq_bind, Option.bind_eq_some_iff, Option.pure_def,
    Option.some.injEq] at h
  obtain ⟨on, hon, slack, -, off, hoff, rfl⟩ := h
  rw [List.length_append, relaxedCount_append, length_ifThen hon, length_relax hoff]

/-! ## One condition -/

/-- The slack of the other list overflows only if that of the first one does. -/
theorem exists_scale_ofVar {v : Var} {k : Int} {s : Expr}
    (h : (Expr.complement v).scale k = some s) : ∃ t, (Expr.ofVar v).scale k = some t := by
  by_cases hk : k = 0
  · exact ⟨.zero, by simp [Expr.scale, hk]⟩
  · simp only [Expr.scale, if_neg hk, Expr.complement] at h
    split at h
    · cases h
    · rename_i c hc
      obtain ⟨hfit, -⟩ := fit?_eq_some_iff.1 hc
      rw [Int.one_mul] at hfit
      have hzero : Fits 0 := by decide
      exact ⟨⟨[(v, k)], 0⟩, by
        simp [Expr.scale, Expr.scaleTerms, Expr.ofVar, hk, fit?, hfit, hzero]⟩

theorem ifThen_eq_ifThenElse (cond : Var) (body : List Constraint) (bigM : Int) :
    ifThen cond body bigM = ifThenElse cond body [] bigM := by
  cases h : ifThen cond body bigM with
  | none => simp [ifThenElse, h]
  | some on =>
    obtain ⟨slack, hslack⟩ : ∃ s, (Expr.complement cond).scale bigM = some s := by
      simp only [ifThen] at h
      split at h
      · cases h
      · exact ⟨_, ‹_›⟩
    obtain ⟨other, hother⟩ := exists_scale_ofVar hslack
    simp [ifThenElse, h, hother, relax, relaxPairs]

theorem guarded_single_iff {σ : Var → Int} (hc : IsBit (σ cond)) :
    Guarded σ bigM [cond] [body] otherwise ↔
      (σ cond = 1 → AllHold σ body ∧ AllWithin σ bigM otherwise) ∧
      (σ cond = 0 → AllHold σ otherwise ∧ AllWithin σ bigM body) := by
  rcases hc with h0 | h1
  · rw [guarded_cons_zero h0, guarded_nil]
    simp [h0, and_comm]
  · rw [guarded_cons_one h1]
    simp [h1]

/-- Constraints under a condition are exact. Unless they overflow, their rows hold where the
condition is a bit iff the list for its value holds and no pair of the other list is violated by
more than `bigM`; and no row is left out or written twice. -/
theorem ifThenElse_exact (cond : Var) (body : List Constraint) (bigM : Int) :
    ifThen cond body bigM = ifThenElse cond body [] bigM ∧
    ∀ otherwise : List Constraint, ifThenElse cond body otherwise bigM ≠ none →
      ∃ rows, ifThenElse cond body otherwise bigM = some rows ∧
        rows.length = relaxedCount (body ++ otherwise) ∧
        ∀ σ : Var → Int, σ cond = 0 ∨ σ cond = 1 →
          (AllHold σ rows ↔
            (σ cond = 1 → AllHold σ body ∧ AllWithin σ bigM otherwise) ∧
            (σ cond = 0 → AllHold σ otherwise ∧ AllWithin σ bigM body)) := by
  refine ⟨ifThen_eq_ifThenElse cond body bigM, ?_⟩
  intro otherwise hfits
  obtain ⟨rows, hrows⟩ := Option.ne_none_iff_exists'.1 hfits
  refine ⟨rows, hrows, length_ifThenElse hrows, ?_⟩
  intro σ hc
  rw [ifThenElse_hold hrows hc, guarded_single_iff hc]

/-- Both lists speak of the condition, which is column 0: one by an equality with it, the other by
a coefficient that meets that of the slack. -/
def conditionBody : List Constraint := [.eq (.ofVar 1) (.ofVar 0), .le (.ofVar 1) (.const 3)]

def conditionOtherwise : List Constraint := [.le ⟨[(0, -10), (1, 1)], 0⟩ ⟨[(0, 10)], 2⟩]

theorem conditionBody_exact :
    ∃ rows, ifThenElse 0 conditionBody conditionOtherwise (-10) = some rows ∧
      rows.length = relaxedCount (conditionBody ++ conditionOtherwise) ∧
      ∀ σ : Var → Int, σ 0 = 0 ∨ σ 0 = 1 →
        (AllHold σ rows ↔
          (σ 0 = 1 → AllHold σ conditionBody ∧ AllWithin σ (-10) conditionOtherwise) ∧
          (σ 0 = 0 → AllHold σ conditionOtherwise ∧ AllWithin σ (-10) conditionBody)) :=
  (ifThenElse_exact 0 conditionBody (-10)).2 conditionOtherwise (by decide +kernel)

end Linearize
