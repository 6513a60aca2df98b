import Linearize.Proofs.Canonical

/-!
# Linearize.Proofs.Equality

Equality of expressions is equality of values. Whatever operations build an expression, it is
well-formed; and at the points where at most one variable is not 0, the value of a well-formed
expression gives away its constant and its coefficients.
-/

namespace Linearize
namespace Expr

/-- Expressions that come about by operations on expressions and 64-bit integers. -/
inductive Built : Expr → Prop where
  | zero : Built .zero
  | const {n : Int} : Fits n → Built (.const n)
  | ofVar (v : Var) : Built (.ofVar v)
  | sum {vs : List Var} {s : Expr} : Expr.sum vs = some s → Built s
  | addCoef {e s : Expr} {v : Var} {c : Int} :
      Built e → Fits c → e.addCoef v c = some s → Built s
  | addConst {e s : Expr} {n : Int} : Built e → Fits n → e.addConst n = some s → Built s
  | add {a b s : Expr} : Built a → Built b → a.add b = some s → Built s
  | sub {a b s : Expr} : Built a → Built b → a.sub b = some s → Built s
  | neg {e s : Expr} : Built e → e.neg = some s → Built s
  | scale {e s : Expr} {k : Int} : Built e → Fits k → e.scale k = some s → Built s

theorem WellFormed.sub {a b s : Expr} (ha : a.WellFormed) (hb : b.WellFormed)
    (h : a.sub b = some s) : s.WellFormed := by
  obtain ⟨b', hb', hs⟩ := sub_eq_some_iff.1 h
  exact ha.add (hb.scale hb') hs

theorem WellFormed.coef_sub {a b s : Expr} (ha : a.WellFormed) (hb : b.WellFormed)
    (h : a.sub b = some s) (v : Var) : s.coef v = a.coef v - b.coef v := by
  obtain ⟨b', hb', hs⟩ := sub_eq_some_iff.1 h
  have hsum := ((add_eq_some_iff ha (hb.scale hb')).1 hs).2.2 v
  have hneg := ((scale_eq_some_iff hb).1 hb').2.2 v
  omega

theorem Built.wellFormed {e : Expr} (h : Built e) : e.WellFormed := by
  induction h with
  | zero => exact wellFormed_zero
  | const hn => exact wellFormed_const hn
  | ofVar v => exact wellFormed_ofVar v
  | sum hs => exact wellFormed_sum hs
  | addCoef _ hc hs ih => exact ih.addCoef hc hs
  | addConst _ _ hs ih => exact ih.addConst hs
  | add _ _ hs iha ihb => exact iha.add ihb hs
  | sub _ _ hs iha ihb => exact iha.sub ihb hs
  | neg _ hs ih => exact ih.scale hs
  | scale _ _ hs ih => exact ih.scale hs

/-! ## Points that give away an expression -/

def unitPoint (v w : Var) : Int := if w = v then 1 else 0

theorem unitPoint_fits (v w : Var) : Fits (unitPoint v w) := by
  unfold unitPoint
  split <;> decide

theorem value_origin (e : Expr) : e.value (fun _ => 0) = e.constant := by
  obtain ⟨ts, n⟩ := e
  have hterms : termsValue (fun _ => 0) ts = 0 := by
    induction ts with
    | nil => rfl
    | cons t ts ih => simp [termsValue, ih]
  simp [value, hterms]

theorem termsValue_unitPoint {ts : List (Var × Int)} (h : Regular ts) (v : Var) :
    termsValue (unitPoint v) ts = coefOf v ts := by
  induction ts with
  | nil => rfl
  | cons t ts ih =>
    obtain ⟨w, c⟩ := t
    obtain ⟨hw, -, -, hts⟩ := regular_cons_iff.1 h
    rw [termsValue, ih hts, coefOf, unitPoint]
    split
    · rename_i hwv
      subst hwv
      rw [coefOf_eq_zero_of_lt hw]
      omega
    · omega

theorem WellFormed.value_unitPoint {e : Expr} (h : e.WellFormed) (v : Var) :
    e.value (unitPoint v) = e.constant + e.coef v := by
  rw [value, termsValue_unitPoint h.regular, coef_eq_coefOf]

theorem WellFormed.ext_value {a b : Expr} (ha : a.WellFormed) (hb : b.WellFormed)
    (h : ∀ σ : Var → Int, (∀ v, Fits (σ v)) → a.value σ = b.value σ) : a = b := by
  have hconst : a.constant = b.constant := by
    have horigin := h (fun _ => 0) fun _ => by decide
    rwa [value_origin, value_origin] at horigin
  refine ha.ext hb hconst ?_
  intro v
  have hunit := h (unitPoint v) (unitPoint_fits v)
  rw [ha.value_unitPoint, hb.value_unitPoint] at hunit
  omega

/-- Expressions are a canonical form: no operation leaves a coefficient 0 behind, and two
expressions are equal exactly if they have the same value at every assignment, be it of all integers
or of 64-bit ones only. -/
theorem built_canonical (a b : Expr) (ha : Built a) (hb : Built b) :
    (∀ t ∈ a.terms, t.2 ≠ 0) ∧ (∀ t ∈ b.terms, t.2 ≠ 0) ∧
      (a = b ↔ ∀ σ : Var → Int, a.value σ = b.value σ) ∧
      (a = b ↔ ∀ σ : Var → Int, (∀ v, Fits (σ v)) → a.value σ = b.value σ) := by
  have hext := ha.wellFormed.ext_value hb.wellFormed
  refine ⟨ha.wellFormed.nonzero, hb.wellFormed.nonzero, ⟨?_, fun h => hext fun σ _ => h σ⟩,
    ⟨?_, hext⟩⟩
  · rintro rfl σ
    rfl
  · rintro rfl σ -
    rfl

/-- What is left of `x + 2 y - x`. -/
def cancelled : Expr := ⟨[(1, 2)], 0⟩

/-- What is left of `-(x * 0) - (y * -2) + 1`. -/
def shifted : Expr := ⟨[(1, 2)], 1⟩

theorem cancelled_canonical :
    (∀ t ∈ cancelled.terms, t.2 ≠ 0) ∧ (∀ t ∈ shifted.terms, t.2 ≠ 0) ∧
      (cancelled = shifted ↔ ∀ σ : Var → Int, cancelled.value σ = shifted.value σ) ∧
      (cancelled = shifted ↔
        ∀ σ : Var → Int, (∀ v, Fits (σ v)) → cancelled.value σ = shifted.value σ) := by
  have htwice : Built ⟨[(1, 2)], 0⟩ := .scale (.ofVar 1) (by decide : Fits 2) (by decide)
  have hsum : Built ⟨[(0, 1), (1, 2)], 0⟩ := .add (.ofVar 0) htwice (by decide)
  have hzero : Built .zero := .scale (.ofVar 0) (by decide : Fits 0) (by decide)
  have hnothing : Built .zero := .neg hzero (by decide)
  have hopposite : Built ⟨[(1, -2)], 0⟩ := .scale (.ofVar 1) (by decide : Fits (-2)) (by decide)
  have hback : Built ⟨[(1, 2)], 0⟩ := .sub hnothing hopposite (by decide)
  refine built_canonical cancelled shifted ?_ ?_
  · exact .sub hsum (.ofVar 0) (by decide)
  · exact .addConst hback (by decide : Fits 1) (by decide)

end Expr
end Linearize
