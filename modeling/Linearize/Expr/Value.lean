import Linearize.Expr

/-!
# Linearize.Expr.Value

The exact value of an expression under each operation: an operation that does not overflow is the
operation on integers.
-/

namespace Linearize
namespace Expr

@[simp] theorem value_zero (σ : Var → Int) : zero.value σ = 0 := rfl

@[simp] theorem value_const (n : Int) (σ : Var → Int) : (const n).value σ = n := by
  simp [const, value, termsValue]

@[simp] theorem value_ofVar (v : Var) (σ : Var → Int) : (ofVar v).value σ = σ v := by
  simp [ofVar, value, termsValue]

@[simp] theorem value_complement (v : Var) (σ : Var → Int) :
    (complement v).value σ = 1 - σ v := by
  simp [complement, value, termsValue]
  omega

theorem termsValue_insertTerm {v : Var} {c : Int} {ts ts' : List (Var × Int)} (σ : Var → Int)
    (h : insertTerm v c ts = some ts') : termsValue σ ts' = c * σ v + termsValue σ ts := by
  induction ts generalizing ts' with
  | nil => simp only [insertTerm] at h; cases h; rfl
  | cons t rest ih =>
    obtain ⟨w, d⟩ := t
    simp only [insertTerm] at h
    split at h
    · cases h; rfl
    · split at h
      · rename_i hvw
        subst hvw
        split at h
        · cases h
        · rename_i s hs
          obtain ⟨_, rfl⟩ := fit?_eq_some_iff.1 hs
          cases h
          split
          · rename_i hz
            have : d * σ v + c * σ v = 0 := by rw [← Int.add_mul, hz, Int.zero_mul]
            simp only [termsValue]
            omega
          · simp only [termsValue, Int.add_mul]
            omega
      · split at h
        · cases h
        · rename_i rest' hr
          cases h
          have := ih hr
          simp only [termsValue]
          omega

theorem value_addCoef {e e' : Expr} {v : Var} {c : Int} (σ : Var → Int)
    (h : e.addCoef v c = some e') : e'.value σ = e.value σ + c * σ v := by
  simp only [addCoef] at h
  split at h
  · rename_i hc
    cases h
    simp [hc]
  · split at h
    · cases h
    · rename_i ts hts
      cases h
      have := termsValue_insertTerm σ hts
      simp only [value]
      omega

theorem value_addConst {e e' : Expr} {n : Int} (σ : Var → Int) (h : e.addConst n = some e') :
    e'.value σ = e.value σ + n := by
  simp only [addConst] at h
  split at h
  · cases h
  · rename_i c hc
    obtain ⟨_, rfl⟩ := fit?_eq_some_iff.1 hc
    cases h
    simp only [value]
    omega

theorem value_addTerms {e e' : Expr} {ts : List (Var × Int)} (σ : Var → Int)
    (h : e.addTerms ts = some e') : e'.value σ = e.value σ + termsValue σ ts := by
  induction ts generalizing e with
  | nil => simp only [addTerms] at h; cases h; simp [termsValue]
  | cons t rest ih =>
    obtain ⟨v, c⟩ := t
    simp only [addTerms] at h
    split at h
    · cases h
    · rename_i e₁ h₁
      have h₂ := ih h
      have h₃ := value_addCoef σ h₁
      simp only [termsValue]
      omega

theorem value_add {a b s : Expr} (σ : Var → Int) (h : a.add b = some s) :
    s.value σ = a.value σ + b.value σ := by
  simp only [add] at h
  split at h
  · cases h
  · rename_i s₁ h₁
    have h₂ := value_addTerms σ h₁
    have h₃ := value_addConst σ h
    simp only [value] at *
    omega

theorem termsValue_scaleTerms {k : Int} {ts ts' : List (Var × Int)} (σ : Var → Int)
    (h : scaleTerms k ts = some ts') : termsValue σ ts' = termsValue σ ts * k := by
  induction ts generalizing ts' with
  | nil => simp only [scaleTerms] at h; cases h; simp [termsValue]
  | cons t rest ih =>
    obtain ⟨v, c⟩ := t
    simp only [scaleTerms] at h
    split at h
    · cases h
    · rename_i d hd
      obtain ⟨_, rfl⟩ := fit?_eq_some_iff.1 hd
      split at h
      · cases h
      · rename_i rest' hr
        cases h
        simp only [termsValue, ih hr, Int.add_mul, Int.mul_right_comm]

theorem value_scale {e e' : Expr} {k : Int} (σ : Var → Int) (h : e.scale k = some e') :
    e'.value σ = e.value σ * k := by
  simp only [scale] at h
  split at h
  · rename_i hk
    cases h
    simp [hk]
  · split at h
    · cases h
    · rename_i c hc
      obtain ⟨_, rfl⟩ := fit?_eq_some_iff.1 hc
      split at h
      · cases h
      · rename_i ts hts
        cases h
        simp only [value, termsValue_scaleTerms σ hts, Int.add_mul]

theorem value_neg {e e' : Expr} (σ : Var → Int) (h : e.neg = some e') :
    e'.value σ = -e.value σ := by
  have := value_scale σ h
  omega

theorem value_sub {a b d : Expr} (σ : Var → Int) (h : a.sub b = some d) :
    d.value σ = a.value σ - b.value σ := by
  simp only [sub] at h
  split at h
  · cases h
  · rename_i b' hb
    have h₁ := value_neg σ hb
    have h₂ := value_add σ h
    omega

end Expr
end Linearize
