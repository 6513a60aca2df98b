import Linearize.Proofs.Satisfaction

/-!
# Linearize.Proofs.Weights

Expressions that are far from overflowing. The weight of an expression is the sum of the magnitudes
of its coefficients and its constant. While weights stay in the range no operation overflows, and an
evaluation at bits gives the exact value. The rows of covers are that light.
-/

namespace Linearize

variable {σ : Var → Int} {s : Assignment}

/-- The greatest magnitude whose two signs are both in the range. -/
def maxWeight : Nat := 9223372036854775807

theorem fit?_eq_some_of_le {n : Int} (h : n.natAbs ≤ maxWeight) : fit? n = some n := by
  refine fit?_eq_some_iff.2 ⟨?_, rfl⟩
  unfold maxWeight at h
  unfold Fits
  omega

namespace Expr

def termsWeight : List (Var × Int) → Nat
  | [] => 0
  | (_, c) :: rest => c.natAbs + termsWeight rest

def weight (e : Expr) : Nat := e.constant.natAbs + termsWeight e.terms

@[simp] theorem weight_zero : zero.weight = 0 := rfl

@[simp] theorem weight_const (n : Int) : (const n).weight = n.natAbs := rfl

@[simp] theorem weight_ofVar (v : Var) : (ofVar v).weight = 1 := rfl

@[simp] theorem weight_complement (v : Var) : (complement v).weight = 2 := rfl

/-! ## Operations on light expressions -/

variable {e : Expr}

theorem insertTerm_light (v : Var) (c : Int) (ts : List (Var × Int))
    (h : c.natAbs + termsWeight ts ≤ maxWeight) :
    ∃ ts', insertTerm v c ts = some ts' ∧ termsWeight ts' ≤ c.natAbs + termsWeight ts := by
  induction ts with
  | nil => exact ⟨_, rfl, Nat.le_refl _⟩
  | cons t rest ih =>
    obtain ⟨w, d⟩ := t
    rw [termsWeight] at h ⊢
    simp only [insertTerm]
    split
    · exact ⟨_, rfl, Nat.le_refl _⟩
    · split
      · have hsum := Int.natAbs_add_le d c
        rw [fit?_eq_some_of_le (by omega)]
        refine ⟨_, rfl, ?_⟩
        split
        · omega
        · rw [termsWeight]
          omega
      · obtain ⟨rest', hr, hle⟩ := ih (by omega)
        rw [hr]
        refine ⟨_, rfl, ?_⟩
        rw [termsWeight]
        omega

theorem addCoef_light (e : Expr) (v : Var) (c : Int) (h : e.weight + c.natAbs ≤ maxWeight) :
    ∃ e', e.addCoef v c = some e' ∧ e'.weight ≤ e.weight + c.natAbs := by
  simp only [addCoef]
  split
  · exact ⟨e, rfl, Nat.le_add_right _ _⟩
  · rw [weight] at h ⊢
    obtain ⟨ts, hts, hle⟩ := insertTerm_light v c e.terms (by omega)
    rw [hts]
    refine ⟨_, rfl, ?_⟩
    simp only [weight]
    omega

theorem addConst_light (e : Expr) (n : Int) (h : e.weight + n.natAbs ≤ maxWeight) :
    ∃ e', e.addConst n = some e' ∧ e'.weight ≤ e.weight + n.natAbs := by
  rw [weight] at h ⊢
  have hsum := Int.natAbs_add_le e.constant n
  rw [addConst, fit?_eq_some_of_le (by omega)]
  refine ⟨_, rfl, ?_⟩
  simp only [weight]
  omega

theorem addTerms_light (e : Expr) (ts : List (Var × Int))
    (h : e.weight + termsWeight ts ≤ maxWeight) :
    ∃ e', e.addTerms ts = some e' ∧ e'.weight ≤ e.weight + termsWeight ts := by
  induction ts generalizing e with
  | nil => exact ⟨e, rfl, Nat.le_refl _⟩
  | cons t rest ih =>
    obtain ⟨v, c⟩ := t
    rw [termsWeight] at h ⊢
    obtain ⟨e₁, h₁, hle₁⟩ := addCoef_light e v c (by omega)
    obtain ⟨e₂, h₂, hle₂⟩ := ih e₁ (by omega)
    rw [addTerms, h₁]
    exact ⟨e₂, h₂, by omega⟩

theorem add_light (a b : Expr) (h : a.weight + b.weight ≤ maxWeight) :
    ∃ e, a.add b = some e ∧ e.weight ≤ a.weight + b.weight := by
  rw [weight.eq_1 b] at h ⊢
  obtain ⟨e₁, h₁, hle₁⟩ := addTerms_light a b.terms (by omega)
  obtain ⟨e₂, h₂, hle₂⟩ := addConst_light e₁ b.constant (by omega)
  rw [add, h₁]
  exact ⟨e₂, h₂, by omega⟩

theorem scaleTerms_light (k : Int) (ts : List (Var × Int))
    (h : termsWeight ts * k.natAbs ≤ maxWeight) :
    ∃ ts', scaleTerms k ts = some ts' ∧ termsWeight ts' = termsWeight ts * k.natAbs := by
  induction ts with
  | nil => exact ⟨[], rfl, (Nat.zero_mul _).symm⟩
  | cons t rest ih =>
    obtain ⟨v, c⟩ := t
    have hmul := Int.natAbs_mul c k
    rw [termsWeight, Nat.add_mul] at h ⊢
    obtain ⟨rest', hr, heq⟩ := ih (by omega)
    rw [scaleTerms, fit?_eq_some_of_le (by omega), hr]
    refine ⟨_, rfl, ?_⟩
    rw [termsWeight, heq, hmul]

theorem scale_light (e : Expr) (k : Int) (h : e.weight * k.natAbs ≤ maxWeight) :
    ∃ e', e.scale k = some e' ∧ e'.weight = e.weight * k.natAbs := by
  simp only [scale]
  split
  · rename_i hk
    exact ⟨zero, rfl, by simp [hk]⟩
  · have hmul := Int.natAbs_mul e.constant k
    rw [weight, Nat.add_mul] at h ⊢
    obtain ⟨ts, hts, heq⟩ := scaleTerms_light k e.terms (by omega)
    rw [fit?_eq_some_of_le (by omega), hts]
    refine ⟨_, rfl, ?_⟩
    rw [weight, heq, hmul]

theorem sub_light (a b : Expr) (h : a.weight + b.weight ≤ maxWeight) :
    ∃ e, a.sub b = some e ∧ e.weight ≤ a.weight + b.weight := by
  obtain ⟨b', hb, hweight⟩ := scale_light b (-1) (by simp; omega)
  rw [Int.natAbs_neg, Int.natAbs_one, Nat.mul_one] at hweight
  rw [sub, neg, hb, ← hweight]
  exact add_light a b' (by omega)

/-! ## Evaluation at bits -/

theorem evalTerms_light {ts : List (Var × Int)} {acc : Int}
    (h : acc.natAbs + termsWeight ts ≤ maxWeight)
    (hts : ∀ t ∈ ts, s t.1 = some (σ t.1) ∧ IsBit (σ t.1)) :
    evalTerms s acc ts = .ok (acc + termsValue σ ts) := by
  induction ts generalizing acc with
  | nil => rw [evalTerms, termsValue, Int.add_zero]
  | cons t rest ih =>
    obtain ⟨v, c⟩ := t
    rw [List.forall_mem_cons] at hts
    obtain ⟨⟨hs, hbit⟩, hrest⟩ := hts
    rw [termsWeight] at h
    have hmul : (c * σ v).natAbs ≤ c.natAbs := by
      rcases hbit with h0 | h0 <;> rw [h0] <;> simp
    have hsum := Int.natAbs_add_le acc (c * σ v)
    have hnext : (acc + c * σ v).natAbs + termsWeight rest ≤ maxWeight := by omega
    simp only [evalTerms, hs]
    rw [fit?_eq_some_of_le (by omega), Option.bind_some, fit?_eq_some_of_le (by omega)]
    simp only [ih hnext hrest, termsValue, Int.add_assoc]

theorem eval_light (h : e.weight ≤ maxWeight)
    (he : e.Over fun v => s v = some (σ v) ∧ IsBit (σ v)) : e.eval s = .ok (e.value σ) :=
  evalTerms_light h (List.forall_mem_map.1 he)

end Expr

/-! ## Constraints at bits -/

/-- The two sides together are in the range. -/
def Constraint.Light (c : Constraint) : Prop := c.lhs.weight + c.rhs.weight ≤ maxWeight

/-- The check of a light constraint at bits is exact. -/
theorem Constraint.Light.isSatisfied {c : Constraint} (h : c.Light)
    (hc : c.Over fun v => s v = some (σ v) ∧ IsBit (σ v)) :
    c.isSatisfied s = .ok (decide (c.Holds σ)) := by
  obtain ⟨d, hd, hle⟩ := Expr.sub_light _ _ h
  have heval := Expr.eval_light (Nat.le_trans hle h) (hc.1.sub hc.2 hd)
  exact isSatisfied_of_eval (normalized_eq_some_iff.2 ⟨hd, rfl⟩) heval

theorem Constraint.Light.checkable {c : Constraint} (h : c.Light)
    (hc : c.Over fun v => s v = some (σ v) ∧ IsBit (σ v)) : c.Checkable s :=
  checkable_iff.2 (by rw [h.isSatisfied hc]; exact nofun)

theorem satisfies_light {cs : List Constraint} (h : ∀ c ∈ cs, c.Light)
    (hcs : AllOver (fun v => s v = some (σ v) ∧ IsBit (σ v)) cs) :
    s.satisfies cs = some (decide (AllHold σ cs)) :=
  satisfies_exact fun c hc => (h c hc).isSatisfied (hcs c hc)

/-! ## Covers -/

theorem contributions_light (acc : Expr) (p : Pattern) (vs : List Var)
    (h : acc.weight + 2 * min p.length vs.length ≤ maxWeight) :
    ∃ sum, Pattern.contributions acc p vs = some sum ∧
      sum.weight ≤ acc.weight + 2 * min p.length vs.length := by
  induction p generalizing acc vs with
  | nil => exact ⟨acc, rfl, Nat.le_add_right _ _⟩
  | cons t p ih =>
    cases vs with
    | nil =>
      refine ⟨acc, ?_, Nat.le_add_right _ _⟩
      cases t <;> rfl
    | cons v vs =>
      rw [List.length_cons, List.length_cons] at h ⊢
      cases t with
      | one =>
        obtain ⟨acc', hacc, hle⟩ := Expr.add_light acc (.complement v) (by simp; omega)
        rw [Expr.weight_complement] at hle
        obtain ⟨sum, hsum, hle'⟩ := ih acc' vs (by omega)
        simp only [Pattern.contributions, hacc]
        exact ⟨sum, hsum, by omega⟩
      | zero =>
        obtain ⟨acc', hacc, hle⟩ := Expr.add_light acc (.ofVar v) (by simp; omega)
        rw [Expr.weight_ofVar] at hle
        obtain ⟨sum, hsum, hle'⟩ := ih acc' vs (by omega)
        simp only [Pattern.contributions, hacc]
        exact ⟨sum, hsum, by omega⟩
      | any =>
        obtain ⟨sum, hsum, hle⟩ := ih acc vs (by omega)
        exact ⟨sum, hsum, by omega⟩

theorem Pattern.row_light {p : Pattern} {vs : List Var}
    (h : 1 + 2 * min p.length vs.length ≤ maxWeight) : ∃ c, p.row vs = some c ∧ c.Light := by
  obtain ⟨sum, hsum, hle⟩ := contributions_light .zero p vs (by rw [Expr.weight_zero]; omega)
  rw [Expr.weight_zero] at hle
  refine ⟨_, row_eq_some_iff.2 ⟨sum, hsum, rfl⟩, ?_⟩
  show 1 + sum.weight ≤ maxWeight
  omega

theorem coverRows_light (vs : List Var) (cover : List Pattern)
    (h : ∀ p ∈ cover, 1 + 2 * p.length ≤ maxWeight) :
    ∃ rows, coverRows vs cover = some rows ∧ ∀ c ∈ rows, c.Light := by
  induction cover with
  | nil => exact ⟨[], rfl, List.forall_mem_nil _⟩
  | cons p rest ih =>
    rw [List.forall_mem_cons] at h
    obtain ⟨rows, hrows, hlight⟩ := ih h.2
    have hlen : 1 + 2 * min p.length vs.length ≤ maxWeight := by omega
    obtain ⟨c, hc, hclight⟩ := Pattern.row_light hlen
    exact ⟨c :: rows, by rw [coverRows, hc, hrows], List.forall_mem_cons.2 ⟨hclight, hlight⟩⟩

end Linearize
