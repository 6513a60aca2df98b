import Mathlib.Algebra.BigOperators.Group.List.Basic
import Mathlib.Algebra.Ring.Int.Defs
import Linearize.Encode.Comparison
import Linearize.Encode.Error
import Linearize.Expr.Value
import Linearize.Statement.Meaning

/-!
# Linearize.Proofs.Rows

What the rows of indicators mean at a point, over exact integers. The rows of a connective fix its
indicator wherever the operands are bits. The rows of a comparison fix theirs up to the big-M:
a big-M that is too small cuts points off, it never lets a wrong one through.
-/

namespace Linearize

variable {σ : Var → Int}

def IsBit (n : Int) : Prop := n = 0 ∨ n = 1

theorem IsBit.zero_iff {n : Int} (h : IsBit n) : n = 0 ↔ n ≠ 1 := by
  rcases h with rfl | rfl <;> decide

theorem orOverflow_eq_ok_iff {α : Type} {o : Option α} {x : α} :
    orOverflow o = .ok x ↔ o = some x := by
  cases o <;> simp [orOverflow]

theorem orOverflow_eq_error {α : Type} {o : Option α} {e : EncodeError}
    (h : orOverflow o = .error e) : e = .overflow := by
  cases o with
  | none => exact (Except.error.inj h).symm
  | some x => cases h

/-! ## Lists of constraints -/

@[simp] theorem holds_le (l r : Expr) : (Constraint.le l r).Holds σ ↔ l.value σ ≤ r.value σ :=
  Iff.rfl

@[simp] theorem holds_eq (l r : Expr) : (Constraint.eq l r).Holds σ ↔ l.value σ = r.value σ :=
  Iff.rfl

@[simp] theorem allHold_nil : AllHold σ [] := List.forall_mem_nil _

@[simp] theorem allHold_cons (c : Constraint) (cs : List Constraint) :
    AllHold σ (c :: cs) ↔ c.Holds σ ∧ AllHold σ cs := List.forall_mem_cons

@[simp] theorem allHold_append (cs ds : List Constraint) :
    AllHold σ (cs ++ ds) ↔ AllHold σ cs ∧ AllHold σ ds := List.forall_mem_append

theorem allHold_map {α : Type} (f : α → Constraint) (xs : List α) :
    AllHold σ (xs.map f) ↔ ∀ x ∈ xs, (f x).Holds σ := List.forall_mem_map

/-! ## Sums of bits -/

theorem termsValue_ones (vs : List Var) :
    Expr.termsValue σ (vs.map fun v => (v, 1)) = (vs.map σ).sum := by
  induction vs with
  | nil => rfl
  | cons v vs ih => simp [Expr.termsValue, ih]

theorem value_sum {vs : List Var} {e : Expr} (h : Expr.sum vs = some e) :
    e.value σ = (vs.map σ).sum := by
  have hv := Expr.value_addTerms σ h
  rw [termsValue_ones, Expr.value_zero, Int.zero_add] at hv
  exact hv

theorem constant_addCoef {e e' : Expr} {v : Var} {c : Int} (h : e.addCoef v c = some e') :
    e'.constant = e.constant := by
  simp only [Expr.addCoef] at h
  split at h
  · cases h; rfl
  · split at h
    · cases h
    · cases h; rfl

theorem constant_addTerms {e e' : Expr} {ts : List (Var × Int)} (h : e.addTerms ts = some e') :
    e'.constant = e.constant := by
  induction ts generalizing e with
  | nil => cases h; rfl
  | cons t rest ih =>
    simp only [Expr.addTerms] at h
    split at h
    · cases h
    · rename_i e₁ h₁
      rw [ih h, constant_addCoef h₁]

theorem constant_sum {vs : List Var} {e : Expr} (h : Expr.sum vs = some e) : e.constant = 0 :=
  constant_addTerms h

/-- A sum of bits lies between 0 and their number. It is the number only if all of them are 1, and
0 only if none is. -/
theorem sum_bits {vs : List Var} (h : ∀ v ∈ vs, IsBit (σ v)) :
    0 ≤ (vs.map σ).sum ∧ (vs.map σ).sum ≤ vs.length ∧
      ((vs.map σ).sum = vs.length ↔ ∀ v ∈ vs, σ v = 1) ∧
      ((vs.map σ).sum = 0 ↔ ∀ v ∈ vs, σ v = 0) := by
  induction vs with
  | nil => simp
  | cons v vs ih =>
    obtain ⟨h0, h1, hall, hnone⟩ := ih fun w hw => h w (List.mem_cons_of_mem v hw)
    have hv : IsBit (σ v) := h v List.mem_cons_self
    simp only [List.map_cons, List.sum_cons, List.length_cons, List.forall_mem_cons, ← hall,
      ← hnone]
    unfold IsBit at hv
    omega

/-! ## Connectives -/

theorem ofVar_add_ofVar (a b : Var) : (Expr.ofVar a).add (.ofVar b) = Expr.sum [a, b] := by
  rcases Nat.lt_trichotomy b a with h | rfl | h
  · simp [Expr.add, Expr.sum, Expr.addTerms, Expr.addCoef, Expr.addConst, Expr.insertTerm,
      Expr.ofVar, Expr.zero, h, fit?, Fits]
  · simp [Expr.add, Expr.sum, Expr.addTerms, Expr.addCoef, Expr.addConst, Expr.insertTerm,
      Expr.ofVar, Expr.zero, fit?, Fits]
  · simp [Expr.add, Expr.sum, Expr.addTerms, Expr.addCoef, Expr.addConst, Expr.insertTerm,
      Expr.ofVar, Expr.zero, Nat.lt_asymm h, Nat.ne_of_gt h, fit?, Fits]

theorem and2Rows_eq (a b r : Var) : and2Rows a b r = andRows [a, b] r := by
  simp only [and2Rows, andRows, ofVar_add_ofVar]
  cases h : Expr.sum [a, b] with
  | none => rfl
  | some e =>
    have hc : e.constant = 0 := constant_sum h
    simp [Expr.addConst, hc, fit?, Fits]

theorem or2Rows_eq (a b r : Var) : or2Rows a b r = orRows [a, b] r := by
  simp only [or2Rows, orRows, ofVar_add_ofVar]
  rfl

theorem andRows_hold {vs : List Var} {r : Var} {rows : List Constraint}
    (h : andRows vs r = some rows) (hvs : ∀ v ∈ vs, IsBit (σ v)) (hr : IsBit (σ r)) :
    AllHold σ rows ↔ (σ r = 1 ↔ ∀ v ∈ vs, σ v = 1) := by
  simp only [andRows, Option.bind_eq_bind, Option.bind_eq_some_iff, Option.pure_def,
    Option.some.injEq] at h
  obtain ⟨sum, hsum, low, hlow, all, hall, rfl⟩ := h
  have hval : all.value σ = (vs.map σ).sum - vs.length + 1 := by
    rw [Expr.value_addConst σ hall, Expr.value_addConst σ hlow, value_sum hsum]
    omega
  obtain ⟨-, hle, hone, -⟩ := sum_bits hvs
  rw [allHold_cons, allHold_map, holds_le, hval, Expr.value_ofVar]
  simp only [holds_le, Expr.value_ofVar]
  constructor
  · rintro ⟨hlow, hup⟩
    constructor
    · intro h1 v hv
      have := hup v hv
      rcases hvs v hv with h0 | h0 <;> omega
    · intro hv
      rw [← hone] at hv
      rcases hr with h0 | h0 <;> omega
  · intro hiff
    rcases hr with h0 | h0
    · have hne : (vs.map σ).sum ≠ vs.length := fun hs => by
        have := hiff.2 (hone.1 hs)
        omega
      refine ⟨by omega, ?_⟩
      intro v hv
      rcases hvs v hv with hv0 | hv0 <;> omega
    · have hv := hiff.1 h0
      exact ⟨by omega, fun v hv' => by have := hv v hv'; omega⟩

theorem orRows_hold {vs : List Var} {r : Var} {rows : List Constraint}
    (h : orRows vs r = some rows) (hvs : ∀ v ∈ vs, IsBit (σ v)) (hr : IsBit (σ r)) :
    AllHold σ rows ↔ (σ r = 1 ↔ ∃ v ∈ vs, σ v = 1) := by
  simp only [orRows, Option.bind_eq_bind, Option.bind_eq_some_iff, Option.pure_def,
    Option.some.injEq] at h
  obtain ⟨sum, hsum, rfl⟩ := h
  obtain ⟨hge, -, -, hzero⟩ := sum_bits hvs
  rw [allHold_cons, allHold_map, holds_le, value_sum hsum, Expr.value_ofVar]
  simp only [holds_le, Expr.value_ofVar]
  have hnone : (¬ ∃ v ∈ vs, σ v = 1) ↔ (vs.map σ).sum = 0 := by
    rw [hzero]
    push Not
    exact forall₂_congr fun v hv => (IsBit.zero_iff (hvs v hv)).symm
  constructor
  · rintro ⟨hup, hlow⟩
    constructor
    · intro h1
      by_contra hex
      rw [hnone] at hex
      omega
    · rintro ⟨v, hv, h1⟩
      have := hlow v hv
      rcases hr with h0 | h0 <;> omega
  · intro hiff
    rcases hr with h0 | h0
    · have hex : ¬ ∃ v ∈ vs, σ v = 1 := fun hex => by
        have := hiff.2 hex
        omega
      refine ⟨by omega, ?_⟩
      intro v hv
      rw [hnone, hzero] at hex
      have := hex v hv
      omega
    · have hpos : (vs.map σ).sum ≠ 0 := fun hs => hnone.2 hs (hiff.1 h0)
      refine ⟨by omega, ?_⟩
      intro v hv
      rcases hvs v hv with hv0 | hv0 <;> omega

/-! ## Comparisons -/

/-- The indicator is bound to the comparison, each of its values up to the big-M. -/
theorem lessRows_hold {a b : Expr} {bigM : Int} {r : Var} {rows : List Constraint}
    (h : lessRows a b bigM r = some rows) (hr : IsBit (σ r)) :
    AllHold σ rows ↔
      (σ r = 1 ∧ a.value σ < b.value σ ∧ b.value σ - a.value σ ≤ bigM) ∨
      (σ r = 0 ∧ b.value σ ≤ a.value σ ∧ a.value σ - b.value σ < bigM) := by
  simp only [lessRows, Option.bind_eq_bind, Option.bind_eq_some_iff, Option.pure_def,
    Option.some.injEq] at h
  obtain ⟨below, hbelow, off, hoff, upper, hupper, on, hon, lower, hlower, rfl⟩ := h
  have hup : upper.value σ = b.value σ + -1 + (1 - σ r) * bigM := by
    rw [Expr.value_add σ hupper, Expr.value_addConst σ hbelow, Expr.value_scale σ hoff,
      Expr.value_complement]
  have hlow : lower.value σ = b.value σ - σ r * bigM := by
    rw [Expr.value_sub σ hlower, Expr.value_scale σ hon, Expr.value_ofVar]
  simp only [allHold_cons, allHold_nil, and_true, holds_le]
  rcases hr with h0 | h0 <;> rw [h0] at hup hlow ⊢ <;> omega

theorem lessRows_sound {a b : Expr} {bigM : Int} {r : Var} {rows : List Constraint}
    (h : lessRows a b bigM r = some rows) (hr : IsBit (σ r)) (hrows : AllHold σ rows) :
    σ r = 1 ↔ a.value σ < b.value σ := by
  rcases (lessRows_hold h hr).1 hrows with ⟨h1, hlt, -⟩ | ⟨h0, hle, -⟩ <;> omega

theorem lessRows_complete {a b : Expr} {bigM : Int} {r : Var} {rows : List Constraint}
    (h : lessRows a b bigM r = some rows) (hr : IsBit (σ r))
    (hiff : σ r = 1 ↔ a.value σ < b.value σ) (hon : b.value σ - a.value σ ≤ bigM)
    (hoff : a.value σ - b.value σ < bigM) : AllHold σ rows := by
  rw [lessRows_hold h hr]
  rcases hr with h0 | h0
  · exact .inr ⟨h0, by omega, hoff⟩
  · exact .inl ⟨h0, hiff.1 h0, hon⟩

end Linearize
