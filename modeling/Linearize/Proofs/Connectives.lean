import Linearize.Proofs.Weights

/-!
# Linearize.Proofs.Connectives

Conjunctions and disjunctions of any number of variables. Their rows hold exactly where the
indicator has the truth value of the operands; operands may be repeated, and there may be none. The
encoders for two operands are the general ones.
-/

namespace Linearize

variable {σ : Var → Int}

/-- 1 if all variables are 1. -/
def conjunctionAt (σ : Var → Int) (vs : List Var) : Int := if ∀ v ∈ vs, σ v = 1 then 1 else 0

def disjunctionAt (σ : Var → Int) (vs : List Var) : Int := if ∃ v ∈ vs, σ v = 1 then 1 else 0

theorem IsBit.eq_truth_iff {n : Int} (h : IsBit n) (p : Prop) [Decidable p] :
    n = (if p then 1 else 0) ↔ (n = 1 ↔ p) := by
  split
  · rename_i hp
    simp [hp]
  · rename_i hp
    simp only [hp, iff_false]
    exact h.zero_iff

/-! ## Rows that do not overflow -/

section Rows

variable {vs : List Var} {e : Expr} {n : Int}

theorem termsWeight_ones (vs : List Var) :
    Expr.termsWeight (vs.map fun v => (v, 1)) = vs.length := by
  induction vs with
  | nil => rfl
  | cons v vs ih =>
    rw [List.map_cons, Expr.termsWeight, ih, List.length_cons]
    omega

theorem sum_light (h : vs.length ≤ maxWeight) :
    ∃ sum, Expr.sum vs = some sum ∧ sum.constant = 0 ∧
      Expr.termsWeight sum.terms ≤ vs.length := by
  have hones := termsWeight_ones vs
  obtain ⟨sum, hsum, hle⟩ := Expr.addTerms_light .zero (vs.map fun v => (v, 1)) (by
    rw [Expr.weight_zero, hones]
    omega)
  have hconst : sum.constant = 0 := constant_sum hsum
  rw [Expr.weight_zero, hones, Expr.weight, hconst] at hle
  exact ⟨sum, hsum, hconst, by omega⟩

theorem addConst_eq_some (h : Fits (e.constant + n)) :
    e.addConst n = some { e with constant := e.constant + n } := by
  rw [Expr.addConst, fit?_eq_some_iff.2 ⟨h, rfl⟩]

/-- Lists as long as a coefficient can count have rows, and those half as long have light ones. -/
theorem exists_andRows (vs : List Var) (r : Var) (h : vs.length ≤ maxWeight) :
    ∃ rows, andRows vs r = some rows ∧
      (2 * vs.length + 2 ≤ maxWeight → ∀ row ∈ rows, row.Light) := by
  obtain ⟨sum, hsum, hconst, hle⟩ := sum_light h
  have hmax : maxWeight = 9223372036854775807 := rfl
  have hlow := addConst_eq_some (e := sum) (n := -vs.length) (by
    rw [hconst]
    unfold Fits
    omega)
  have hall := addConst_eq_some (e := { sum with constant := sum.constant + -vs.length }) (n := 1)
    (by
      simp only [hconst]
      unfold Fits
      omega)
  refine ⟨_, by simp only [andRows, hsum, hlow, hall, Option.bind_eq_bind, Option.bind_some]; rfl,
    ?_⟩
  intro hlight
  refine List.forall_mem_cons.2 ⟨?_, List.forall_mem_map.2 fun v _ => ?_⟩
  · show Expr.weight ⟨sum.terms, sum.constant + -vs.length + 1⟩ + 1 ≤ maxWeight
    simp only [Expr.weight, hconst]
    omega
  · show 1 + 1 ≤ maxWeight
    omega

theorem exists_orRows (vs : List Var) (r : Var) (h : vs.length ≤ maxWeight) :
    ∃ rows, orRows vs r = some rows ∧
      (2 * vs.length + 2 ≤ maxWeight → ∀ row ∈ rows, row.Light) := by
  obtain ⟨sum, hsum, hconst, hle⟩ := sum_light h
  refine ⟨_, by simp only [orRows, hsum, Option.bind_eq_bind, Option.bind_some]; rfl, ?_⟩
  intro hlight
  refine List.forall_mem_cons.2 ⟨?_, List.forall_mem_map.2 fun v _ => ?_⟩
  · show 1 + sum.weight ≤ maxWeight
    rw [Expr.weight, hconst]
    omega
  · show 1 + 1 ≤ maxWeight
    omega

end Rows

/-! ## Exactness -/

/-- At every point of bits the rows hold iff the indicator has the given value there. The check of
the rows says the same, as long as it cannot overflow. -/
def Encoded.Expresses (e : Encoded) (operands : List Var) (value : (Var → Int) → Int) : Prop :=
  ∀ σ : Var → Int, (∀ v ∈ e.indicator :: operands, IsBit (σ v)) →
    (AllHold σ e.rows ↔ σ e.indicator = value σ) ∧
    (2 * operands.length + 2 ≤ maxWeight →
      ∀ s : Assignment, (∀ v ∈ e.indicator :: operands, s v = some (σ v)) →
        s.satisfies e.rows = some (decide (σ e.indicator = value σ)))

theorem Encoded.expresses_of_light {e : Encoded} {vs : List Var} {value : (Var → Int) → Int}
    (hhold : ∀ σ, (∀ v ∈ vs, IsBit (σ v)) → IsBit (σ e.indicator) →
      (AllHold σ e.rows ↔ σ e.indicator = value σ))
    (hlight : 2 * vs.length + 2 ≤ maxWeight → ∀ row ∈ e.rows, row.Light)
    (hover : ∀ P : Var → Prop, (∀ v ∈ vs, P v) → P e.indicator → AllOver P e.rows) :
    e.Expresses vs value := by
  intro σ hbits
  rw [List.forall_mem_cons] at hbits
  have hiff := hhold σ hbits.2 hbits.1
  refine ⟨hiff, ?_⟩
  intro hlen s hs
  rw [List.forall_mem_cons] at hs
  rw [satisfies_light (hlight hlen)
    (hover _ (fun v hv => ⟨hs.2 v hv, hbits.2 v hv⟩) ⟨hs.1, hbits.1⟩)]
  simp only [hiff]

namespace Model

variable {m : Model} {vs : List Var} {e : Encoded}

theorem conjunction_expresses (h : m.conjunction vs = some e) :
    e.Expresses vs (conjunctionAt · vs) := by
  obtain ⟨-, -, hrows⟩ := indicate_eq_some_iff.1 h
  refine Encoded.expresses_of_light ?_ ?_ fun P hvs hr => andRows_over hrows hvs hr
  · intro σ hvs hr
    rw [andRows_hold hrows hvs hr, conjunctionAt, hr.eq_truth_iff]
  · intro hlen
    obtain ⟨rows, hrows', hlight⟩ := exists_andRows vs e.indicator (by omega)
    obtain rfl : rows = e.rows := Option.some.inj (hrows'.symm.trans hrows)
    exact hlight hlen

theorem disjunction_expresses (h : m.disjunction vs = some e) :
    e.Expresses vs (disjunctionAt · vs) := by
  obtain ⟨-, -, hrows⟩ := indicate_eq_some_iff.1 h
  refine Encoded.expresses_of_light ?_ ?_ fun P hvs hr => orRows_over hrows hvs hr
  · intro σ hvs hr
    rw [orRows_hold hrows hvs hr, disjunctionAt, hr.eq_truth_iff]
  · intro hlen
    obtain ⟨rows, hrows', hlight⟩ := exists_orRows vs e.indicator (by omega)
    obtain rfl : rows = e.rows := Option.some.inj (hrows'.symm.trans hrows)
    exact hlight hlen

theorem exists_indicate {k : Key} {rows : Var → Option (List Constraint)}
    (h : ∃ cs, rows (m.binary k).2 = some cs) : ∃ e, m.indicate k rows = some e := by
  obtain ⟨cs, hcs⟩ := h
  exact ⟨⟨_, _, cs⟩, indicate_eq_some_iff.2 ⟨rfl, rfl, hcs⟩⟩

theorem exists_conjunction (m : Model) (h : vs.length ≤ maxWeight) :
    ∃ e, m.conjunction vs = some e := by
  obtain ⟨cs, hcs, -⟩ := exists_andRows vs (m.binary (.and vs)).2 h
  exact exists_indicate ⟨cs, hcs⟩

theorem exists_disjunction (m : Model) (h : vs.length ≤ maxWeight) :
    ∃ e, m.disjunction vs = some e := by
  obtain ⟨cs, hcs, -⟩ := exists_orRows vs (m.binary (.or vs)).2 h
  exact exists_indicate ⟨cs, hcs⟩

theorem indicate_twice {k : Key} {rows : Var → Option (List Constraint)}
    (h : m.indicate k rows = some e) : e.model.indicate k rows = some e := by
  have hbinary : e.model.binary k = (e.model, e.indicator) := by
    simp only [binary, findBinary?_indicate h]
  exact indicate_eq_some_iff.2 ⟨by rw [hbinary], by rw [hbinary], (indicate_eq_some_iff.1 h).2.2⟩

/-- The encoders give one indicator and the same rows, in any order of the calls. -/
def Shares (m : Model) (first second : Model → Option Encoded) : Prop :=
  ∃ e, first m = some e ∧ second m = some e ∧ first e.model = some e ∧ second e.model = some e

/-- Conjunctions and disjunctions of any number of variables are exact. A list that is not longer
than a coefficient can count has both. The encoders for two operands share the indicators and the
rows with the general ones. -/
theorem connectives_exact (m : Model) :
    (∀ vs e, m.conjunction vs = some e →
      e.model.findBinary? (.and vs) = some e.indicator ∧ e.Expresses vs (conjunctionAt · vs)) ∧
    (∀ vs e, m.disjunction vs = some e →
      e.model.findBinary? (.or vs) = some e.indicator ∧ e.Expresses vs (disjunctionAt · vs)) ∧
    (∀ vs : List Var, vs.length ≤ maxWeight →
      (∃ e, m.conjunction vs = some e) ∧ ∃ e, m.disjunction vs = some e) ∧
    ∀ a b, m.Shares (and2 · a b) (conjunction · [a, b]) ∧
      m.Shares (or2 · a b) (disjunction · [a, b]) := by
  refine ⟨?_, ?_, fun vs h => ⟨exists_conjunction m h, exists_disjunction m h⟩, ?_⟩
  · intro vs e h
    exact ⟨findBinary?_indicate h, conjunction_expresses h⟩
  · intro vs e h
    exact ⟨findBinary?_indicate h, disjunction_expresses h⟩
  · intro a b
    simp only [Shares, and2_eq, or2_eq]
    have hlen : [a, b].length ≤ maxWeight := by simp [maxWeight]
    constructor
    · obtain ⟨e, he⟩ := exists_conjunction m hlen
      exact ⟨e, he, he, indicate_twice he, indicate_twice he⟩
    · obtain ⟨e, he⟩ := exists_disjunction m hlen
      exact ⟨e, he, he, indicate_twice he, indicate_twice he⟩

def twoBits : Model := ((Model.empty.namedBinary "a").1.namedBinary "b").1

theorem twoBits_reachable : twoBits.Reachable :=
  .step (o := .namedBinary "b") (.step (o := .namedBinary "a") .empty (by decide) rfl) (by decide)
    rfl

/-- Three operands, one of them twice, and none at all. The indicator is a new column. -/
theorem repeatedOperands_connectives_exact :
    twoBits.Reachable ∧ (∀ v ∈ [0, 1, 0], twoBits.kind? v = some .binary) ∧
    (∃ e, twoBits.conjunction [0, 1, 0] = some e ∧ e.indicator = 2 ∧
      e.Expresses [0, 1, 0] (conjunctionAt · [0, 1, 0])) ∧
    ∃ e, twoBits.disjunction [] = some e ∧ e.indicator = 2 ∧
      e.Expresses [] (disjunctionAt · []) := by
  obtain ⟨hand, hor, hexists, -⟩ := connectives_exact twoBits
  obtain ⟨e, he⟩ := (hexists [0, 1, 0] (by decide)).1
  obtain ⟨e', he'⟩ := (hexists [] (by decide)).2
  have hnew : e.indicator = 2 := (indicate_eq_some_iff.1 he).2.1.trans (by decide)
  have hnew' : e'.indicator = 2 := (indicate_eq_some_iff.1 he').2.1.trans (by decide)
  exact ⟨twoBits_reachable, by decide, ⟨e, he, hnew, (hand _ e he).2⟩,
    ⟨e', he', hnew', (hor _ e' he').2⟩⟩

end Model
end Linearize
