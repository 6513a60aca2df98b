import Mathlib.Algebra.Order.Group.Abs
import Mathlib.Algebra.Order.Group.Int
import Linearize.Proofs.Indicators

/-!
# Linearize.Proofs.Comparisons

Comparisons are exact. The rows of an order bind its indicator with the tight bounds of the big-M;
equality and its negation stand on two orders and a connective, and the rows bind all three of
their indicators. The columns that a comparison adds are these indicators and no others.

* `Orders`: what the encoding of one order is, by `orders_of_less` for all four of them.
* `Compares`: what the encoding of any comparison is, from its orders by `joined_compares`.
-/

namespace Linearize

variable {a b x y : Expr} {op : Comparison} {bigM : Int}

namespace Comparison

/-- The two expressions of which the first is less than the second iff the comparison is true. An
overflow has none, and neither has a comparison that is not an order. -/
def order? (a b : Expr) : Comparison → Option (Expr × Expr)
  | .less => some (a, b)
  | .leq => (b.addConst 1).map fun b' => (a, b')
  | .greater => some (b, a)
  | .geq => (a.addConst 1).map fun a' => (b, a')
  | .eq | .neq => none

/-- The comparisons that an encoder gives an indicator, its own the last. -/
def parts : Comparison → List Comparison
  | .eq => [.leq, .geq, .eq]
  | .neq => [.less, .greater, .neq]
  | op => [op]

theorem order?_spec (h : op.order? a b = some (x, y)) :
    Model.Shifted a b x y ∧
      ∀ σ, (x.value σ < y.value σ ↔ op.Holds (a.value σ) (b.value σ)) := by
  cases op with
  | less => cases h; exact ⟨.less, fun σ => Iff.rfl⟩
  | greater => cases h; exact ⟨.greater, fun σ => Iff.rfl⟩
  | leq =>
    obtain ⟨b', hb, hxy⟩ := Option.map_eq_some_iff.1 h
    cases hxy
    refine ⟨.leq hb, fun σ => ?_⟩
    rw [Expr.value_addConst σ hb]
    exact Int.lt_add_one_iff
  | geq =>
    obtain ⟨a', ha, hxy⟩ := Option.map_eq_some_iff.1 h
    cases hxy
    refine ⟨.geq ha, fun σ => ?_⟩
    rw [Expr.value_addConst σ ha]
    exact Int.lt_add_one_iff
  | eq => cases h
  | neq => cases h

end Comparison

theorem length_lessRows {r : Var} {rows : List Constraint} (h : lessRows a b bigM r = some rows) :
    rows.length = 2 := by
  simp only [lessRows, Option.bind_eq_bind, Option.bind_eq_some_iff, Option.pure_def,
    Option.some.injEq] at h
  obtain ⟨-, -, -, -, -, -, -, -, -, -, rfl⟩ := h
  rfl

namespace Model

variable {m m' m'' : Model} {v : Var} {vs ws : List Var} {e : Encoded}

/-! ## The indicators in a model -/

/-- The column that the model has for an order of `a` and `b`. -/
def order? (m : Model) (a b : Expr) (op : Comparison) : Option Var :=
  (op.order? a b).bind fun p => m.findBinary? (.less p.1 p.2)

/-- The column that the model has for a comparison of `a` and `b`. -/
def indicator? (m : Model) (a b : Expr) : Comparison → Option Var
  | .eq => do m.findBinary? (.and [← m.order? a b .leq, ← m.order? a b .geq])
  | .neq => do m.findBinary? (.or [← m.order? a b .less, ← m.order? a b .greater])
  | op => m.order? a b op

theorem Grows.order? (hg : m.Grows m') (h : m.order? a b op = some v) :
    m'.order? a b op = some v := by
  obtain ⟨p, hp, hv⟩ := Option.bind_eq_some_iff.1 h
  exact Option.bind_eq_some_iff.2 ⟨p, hp, hg.findBinary? hv⟩

theorem indicator?_of_order? (h : m.order? a b op = some v) : m.indicator? a b op = some v := by
  cases op with
  | less => exact h
  | leq => exact h
  | greater => exact h
  | geq => exact h
  | eq => cases h
  | neq => cases h

/-! ## The columns that are added -/

/-- `m'` grows from `m` by columns of `vs` only. -/
structure Expands (m m' : Model) (vs : List Var) : Prop where
  grows : m.Grows m'
  added : ∀ v, m.size ≤ v → v < m'.size → v ∈ vs

theorem Expands.trans (h₁ : m.Expands m' vs) (h₂ : m'.Expands m'' ws) :
    m.Expands m'' (vs ++ ws) where
  grows := h₁.grows.trans h₂.grows
  added := fun v hle hlt => List.mem_append.2 <| by
    rcases Nat.lt_or_ge v m'.size with h | h
    · exact .inl (h₁.added v hle h)
    · exact .inr (h₂.added v h hlt)

theorem indicate_expands {k : Key} {rows : Var → Option (List Constraint)}
    (h : m.indicate k rows = some e) : m.Expands e.model [e.indicator] where
  grows := indicate_grows h
  added := fun v hle hlt => by
    obtain ⟨hm, hi, -⟩ := indicate_eq_some_iff.1 h
    rw [hm] at hlt
    obtain ⟨c, hc⟩ := exists_column hlt
    rcases column_binary hc with hold | ⟨hv, -⟩
    · exact absurd (lt_size_of_column hold) (Nat.not_lt.2 hle)
    · rw [List.mem_singleton, hi, hv]

/-! ## Orders -/

/-- The encoding of an order: its indicator is the column of the order, the only one that is
added, and a big-M that exceeds the distance binds it to the order. -/
structure Orders (m : Model) (a b : Expr) (bigM : Int) (op : Comparison) (e : Encoded) :
    Prop where
  indicator : e.model.order? a b op = some e.indicator
  expands : m.Expands e.model [e.indicator]
  hold_iff : ∀ σ, IsBit (σ e.indicator) → |a.value σ - b.value σ| < bigM →
    (AllHold σ e.rows ↔ (σ e.indicator = 1 ↔ op.Holds (a.value σ) (b.value σ)))

theorem orders_of_less (hop : op.order? a b = some (x, y)) (h : m.less x y bigM = some e) :
    m.Orders a b bigM op e where
  indicator := Option.bind_eq_some_iff.2 ⟨(x, y), hop, findBinary?_indicate h⟩
  expands := indicate_expands h
  hold_iff := fun σ hr hM => by
    obtain ⟨hshifted, hholds⟩ := Comparison.order?_spec hop
    obtain ⟨hab, hba⟩ := abs_sub_lt_iff.1 hM
    obtain ⟨hon, hoff⟩ := hshifted.near hab hba
    have hrows := (indicate_eq_some_iff.1 h).2.2
    rw [← hholds σ]
    exact ⟨lessRows_sound hrows hr, fun hiff => lessRows_complete hrows hr hiff hon hoff⟩

theorem leq_orders (h : m.leq a b bigM = some e) : m.Orders a b bigM .leq e := by
  simp only [leq] at h
  split at h
  · cases h
  · rename_i b' hb
    exact orders_of_less (by simp [Comparison.order?, hb]) h

theorem geq_orders (h : m.geq a b bigM = some e) : m.Orders a b bigM .geq e := by
  simp only [geq] at h
  split at h
  · cases h
  · rename_i a' ha
    exact orders_of_less (by simp [Comparison.order?, ha]) h

theorem less_orders (h : m.less a b bigM = some e) : m.Orders a b bigM .less e :=
  orders_of_less rfl h

theorem greater_orders (h : m.greater a b bigM = some e) : m.Orders a b bigM .greater e :=
  orders_of_less rfl h

/-! ## All comparisons -/

/-- The encoding of a comparison. `ind` gives the column of each part: the columns of the parts are
the only ones that are added, and a big-M that exceeds the distance binds each to its part. -/
structure Compares (m : Model) (a b : Expr) (bigM : Int) (op : Comparison) (e : Encoded)
    (ind : Comparison → Var) : Prop where
  result : ind op = e.indicator
  indicator : ∀ part ∈ op.parts, e.model.indicator? a b part = some (ind part)
  added : ∀ v, m.size ≤ v → v < e.model.size → v ∈ op.parts.map ind
  hold_iff : ∀ σ, (∀ part ∈ op.parts, IsBit (σ (ind part))) → |a.value σ - b.value σ| < bigM →
    (AllHold σ e.rows ↔
      ∀ part ∈ op.parts, (σ (ind part) = 1 ↔ part.Holds (a.value σ) (b.value σ)))

theorem Orders.compares (h : m.Orders a b bigM op e) (hop : op.parts = [op]) :
    m.Compares a b bigM op e fun _ => e.indicator where
  result := rfl
  indicator := by
    rw [hop, List.forall_mem_singleton]
    exact indicator?_of_order? h.indicator
  added := by
    rw [hop]
    exact h.expands.added
  hold_iff := fun σ hbits hM => by
    rw [hop, List.forall_mem_singleton] at hbits ⊢
    exact h.hold_iff σ hbits hM

section Joined

variable {first second : Comparison} {p q r : Encoded} {ind : Comparison → Var}

theorem Orders.joined_compares (hp : m.Orders a b bigM first p)
    (hq : p.model.Orders a b bigM second q) (hr : q.model.Expands r.model [r.indicator])
    (hop : op.parts = [first, second, op]) (hfirst : ind first = p.indicator)
    (hsecond : ind second = q.indicator) (hresult : ind op = r.indicator)
    (hind : r.model.indicator? a b op = some r.indicator)
    (hrows : ∀ σ, IsBit (σ p.indicator) → IsBit (σ q.indicator) → IsBit (σ r.indicator) →
      (σ p.indicator = 1 ↔ first.Holds (a.value σ) (b.value σ)) →
      (σ q.indicator = 1 ↔ second.Holds (a.value σ) (b.value σ)) →
      (AllHold σ r.rows ↔ (σ r.indicator = 1 ↔ op.Holds (a.value σ) (b.value σ)))) :
    m.Compares a b bigM op ⟨r.model, r.indicator, p.rows ++ q.rows ++ r.rows⟩ ind where
  result := hresult
  indicator := by
    simp only [hop, List.forall_mem_cons, hfirst, hsecond, hresult]
    have hpr := hq.expands.trans hr
    exact ⟨indicator?_of_order? (hpr.grows.order? hp.indicator),
      indicator?_of_order? (hr.grows.order? hq.indicator), hind, List.forall_mem_nil _⟩
  added := by
    simp only [hop, List.map_cons, List.map_nil, hfirst, hsecond, hresult]
    exact ((hp.expands.trans hq.expands).trans hr).added
  hold_iff := fun σ hbits hM => by
    simp only [hop, List.forall_mem_cons, hfirst, hsecond, hresult] at hbits ⊢
    obtain ⟨hbp, hbq, hbr, -⟩ := hbits
    rw [allHold_append, allHold_append, hp.hold_iff σ hbp hM, hq.hold_iff σ hbq hM, and_assoc]
    refine and_congr_right fun h₁ => and_congr_right fun h₂ => ?_
    rw [hrows σ hbp hbq hbr h₁ h₂]
    exact (and_iff_left (List.forall_mem_nil _)).symm

end Joined

theorem eq_compares (h : m.eq a b bigM = some e) : ∃ ind, m.Compares a b bigM .eq e ind := by
  obtain ⟨p, q, r, hfirst, hsecond, hr, rfl⟩ := joined_eq_some_iff.1 h
  have hp := leq_orders hfirst
  have hq := geq_orders hsecond
  rw [and2_eq] at hr
  have hqr := indicate_expands hr
  have hpr := hq.expands.trans hqr
  let ind : Comparison → Var
    | .leq => p.indicator
    | .geq => q.indicator
    | _ => r.indicator
  refine ⟨ind, hp.joined_compares hq hqr rfl rfl rfl rfl ?_ ?_⟩
  · simp only [indicator?, hpr.grows.order? hp.indicator, hqr.grows.order? hq.indicator]
    exact findBinary?_indicate hr
  · intro σ hbp hbq hbr h₁ h₂
    rw [andRows_hold (indicate_eq_some_iff.1 hr).2.2 (by simp [hbp, hbq]) hbr]
    simp only [List.mem_cons, List.not_mem_nil, or_false, forall_eq_or_imp, forall_eq, h₁, h₂,
      Comparison.Holds, ← Int.le_antisymm_iff]

theorem neq_compares (h : m.neq a b bigM = some e) : ∃ ind, m.Compares a b bigM .neq e ind := by
  obtain ⟨p, q, r, hfirst, hsecond, hr, rfl⟩ := joined_eq_some_iff.1 h
  have hp := less_orders hfirst
  have hq := greater_orders hsecond
  rw [or2_eq] at hr
  have hqr := indicate_expands hr
  have hpr := hq.expands.trans hqr
  let ind : Comparison → Var
    | .less => p.indicator
    | .greater => q.indicator
    | _ => r.indicator
  refine ⟨ind, hp.joined_compares hq hqr rfl rfl rfl rfl ?_ ?_⟩
  · simp only [indicator?, hpr.grows.order? hp.indicator, hqr.grows.order? hq.indicator]
    exact findBinary?_indicate hr
  · intro σ hbp hbq hbr h₁ h₂
    rw [orRows_hold (indicate_eq_some_iff.1 hr).2.2 (by simp [hbp, hbq]) hbr]
    simp only [List.mem_cons, List.not_mem_nil, or_false, exists_eq_or_imp, exists_eq_left, h₁, h₂,
      Comparison.Holds, ← Int.ne_iff_lt_or_gt]

/-- Comparisons are exact in every model. The two rows of `less` hold iff the indicator is 1 and the
first value is smaller by at most the big-M, or it is 0 and the first value is not smaller and
larger by less than the big-M. The rows of every comparison bind the columns of its parts, which
are the only ones that are added, under a big-M that exceeds the distance of the two values. -/
theorem compare_exact (m : Model) (a b : Expr) (bigM : Int) :
    (∀ e, m.less a b bigM = some e → e.rows.length = 2 ∧
      ∀ σ : Var → Int, IsBit (σ e.indicator) →
        (AllHold σ e.rows ↔
          σ e.indicator = 1 ∧ a.value σ < b.value σ ∧ b.value σ - a.value σ ≤ bigM ∨
          σ e.indicator = 0 ∧ b.value σ ≤ a.value σ ∧ a.value σ - b.value σ < bigM)) ∧
    ∀ op e, m.compare op a b bigM = some e → ∃ ind, m.Compares a b bigM op e ind := by
  refine ⟨?_, ?_⟩
  · intro e h
    have hrows := (indicate_eq_some_iff.1 h).2.2
    exact ⟨length_lessRows hrows, fun σ hr => lessRows_hold hrows hr⟩
  · intro op e h
    cases op with
    | less => exact ⟨_, (less_orders h).compares rfl⟩
    | leq => exact ⟨_, (leq_orders h).compares rfl⟩
    | greater => exact ⟨_, (greater_orders h).compares rfl⟩
    | geq => exact ⟨_, (geq_orders h).compares rfl⟩
    | eq => exact eq_compares h
    | neq => exact neq_compares h

def oneNumber : Model := ⟨[⟨.named "x", .integer (some 0) (some 9)⟩], []⟩

/-- A number compared with itself: the two orders of the equality share their column. -/
theorem oneNumber_compare_exact :
    (∃ e, oneNumber.less (.ofVar 0) (.const 3) 5 = some e ∧ e.rows.length = 2 ∧
      AllHold (fun _ => 1) e.rows) ∧
    ∃ e, ∃ ind : Comparison → Var, oneNumber.compare .eq (.ofVar 0) (.ofVar 0) 5 = some e ∧
      (∀ part ∈ [.leq, .geq, .eq],
        e.model.indicator? (.ofVar 0) (.ofVar 0) part = some (ind part)) ∧
      ind .leq = ind .geq ∧ AllHold (fun _ => 1) e.rows := by
  refine ⟨?_, ?_⟩
  · obtain ⟨e, he⟩ : ∃ e, oneNumber.less (.ofVar 0) (.const 3) 5 = some e :=
      Option.isSome_iff_exists.1 (by decide)
    obtain ⟨hlen, hrows⟩ := (compare_exact oneNumber (.ofVar 0) (.const 3) 5).1 e he
    exact ⟨e, he, hlen, (hrows (fun _ => 1) (.inr rfl)).2 (.inl ⟨rfl, by simp, by simp⟩)⟩
  · obtain ⟨e, he⟩ : ∃ e, oneNumber.compare .eq (.ofVar 0) (.ofVar 0) 5 = some e :=
      Option.isSome_iff_exists.1 (by decide)
    obtain ⟨ind, hcmp⟩ := (compare_exact oneNumber (.ofVar 0) (.ofVar 0) 5).2 .eq e he
    have hleq := hcmp.indicator .leq (by decide)
    have hgeq := hcmp.indicator .geq (by decide)
    refine ⟨e, ind, he, hcmp.indicator, Option.some.inj (hleq.symm.trans hgeq), ?_⟩
    refine (hcmp.hold_iff (fun _ => 1) (fun _ _ => .inr rfl) (by simp)).2 ?_
    simp [Comparison.parts, Comparison.Holds]

end Model
end Linearize
