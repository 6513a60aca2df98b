import Linearize.Model.History
import Linearize.Proofs.Scoping

/-!
# Linearize.Proofs.Agreement

What is said of a point depends only on the values of the variables that are mentioned. Two points
that agree on the declared names make the same statements hold.
-/

namespace Linearize

variable {σ τ : Var → Int}

/-! ## Expressions and keys -/

theorem Expr.value_congr {e : Expr} (h : ∀ v ∈ e.vars, σ v = τ v) : e.value σ = e.value τ := by
  obtain ⟨ts, n⟩ := e
  have hterms : Expr.termsValue σ ts = Expr.termsValue τ ts := by
    replace h : ∀ t ∈ ts, σ t.1 = τ t.1 := List.forall_mem_map.1 h
    induction ts with
    | nil => rfl
    | cons t ts ih =>
      obtain ⟨v, c⟩ := t
      rw [List.forall_mem_cons] at h
      rw [Expr.termsValue, Expr.termsValue, ih h.2, h.1]
  rw [Expr.value, Expr.value, hterms]

theorem bitsAt_congr {vs : List Var} (h : ∀ v ∈ vs, σ v = τ v) : bitsAt σ vs = bitsAt τ vs :=
  List.map_congr_left fun v hv => by rw [bitAt, bitAt, h v hv]

theorem Key.condition_congr {k : Key} (h : ∀ v ∈ k.operands, σ v = τ v) :
    k.Condition σ ↔ k.Condition τ := by
  cases k with
  | named name => exact Iff.rfl
  | less a b =>
    have ha : a.value σ = a.value τ := Expr.value_congr fun v hv => h v (List.mem_append_left _ hv)
    have hb : b.value σ = b.value τ := Expr.value_congr fun v hv => h v (List.mem_append_right _ hv)
    rw [Key.Condition, Key.Condition, ha, hb]
  | and vs => exact forall₂_congr fun v hv => by rw [h v hv]
  | or vs =>
    constructor
    · rintro ⟨v, hv, h1⟩
      exact ⟨v, hv, by rw [← h v hv, h1]⟩
    · rintro ⟨v, hv, h1⟩
      exact ⟨v, hv, by rw [h v hv, h1]⟩
  | selector vs i =>
    rw [Key.operands] at h
    rw [Key.Condition, Key.Condition, bitsAt_congr h]

theorem selected_congr {conds : List Var} (h : ∀ v ∈ conds, σ v = τ v)
    (bodies : List (List Constraint)) (otherwise : List Constraint) :
    selected σ conds bodies otherwise = selected τ conds bodies otherwise := by
  induction conds generalizing bodies with
  | nil => rfl
  | cons c conds ih =>
    rw [List.forall_mem_cons] at h
    cases bodies with
    | nil => rfl
    | cons body bodies => rw [selected, selected, h.1, ih h.2]

theorem unselected_congr {conds : List Var} (h : ∀ v ∈ conds, σ v = τ v)
    (bodies : List (List Constraint)) (otherwise : List Constraint) :
    unselected σ conds bodies otherwise = unselected τ conds bodies otherwise := by
  induction conds generalizing bodies with
  | nil => rfl
  | cons c conds ih =>
    rw [List.forall_mem_cons] at h
    cases bodies with
    | nil => rfl
    | cons body bodies => rw [unselected, unselected, h.1, ih h.2]

theorem selected_subset (σ : Var → Int) (conds : List Var) (bodies : List (List Constraint))
    (otherwise : List Constraint) :
    selected σ conds bodies otherwise ⊆ bodies.flatten ++ otherwise := by
  induction conds generalizing bodies with
  | nil => exact List.subset_append_right _ _
  | cons c conds ih =>
    cases bodies with
    | nil => exact List.subset_append_right _ _
    | cons body bodies =>
      rw [selected, List.flatten_cons, List.append_assoc]
      split
      · exact List.subset_append_left _ _
      · exact List.Subset.trans (ih bodies) (List.subset_append_right _ _)

theorem unselected_subset (σ : Var → Int) (conds : List Var) (bodies : List (List Constraint))
    (otherwise : List Constraint) :
    unselected σ conds bodies otherwise ⊆ bodies.flatten ++ otherwise := by
  induction conds generalizing bodies with
  | nil => exact List.nil_subset _
  | cons c conds ih =>
    cases bodies with
    | nil => exact List.nil_subset _
    | cons body bodies =>
      rw [unselected, List.flatten_cons, List.append_assoc]
      split
      · exact List.subset_append_right _ _
      · refine List.append_subset.2 ⟨List.subset_append_left _ _, ?_⟩
        exact List.Subset.trans (ih bodies) (List.subset_append_right _ _)

/-! ## Statements in a scope -/

section Scope

variable {s : Scope} (hagree : ∀ v, s.Declares v → σ v = τ v)

include hagree

theorem Scope.Covers.value_congr {e : Expr} (he : s.Covers e) : e.value σ = e.value τ :=
  Expr.value_congr fun v hv => hagree v (he.vars v hv)

theorem Scope.CoversRow.holds_congr {c : Constraint} (hc : s.CoversRow c) :
    c.Holds σ ↔ c.Holds τ := by
  have hl := Scope.Covers.value_congr hagree hc.1
  have hr := Scope.Covers.value_congr hagree hc.2
  cases c with
  | le l r =>
    show l.value σ ≤ r.value σ ↔ l.value τ ≤ r.value τ
    rw [show l.value σ = l.value τ from hl, show r.value σ = r.value τ from hr]
  | eq l r =>
    show l.value σ = r.value σ ↔ l.value τ = r.value τ
    rw [show l.value σ = l.value τ from hl, show r.value σ = r.value τ from hr]

theorem Scope.CoversRow.within_congr {c : Constraint} (hc : s.CoversRow c) (bigM : Int) :
    c.Within bigM σ ↔ c.Within bigM τ := by
  have hl := Scope.Covers.value_congr hagree hc.1
  have hr := Scope.Covers.value_congr hagree hc.2
  refine forall₂_congr ?_
  intro p hp
  have hsides : p = (c.lhs, c.rhs) ∨ p = (c.rhs, c.lhs) := by
    cases c with
    | le l r => exact .inl (List.mem_singleton.1 hp)
    | eq l r =>
      have hpair : p = (l, r) ∨ p = (r, l) := by simpa [Constraint.inequalities] using hp
      exact hpair
  rcases hsides with rfl | rfl
  · rw [hl, hr]
  · rw [hl, hr]

theorem Statement.holds_congr {x : Statement} (hx : x.InScope s) : x.Holds σ ↔ x.Holds τ := by
  have htruths : ∀ v ∈ x.truths, σ v = τ v := fun v hv => hagree v (hx.truths v hv).declares
  have hall : ∀ cs : List Constraint, cs ⊆ x.constraints → (AllHold σ cs ↔ AllHold τ cs) :=
    fun cs hcs => forall₂_congr fun c hc =>
      Scope.CoversRow.holds_congr hagree (hx.constraints c (hcs hc))
  cases x with
  | compare op a b M => exact Iff.rfl
  | conjunction vs => exact Iff.rfl
  | disjunction vs => exact Iff.rfl
  | xor inputs output =>
    rw [truths, List.forall_mem_append, List.forall_mem_singleton] at htruths
    rw [Holds, Holds, bitsAt_congr htruths.1, bitAt, bitAt, htruths.2]
  | truncatedXor vs =>
    have hbits := bitsAt_congr htruths
    simp only [Holds, bitsAt, List.map_take, List.map_drop] at hbits ⊢
    rw [truths] at hbits
    rw [hbits]
  | truncatedWordXor vs =>
    have hbits := bitsAt_congr htruths
    simp only [Holds, bitsAt, List.map_take, List.map_drop] at hbits ⊢
    rw [truths] at hbits
    rw [hbits]
  | linear row => exact Scope.CoversRow.holds_congr hagree (hx.constraints row List.mem_cons_self)
  | ifThen cond body M =>
    rw [truths] at htruths
    rw [Holds, Holds, selected_congr htruths]
    refine hall _ (List.Subset.trans (selected_subset τ _ _ _) ?_)
    simp [constraints]
  | ifThenElse cond body otherwise M =>
    rw [truths] at htruths
    rw [Holds, Holds, selected_congr htruths]
    refine hall _ (List.Subset.trans (selected_subset τ _ _ _) ?_)
    simp [constraints]
  | chain conds bodies otherwise M =>
    rw [truths] at htruths
    rw [Holds, Holds, selected_congr htruths]
    exact hall _ (selected_subset τ _ _ _)

theorem Statement.adequate_congr {x : Statement} (hx : x.InScope s) (bigM : Int) :
    x.Adequate bigM σ ↔ x.Adequate bigM τ := by
  have htruths : ∀ v ∈ x.truths, σ v = τ v := fun v hv => hagree v (hx.truths v hv).declares
  have hall : ∀ (M : Int) (cs : List Constraint), cs ⊆ x.constraints →
      ((∀ c ∈ cs, c.Within M σ) ↔ ∀ c ∈ cs, c.Within M τ) :=
    fun M cs hcs => forall₂_congr fun c hc =>
      Scope.CoversRow.within_congr hagree (hx.constraints c (hcs hc)) M
  cases x with
  | compare op a b M =>
    have ha := Scope.Covers.value_congr hagree (hx.compared a (by simp [compared]))
    have hb := Scope.Covers.value_congr hagree (hx.compared b (by simp [compared]))
    rw [Adequate, Adequate, ha, hb]
  | conjunction vs => exact Iff.rfl
  | disjunction vs => exact Iff.rfl
  | xor inputs output => exact Iff.rfl
  | truncatedXor vs => exact Iff.rfl
  | truncatedWordXor vs => exact Iff.rfl
  | linear row => exact Iff.rfl
  | ifThen cond body M =>
    rw [truths] at htruths
    rw [Adequate, Adequate, unselected_congr htruths]
    refine hall _ _ (List.Subset.trans (unselected_subset τ _ _ _) ?_)
    simp [constraints]
  | ifThenElse cond body otherwise M =>
    rw [truths] at htruths
    rw [Adequate, Adequate, unselected_congr htruths]
    refine hall _ _ (List.Subset.trans (unselected_subset τ _ _ _) ?_)
    simp [constraints]
  | chain conds bodies otherwise M =>
    rw [truths] at htruths
    rw [Adequate, Adequate, unselected_congr htruths]
    exact hall _ _ (unselected_subset τ _ _ _)

end Scope

end Linearize
