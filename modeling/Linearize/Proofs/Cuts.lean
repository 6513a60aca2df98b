import Linearize.Proofs.ExclusiveOr

/-!
# Linearize.Proofs.Cuts

Rows as cuts. The row of a pattern holds at a point of bits iff the pattern admits it: a pattern
without don't-cares cuts off the one point that it spells out, and one of don't-cares alone cuts off
every point. Two rows for the same sum of contributions have the same normal form, however they are
written; so the four rows of an exclusive or of two inputs are those of its cover.
-/

namespace Linearize

variable {σ : Var → Int} {s : Assignment}

/-! ## Points -/

theorem bitAt_eq_iff {τ : Var → Int} {v : Var} (hσ : IsBit (σ v)) (hτ : IsBit (τ v)) :
    bitAt σ v = bitAt τ v ↔ σ v = τ v := by
  rw [bitAt, bitAt]
  rcases hσ with h0 | h0 <;> rcases hτ with h1 | h1 <;> rw [h0, h1] <;> decide

theorem bitsAt_eq_iff {τ : Var → Int} {vs : List Var} (hσ : ∀ v ∈ vs, IsBit (σ v))
    (hτ : ∀ v ∈ vs, IsBit (τ v)) : bitsAt σ vs = bitsAt τ vs ↔ ∀ v ∈ vs, σ v = τ v := by
  rw [bitsAt, bitsAt, List.map_inj_left]
  exact forall₂_congr fun v hv => bitAt_eq_iff (hσ v hv) (hτ v hv)

def pointOf (vs : List Var) (bits : List Bool) (v : Var) : Int :=
  if bits[vs.idxOf v]? = some true then 1 else 0

theorem pointOf_isBit (vs : List Var) (bits : List Bool) (v : Var) : IsBit (pointOf vs bits v) := by
  unfold pointOf
  split
  · exact .inr rfl
  · exact .inl rfl

theorem bitsAt_pointOf {vs : List Var} {bits : List Bool} (hvs : vs.Nodup)
    (h : bits.length = vs.length) : bitsAt (pointOf vs bits) vs = bits := by
  refine List.ext_getElem (by rw [length_bitsAt, h]) fun i hi hi' => ?_
  have hidx : vs.idxOf vs[i] = i := hvs.idxOf_getElem i (h ▸ hi')
  simp only [bitsAt, bitAt, pointOf, List.getElem_map, hidx, List.getElem?_eq_getElem hi']
  cases bits[i] <;> decide

/-! ## Patterns -/

namespace Pattern

theorem load_of_any {p : Pattern} {vs : List Var} (h : ∀ x ∈ p.zip vs, x.1 = .any) :
    p.load σ vs = 0 := by
  refine List.sum_eq_zero (List.forall_mem_map.2 fun x hx => ?_)
  rw [h x hx, Ternary.share]

theorem exists_ofPoint {p : Pattern} (h : Ternary.any ∉ p) : ∃ bits, p = ofPoint bits := by
  induction p with
  | nil => exact ⟨[], rfl⟩
  | cons t p ih =>
    rw [List.mem_cons, not_or] at h
    obtain ⟨bits, rfl⟩ := ih h.2
    cases t with
    | zero => exact ⟨false :: bits, rfl⟩
    | one => exact ⟨true :: bits, rfl⟩
    | any => exact absurd rfl h.1

theorem ofPoint_admits {xs ys : List Bool} (h : ys.length = xs.length) :
    (ofPoint xs).admits ys = true ↔ ys ≠ xs := by
  induction xs generalizing ys with
  | nil =>
    obtain rfl := List.length_eq_zero_iff.1 h
    simp [ofPoint, admits]
  | cons x xs ih =>
    obtain ⟨y, ys, rfl⟩ := List.exists_cons_of_length_eq_add_one h
    have htail := ih (Nat.succ.inj h)
    simp only [ofPoint, List.map_cons, admits, Bool.or_eq_true] at htail ⊢
    rw [htail]
    cases x <;> cases y <;> simp [Ternary.ofBit, Ternary.differs]

end Pattern

/-- A point of bits that the constraint cuts off. -/
def Constraint.CutsOff (c : Constraint) (vs : List Var) (σ : Var → Int) : Prop :=
  (∀ v ∈ vs, IsBit (σ v)) ∧ ¬ c.Holds σ

theorem Pattern.cutsOff_ofPoint {vs : List Var} {c : Constraint} (hσ : ∀ v ∈ vs, IsBit (σ v))
    (h : (Pattern.ofPoint (bitsAt σ vs)).row vs = some c) (τ : Var → Int) :
    c.CutsOff vs τ ↔ ∀ v ∈ vs, τ v = σ v := by
  constructor
  · rintro ⟨hτ, hcut⟩
    rw [row_hold h hτ, ofPoint_admits (by simp), not_not, bitsAt_eq_iff hτ hσ] at hcut
    exact hcut
  · intro heq
    have hτ : ∀ v ∈ vs, IsBit (τ v) := fun v hv => by
      rw [heq v hv]
      exact hσ v hv
    refine ⟨hτ, ?_⟩
    rw [row_hold h hτ, ofPoint_admits (by simp), not_not, bitsAt_eq_iff hτ hσ]
    exact heq

/-- The row of a pattern and its test agree, over any variables, be they fewer or more than its
cells or some of them the same: at bits the row holds, and is accepted unless its check
overflows, iff the pattern admits them. A full pattern over as many different variables cuts off
exactly the point that it spells out, and don't-cares alone cut off every point. A pattern has a
row, and one whose check does not overflow, unless about `2 ^ 62` of its cells have a variable. -/
theorem Pattern.row_exact (p : Pattern) (vs : List Var) :
    (1 + 2 * min p.length vs.length ≤ maxWeight →
      ∃ c, p.row vs = some c ∧ ∀ (σ : Var → Int) (s : Assignment),
        (∀ v ∈ vs, s v = some (σ v) ∧ IsBit (σ v)) → c.Checkable s) ∧
    ∀ c, p.row vs = some c →
      (∀ σ : Var → Int, (∀ v ∈ vs, IsBit (σ v)) →
        (c.Holds σ ↔ p.admits (bitsAt σ vs) = true) ∧
        ∀ s : Assignment, (∀ v ∈ vs, s v = some (σ v)) → c.Checkable s →
          c.isSatisfied s = .ok (p.admits (bitsAt σ vs))) ∧
      (Ternary.any ∉ p → p.length = vs.length → vs.Nodup →
        ∃ σ, p = Pattern.ofPoint (bitsAt σ vs) ∧
          ∀ τ, c.CutsOff vs τ ↔ ∀ v ∈ vs, τ v = σ v) ∧
      ((∀ x ∈ p.zip vs, x.1 = .any) → ∀ σ, ¬ c.Holds σ) := by
  constructor
  · intro hlen
    obtain ⟨c, hc, hlight⟩ := row_light hlen
    exact ⟨c, hc, fun σ s hs => hlight.checkable (row_over hc hs)⟩
  · intro c hc
    refine ⟨?_, ?_, ?_⟩
    · intro σ hbits
      have hiff := row_hold hc hbits
      refine ⟨hiff, fun s hs hcheck => ?_⟩
      rw [hcheck.isSatisfied (Constraint.over_iff.1 (row_over hc hs)), Except.ok.injEq,
        Bool.eq_iff_iff, decide_eq_true_iff, hiff]
    · intro hfull hlen hvs
      obtain ⟨bits, rfl⟩ := exists_ofPoint hfull
      rw [ofPoint, List.length_map] at hlen
      have hspells := bitsAt_pointOf hvs hlen
      refine ⟨pointOf vs bits, by rw [hspells], ?_⟩
      exact cutsOff_ofPoint (fun v _ => pointOf_isBit vs bits v) (by rw [hspells, hc])
    · intro hany σ
      rw [row_load hc, load_of_any hany]
      exact Int.lt_irrefl 0

/-- A repeated variable and more cells than variables; a full pattern; and more variables than
cells. -/
theorem repeatedCells_row_exact :
    (∀ σ : Var → Int, (∀ v ∈ [4, 4, 2], IsBit (σ v)) →
      ∃ c, Pattern.row [.one, .zero, .any, .one] [4, 4, 2] = some c ∧
        (c.Holds σ ↔ Pattern.admits [.one, .zero, .any, .one] (bitsAt σ [4, 4, 2]) = true)) ∧
    (∃ c, Pattern.row [.one, .zero] [5, 3] = some c ∧
      ∃ σ, [.one, .zero] = Pattern.ofPoint (bitsAt σ [5, 3]) ∧
        ∀ τ, c.CutsOff [5, 3] τ ↔ ∀ v ∈ [5, 3], τ v = σ v) ∧
    ∃ c, Pattern.row [.any] [0, 1] = some c ∧ ∀ σ, ¬ c.Holds σ := by
  refine ⟨?_, ?_, ?_⟩
  · intro σ hσ
    obtain ⟨hexists, hall⟩ := Pattern.row_exact [.one, .zero, .any, .one] [4, 4, 2]
    obtain ⟨c, hc, -⟩ := hexists (by decide)
    exact ⟨c, hc, ((hall c hc).1 σ hσ).1⟩
  · obtain ⟨hexists, hall⟩ := Pattern.row_exact [.one, .zero] [5, 3]
    obtain ⟨c, hc, -⟩ := hexists (by decide)
    exact ⟨c, hc, (hall c hc).2.1 (by decide) rfl (by decide)⟩
  · obtain ⟨hexists, hall⟩ := Pattern.row_exact [.any] [0, 1]
    obtain ⟨c, hc, -⟩ := hexists (by decide)
    exact ⟨c, hc, (hall c hc).2.2 (by decide)⟩

/-! ## Normal forms -/

/-- The constraint is a way to write the row of a pattern: its right side exceeds its left side by
the contributions less 1, at every point of integers. -/
structure Constraint.Writes (c : Constraint) (p : Pattern) (vs : List Var) : Prop where
  lhs_wellFormed : c.lhs.WellFormed
  rhs_wellFormed : c.rhs.WellFormed
  sense_eq : c.sense = .le
  value_eq : ∀ σ, c.rhs.value σ - c.lhs.value σ = p.load σ vs - 1

def Constraint.SameNormal (c c' : Constraint) : Prop :=
  ∃ d sense, c.normalized = some (d, sense) ∧ c'.normalized = some (d, sense)

variable {p : Pattern} {vs : List Var} {c c' : Constraint} {cs ds : List Constraint}

theorem wellFormed_contributions {acc sum : Expr} (h : Pattern.contributions acc p vs = some sum)
    (hacc : acc.WellFormed) : sum.WellFormed := by
  refine Pattern.contributions_induction h hacc ?_
  rintro v - e e' he (hadd | hadd)
  · exact he.add (Expr.wellFormed_complement v) hadd
  · exact he.add (Expr.wellFormed_ofVar v) hadd

theorem Pattern.row_writes (h : p.row vs = some c) : c.Writes p vs := by
  obtain ⟨sum, hsum, rfl⟩ := row_eq_some_iff.1 h
  refine ⟨Expr.wellFormed_const (by decide), wellFormed_contributions hsum Expr.wellFormed_zero,
    rfl, ?_⟩
  intro σ
  have hval := contributions_value (σ := σ) hsum
  rw [Expr.value_zero] at hval
  simp only [Constraint.rhs, Constraint.lhs, Expr.value_const]
  omega

/-- Two ways to write one row have the same normal form: the differences of their sides have the
same value everywhere, and well-formed expressions with the same values are equal. -/
theorem Constraint.Writes.sameNormal (h : c.Writes p vs) (h' : c'.Writes p vs) (hlight : c.Light)
    (hlight' : c'.Light) : c.SameNormal c' := by
  obtain ⟨d, hd, -⟩ := Expr.sub_light _ _ hlight
  obtain ⟨d', hd', -⟩ := Expr.sub_light _ _ hlight'
  have heq : d = d' := by
    refine (h.lhs_wellFormed.sub h.rhs_wellFormed hd).ext_value
      (h'.lhs_wellFormed.sub h'.rhs_wellFormed hd') fun σ _ => ?_
    have hval := h.value_eq σ
    have hval' := h'.value_eq σ
    rw [Expr.value_sub σ hd, Expr.value_sub σ hd']
    omega
  subst heq
  exact ⟨d, .le, normalized_eq_some_iff.2 ⟨hd, h.sense_eq⟩,
    normalized_eq_some_iff.2 ⟨hd', h'.sense_eq⟩⟩

theorem Constraint.SameNormal.holds_iff (h : c.SameNormal c') : c.Holds σ ↔ c'.Holds σ := by
  obtain ⟨d, sense, hc, hc'⟩ := h
  rw [holds_iff_normalized hc, holds_iff_normalized hc']

theorem Constraint.SameNormal.isSatisfied_eq (h : c.SameNormal c') :
    c.isSatisfied s = c'.isSatisfied s := by
  obtain ⟨d, sense, hc, hc'⟩ := h
  rw [Constraint.isSatisfied_eq hc, Constraint.isSatisfied_eq hc']

theorem allHold_of_sameNormal (h : List.Forall₂ Constraint.SameNormal cs ds) :
    AllHold σ cs ↔ AllHold σ ds := by
  induction h with
  | nil => exact Iff.rfl
  | cons hcd _ ih => rw [allHold_cons, allHold_cons, hcd.holds_iff, ih]

theorem satisfies_of_sameNormal (h : List.Forall₂ Constraint.SameNormal cs ds) :
    s.satisfies cs = s.satisfies ds := by
  induction h with
  | nil => rfl
  | cons hcd _ ih => rw [Assignment.satisfies, Assignment.satisfies, hcd.isSatisfied_eq, ih]

/-! ## Exclusive or of two inputs -/

theorem coverRows_writes {cover : List Pattern} (h : coverRows vs cover = some cs) :
    List.Forall₂ (fun p c => c.Writes p vs) cover cs :=
  (coverRows_forall₂ h).imp fun _ _ => Pattern.row_writes

theorem parityCover_two : parityCover 2 =
    [[.zero, .zero, .one], [.zero, .one, .zero], [.one, .zero, .zero], [.one, .one, .one]] := rfl

theorem xorRows_writes {a b c : Var} (h : xorRows a b c = some cs) :
    List.Forall₂ (fun p row => row.Writes p [a, b, c]) (parityCover 2) cs := by
  simp only [xorRows, Option.bind_eq_bind, Option.bind_eq_some_iff, Option.pure_def,
    Option.some.injEq] at h
  obtain ⟨ab, hab, ac, hac, bc, hbc, abc, habc, rfl⟩ := h
  have hvar := Expr.wellFormed_ofVar
  have hab' := (hvar a).add (hvar b) hab
  rw [parityCover_two]
  refine .cons ⟨hvar c, hab', rfl, fun σ => ?_⟩
    (.cons ⟨hvar b, (hvar a).add (hvar c) hac, rfl, fun σ => ?_⟩
      (.cons ⟨hvar a, (hvar b).add (hvar c) hbc, rfl, fun σ => ?_⟩
        (.cons ⟨hab'.add (hvar c) habc, Expr.wellFormed_const (by decide), rfl, fun σ => ?_⟩ .nil)))
  all_goals
    simp only [Constraint.lhs, Constraint.rhs, Expr.value_add σ habc, Expr.value_add σ hab,
      Expr.value_add σ hac, Expr.value_add σ hbc, Expr.value_ofVar, Expr.value_const,
      Pattern.load_cons, Pattern.load_nil, Ternary.share]
    omega

theorem sameNormal_of_writes {cover : List Pattern}
    (hcs : List.Forall₂ (fun p c => c.Writes p vs) cover cs)
    (hds : List.Forall₂ (fun p c => c.Writes p vs) cover ds) (hlight : ∀ c ∈ cs, c.Light)
    (hlight' : ∀ c ∈ ds, c.Light) : List.Forall₂ Constraint.SameNormal cs ds := by
  induction hcs generalizing ds with
  | nil =>
    cases hds
    exact .nil
  | cons hc _ ih =>
    cases hds with
    | cons hd hrest =>
      rw [List.forall_mem_cons] at hlight hlight'
      exact .cons (hc.sameNormal hd hlight.1 hlight'.1) (ih hrest hlight.2 hlight'.2)

/-- An exclusive or of two inputs has the same rows with and without a cover, whichever of its
variables are equal and whatever the store of covers was asked before: as many rows, and at each
position the same normal form. Hence the two lists hold at the same points of integers, and their
checks have the same result at every assignment. -/
theorem xorRows_sameNormal (calls : List CoverCall) (a b c : Var) :
    ∃ direct covered s, xorRows a b c = some direct ∧ parityRows [a, b] c = .ok covered ∧
      ((CoverStore.fresh parityCover).run calls).xorRows [a, b] c = .ok (s, covered) ∧
      direct.length = covered.length ∧ List.Forall₂ Constraint.SameNormal direct covered ∧
      (∀ σ, AllHold σ direct ↔ AllHold σ covered) ∧
      ∀ s : Assignment, s.satisfies direct = s.satisfies covered := by
  have harity : [a, b].length ≤ maxArity := (by decide : 2 ≤ maxArity)
  obtain ⟨direct, hdirect, hlight⟩ := exists_xorRows a b c
  obtain ⟨covered, hcover, hcovered, hlight'⟩ := exists_parityRows c harity
  obtain ⟨s, hs, -⟩ := ((CoverStore.genuine_fresh parityCover).run calls).xorRows hcover harity
  have hsame := sameNormal_of_writes (xorRows_writes hdirect) (coverRows_writes hcover) hlight
    hlight'
  exact ⟨direct, covered, s, hdirect, hcovered, hs, hsame.length_eq, hsame,
    fun _ => allHold_of_sameNormal hsame, fun _ => satisfies_of_sameNormal hsame⟩

end Linearize
