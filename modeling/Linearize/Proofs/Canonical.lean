import Linearize.Expr.Value

/-!
# Linearize.Proofs.Canonical

Well-formed expressions are determined by their coefficients and their constant, and every operation
is determined by what it does to these: it gives the well-formed expression with the coefficients
that it should have, and overflows exactly if there is none.
-/

namespace Linearize
namespace Expr

/-! ## Terms -/

/-- Terms in the form that all operations keep. -/
structure Regular (ts : List (Var × Int)) : Prop where
  increasing : Increasing ts
  nonzero : ∀ t ∈ ts, t.2 ≠ 0
  fits : ∀ t ∈ ts, Fits t.2

/-- The coefficient of a variable in terms that mention it at most once. -/
def coefOf (v : Var) : List (Var × Int) → Int
  | [] => 0
  | (w, c) :: rest => if w = v then c else coefOf v rest

theorem coef_eq_coefOf (e : Expr) (v : Var) : e.coef v = coefOf v e.terms := by
  obtain ⟨ts, n⟩ := e
  induction ts with
  | nil => rfl
  | cons t ts ih =>
    obtain ⟨w, c⟩ := t
    by_cases h : w = v
    · simp [coef, coefOf, h]
    · have htail : coef ⟨(w, c) :: ts, n⟩ v = coef ⟨ts, n⟩ v := by simp [coef, h]
      rw [htail, ih, coefOf, if_neg h]

theorem coefOf_eq_zero {v : Var} {ts : List (Var × Int)} (h : ∀ t ∈ ts, t.1 ≠ v) :
    coefOf v ts = 0 := by
  induction ts with
  | nil => rfl
  | cons t ts ih =>
    rw [List.forall_mem_cons] at h
    rw [coefOf, if_neg h.1, ih h.2]

theorem increasing_cons_iff {t : Var × Int} {ts : List (Var × Int)} :
    Increasing (t :: ts) ↔ (∀ u ∈ ts, t.1 < u.1) ∧ Increasing ts := by
  induction ts generalizing t with
  | nil => simp [Increasing]
  | cons u ts ih =>
    rw [Increasing, List.forall_mem_cons]
    constructor
    · rintro ⟨hlt, hinc⟩
      have htail := (ih.1 hinc).1
      exact ⟨⟨hlt, fun x hx => Nat.lt_trans hlt (htail x hx)⟩, hinc⟩
    · rintro ⟨⟨hlt, -⟩, hinc⟩
      exact ⟨hlt, hinc⟩

theorem regular_nil : Regular [] :=
  ⟨trivial, List.forall_mem_nil _, List.forall_mem_nil _⟩

theorem regular_cons_iff {v : Var} {c : Int} {ts : List (Var × Int)} :
    Regular ((v, c) :: ts) ↔ (∀ u ∈ ts, v < u.1) ∧ c ≠ 0 ∧ Fits c ∧ Regular ts := by
  constructor
  · rintro ⟨hinc, hne, hfit⟩
    rw [increasing_cons_iff] at hinc
    rw [List.forall_mem_cons] at hne hfit
    exact ⟨hinc.1, hne.1, hfit.1, hinc.2, hne.2, hfit.2⟩
  · rintro ⟨hlt, hc, hfit, hts⟩
    exact ⟨increasing_cons_iff.2 ⟨hlt, hts.increasing⟩, List.forall_mem_cons.2 ⟨hc, hts.nonzero⟩,
      List.forall_mem_cons.2 ⟨hfit, hts.fits⟩⟩

theorem coefOf_eq_zero_of_lt {v : Var} {ts : List (Var × Int)} (h : ∀ t ∈ ts, v < t.1) :
    coefOf v ts = 0 := coefOf_eq_zero fun t ht => Nat.ne_of_gt (h t ht)

theorem Regular.coefOf_fits {ts : List (Var × Int)} (h : Regular ts) (v : Var) :
    Fits (coefOf v ts) := by
  induction ts with
  | nil => exact (by decide : Fits 0)
  | cons t ts ih =>
    obtain ⟨w, c⟩ := t
    obtain ⟨-, -, hfit, hts⟩ := regular_cons_iff.1 h
    rw [coefOf]
    split
    · exact hfit
    · exact ih hts

theorem Regular.ext {ts us : List (Var × Int)} (ht : Regular ts) (hu : Regular us)
    (h : ∀ v, coefOf v ts = coefOf v us) : ts = us := by
  induction ts generalizing us with
  | nil =>
    cases us with
    | nil => rfl
    | cons u us =>
      obtain ⟨w, d⟩ := u
      have hw := h w
      rw [coefOf, coefOf, if_pos rfl] at hw
      exact absurd hw.symm (regular_cons_iff.1 hu).2.1
  | cons t ts ih =>
    obtain ⟨v, c⟩ := t
    obtain ⟨hv, hc, -, hts⟩ := regular_cons_iff.1 ht
    cases us with
    | nil =>
      have hv := h v
      rw [coefOf, coefOf, if_pos rfl] at hv
      exact absurd hv hc
    | cons u us =>
      obtain ⟨w, d⟩ := u
      obtain ⟨hw, hd, -, hus⟩ := regular_cons_iff.1 hu
      -- the first variable of either list occurs in the other one
      have hvw : v = w := by
        rcases Nat.lt_trichotomy v w with hlt | heq | hlt
        · have hcoef := h v
          rw [coefOf, coefOf, if_pos rfl, if_neg (Nat.ne_of_gt hlt),
            coefOf_eq_zero_of_lt fun u hu' => Nat.lt_trans hlt (hw u hu')] at hcoef
          exact absurd hcoef hc
        · exact heq
        · have hcoef := h w
          rw [coefOf, coefOf, if_pos rfl, if_neg (Nat.ne_of_gt hlt),
            coefOf_eq_zero_of_lt fun u hu' => Nat.lt_trans hlt (hv u hu')] at hcoef
          exact absurd hcoef.symm hd
      subst hvw
      have hcd : c = d := by
        have hcoef := h v
        rwa [coefOf, coefOf, if_pos rfl, if_pos rfl] at hcoef
      rw [hcd, ih hts hus fun x => ?_]
      by_cases hx : v = x
      · subst hx
        rw [coefOf_eq_zero_of_lt hv, coefOf_eq_zero_of_lt hw]
      · have hcoef := h x
        rwa [coefOf, coefOf, if_neg hx, if_neg hx] at hcoef

/-! ## One more term -/

theorem insertTerm_forall {P : Var → Prop} {v : Var} {c : Int} {ts ts' : List (Var × Int)}
    (h : insertTerm v c ts = some ts') (hv : P v) (hts : ∀ t ∈ ts, P t.1) : ∀ t ∈ ts', P t.1 := by
  induction ts generalizing ts' with
  | nil =>
    cases h
    exact List.forall_mem_singleton.2 hv
  | cons t ts ih =>
    obtain ⟨w, d⟩ := t
    have hcons := List.forall_mem_cons.1 hts
    simp only [insertTerm] at h
    split at h
    · cases h
      exact List.forall_mem_cons.2 ⟨hv, hts⟩
    · split at h
      · split at h
        · cases h
        · cases h
          split
          · exact hcons.2
          · exact List.forall_mem_cons.2 ⟨hv, hcons.2⟩
      · split at h
        · cases h
        · rename_i rest' hr
          cases h
          exact List.forall_mem_cons.2 ⟨hcons.1, ih hr hcons.2⟩

/-- What an insertion gives: the terms stay regular, and one coefficient changes. -/
theorem insertTerm_spec {v : Var} {c : Int} {ts ts' : List (Var × Int)} (hts : Regular ts)
    (hc : c ≠ 0) (hfit : Fits c) (h : insertTerm v c ts = some ts') :
    Regular ts' ∧ ∀ w, coefOf w ts' = coefOf w ts + if w = v then c else 0 := by
  induction ts generalizing ts' with
  | nil =>
    cases h
    refine ⟨regular_cons_iff.2 ⟨List.forall_mem_nil _, hc, hfit, regular_nil⟩, ?_⟩
    intro w
    simp [coefOf, eq_comm]
  | cons t ts ih =>
    obtain ⟨x, d⟩ := t
    obtain ⟨hx, hd, hdfit, hrest⟩ := regular_cons_iff.1 hts
    simp only [insertTerm] at h
    split at h
    · rename_i hlt
      cases h
      refine ⟨regular_cons_iff.2 ⟨?_, hc, hfit, hts⟩, ?_⟩
      · exact List.forall_mem_cons.2 ⟨hlt, fun u hu => Nat.lt_trans hlt (hx u hu)⟩
      · intro w
        rw [coefOf]
        by_cases hw : v = w
        · subst hw
          have hzero : coefOf v ((x, d) :: ts) = 0 := coefOf_eq_zero_of_lt
            (List.forall_mem_cons.2 ⟨hlt, fun u hu => Nat.lt_trans hlt (hx u hu)⟩)
          simp [hzero]
        · simp [hw, Ne.symm hw]
    · split at h
      · rename_i heq
        subst heq
        split at h
        · cases h
        · rename_i s hs
          obtain ⟨hsfit, rfl⟩ := fit?_eq_some_iff.1 hs
          cases h
          have hzero : coefOf v ts = 0 := coefOf_eq_zero_of_lt hx
          split
          · rename_i hz
            refine ⟨hrest, ?_⟩
            intro w
            by_cases hw : v = w
            · subst hw
              rw [hzero, coefOf, if_pos rfl, if_pos rfl, hz]
            · simp [coefOf, hw, Ne.symm hw]
          · rename_i hz
            refine ⟨regular_cons_iff.2 ⟨hx, hz, hsfit, hrest⟩, ?_⟩
            intro w
            by_cases hw : v = w
            · subst hw
              simp [coefOf]
            · simp [coefOf, hw, Ne.symm hw]
      · rename_i hlt hne
        split at h
        · cases h
        · rename_i rest' hr
          cases h
          obtain ⟨hreg, hcoef⟩ := ih hrest hr
          have hxv : x < v := Nat.lt_of_le_of_ne (Nat.not_lt.1 hlt) (Ne.symm hne)
          refine ⟨regular_cons_iff.2 ⟨insertTerm_forall hr hxv hx, hd, hdfit, hreg⟩, ?_⟩
          intro w
          rw [coefOf, coefOf]
          by_cases hw : x = w
          · rw [if_pos hw, if_pos hw, if_neg fun hwv => hne (hwv.symm.trans hw.symm), Int.add_zero]
          · rw [if_neg hw, if_neg hw, hcoef w]

/-- An insertion overflows only if the new coefficient does. -/
theorem exists_insertTerm {v : Var} {c : Int} {ts : List (Var × Int)}
    (h : Fits (coefOf v ts + c)) : ∃ ts', insertTerm v c ts = some ts' := by
  induction ts with
  | nil => exact ⟨_, rfl⟩
  | cons t ts ih =>
    obtain ⟨x, d⟩ := t
    rw [coefOf] at h
    simp only [insertTerm]
    split
    · exact ⟨_, rfl⟩
    · split
      · rename_i hx
        rw [if_pos hx.symm] at h
        rw [fit?_eq_some_iff.2 ⟨h, rfl⟩]
        exact ⟨_, rfl⟩
      · rename_i hx
        rw [if_neg (Ne.symm hx)] at h
        obtain ⟨ts', hts'⟩ := ih h
        rw [hts']
        exact ⟨_, rfl⟩

/-! ## Well-formed expressions -/

theorem wellFormed_iff {e : Expr} : e.WellFormed ↔ Regular e.terms ∧ Fits e.constant :=
  ⟨fun h => ⟨⟨h.increasing, h.nonzero, h.fits⟩, h.constant_fits⟩,
    fun ⟨h, hc⟩ => ⟨h.increasing, h.nonzero, h.fits, hc⟩⟩

theorem WellFormed.regular {e : Expr} (h : e.WellFormed) : Regular e.terms := (wellFormed_iff.1 h).1

theorem WellFormed.coef_fits {e : Expr} (h : e.WellFormed) (v : Var) : Fits (e.coef v) := by
  rw [coef_eq_coefOf]
  exact h.regular.coefOf_fits v

/-- Well-formed expressions are determined by their coefficients and their constant. -/
theorem WellFormed.ext {a b : Expr} (ha : a.WellFormed) (hb : b.WellFormed)
    (hc : a.constant = b.constant) (h : ∀ v, a.coef v = b.coef v) : a = b := by
  have hts : a.terms = b.terms := ha.regular.ext hb.regular fun v => by
    rw [← coef_eq_coefOf, ← coef_eq_coefOf, h v]
  obtain ⟨ts, n⟩ := a
  obtain ⟨us, m⟩ := b
  cases hts
  cases hc
  rfl

theorem wellFormed_zero : zero.WellFormed := wellFormed_iff.2 ⟨regular_nil, by decide⟩

theorem wellFormed_const {n : Int} (h : Fits n) : (const n).WellFormed :=
  wellFormed_iff.2 ⟨regular_nil, h⟩

theorem wellFormed_ofVar (v : Var) : (ofVar v).WellFormed := by
  refine wellFormed_iff.2 ⟨regular_cons_iff.2 ⟨?_, by decide, by decide, regular_nil⟩, ?_⟩
  · exact List.forall_mem_nil _
  · exact (by decide : Fits 0)

theorem wellFormed_complement (v : Var) : (complement v).WellFormed := by
  refine wellFormed_iff.2 ⟨regular_cons_iff.2 ⟨?_, by decide, by decide, regular_nil⟩, ?_⟩
  · exact List.forall_mem_nil _
  · exact (by decide : Fits 1)

@[simp] theorem coef_zero (v : Var) : zero.coef v = 0 := rfl

/-! ## Operations -/

variable {a b e s : Expr} {c k n : Int} {v : Var}

theorem exists_addCoef (h : Fits (e.coef v + c)) : ∃ s, e.addCoef v c = some s := by
  rw [coef_eq_coefOf] at h
  obtain ⟨ts, hts⟩ := exists_insertTerm h
  rw [addCoef]
  split
  · exact ⟨_, rfl⟩
  · rw [hts]
    exact ⟨_, rfl⟩

theorem addCoef_spec (he : e.WellFormed) (hc : Fits c) (h : e.addCoef v c = some s) :
    s.WellFormed ∧ s.constant = e.constant ∧ ∀ w, s.coef w = e.coef w + if w = v then c else 0 := by
  simp only [addCoef] at h
  split at h
  · rename_i hz
    cases h
    exact ⟨he, rfl, fun w => by simp [hz]⟩
  · rename_i hz
    split at h
    · cases h
    · rename_i ts hts
      cases h
      obtain ⟨hreg, hcoef⟩ := insertTerm_spec he.regular hz hc hts
      refine ⟨wellFormed_iff.2 ⟨hreg, he.constant_fits⟩, rfl, ?_⟩
      intro w
      rw [coef_eq_coefOf, coef_eq_coefOf]
      exact hcoef w

theorem addCoef_eq_some_iff (he : e.WellFormed) (hc : Fits c) :
    e.addCoef v c = some s ↔ s.WellFormed ∧ s.constant = e.constant ∧
      ∀ w, s.coef w = e.coef w + if w = v then c else 0 := by
  refine ⟨addCoef_spec he hc, ?_⟩
  rintro ⟨hs, hsc, hscoef⟩
  have hfit : Fits (e.coef v + c) := by
    have hsv := hscoef v
    rw [if_pos rfl] at hsv
    rw [← hsv]
    exact hs.coef_fits v
  obtain ⟨s', h'⟩ := exists_addCoef hfit
  obtain ⟨hs', hsc', hscoef'⟩ := addCoef_spec he hc h'
  rw [h', hs'.ext hs (hsc'.trans hsc.symm) fun w => (hscoef' w).trans (hscoef w).symm]

theorem addTerms_eq_some_iff {ts : List (Var × Int)} (he : e.WellFormed) (hts : Regular ts) :
    e.addTerms ts = some s ↔
      s.WellFormed ∧ s.constant = e.constant ∧ ∀ w, s.coef w = e.coef w + coefOf w ts := by
  induction ts generalizing e with
  | nil =>
    simp only [addTerms, Option.some.injEq, coefOf, Int.add_zero]
    constructor
    · rintro rfl
      exact ⟨he, rfl, fun _ => rfl⟩
    · rintro ⟨hs, hc, hcoef⟩
      exact he.ext hs hc.symm fun v => (hcoef v).symm
  | cons t ts ih =>
    obtain ⟨v, c⟩ := t
    obtain ⟨hv, -, hc, hrest⟩ := regular_cons_iff.1 hts
    have hzero : coefOf v ts = 0 := coefOf_eq_zero_of_lt hv
    -- the first term changes a coefficient that no later one changes again
    have hsplit : ∀ w, coefOf w ((v, c) :: ts) = (if w = v then c else 0) + coefOf w ts := by
      intro w
      rw [coefOf]
      by_cases hw : v = w
      · subst hw
        simp [hzero]
      · simp [hw, Ne.symm hw]
    simp only [addTerms]
    constructor
    · intro h
      split at h
      · cases h
      · rename_i e₁ h₁
        obtain ⟨hwf, hconst, hcoef⟩ := addCoef_spec he hc h₁
        obtain ⟨hs, hsc, hscoef⟩ := (ih hwf hrest).1 h
        refine ⟨hs, hsc.trans hconst, ?_⟩
        intro w
        rw [hscoef w, hcoef w, hsplit w, Int.add_assoc]
    · rintro ⟨hs, hsc, hscoef⟩
      have hfit : Fits (e.coef v + c) := by
        have hsv := hscoef v
        rw [hsplit v, hzero, if_pos rfl, Int.add_zero] at hsv
        rw [← hsv]
        exact hs.coef_fits v
      obtain ⟨e₁, h₁⟩ := exists_addCoef hfit
      obtain ⟨hwf, hconst, hcoef⟩ := addCoef_spec he hc h₁
      simp only [h₁]
      refine (ih hwf hrest).2 ⟨hs, hsc.trans hconst.symm, ?_⟩
      intro w
      rw [hscoef w, hcoef w, hsplit w, Int.add_assoc]

theorem addConst_eq_some_iff (he : e.WellFormed) :
    e.addConst n = some s ↔
      s.WellFormed ∧ s.constant = e.constant + n ∧ ∀ w, s.coef w = e.coef w := by
  simp only [addConst]
  constructor
  · intro h
    split at h
    · cases h
    · rename_i c hc
      obtain ⟨hfit, rfl⟩ := fit?_eq_some_iff.1 hc
      cases h
      exact ⟨wellFormed_iff.2 ⟨he.regular, hfit⟩, rfl, fun _ => rfl⟩
  · rintro ⟨hs, hc, hcoef⟩
    have hfit : Fits (e.constant + n) := by
      rw [← hc]
      exact hs.constant_fits
    rw [fit?_eq_some_iff.2 ⟨hfit, rfl⟩]
    refine congrArg some (WellFormed.ext (wellFormed_iff.2 ⟨he.regular, hfit⟩) hs hc.symm ?_)
    exact fun w => (hcoef w).symm

theorem add_eq_some_iff (ha : a.WellFormed) (hb : b.WellFormed) :
    a.add b = some s ↔ s.WellFormed ∧ s.constant = a.constant + b.constant ∧
      ∀ w, s.coef w = a.coef w + b.coef w := by
  simp only [add]
  constructor
  · intro h
    split at h
    · cases h
    · rename_i s₁ h₁
      obtain ⟨hwf, hconst, hcoef⟩ := (addTerms_eq_some_iff ha hb.regular).1 h₁
      obtain ⟨hs, hsc, hscoef⟩ := (addConst_eq_some_iff hwf).1 h
      refine ⟨hs, by rw [hsc, hconst], fun w => ?_⟩
      rw [hscoef w, hcoef w, coef_eq_coefOf b]
  · rintro ⟨hs, hsc, hscoef⟩
    have hwf : (⟨s.terms, a.constant⟩ : Expr).WellFormed :=
      wellFormed_iff.2 ⟨hs.regular, ha.constant_fits⟩
    have hadd : a.addTerms b.terms = some ⟨s.terms, a.constant⟩ := by
      refine (addTerms_eq_some_iff ha hb.regular).2 ⟨hwf, rfl, ?_⟩
      intro w
      rw [← coef_eq_coefOf b, ← hscoef w]
      rfl
    simp only [hadd]
    exact (addConst_eq_some_iff hwf).2 ⟨hs, hsc, fun _ => rfl⟩

theorem scaleTerms_forall {P : Var → Prop} {ts us : List (Var × Int)}
    (h : scaleTerms k ts = some us) (hts : ∀ t ∈ ts, P t.1) : ∀ t ∈ us, P t.1 := by
  induction ts generalizing us with
  | nil =>
    cases h
    exact hts
  | cons t ts ih =>
    obtain ⟨v, c⟩ := t
    rw [List.forall_mem_cons] at hts
    simp only [scaleTerms] at h
    split at h
    · cases h
    · split at h
      · cases h
      · rename_i rest' hr
        cases h
        exact List.forall_mem_cons.2 ⟨hts.1, ih hr hts.2⟩

theorem scaleTerms_spec {ts us : List (Var × Int)} (hts : Regular ts) (hk : k ≠ 0)
    (h : scaleTerms k ts = some us) : Regular us ∧ ∀ w, coefOf w us = coefOf w ts * k := by
  induction ts generalizing us with
  | nil =>
    cases h
    exact ⟨regular_nil, fun w => (Int.zero_mul k).symm⟩
  | cons t ts ih =>
    obtain ⟨v, c⟩ := t
    obtain ⟨hv, hc, -, hrest⟩ := regular_cons_iff.1 hts
    simp only [scaleTerms] at h
    split at h
    · cases h
    · rename_i d hd
      obtain ⟨hfit, rfl⟩ := fit?_eq_some_iff.1 hd
      split at h
      · cases h
      · rename_i rest' hr
        cases h
        obtain ⟨hreg, hcoef⟩ := ih hrest hr
        have hne : c * k ≠ 0 := Int.mul_ne_zero hc hk
        refine ⟨regular_cons_iff.2 ⟨scaleTerms_forall hr hv, hne, hfit, hreg⟩, ?_⟩
        intro w
        rw [coefOf, coefOf, hcoef w]
        split <;> rfl

theorem exists_scaleTerms {ts : List (Var × Int)} (hts : Regular ts)
    (h : ∀ w, Fits (coefOf w ts * k)) : ∃ us, scaleTerms k ts = some us := by
  induction ts with
  | nil => exact ⟨_, rfl⟩
  | cons t ts ih =>
    obtain ⟨v, c⟩ := t
    obtain ⟨hv, -, -, hrest⟩ := regular_cons_iff.1 hts
    have hfit : Fits (c * k) := by
      have := h v
      rwa [coefOf, if_pos rfl] at this
    have htail : ∀ w, Fits (coefOf w ts * k) := by
      intro w
      by_cases hw : v = w
      · subst hw
        rw [coefOf_eq_zero_of_lt hv, Int.zero_mul]
        decide
      · have := h w
        rwa [coefOf, if_neg hw] at this
    obtain ⟨us, hus⟩ := ih hrest htail
    simp only [scaleTerms, fit?_eq_some_iff.2 ⟨hfit, rfl⟩, hus]
    exact ⟨_, rfl⟩

theorem scale_eq_some_iff (ha : a.WellFormed) :
    a.scale k = some s ↔ s.WellFormed ∧ s.constant = a.constant * k ∧
      ∀ w, s.coef w = a.coef w * k := by
  simp only [scale]
  split
  · rename_i hk
    subst hk
    constructor
    · intro h
      cases h
      exact ⟨wellFormed_zero, by simp [zero], fun w => by simp⟩
    · rintro ⟨hs, hc, hcoef⟩
      refine congrArg some (wellFormed_zero.ext hs ?_ ?_)
      · rw [hc, Int.mul_zero]
        rfl
      · intro w
        rw [hcoef w, Int.mul_zero, coef_zero]
  · rename_i hk
    constructor
    · intro h
      split at h
      · cases h
      · rename_i c hc
        obtain ⟨hfit, rfl⟩ := fit?_eq_some_iff.1 hc
        split at h
        · cases h
        · rename_i ts hts
          cases h
          obtain ⟨hreg, hcoef⟩ := scaleTerms_spec ha.regular hk hts
          refine ⟨wellFormed_iff.2 ⟨hreg, hfit⟩, rfl, ?_⟩
          intro w
          rw [coef_eq_coefOf, coef_eq_coefOf]
          exact hcoef w
    · rintro ⟨hs, hc, hcoef⟩
      have hfit : Fits (a.constant * k) := by
        rw [← hc]
        exact hs.constant_fits
      have hall : ∀ w, Fits (coefOf w a.terms * k) := by
        intro w
        rw [← coef_eq_coefOf, ← hcoef w]
        exact hs.coef_fits w
      obtain ⟨us, hus⟩ := exists_scaleTerms ha.regular hall
      obtain ⟨hreg, hus'⟩ := scaleTerms_spec ha.regular hk hus
      simp only [fit?_eq_some_iff.2 ⟨hfit, rfl⟩, hus]
      refine congrArg some (WellFormed.ext (wellFormed_iff.2 ⟨hreg, hfit⟩) hs hc.symm ?_)
      intro w
      rw [hcoef w, coef_eq_coefOf, coef_eq_coefOf]
      exact hus' w

theorem WellFormed.addCoef (he : e.WellFormed) (hc : Fits c) (h : e.addCoef v c = some s) :
    s.WellFormed := (addCoef_spec he hc h).1

theorem WellFormed.addConst (he : e.WellFormed) (h : e.addConst n = some s) : s.WellFormed :=
  ((addConst_eq_some_iff he).1 h).1

theorem WellFormed.add (ha : a.WellFormed) (hb : b.WellFormed) (h : a.add b = some s) :
    s.WellFormed := ((add_eq_some_iff ha hb).1 h).1

theorem WellFormed.scale (ha : a.WellFormed) (h : a.scale k = some s) : s.WellFormed :=
  ((scale_eq_some_iff ha).1 h).1

theorem sub_eq_some_iff : a.sub b = some s ↔ ∃ b', b.scale (-1) = some b' ∧ a.add b' = some s := by
  simp only [sub, neg]
  cases b.scale (-1) with
  | none => simp
  | some b' => simp

theorem wellFormed_addTerms_ones {vs : List Var} (he : e.WellFormed)
    (h : e.addTerms (vs.map fun v => (v, 1)) = some s) : s.WellFormed := by
  induction vs generalizing e with
  | nil =>
    cases h
    exact he
  | cons v vs ih =>
    simp only [List.map_cons, addTerms] at h
    split at h
    · cases h
    · rename_i e' h'
      exact ih (he.addCoef (by decide) h') h

theorem wellFormed_sum {vs : List Var} (h : sum vs = some s) : s.WellFormed :=
  wellFormed_addTerms_ones wellFormed_zero h

/-! ## Variables -/

variable {P : Var → Prop}

theorem addTerms_forall {ts : List (Var × Int)} (h : e.addTerms ts = some s)
    (he : ∀ v ∈ e.vars, P v) (hts : ∀ t ∈ ts, P t.1) : ∀ v ∈ s.vars, P v := by
  induction ts generalizing e with
  | nil =>
    cases h
    exact he
  | cons t ts ih =>
    obtain ⟨v, c⟩ := t
    rw [List.forall_mem_cons] at hts
    simp only [addTerms] at h
    split at h
    · cases h
    · rename_i e₁ h₁
      refine ih h ?_ hts.2
      simp only [Expr.addCoef] at h₁
      split at h₁
      · cases h₁
        exact he
      · split at h₁
        · cases h₁
        · rename_i ts' hts'
          cases h₁
          exact List.forall_mem_map.2 (insertTerm_forall hts' hts.1 (List.forall_mem_map.1 he))

theorem add_forall (h : a.add b = some s) (ha : ∀ v ∈ a.vars, P v) (hb : ∀ v ∈ b.vars, P v) :
    ∀ v ∈ s.vars, P v := by
  simp only [add] at h
  split at h
  · cases h
  · rename_i s₁ h₁
    have hs₁ := addTerms_forall h₁ ha (List.forall_mem_map.1 hb)
    simp only [Expr.addConst] at h
    split at h
    · cases h
    · cases h
      exact hs₁

theorem scale_forall (h : a.scale k = some s) (ha : ∀ v ∈ a.vars, P v) : ∀ v ∈ s.vars, P v := by
  simp only [scale] at h
  split at h
  · cases h
    exact List.forall_mem_nil _
  · split at h
    · cases h
    · split at h
      · cases h
      · rename_i ts hts
        cases h
        exact List.forall_mem_map.2 (scaleTerms_forall hts (List.forall_mem_map.1 ha))

end Expr
end Linearize
