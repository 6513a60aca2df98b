import Linearize.Proofs.Mentions
import Linearize.Proofs.Overflow

/-!
# Linearize.Proofs.Satisfaction

The check of a constraint at an assignment, which evaluates the difference of the two sides. Where
all variables have a value it says what the constraint says of the two sides. A variable without a
value is reported iff the difference keeps it: one that cancels is never looked at.
-/

namespace Linearize

variable {σ : Var → Int} {s : Assignment}

/-! ## Evaluation -/

namespace Expr

variable {e : Expr} {ts : List (Var × Int)} {acc : Int}

theorem evalTerms_cons_of_none {v : Var} {c : Int} (hv : s v = none) :
    evalTerms s acc ((v, c) :: ts) = .error (.unassigned v) := by
  simp only [evalTerms, hv]

theorem evalTerms_cons_of_some {v : Var} {c n : Int} (hv : s v = some n)
    (h : evalTerms s acc ((v, c) :: ts) ≠ .error .overflow) :
    evalTerms s acc ((v, c) :: ts) = evalTerms s (acc + c * n) ts := by
  simp only [evalTerms, hv] at h ⊢
  split at h
  · exact absurd rfl h
  · rename_i acc' hacc
    obtain ⟨p, hp, hsum⟩ := Option.bind_eq_some_iff.1 hacc
    obtain ⟨-, rfl⟩ := fit?_eq_some_iff.1 hp
    obtain ⟨-, rfl⟩ := fit?_eq_some_iff.1 hsum
    rfl

/-- An evaluation that has a value for every variable gives the exact value. -/
theorem evalTerms_exact (hts : ∀ t ∈ ts, s t.1 = some (σ t.1))
    (h : evalTerms s acc ts ≠ .error .overflow) :
    evalTerms s acc ts = .ok (acc + termsValue σ ts) := by
  induction ts generalizing acc with
  | nil => rw [evalTerms, termsValue, Int.add_zero]
  | cons t ts ih =>
    obtain ⟨v, c⟩ := t
    rw [List.forall_mem_cons] at hts
    have hstep := evalTerms_cons_of_some hts.1 h
    rw [hstep] at h ⊢
    rw [ih hts.2 h, termsValue, Int.add_assoc]

theorem eval_exact (he : e.Over fun v => s v = some (σ v)) (h : e.eval s ≠ .error .overflow) :
    e.eval s = .ok (e.value σ) :=
  evalTerms_exact (List.forall_mem_map.1 he) h

theorem evalTerms_unassigned_iff (h : evalTerms s acc ts ≠ .error .overflow) :
    (∃ v, evalTerms s acc ts = .error (.unassigned v)) ↔ ∃ v ∈ ts.map (·.1), s v = none := by
  induction ts generalizing acc with
  | nil => simp [evalTerms]
  | cons t ts ih =>
    obtain ⟨v, c⟩ := t
    rw [List.map_cons, List.exists_mem_cons_iff]
    cases hv : s v with
    | none => exact ⟨fun _ => .inl rfl, fun _ => ⟨v, evalTerms_cons_of_none hv⟩⟩
    | some n =>
      have hstep := evalTerms_cons_of_some hv h
      rw [hstep] at h ⊢
      simp only [ih h, reduceCtorEq, false_or]

theorem eval_unassigned_iff (h : e.eval s ≠ .error .overflow) :
    (∃ v, e.eval s = .error (.unassigned v)) ↔ ∃ v ∈ e.vars, s v = none :=
  evalTerms_unassigned_iff h

end Expr

/-! ## Constraints -/

namespace Constraint

variable {c : Constraint} {d : Expr} {sense : Sense}

theorem normalized_eq_some_iff :
    c.normalized = some (d, sense) ↔ c.lhs.sub c.rhs = some d ∧ c.sense = sense := by
  rw [normalized]
  cases c.lhs.sub c.rhs with
  | none => simp
  | some d' => simp

theorem holds_iff_compare :
    c.Holds σ ↔ c.sense.compare (c.lhs.value σ) (c.rhs.value σ) = true := by
  cases c with
  | le l r => exact decide_eq_true_iff.symm
  | eq l r => exact decide_eq_true_iff.symm

theorem holds_iff_inequalities : c.Holds σ ↔ ∀ p ∈ c.inequalities, p.1.value σ ≤ p.2.value σ := by
  rw [← within_zero_iff]
  refine forall₂_congr fun p _ => ?_
  omega

/-- The difference of the sides is in the same relation to 0 as the sides are to each other. -/
theorem holds_iff_normalized (h : c.normalized = some (d, sense)) :
    c.Holds σ ↔ sense.compare (d.value σ) 0 = true := by
  obtain ⟨hd, rfl⟩ := normalized_eq_some_iff.1 h
  have hval := Expr.value_sub σ hd
  rw [holds_iff_compare]
  cases c.sense <;> simp only [Sense.compare, decide_eq_true_iff] <;> omega

theorem isSatisfied_eq (h : c.normalized = some (d, sense)) :
    c.isSatisfied s = (d.eval s).map (sense.compare · 0) := by
  simp only [isSatisfied, h]
  cases d.eval s with
  | error e => rfl
  | ok n => rfl

theorem isSatisfied_of_eval (h : c.normalized = some (d, sense))
    (heval : d.eval s = .ok (d.value σ)) : c.isSatisfied s = .ok (decide (c.Holds σ)) := by
  rw [isSatisfied_eq h, heval]
  refine congrArg Except.ok (Bool.eq_iff_iff.2 ?_)
  rw [decide_eq_true_iff, holds_iff_normalized h]

/-- The check does not overflow: the sides have a difference, and evaluating it stays in the
range. -/
def Checkable (c : Constraint) (s : Assignment) : Prop :=
  ∃ d sense, c.normalized = some (d, sense) ∧ d.eval s ≠ .error .overflow

theorem checkable_iff : c.Checkable s ↔ c.isSatisfied s ≠ .error .overflow := by
  cases h : c.normalized with
  | none => simp [Checkable, isSatisfied, h]
  | some x =>
    obtain ⟨d, sense⟩ := x
    rw [isSatisfied_eq h]
    cases heval : d.eval s with
    | error e => simp [Checkable, h, heval, Except.map]
    | ok n => simp [Checkable, h, heval, Except.map]

theorem Checkable.isSatisfied (h : c.Checkable s) (hc : ∀ v ∈ c.vars, s v = some (σ v)) :
    c.isSatisfied s = .ok (decide (c.Holds σ)) := by
  obtain ⟨d, sense, hd, heval⟩ := h
  have hover : c.Over fun v => s v = some (σ v) := over_iff.2 hc
  have hsub := (normalized_eq_some_iff.1 hd).1
  exact isSatisfied_of_eval hd (Expr.eval_exact (hover.1.sub hover.2 hsub) heval)

end Constraint

/-! ## Lists of constraints -/

instance (σ : Var → Int) (cs : List Constraint) : Decidable (AllHold σ cs) :=
  inferInstanceAs (Decidable (∀ c ∈ cs, c.Holds σ))

variable {cs : List Constraint}

theorem satisfies_eq_true_iff :
    s.satisfies cs = some true ↔ ∀ c ∈ cs, c.isSatisfied s = .ok true := by
  induction cs with
  | nil => simp [Assignment.satisfies]
  | cons c cs ih =>
    rw [Assignment.satisfies, List.forall_mem_cons, ← ih]
    split
    all_goals
      rename_i h
      simp [h]

theorem satisfies_ne_none (h : ∀ c ∈ cs, c.isSatisfied s ≠ .error .overflow) :
    s.satisfies cs ≠ none := by
  induction cs with
  | nil => simp [Assignment.satisfies]
  | cons c cs ih =>
    rw [List.forall_mem_cons] at h
    rw [Assignment.satisfies]
    split
    · exact ih h.2
    · simp
    · simp
    · exact absurd ‹_› h.1

theorem satisfies_exact (h : ∀ c ∈ cs, c.isSatisfied s = .ok (decide (c.Holds σ))) :
    s.satisfies cs = some (decide (AllHold σ cs)) := by
  have hne : s.satisfies cs ≠ none := satisfies_ne_none fun c hc => by
    rw [h c hc]
    exact nofun
  obtain ⟨b, hb⟩ := Option.ne_none_iff_exists'.1 hne
  have hall : (∀ c ∈ cs, c.isSatisfied s = .ok true) ↔ AllHold σ cs :=
    forall₂_congr fun c hc => by rw [h c hc, Except.ok.injEq, decide_eq_true_iff]
  rw [← satisfies_eq_true_iff, hb, Option.some.injEq] at hall
  rw [hb, Option.some.injEq, Bool.eq_iff_iff, hall, decide_eq_true_iff]

/-! ## Exactness -/

/-- The check agrees with the plain reading. Where all variables of a constraint have values and no
number leaves the range, the constraint is accepted iff the exact values of the two sides are in its
relation, iff all of its inequalities hold there, and rejected otherwise. Sides that can be
evaluated on their own give the same answer. A list is accepted iff all of its constraints hold. -/
theorem satisfaction_exact (s : Assignment) (σ : Var → Int) :
    (∀ c : Constraint, (∀ v ∈ c.vars, s v = some (σ v)) → c.Checkable s →
      c.isSatisfied s = .ok (decide (c.Holds σ)) ∧
      (c.Holds σ ↔ c.sense.compare (c.lhs.value σ) (c.rhs.value σ) = true) ∧
      (c.Holds σ ↔ ∀ p ∈ c.inequalities, p.1.value σ ≤ p.2.value σ) ∧
      ∀ x y, c.lhs.eval s = .ok x → c.rhs.eval s = .ok y →
        c.isSatisfied s = .ok (c.sense.compare x y)) ∧
    ∀ cs : List Constraint, (∀ c ∈ cs, (∀ v ∈ c.vars, s v = some (σ v)) ∧ c.Checkable s) →
      s.satisfies cs = some (decide (∀ c ∈ cs, c.Holds σ)) := by
  constructor
  · intro c hc hcheck
    have hexact := hcheck.isSatisfied hc
    refine ⟨hexact, Constraint.holds_iff_compare, Constraint.holds_iff_inequalities, ?_⟩
    intro x y hx hy
    have hover : c.Over fun v => s v = some (σ v) := Constraint.over_iff.2 hc
    have hl := Expr.eval_exact hover.1 (by rw [hx]; exact nofun)
    have hr := Expr.eval_exact hover.2 (by rw [hy]; exact nofun)
    obtain rfl := Except.ok.inj (hx.symm.trans hl)
    obtain rfl := Except.ok.inj (hy.symm.trans hr)
    rw [hexact, Except.ok.injEq, Bool.eq_iff_iff, decide_eq_true_iff, Constraint.holds_iff_compare]
  · intro cs hcs
    exact satisfies_exact fun c hc => (hcs c hc).2.isSatisfied (hcs c hc).1

/-- `x + y ≤ x + 2 y + 3`, whose sides share both variables. -/
def sharedSides : Constraint := .le ⟨[(0, 1), (1, 1)], 0⟩ ⟨[(0, 1), (1, 2)], 3⟩

def doubledSide : Constraint := .eq ⟨[(0, 2)], 0⟩ ⟨[(1, 1)], 0⟩

def threeFive : Assignment := (Assignment.empty.set 0 3).set 1 5

def threeFivePoint (v : Var) : Int := 3 + 2 * (v : Int)

theorem sharedSides_satisfaction_exact :
    ((∀ v ∈ sharedSides.vars, threeFive v = some (threeFivePoint v)) ∧
      sharedSides.Checkable threeFive ∧ sharedSides.isSatisfied threeFive = .ok true) ∧
    ((∀ v ∈ doubledSide.vars, threeFive v = some (threeFivePoint v)) ∧
      doubledSide.Checkable threeFive ∧ doubledSide.isSatisfied threeFive = .ok false) ∧
    threeFive.satisfies [sharedSides, doubledSide] = some false := by
  obtain ⟨hone, hall⟩ := satisfaction_exact threeFive threeFivePoint
  have hshared : ∀ v ∈ sharedSides.vars, threeFive v = some (threeFivePoint v) := by decide
  have hdoubled : ∀ v ∈ doubledSide.vars, threeFive v = some (threeFivePoint v) := by decide
  have hcheck : sharedSides.Checkable threeFive := ⟨⟨[(1, -1)], -3⟩, .le, by decide, by decide⟩
  have hcheck' : doubledSide.Checkable threeFive :=
    ⟨⟨[(0, 2), (1, -1)], 0⟩, .eq, by decide, by decide⟩
  refine ⟨⟨hshared, hcheck, (hone _ hshared hcheck).1⟩,
    ⟨hdoubled, hcheck', (hone _ hdoubled hcheck').1⟩, hall _ ?_⟩
  simp only [List.forall_mem_cons]
  exact ⟨⟨hshared, hcheck⟩, ⟨hdoubled, hcheck'⟩, List.forall_mem_nil _⟩

/-! ## Variables without a value -/

namespace Constraint

/-- The check reports a variable without a value. -/
def Reports (c : Constraint) (s : Assignment) : Prop :=
  ∃ v, c.isSatisfied s = .error (.unassigned v)

/-- Some variable of the constraint has no value. -/
def Unassigned (c : Constraint) (s : Assignment) : Prop := ∃ v ∈ c.vars, s v = none

/-- Some variable without a value has different coefficients on the two sides. -/
def Undetermined (c : Constraint) (s : Assignment) : Prop :=
  ∃ v ∈ c.vars, s v = none ∧ c.lhs.coef v ≠ c.rhs.coef v

variable {c : Constraint} {d : Expr} {sense : Sense}

theorem Undetermined.unassigned (h : c.Undetermined s) : c.Unassigned s := by
  obtain ⟨v, hv, hs, -⟩ := h
  exact ⟨v, hv, hs⟩

theorem mem_vars_normalized (hl : c.lhs.WellFormed) (hr : c.rhs.WellFormed)
    (h : c.normalized = some (d, sense)) (v : Var) :
    v ∈ d.vars ↔ v ∈ c.vars ∧ c.lhs.coef v ≠ c.rhs.coef v := by
  have hsub := (normalized_eq_some_iff.1 h).1
  rw [(hl.sub hr hsub).mem_vars_iff, hl.coef_sub hr hsub, mem_vars_iff, hl.mem_vars_iff,
    hr.mem_vars_iff]
  omega

theorem undetermined_iff (hl : c.lhs.WellFormed) (hr : c.rhs.WellFormed)
    (h : c.normalized = some (d, sense)) : c.Undetermined s ↔ ∃ v ∈ d.vars, s v = none := by
  simp only [Undetermined, mem_vars_normalized hl hr h]
  exact exists_congr fun v => by rw [and_comm (a := s v = none), and_assoc]

theorem Checkable.reports_iff (h : c.Checkable s) (hl : c.lhs.WellFormed) (hr : c.rhs.WellFormed) :
    c.Reports s ↔ c.Undetermined s := by
  obtain ⟨d, sense, hd, heval⟩ := h
  rw [undetermined_iff hl hr hd, ← Expr.eval_unassigned_iff heval]
  refine exists_congr fun v => ?_
  rw [isSatisfied_eq hd]
  cases d.eval s with
  | error e => simp [Except.map]
  | ok n => simp [Except.map]

/-- A constraint that only lacks values of variables that cancel is decided as at every point that
the assignment is a part of. -/
theorem Checkable.isSatisfied_of_determined (h : c.Checkable s) (hl : c.lhs.WellFormed)
    (hr : c.rhs.WellFormed) (hdet : ¬ c.Undetermined s) (hσ : ∀ v n, s v = some n → σ v = n) :
    c.isSatisfied s = .ok (decide (c.Holds σ)) := by
  obtain ⟨d, sense, hd, heval⟩ := h
  rw [undetermined_iff hl hr hd] at hdet
  refine isSatisfied_of_eval hd (Expr.eval_exact ?_ heval)
  intro v hv
  obtain ⟨n, hn⟩ := Option.ne_none_iff_exists'.1 fun hs => hdet ⟨v, hv, hs⟩
  rw [hn, hσ v n hn]

theorem Undetermined.not_accepted (h : c.Undetermined s) (hl : c.lhs.WellFormed)
    (hr : c.rhs.WellFormed) : c.isSatisfied s ≠ .ok true := by
  intro haccept
  have hcheck : c.Checkable s := checkable_iff.2 (by rw [haccept]; exact nofun)
  obtain ⟨v, hv⟩ := (hcheck.reports_iff hl hr).2 h
  rw [haccept] at hv
  cases hv

end Constraint

/-- Unless a number leaves the range, the check reports a variable without a value iff the
coefficients of such a variable differ between the two sides. So to lack a value and to be reported
is the same for a constraint exactly if some variable that it lacks does not cancel; if all of them
cancel, it is decided as at every point that the assignment is a part of. A list with a constraint
that is reported is rejected. -/
theorem unassigned_exact (s : Assignment) :
    (∀ c : Constraint, c.lhs.WellFormed → c.rhs.WellFormed → c.Checkable s →
      (c.Reports s ↔ c.Undetermined s) ∧
      ((c.Reports s ↔ c.Unassigned s) ↔ (c.Unassigned s → c.Undetermined s)) ∧
      (¬ c.Undetermined s → ∀ σ : Var → Int, (∀ v n, s v = some n → σ v = n) →
        c.isSatisfied s = .ok (decide (c.Holds σ)))) ∧
    ∀ cs : List Constraint,
      (∃ c ∈ cs, c.lhs.WellFormed ∧ c.rhs.WellFormed ∧ c.Undetermined s) →
      s.satisfies cs ≠ some true ∧
        ((∀ c ∈ cs, c.Checkable s) → s.satisfies cs = some false) := by
  constructor
  · intro c hl hr hcheck
    have hreports := hcheck.reports_iff hl hr
    refine ⟨hreports, ?_, fun hdet σ hσ => hcheck.isSatisfied_of_determined hl hr hdet hσ⟩
    rw [hreports]
    exact ⟨fun h => h.2, fun h => ⟨fun hu => hu.unassigned, h⟩⟩
  · rintro cs ⟨c, hc, hl, hr, hundet⟩
    have hreject : s.satisfies cs ≠ some true := fun h =>
      hundet.not_accepted hl hr (satisfies_eq_true_iff.1 h c hc)
    refine ⟨hreject, fun hcheck => ?_⟩
    obtain ⟨b, hb⟩ := Option.ne_none_iff_exists'.1
      (satisfies_ne_none fun c hc => Constraint.checkable_iff.1 (hcheck c hc))
    cases b with
    | true => exact absurd hb hreject
    | false => exact hb

def onlyFirst : Assignment := Assignment.empty.set 0 3

def onlySecond : Assignment := Assignment.empty.set 1 5

/-- Of the two variables of `sharedSides` the second one is reported, and the first one cancels. -/
theorem sharedSides_unassigned_exact :
    (sharedSides.lhs.WellFormed ∧ sharedSides.rhs.WellFormed) ∧
    (sharedSides.Checkable onlyFirst ∧ sharedSides.Undetermined onlyFirst ∧
      sharedSides.Reports onlyFirst ∧ onlyFirst.satisfies [sharedSides] = some false) ∧
    (sharedSides.Checkable onlySecond ∧ ¬ sharedSides.Undetermined onlySecond ∧
      ¬ sharedSides.Reports onlySecond ∧ sharedSides.isSatisfied onlySecond = .ok true) := by
  have hl : sharedSides.lhs.WellFormed :=
    ⟨⟨Nat.zero_lt_one, trivial⟩, by decide, by decide, by decide⟩
  have hr : sharedSides.rhs.WellFormed :=
    ⟨⟨Nat.zero_lt_one, trivial⟩, by decide, by decide, by decide⟩
  have hcheck : sharedSides.Checkable onlyFirst := ⟨⟨[(1, -1)], -3⟩, .le, by decide, by decide⟩
  have hcheck' : sharedSides.Checkable onlySecond := ⟨⟨[(1, -1)], -3⟩, .le, by decide, by decide⟩
  have hundet : sharedSides.Undetermined onlyFirst := ⟨1, by decide, by decide, by decide⟩
  have hdet : ¬ sharedSides.Undetermined onlySecond := by
    unfold Constraint.Undetermined
    decide
  have hreports := ((unassigned_exact onlyFirst).1 _ hl hr hcheck).1.2 hundet
  have hlist := (unassigned_exact onlyFirst).2 [sharedSides] ⟨_, by simp, hl, hr, hundet⟩
  have hsecond := (unassigned_exact onlySecond).1 _ hl hr hcheck'
  refine ⟨⟨hl, hr⟩, ⟨hcheck, hundet, hreports, hlist.2 (by simpa using hcheck)⟩,
    ⟨hcheck', hdet, mt hsecond.1.1 hdet, ?_⟩⟩
  refine hsecond.2.2 hdet threeFivePoint ?_
  intro v n hv
  simp only [onlySecond, Assignment.set, Assignment.empty] at hv
  split at hv
  · rename_i h1
    subst h1
    cases hv
    rfl
  · cases hv

/-- `x ≤ x`. -/
def reflexive : Constraint := .le (.ofVar 0) (.ofVar 0)

/-- A variable that cancels is not reported: `x ≤ x` is accepted without a value for `x`. -/
theorem cancelled_not_reported :
    reflexive.lhs.WellFormed ∧ reflexive.rhs.WellFormed ∧ reflexive.Checkable .empty ∧
      reflexive.Unassigned .empty ∧ ¬ reflexive.Reports .empty ∧
      reflexive.isSatisfied .empty = .ok true ∧
      Assignment.empty.satisfies [reflexive] = some true := by
  have haccept : reflexive.isSatisfied .empty = .ok true := by decide
  refine ⟨Expr.wellFormed_ofVar 0, Expr.wellFormed_ofVar 0, ⟨.zero, .le, by decide, by decide⟩,
    ⟨0, by decide, rfl⟩, ?_, haccept, by decide⟩
  rintro ⟨v, hv⟩
  rw [haccept] at hv
  cases hv

end Linearize
