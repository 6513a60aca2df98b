import Linearize.Proofs.Indicators

/-!
# Linearize.Proofs.Guards

Where the rows of guarded constraint sets hold, over exact integers: the set that the conditions
select holds, and no pair of a constraint of another set is violated by more than the big-M. In a
chain the rows of the selectors mark the first condition that is 1.
-/

namespace Linearize

variable {σ : Var → Int}

/-! ## Relaxed constraints -/

/-- No pair of any of the constraints is violated by more than `bigM`. -/
def AllWithin (σ : Var → Int) (bigM : Int) (cs : List Constraint) : Prop :=
  ∀ c ∈ cs, c.Within bigM σ

@[simp] theorem allWithin_nil (bigM : Int) : AllWithin σ bigM [] :=
  List.forall_mem_nil _

@[simp] theorem allWithin_append (bigM : Int) (cs ds : List Constraint) :
    AllWithin σ bigM (cs ++ ds) ↔ AllWithin σ bigM cs ∧ AllWithin σ bigM ds :=
  List.forall_mem_append

theorem within_zero_iff (c : Constraint) : c.Within 0 σ ↔ c.Holds σ := by
  cases c with
  | le l r =>
    simp only [Constraint.Within, Constraint.inequalities, List.forall_mem_cons, holds_le]
    constructor
    · rintro ⟨h, -⟩
      omega
    · intro h
      exact ⟨by omega, List.forall_mem_nil _⟩
  | eq l r =>
    simp only [Constraint.Within, Constraint.inequalities, List.forall_mem_cons, holds_eq]
    constructor
    · rintro ⟨h₁, h₂, -⟩
      omega
    · intro h
      exact ⟨by omega, by omega, List.forall_mem_nil _⟩

theorem allWithin_zero_iff (cs : List Constraint) : AllWithin σ 0 cs ↔ AllHold σ cs :=
  forall₂_congr fun c _ => within_zero_iff c

theorem relaxPairs_hold {slack : Expr} {ps : List (Expr × Expr)} {rows : List Constraint}
    (h : relaxPairs slack ps = some rows) :
    AllHold σ rows ↔ ∀ p ∈ ps, p.1.value σ - p.2.value σ ≤ slack.value σ := by
  induction ps generalizing rows with
  | nil => cases h; simp
  | cons p rest ih =>
    obtain ⟨l, r⟩ := p
    simp only [relaxPairs] at h
    split at h
    · cases h
    · rename_i r' hr'
      split at h
      · cases h
      · rename_i cs hcs
        cases h
        have hval := Expr.value_add σ hr'
        rw [allHold_cons, List.forall_mem_cons, ih hcs, holds_le]
        refine and_congr_left ?_
        intro _
        simp only
        omega

/-- A relaxed list holds iff no constraint is violated by more than the slack. -/
theorem relax_hold {cs rows : List Constraint} {slack : Expr} (h : relax cs slack = some rows) :
    AllHold σ rows ↔ AllWithin σ (slack.value σ) cs := by
  rw [relaxPairs_hold h]
  simp only [AllWithin, Constraint.Within, List.forall_mem_flatMap]

/-! ## Sets of constraints under conditions -/

/-- The selected constraints hold, and all others are within the big-M. -/
def Guarded (σ : Var → Int) (bigM : Int) (conds : List Var) (bodies : List (List Constraint))
    (otherwise : List Constraint) : Prop :=
  AllHold σ (selected σ conds bodies otherwise) ∧
    AllWithin σ bigM (unselected σ conds bodies otherwise)

theorem guarded_nil (bigM : Int) (otherwise : List Constraint) :
    Guarded σ bigM [] [] otherwise ↔ AllHold σ otherwise := by
  simp [Guarded, selected, unselected]

theorem guarded_cons_one {c : Var} (hc : σ c = 1) (bigM : Int) (conds : List Var)
    (body : List Constraint) (bodies : List (List Constraint)) (otherwise : List Constraint) :
    Guarded σ bigM (c :: conds) (body :: bodies) otherwise ↔
      AllHold σ body ∧ AllWithin σ bigM bodies.flatten ∧ AllWithin σ bigM otherwise := by
  simp [Guarded, selected, unselected, hc]

theorem guarded_cons_zero {c : Var} (hc : σ c = 0) (bigM : Int) (conds : List Var)
    (body : List Constraint) (bodies : List (List Constraint)) (otherwise : List Constraint) :
    Guarded σ bigM (c :: conds) (body :: bodies) otherwise ↔
      AllWithin σ bigM body ∧ Guarded σ bigM conds bodies otherwise := by
  simp [Guarded, selected, unselected, hc, and_left_comm]

theorem ifThen_hold {cond : Var} {body rows : List Constraint} {bigM : Int}
    (h : ifThen cond body bigM = some rows) :
    AllHold σ rows ↔ AllWithin σ ((1 - σ cond) * bigM) body := by
  simp only [ifThen] at h
  split at h
  · cases h
  · rename_i slack hs
    rw [relax_hold h, Expr.value_scale σ hs, Expr.value_complement]

theorem ifThenElse_hold {cond : Var} {body otherwise rows : List Constraint} {bigM : Int}
    (h : ifThenElse cond body otherwise bigM = some rows) (hc : IsBit (σ cond)) :
    AllHold σ rows ↔ Guarded σ bigM [cond] [body] otherwise := by
  simp only [ifThenElse, Option.bind_eq_bind, Option.bind_eq_some_iff, Option.pure_def,
    Option.some.injEq] at h
  obtain ⟨on, hon, slack, hs, off, hoff, rfl⟩ := h
  rw [allHold_append, ifThen_hold hon, relax_hold hoff, Expr.value_scale σ hs, Expr.value_ofVar]
  rcases hc with h0 | h1
  · rw [guarded_cons_zero h0, guarded_nil, h0, Int.zero_mul, allWithin_zero_iff, Int.sub_zero,
      Int.one_mul]
  · rw [guarded_cons_one h1, h1, Int.sub_self, Int.zero_mul, allWithin_zero_iff, Int.one_mul]
    simp

theorem ifThen_hold_iff {cond : Var} {body rows : List Constraint} {bigM : Int}
    (h : ifThen cond body bigM = some rows) (hc : IsBit (σ cond)) :
    AllHold σ rows ↔ Guarded σ bigM [cond] [body] [] := by
  rw [ifThen_hold h]
  rcases hc with h0 | h1
  · rw [guarded_cons_zero h0, guarded_nil, h0, Int.sub_zero, Int.one_mul]
    simp
  · rw [guarded_cons_one h1, h1, Int.sub_self, Int.zero_mul, allWithin_zero_iff]
    simp

/-! ## Chains -/

/-- The selectors mark the first condition that is 1, and none if there is no such condition. -/
def MarksFirst (σ : Var → Int) : List Var → List Var → Prop
  | c :: conds, s :: ss =>
    if σ c = 1 then σ s = 1 ∧ ∀ t ∈ ss, σ t = 0 else σ s = 0 ∧ MarksFirst σ conds ss
  | _, _ => True

theorem marksFirst_iff {conds ss : List Var} (hlen : ss.length = conds.length)
    (hss : ∀ s ∈ ss, IsBit (σ s)) :
    MarksFirst σ conds ss ↔
      ∀ (j : Nat) (s : Var), ss[j]? = some s →
        (σ s = 1 ↔ (bitsAt σ conds).findIdx? id = some j) := by
  induction conds generalizing ss with
  | nil =>
    obtain rfl := List.length_eq_zero_iff.1 hlen
    simp [MarksFirst]
  | cons c conds ih =>
    obtain ⟨s, ss, rfl⟩ := List.exists_cons_of_length_eq_add_one hlen
    rw [List.forall_mem_cons] at hss
    have hlen' : ss.length = conds.length := Nat.succ.inj hlen
    simp only [MarksFirst, bitsAt, List.map_cons, List.findIdx?_cons, bitAt, id_eq,
      decide_eq_true_eq]
    by_cases hc : σ c = 1
    · simp only [hc, if_true]
      constructor
      · rintro ⟨hs, hrest⟩ j t ht
        cases j with
        | zero => cases ht; simp [hs]
        | succ j => simp [hrest t (List.mem_of_getElem? ht)]
      · intro h
        refine ⟨(h 0 s rfl).2 rfl, ?_⟩
        intro t ht
        obtain ⟨j, hj⟩ := List.getElem?_of_mem ht
        exact (IsBit.zero_iff (hss.2 t ht)).2 fun h1 => by simpa using (h (j + 1) t hj).1 h1
    · simp only [hc, if_false]
      rw [ih hlen' hss.2]
      constructor
      · rintro ⟨hs, hrest⟩ j t ht
        cases j with
        | zero => cases ht; simp [hs]
        | succ j => rw [hrest j t ht]; simp [bitsAt]
      · intro h
        refine ⟨(IsBit.zero_iff hss.1).2 fun h1 => by simpa using (h 0 s rfl).1 h1, ?_⟩
        intro j t ht
        rw [h (j + 1) t ht]
        simp [bitsAt]

section Branch

variable {bigM : Int} {reach : Expr} {i : Nat} {otherwise : List Constraint}

theorem branchRows_hold {cond s : Var} {body rows : List Constraint}
    (h : branchRows reach i cond s body bigM = some rows) :
    AllHold σ rows ↔
      reach.value σ + σ cond ≤ σ s + i ∧ σ s * (i + 1) ≤ reach.value σ + σ cond ∧
        AllWithin σ ((1 - σ s) * bigM) body := by
  simp only [branchRows, Option.bind_eq_bind, Option.bind_eq_some_iff, Option.pure_def,
    Option.some.injEq] at h
  obtain ⟨p, hp, upper, hu, lower, hl, slack, hs, rest, hr, rfl⟩ := h
  rw [allHold_cons, allHold_cons, relax_hold hr, holds_le, holds_le, Expr.value_add σ hp,
    Expr.value_addConst σ hu, Expr.value_scale σ hl, Expr.value_scale σ hs]
  simp only [Expr.value_ofVar, Expr.value_complement]

theorem chainRows_cons {cond s : Var} {body rows : List Constraint}
    {rest : List (Var × Var × List Constraint)}
    (h : chainRows bigM reach i ((cond, s, body) :: rest) = some rows) :
    ∃ now reach' later, branchRows reach i cond s body bigM = some now ∧
      reach'.value σ = reach.value σ + (1 - σ cond) ∧
      chainRows bigM reach' (i + 1) rest = some later ∧ rows = now ++ later := by
  simp only [chainRows, Option.bind_eq_bind, Option.bind_eq_some_iff, Option.pure_def,
    Option.some.injEq] at h
  obtain ⟨now, hn, reach', hr, later, hl, rfl⟩ := h
  exact ⟨now, reach', later, hn, by rw [Expr.value_add σ hr, Expr.value_complement], hl, rfl⟩

theorem chainRows_closed {conds ss : List Var} {bodies : List (List Constraint)}
    {rows : List Constraint}
    (h : chainRows bigM reach i (conds.zip (ss.zip bodies)) = some rows)
    (hss : ss.length = conds.length) (hbs : bodies.length = conds.length)
    (hc : ∀ c ∈ conds, IsBit (σ c)) (hs : ∀ s ∈ ss, IsBit (σ s))
    (hpos : 0 ≤ reach.value σ) (hlt : reach.value σ < i) :
    AllHold σ rows ↔ (∀ s ∈ ss, σ s = 0) ∧ AllWithin σ bigM bodies.flatten := by
  induction conds generalizing reach i ss bodies rows with
  | nil =>
    obtain rfl := List.length_eq_zero_iff.1 hss
    obtain rfl := List.length_eq_zero_iff.1 hbs
    cases h
    simp
  | cons c conds ih =>
    obtain ⟨s, ss, rfl⟩ := List.exists_cons_of_length_eq_add_one hss
    obtain ⟨body, bodies, rfl⟩ := List.exists_cons_of_length_eq_add_one hbs
    rw [List.forall_mem_cons] at hc hs
    obtain ⟨now, reach', later, hnow, hval, hlater, rfl⟩ := chainRows_cons (σ := σ) h
    have hrest := ih hlater (Nat.succ.inj hss) (Nat.succ.inj hbs) hc.2 hs.2
      (by rcases hc.1 with h0 | h0 <;> omega) (by rcases hc.1 with h0 | h0 <;> omega)
    rw [allHold_append, branchRows_hold hnow, hrest, List.forall_mem_cons, List.flatten_cons,
      allWithin_append]
    -- the reach is at most `i`, so the lower row cannot be met with a selector of 1
    have hzero : (reach.value σ + σ c ≤ σ s + i ∧ σ s * (i + 1) ≤ reach.value σ + σ c) ↔
        σ s = 0 := by
      rcases hs.1 with h0 | h0 <;> rcases hc.1 with h1 | h1 <;> rw [h0, h1] <;> omega
    rw [← and_assoc (a := _ ≤ _), hzero]
    constructor
    · rintro ⟨⟨h0, hw⟩, hz, hws⟩
      rw [h0, Int.sub_zero, Int.one_mul] at hw
      exact ⟨⟨h0, hz⟩, hw, hws⟩
    · rintro ⟨⟨h0, hz⟩, hw, hws⟩
      rw [h0, Int.sub_zero, Int.one_mul]
      exact ⟨⟨rfl, hw⟩, hz, hws⟩

/-- While no condition was 1, the reach is the position. -/
theorem chainRows_open {conds ss : List Var} {bodies : List (List Constraint)}
    {rows : List Constraint}
    (h : chainRows bigM reach i (conds.zip (ss.zip bodies)) = some rows)
    (hss : ss.length = conds.length) (hbs : bodies.length = conds.length)
    (hc : ∀ c ∈ conds, IsBit (σ c)) (hs : ∀ s ∈ ss, IsBit (σ s)) (hreach : reach.value σ = i) :
    AllHold σ rows ∧ AllWithin σ ((ss.map σ).sum * bigM) otherwise ↔
      MarksFirst σ conds ss ∧ Guarded σ bigM conds bodies otherwise := by
  induction conds generalizing reach i ss bodies rows with
  | nil =>
    obtain rfl := List.length_eq_zero_iff.1 hss
    obtain rfl := List.length_eq_zero_iff.1 hbs
    cases h
    simp [MarksFirst, guarded_nil, allWithin_zero_iff]
  | cons c conds ih =>
    obtain ⟨s, ss, rfl⟩ := List.exists_cons_of_length_eq_add_one hss
    obtain ⟨body, bodies, rfl⟩ := List.exists_cons_of_length_eq_add_one hbs
    rw [List.forall_mem_cons] at hc hs
    obtain ⟨now, reach', later, hnow, hval, hlater, rfl⟩ := chainRows_cons (σ := σ) h
    have hss' : ss.length = conds.length := Nat.succ.inj hss
    have hbs' : bodies.length = conds.length := Nat.succ.inj hbs
    rw [allHold_append, branchRows_hold hnow, hreach, List.map_cons, List.sum_cons]
    rcases hc.1 with h0 | h1
    · -- the condition is 0: the chain stays open
      have hrest := ih hlater hss' hbs' hc.2 hs.2 (by rw [hval, hreach, h0]; push_cast; omega)
      have hzero : ((i : Int) + σ c ≤ σ s + i ∧ σ s * (i + 1) ≤ (i : Int) + σ c) ↔ σ s = 0 := by
        rcases hs.1 with hs0 | hs0 <;> rw [hs0, h0] <;> omega
      rw [← and_assoc (a := _ ≤ _), hzero, guarded_cons_zero h0, MarksFirst, if_neg (by omega)]
      constructor
      · rintro ⟨⟨⟨hs0, hw⟩, hrows⟩, hother⟩
        rw [hs0, Int.sub_zero, Int.one_mul] at hw
        rw [hs0, Int.zero_add] at hother
        obtain ⟨hmark, hguard⟩ := hrest.1 ⟨hrows, hother⟩
        exact ⟨⟨hs0, hmark⟩, hw, hguard⟩
      · rintro ⟨⟨hs0, hmark⟩, hw, hguard⟩
        obtain ⟨hrows, hother⟩ := hrest.2 ⟨hmark, hguard⟩
        rw [hs0, Int.sub_zero, Int.one_mul, Int.zero_add]
        exact ⟨⟨⟨rfl, hw⟩, hrows⟩, hother⟩
    · -- the condition is 1: its selector is 1 and the chain is closed
      have hrest := chainRows_closed hlater hss' hbs' hc.2 hs.2 (by omega) (by push_cast; omega)
      have hone : ((i : Int) + σ c ≤ σ s + i ∧ σ s * (i + 1) ≤ (i : Int) + σ c) ↔ σ s = 1 := by
        rcases hs.1 with hs0 | hs0 <;> rw [hs0, h1] <;> omega
      have hsum : (∀ t ∈ ss, σ t = 0) → (ss.map σ).sum = 0 := (sum_bits hs.2).2.2.2.2
      rw [← and_assoc (a := _ ≤ _), hone, hrest, guarded_cons_one h1, MarksFirst, if_pos h1]
      constructor
      · rintro ⟨⟨⟨hs1, hw⟩, hz, hws⟩, hother⟩
        rw [hs1, Int.sub_self, Int.zero_mul, allWithin_zero_iff] at hw
        rw [hs1, hsum hz, Int.add_zero, Int.one_mul] at hother
        exact ⟨⟨hs1, hz⟩, hw, hws, hother⟩
      · rintro ⟨⟨hs1, hz⟩, hw, hws, hother⟩
        rw [hs1, hsum hz, Int.sub_self, Int.zero_mul, allWithin_zero_iff, Int.add_zero,
          Int.one_mul]
        exact ⟨⟨⟨rfl, hw⟩, hz, hws⟩, hother⟩

end Branch

/-! ## Selectors in a model -/

def selectorRows (conds ss : List Var) (bodies : List (List Constraint))
    (otherwise : List Constraint) (bigM : Int) : Option (List Constraint) := do
  let branches ← chainRows bigM .zero 0 (conds.zip (ss.zip bodies))
  let total ← Expr.sum ss
  let slack ← total.scale bigM
  let last ← relax otherwise slack
  return branches ++ last

theorem selectorRows_eq_some_iff {conds ss : List Var} {bodies : List (List Constraint)}
    {otherwise rows : List Constraint} {bigM : Int} :
    selectorRows conds ss bodies otherwise bigM = some rows ↔
      ∃ branches total slack last,
        chainRows bigM .zero 0 (conds.zip (ss.zip bodies)) = some branches ∧
        Expr.sum ss = some total ∧ total.scale bigM = some slack ∧
        relax otherwise slack = some last ∧ branches ++ last = rows := by
  simp only [selectorRows, Option.bind_eq_bind, Option.bind_eq_some_iff, Option.pure_def,
    Option.some.injEq]
  constructor
  · rintro ⟨branches, hb, total, ht, slack, hs, last, hl, hrows⟩
    exact ⟨branches, total, slack, last, hb, ht, hs, hl, hrows⟩
  · rintro ⟨branches, total, slack, last, hb, ht, hs, hl, hrows⟩
    exact ⟨branches, hb, total, ht, slack, hs, last, hl, hrows⟩

/-- The rows of the selectors and of the constraint sets, for any bits as selectors. -/
theorem selectorRows_hold {ss : List Var} {bodies : List (List Constraint)}
    {rows : List Constraint} (h : selectorRows conds ss bodies otherwise bigM = some rows)
    (hss : ss.length = conds.length) (hbs : bodies.length = conds.length)
    (hc : ∀ c ∈ conds, IsBit (σ c)) (hs : ∀ s ∈ ss, IsBit (σ s)) :
    AllHold σ rows ↔ MarksFirst σ conds ss ∧ Guarded σ bigM conds bodies otherwise := by
  obtain ⟨branches, total, slack, last, hbranches, htotal, hslack, hlast, rfl⟩ :=
    selectorRows_eq_some_iff.1 h
  rw [allHold_append, relax_hold hlast, Expr.value_scale σ hslack, value_sum htotal,
    chainRows_open hbranches hss hbs hc hs rfl]

namespace Model

section Selectors

variable {m m' : Model} {conds rest ss : List Var} {i : Nat}

theorem selectors_cons (m : Model) (conds : List Var) (i : Nat) (c : Var) (rest : List Var) :
    m.selectors conds i (c :: rest) =
      (((m.binary (.selector conds i)).1.selectors conds (i + 1) rest).1,
        (m.binary (.selector conds i)).2 ::
          ((m.binary (.selector conds i)).1.selectors conds (i + 1) rest).2) := rfl

theorem selectors_length (m : Model) (conds : List Var) (i : Nat) (rest : List Var) :
    (m.selectors conds i rest).2.length = rest.length := by
  induction rest generalizing m i with
  | nil => rfl
  | cons c rest ih => rw [selectors_cons, List.length_cons, List.length_cons, ih]

theorem selectors_asks (i : Nat) (rest : List Var) (hc : ∀ v ∈ conds, v < m.size) :
    m.Asks (m.selectors conds i rest).1 := by
  induction rest generalizing m i with
  | nil => exact .refl m
  | cons c rest ih =>
    have hstep : m.Asks (m.binary (.selector conds i)).1 := .single ⟨rfl, trivial, hc⟩
    exact hstep.trans (ih (i + 1) fun v hv => Nat.lt_of_lt_of_le (hc v hv) hstep.grows.size_le)

theorem selectors_grows (m : Model) (conds : List Var) (i : Nat) (rest : List Var) :
    m.Grows (m.selectors conds i rest).1 := by
  induction rest generalizing m i with
  | nil => exact .refl m
  | cons c rest ih => exact (binary_grows m _).trans (ih _ (i + 1))

theorem selectors_indicates (m : Model) (conds : List Var) (i : Nat) (rest : List Var) {j : Nat}
    {s : Var} (hs : (m.selectors conds i rest).2[j]? = some s) :
    (m.selectors conds i rest).1.Indicates s (.selector conds (i + j)) := by
  induction rest generalizing m i j with
  | nil => cases hs
  | cons c rest ih =>
    rw [selectors_cons] at hs ⊢
    cases j with
    | zero =>
      cases hs
      exact (selectors_grows _ conds (i + 1) rest).indicates (binary_indicates m _)
    | succ j =>
      have := ih _ (i + 1) hs
      rwa [Nat.add_right_comm] at this

theorem selectors_faithful_iff (m : Model) (conds : List Var) (i : Nat) (rest : List Var) :
    (m.selectors conds i rest).1.Faithful σ ↔
      m.Faithful σ ∧ ∀ (j : Nat) (s : Var), (m.selectors conds i rest).2[j]? = some s →
        (σ s = 1 ↔ (Key.selector conds (i + j)).Condition σ) := by
  induction rest generalizing m i with
  | nil => simp [selectors]
  | cons c rest ih =>
    simp only [selectors_cons]
    rw [ih, binary_faithful_iff rfl]
    constructor
    · rintro ⟨⟨hf, h0⟩, hrest⟩
      refine ⟨hf, ?_⟩
      intro j s hs
      cases j with
      | zero => cases hs; exact h0
      | succ j => rw [hrest j s hs, Nat.add_right_comm]; rfl
    · rintro ⟨hf, hall⟩
      refine ⟨⟨hf, hall 0 _ rfl⟩, ?_⟩
      intro j s hs
      rw [hall (j + 1) s hs, Nat.add_right_comm]
      rfl

end Selectors

section Chain

variable {m m' : Model} {conds : List Var} {bodies : List (List Constraint)}
  {otherwise rows : List Constraint} {bigM : Int}

theorem chain_eq_ok_iff :
    m.chain conds bodies otherwise bigM = .ok (m', rows) ↔ conds.length = bodies.length ∧
      ((conds = [] ∧ m' = m ∧ rows = otherwise) ∨
        (∃ c body, conds = [c] ∧ bodies = [body] ∧ m' = m ∧
          ifThenElse c body otherwise bigM = some rows) ∨
        2 ≤ conds.length ∧ m' = (m.selectors conds 0 conds).1 ∧
          selectorRows conds (m.selectors conds 0 conds).2 bodies otherwise bigM = some rows) := by
  constructor
  · intro h
    simp only [chain] at h
    split at h
    · cases h
    · rename_i hlen
      have hlen' : conds.length = bodies.length := not_not.1 hlen
      refine ⟨hlen', ?_⟩
      split at h
      · cases h; exact .inl ⟨rfl, rfl, rfl⟩
      · rename_i c body bodies'
        obtain rfl : bodies' = [] := List.length_eq_zero_iff.1 (Nat.succ.inj hlen').symm
        obtain ⟨cs, hcs, heq⟩ := Option.map_eq_some_iff.1 (orOverflow_eq_ok_iff.1 h)
        cases heq
        exact .inr (.inl ⟨c, body, rfl, rfl, rfl, hcs⟩)
      · rename_i hnil hone
        have hsome := orOverflow_eq_ok_iff.1 h
        simp only [Option.bind_eq_bind, Option.bind_eq_some_iff, Option.pure_def,
          Option.some.injEq, Prod.mk.injEq] at hsome
        obtain ⟨branches, hb, total, ht, slack, hs, last, hl, rfl, rfl⟩ := hsome
        refine .inr (.inr ⟨?_, rfl, selectorRows_eq_some_iff.2 ⟨_, _, _, _, hb, ht, hs, hl, rfl⟩⟩)
        match conds, bodies, hlen' with
        | [], _, _ => exact (hnil rfl).elim
        | [c], body :: _, _ => exact absurd rfl (hone c body _ rfl)
        | _ :: _ :: _, _, _ => simp
  · rintro ⟨hlen, ⟨rfl, rfl, rfl⟩ | ⟨c, body, rfl, rfl, rfl, hrows⟩ | ⟨htwo, rfl, hrows⟩⟩
    · simp only [chain, if_neg (not_not.2 hlen)]
    · simp only [chain, hrows]
      rfl
    · obtain ⟨branches, total, slack, last, hb, ht, hs, hl, rfl⟩ := selectorRows_eq_some_iff.1 hrows
      match conds, htwo with
      | c :: d :: conds, _ =>
        simp only [chain, if_neg (not_not.2 hlen)]
        refine orOverflow_eq_ok_iff.2 ?_
        simp only [hb, ht, hs, hl, Option.bind_eq_bind, Option.bind_some, Option.pure_def]

theorem chain_asks (h : m.chain conds bodies otherwise bigM = .ok (m', rows))
    (hc : ∀ v ∈ conds, v < m.size) : m.Asks m' := by
  obtain ⟨-, ⟨-, rfl, -⟩ | ⟨c, body, -, -, rfl, -⟩ | ⟨-, rfl, -⟩⟩ := chain_eq_ok_iff.1 h
  · exact .refl m'
  · exact .refl m'
  · exact selectors_asks 0 conds hc

/-- The rows of a chain hold iff its selectors mark the first condition that is 1 and the
constraint sets are guarded. -/
theorem chain_hold_iff (h : m.chain conds bodies otherwise bigM = .ok (m', rows))
    (hp : m'.IsPoint σ) (hc : ∀ c ∈ conds, IsBit (σ c)) (hf : m.Faithful σ) :
    AllHold σ rows ↔ m'.Faithful σ ∧ Guarded σ bigM conds bodies otherwise := by
  obtain ⟨hlen, ⟨rfl, rfl, rfl⟩ | ⟨c, body, rfl, rfl, rfl, hrows⟩ | ⟨-, rfl, hrows⟩⟩ :=
    chain_eq_ok_iff.1 h
  · obtain rfl := List.length_eq_zero_iff.1 hlen.symm
    rw [guarded_nil]
    exact ⟨fun hr => ⟨hf, hr⟩, And.right⟩
  · rw [ifThenElse_hold hrows (hc c List.mem_cons_self)]
    exact ⟨fun hr => ⟨hf, hr⟩, And.right⟩
  · have hlen' := selectors_length m conds 0 conds
    have hbits : ∀ s ∈ (m.selectors conds 0 conds).2, IsBit (σ s) := fun s hs => by
      obtain ⟨j, hj⟩ := List.getElem?_of_mem hs
      exact (selectors_indicates m conds 0 conds hj).isBit hp
    rw [selectorRows_hold hrows hlen' hlen.symm hc hbits, marksFirst_iff hlen' hbits,
      selectors_faithful_iff]
    simp only [Nat.zero_add, Key.Condition]
    exact ⟨fun ⟨hm, hg⟩ => ⟨⟨hf, hm⟩, hg⟩, fun ⟨⟨_, hm⟩, hg⟩ => ⟨hm, hg⟩⟩

end Chain

end Model

end Linearize
