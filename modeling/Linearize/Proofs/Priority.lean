import Linearize.Proofs.Guards

/-!
# Linearize.Proofs.Priority

A chain gives priority to its first condition that is 1. The recursion along the chain, by which
constraint sets are guarded, is told again by positions: the list at the first position whose
condition is 1 is in force, and all others are switched off.
-/

namespace Linearize

variable {σ : Var → Int} {bigM : Int} {c : Var} {conds : List Var} {otherwise : List Constraint}

/-- The condition at position `i` is 1 and those before it are 0. -/
def FirstOne (σ : Var → Int) (conds : List Var) (i : Nat) : Prop :=
  conds[i]?.map σ = some 1 ∧ ∀ j < i, conds[j]?.map σ = some 0

theorem firstOne_zero : FirstOne σ (c :: conds) 0 ↔ σ c = 1 := by
  simp [FirstOne]

theorem firstOne_succ {i : Nat} :
    FirstOne σ (c :: conds) (i + 1) ↔ σ c = 0 ∧ FirstOne σ conds i := by
  simp only [FirstOne, List.getElem?_cons_succ, Nat.forall_lt_succ_left', List.getElem?_cons_zero,
    Option.map_some, Option.some.injEq]
  exact and_left_comm

theorem firstOne_iff_findIdx? (h : ∀ c ∈ conds, IsBit (σ c)) {i : Nat} :
    FirstOne σ conds i ↔ (bitsAt σ conds).findIdx? id = some i := by
  induction conds generalizing i with
  | nil => simp [FirstOne, bitsAt]
  | cons c conds ih =>
    rw [List.forall_mem_cons] at h
    simp only [bitsAt, List.map_cons, List.findIdx?_cons, bitAt, id_eq, decide_eq_true_eq]
    cases i with
    | zero =>
      rw [firstOne_zero]
      by_cases hc : σ c = 1 <;> simp [hc]
    | succ i =>
      rw [firstOne_succ, ih h.2, IsBit.zero_iff h.1]
      by_cases hc : σ c = 1 <;> simp [hc, bitsAt]

/-- The list of the first condition that is 1 holds, or `otherwise` if no condition is. No pair of
a constraint of another list is violated by more than `bigM`. -/
structure Prioritized (σ : Var → Int) (bigM : Int) (conds : List Var)
    (bodies : List (List Constraint)) (otherwise : List Constraint) : Prop where
  taken : ∀ i body, bodies[i]? = some body → FirstOne σ conds i → AllHold σ body
  fallback : (∀ c ∈ conds, σ c = 0) → AllHold σ otherwise
  passed : ∀ i body, bodies[i]? = some body → ¬ FirstOne σ conds i → AllWithin σ bigM body
  covered : (∃ c ∈ conds, σ c = 1) → AllWithin σ bigM otherwise

theorem prioritized_nil : Prioritized σ bigM [] [] otherwise ↔ AllHold σ otherwise := by
  constructor
  · exact fun h => h.fallback (List.forall_mem_nil _)
  · intro h
    refine ⟨?_, fun _ => h, ?_, ?_⟩
    · intro i body hi
      cases hi
    · intro i body hi
      cases hi
    · rintro ⟨c, hc, -⟩
      cases hc

section Cons

variable {body : List Constraint} {bodies : List (List Constraint)}

theorem prioritized_cons_one (hc : σ c = 1) :
    Prioritized σ bigM (c :: conds) (body :: bodies) otherwise ↔
      AllHold σ body ∧ AllWithin σ bigM bodies.flatten ∧ AllWithin σ bigM otherwise := by
  have hlater : ∀ i, ¬ FirstOne σ (c :: conds) (i + 1) := fun i hi => by
    have := (firstOne_succ.1 hi).1
    omega
  constructor
  · intro h
    refine ⟨h.taken 0 body rfl (firstOne_zero.2 hc), ?_, h.covered ⟨c, List.mem_cons_self, hc⟩⟩
    intro d hd
    obtain ⟨b, hb, hd⟩ := List.mem_flatten.1 hd
    obtain ⟨i, hi⟩ := List.getElem?_of_mem hb
    exact h.passed (i + 1) b hi (hlater i) d hd
  · rintro ⟨hbody, hbodies, hother⟩
    refine ⟨?_, fun h => ?_, ?_, fun _ => hother⟩
    · intro i b hb hi
      cases i with
      | zero => cases hb; exact hbody
      | succ i => exact absurd hi (hlater i)
    · have := h c List.mem_cons_self
      omega
    · intro i b hb hi
      cases i with
      | zero => exact absurd (firstOne_zero.2 hc) hi
      | succ i =>
        exact fun d hd => hbodies d (List.mem_flatten.2 ⟨b, List.mem_of_getElem? hb, hd⟩)

theorem prioritized_cons_zero (hc : σ c = 0) :
    Prioritized σ bigM (c :: conds) (body :: bodies) otherwise ↔
      AllWithin σ bigM body ∧ Prioritized σ bigM conds bodies otherwise := by
  have hfirst : ¬ FirstOne σ (c :: conds) 0 := fun h => by
    have := firstOne_zero.1 h
    omega
  have hlater : ∀ i, FirstOne σ (c :: conds) (i + 1) ↔ FirstOne σ conds i := fun i => by
    rw [firstOne_succ, and_iff_right hc]
  constructor
  · intro h
    refine ⟨h.passed 0 body rfl hfirst, fun i b hb hi => h.taken (i + 1) b hb ((hlater i).2 hi),
      fun hzero => h.fallback (List.forall_mem_cons.2 ⟨hc, hzero⟩),
      fun i b hb hi => h.passed (i + 1) b hb (mt (hlater i).1 hi), ?_⟩
    rintro ⟨d, hd, hone⟩
    exact h.covered ⟨d, List.mem_cons_of_mem c hd, hone⟩
  · rintro ⟨hbody, h⟩
    refine ⟨?_, fun hzero => h.fallback (List.forall_mem_cons.1 hzero).2, ?_, ?_⟩
    · intro i b hb hi
      cases i with
      | zero => exact absurd hi hfirst
      | succ i => exact h.taken i b hb ((hlater i).1 hi)
    · intro i b hb hi
      cases i with
      | zero => cases hb; exact hbody
      | succ i => exact h.passed i b hb (mt (hlater i).2 hi)
    · rintro ⟨d, hd, hone⟩
      rcases List.mem_cons.1 hd with rfl | hd
      · omega
      · exact h.covered ⟨d, hd, hone⟩

end Cons

/-- What is guarded along the conditions is given priority by their positions. -/
theorem guarded_iff_prioritized {bodies : List (List Constraint)}
    (hlen : bodies.length = conds.length) (h : ∀ c ∈ conds, IsBit (σ c)) :
    Guarded σ bigM conds bodies otherwise ↔ Prioritized σ bigM conds bodies otherwise := by
  induction conds generalizing bodies with
  | nil =>
    obtain rfl := List.length_eq_zero_iff.1 hlen
    rw [guarded_nil, prioritized_nil]
  | cons c conds ih =>
    obtain ⟨body, bodies, rfl⟩ := List.exists_cons_of_length_eq_add_one hlen
    rw [List.forall_mem_cons] at h
    rcases h.1 with hc | hc
    · rw [guarded_cons_zero hc, prioritized_cons_zero hc, ih (Nat.succ.inj hlen) h.2]
    · rw [guarded_cons_one hc, prioritized_cons_one hc]

namespace Model

theorem findBinary?_selectors {m m' : Model} {i j : Nat} {s : Var} {rest : List Var}
    (hg : (m.selectors conds i rest).1.Grows m') (hs : (m.selectors conds i rest).2[j]? = some s) :
    m'.findBinary? (.selector conds (i + j)) = some s := by
  induction rest generalizing m i j with
  | nil => cases hs
  | cons c rest ih =>
    rw [selectors_cons] at hs hg
    cases j with
    | zero =>
      cases hs
      exact ((selectors_grows _ conds (i + 1) rest).trans hg).findBinary? (findBinary?_binary m _)
    | succ j =>
      have := ih hg hs
      rwa [Nat.add_right_comm] at this

theorem chain_eq_error {m : Model} {bodies : List (List Constraint)} {e : EncodeError}
    (h : m.chain conds bodies otherwise bigM = .error e) (hlen : bodies.length = conds.length) :
    e = .overflow := by
  simp only [chain, hlen, ne_eq, not_true_eq_false, if_false] at h
  split at h
  · cases h
  · exact orOverflow_eq_error h
  · exact orOverflow_eq_error h

/-- A chain of two or more conditions is exact. Unless it overflows, its rows hold, for bits as
conditions and selectors, iff every selector marks its position as that of the first condition that
is 1, and the constraint lists are given priority accordingly. -/
theorem chain_exact (m : Model) (conds : List Var) (bodies : List (List Constraint))
    (otherwise : List Constraint) (bigM : Int) (htwo : 2 ≤ conds.length)
    (hlen : bodies.length = conds.length)
    (hfits : m.chain conds bodies otherwise bigM ≠ .error .overflow) :
    ∃ (m' : Model) (rows : List Constraint) (ss : List Var),
      m.chain conds bodies otherwise bigM = .ok (m', rows) ∧ ss.length = conds.length ∧
      (∀ i s, ss[i]? = some s → m'.findBinary? (.selector conds i) = some s) ∧
      ∀ σ : Var → Int, (∀ c ∈ conds, IsBit (σ c)) → (∀ s ∈ ss, IsBit (σ s)) →
        (AllHold σ rows ↔ (∀ i s, ss[i]? = some s → (σ s = 1 ↔ FirstOne σ conds i)) ∧
          Prioritized σ bigM conds bodies otherwise) := by
  cases h : m.chain conds bodies otherwise bigM with
  | error e =>
    rw [chain_eq_error h hlen] at h
    exact absurd h hfits
  | ok r =>
    obtain ⟨m', rows⟩ := r
    obtain ⟨-, ⟨rfl, -⟩ | ⟨c, body, rfl, -⟩ | ⟨-, rfl, hrows⟩⟩ := chain_eq_ok_iff.1 h
    · cases htwo
    · simp at htwo
    · have hss : (m.selectors conds 0 conds).2.length = conds.length :=
        selectors_length m conds 0 conds
      refine ⟨_, rows, (m.selectors conds 0 conds).2, rfl, hss, ?_, ?_⟩
      · intro i s hs
        have := findBinary?_selectors (.refl _) hs
        rwa [Nat.zero_add] at this
      · intro σ hc hs
        rw [selectorRows_hold hrows hss hlen hc hs, marksFirst_iff hss hs,
          guarded_iff_prioritized hlen hc]
        simp only [firstOne_iff_findIdx? hc]

def threeColumns : Model :=
  ⟨[⟨.named "a", .binary⟩, ⟨.named "b", .binary⟩, ⟨.named "x", .integer (some 0) (some 9)⟩], []⟩

/-- The first condition is asked for once more at the end, where it can never be the first one that
is 1. -/
def repeatedBodies : List (List Constraint) :=
  [[.eq (.ofVar 2) (.const 1)], [.le (.ofVar 2) (.const 2), .le (.const 1) (.ofVar 2)],
    [.eq (.ofVar 2) (.const 3)]]

theorem repeatedBodies_chain_exact :
    ∃ (m' : Model) (rows : List Constraint) (ss : List Var),
      threeColumns.chain [0, 1, 0] repeatedBodies [.eq (.ofVar 2) (.const 4)] 10 =
        .ok (m', rows) ∧ ss.length = 3 ∧
      (∀ i s, ss[i]? = some s → m'.findBinary? (.selector [0, 1, 0] i) = some s) ∧
      ∀ σ : Var → Int, (∀ c ∈ [0, 1, 0], IsBit (σ c)) → (∀ s ∈ ss, IsBit (σ s)) →
        (AllHold σ rows ↔ (∀ i s, ss[i]? = some s → (σ s = 1 ↔ FirstOne σ [0, 1, 0] i)) ∧
          Prioritized σ 10 [0, 1, 0] repeatedBodies [.eq (.ofVar 2) (.const 4)]) :=
  chain_exact threeColumns [0, 1, 0] repeatedBodies [.eq (.ofVar 2) (.const 4)] 10 (by decide)
    (by decide) (by decide +kernel)

end Model
end Linearize
