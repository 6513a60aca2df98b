import Linearize.Cover.History
import Linearize.Proofs.Minimality
import Linearize.Proofs.Weights

/-!
# Linearize.Proofs.ExclusiveOr

The rows of an exclusive or exist for every number of inputs that has a cover, whatever variables
stand in them, and they are exact at all points of bits. A store of covers gives the same rows after
any calls: it keeps only what its generator makes.
-/

namespace Linearize

/-! ## Stores that keep what their generator makes -/

namespace CoverStore

variable {s : CoverStore} {generator : Nat → List Pattern} {arity : Nat}

/-- The store was made for `generator`, and every cover in it is what `generator` makes. -/
structure Genuine (generator : Nat → List Pattern) (s : CoverStore) : Prop where
  generator_eq : s.generator = generator
  cover_eq : ∀ arity cover, s.get? arity = some cover → cover = generator arity

theorem genuine_fresh (generator : Nat → List Pattern) : (fresh generator).Genuine generator :=
  ⟨rfl, fun _ _ h => by cases h⟩

theorem getOrCompute_refused (h : maxArity < arity) :
    s.getOrCompute arity = .error (.unsupportedArity arity maxArity) := by
  rw [getOrCompute, if_pos h]

theorem Genuine.getOrCompute (h : s.Genuine generator) (harity : arity ≤ maxArity) :
    ∃ s', s.getOrCompute arity = .ok (s', generator arity) ∧ s'.Genuine generator := by
  rw [CoverStore.getOrCompute, if_neg (Nat.not_lt.2 harity)]
  cases hget : s.get? arity with
  | some cover =>
    obtain rfl := h.cover_eq arity cover hget
    exact ⟨s, rfl, h⟩
  | none =>
    rw [h.generator_eq]
    refine ⟨_, rfl, rfl, ?_⟩
    intro n cover hn
    simp only [get?, List.lookup_cons] at hn
    split at hn
    · rename_i heq
      obtain rfl := eq_of_beq heq
      exact (Option.some.inj hn).symm
    · exact h.cover_eq n cover hn

theorem Genuine.after (h : s.Genuine generator) (call : CoverCall) :
    (s.after call).Genuine generator := by
  cases call with
  | get arity => exact h
  | compute arity =>
    simp only [CoverStore.after]
    rcases Nat.lt_or_ge maxArity arity with hlarge | hsmall
    · rw [getOrCompute_refused hlarge]
      exact h
    · obtain ⟨s', hs, h'⟩ := h.getOrCompute hsmall
      rw [hs]
      exact h'
  | xor inputs output =>
    simp only [CoverStore.after, CoverStore.xorRows]
    rcases Nat.lt_or_ge maxArity inputs.length with hlarge | hsmall
    · rw [getOrCompute_refused hlarge]
      exact h
    · obtain ⟨s', hs, h'⟩ := h.getOrCompute hsmall
      simp only [hs]
      cases coverRows (inputs ++ [output]) (generator inputs.length) with
      | none => exact h
      | some rows => exact h'

theorem Genuine.run (h : s.Genuine generator) (calls : List CoverCall) :
    (s.run calls).Genuine generator := by
  induction calls generalizing s with
  | nil => exact h
  | cons call calls ih => exact ih (h.after call)

end CoverStore

/-! ## Rows that cannot overflow -/

theorem exists_xorRows (a b c : Var) :
    ∃ rows, xorRows a b c = some rows ∧ ∀ row ∈ rows, row.Light := by
  have hmax : 6 ≤ maxWeight := by decide
  have hpair : ∀ v w : Var, ∃ e, (Expr.ofVar v).add (.ofVar w) = some e ∧ e.weight ≤ 2 := by
    intro v w
    have h := Expr.add_light (.ofVar v) (.ofVar w)
    simp only [Expr.weight_ofVar] at h
    exact h (by omega)
  obtain ⟨ab, hab, hable⟩ := hpair a b
  obtain ⟨ac, hac, hacle⟩ := hpair a c
  obtain ⟨bc, hbc, hbcle⟩ := hpair b c
  obtain ⟨abc, habc, habcle⟩ := Expr.add_light ab (.ofVar c) (by
    rw [Expr.weight_ofVar]
    omega)
  rw [Expr.weight_ofVar] at habcle
  refine ⟨[.le (.ofVar c) ab, .le (.ofVar b) ac, .le (.ofVar a) bc, .le abc (.const 2)], ?_, ?_⟩
  · simp [xorRows, hab, hac, hbc, habc]
  · simp only [List.forall_mem_cons, Constraint.Light, Constraint.lhs, Constraint.rhs,
      Expr.weight_ofVar, Expr.weight_const]
    exact ⟨by omega, by omega, by omega, by omega, List.forall_mem_nil _⟩

variable {inputs : List Var} {output : Var} {rows : List Constraint}

theorem exists_parityRows (output : Var) (h : inputs.length ≤ maxArity) :
    ∃ rows, coverRows (inputs ++ [output]) (parityCover inputs.length) = some rows ∧
      parityRows inputs output = .ok rows ∧ ∀ row ∈ rows, row.Light := by
  have hmax : 1 + 2 * (maxArity + 1) ≤ maxWeight := by decide
  obtain ⟨rows, hrows, hlight⟩ := coverRows_light (inputs ++ [output]) (parityCover inputs.length)
    fun p hp => by
      rw [length_of_mem_parityCover hp]
      omega
  refine ⟨rows, hrows, ?_, hlight⟩
  rw [parityRows, if_neg (Nat.not_lt.2 h), hrows]
  rfl

theorem parityRows_refused (output : Var) (h : maxArity < inputs.length) :
    parityRows inputs output = .error (.unsupportedArity inputs.length maxArity) := by
  rw [parityRows, if_pos h]

theorem exists_exclusiveOrRows (output : Var) (h : inputs.length ≤ maxArity) :
    ∃ rows, Statement.exclusiveOrRows inputs output = .ok rows ∧ ∀ row ∈ rows, row.Light := by
  simp only [Statement.exclusiveOrRows]
  split
  · rename_i a b
    obtain ⟨rows, hrows, hlight⟩ := exists_xorRows a b output
    exact ⟨rows, by rw [hrows]; rfl, hlight⟩
  · obtain ⟨rows, -, hrows, hlight⟩ := exists_parityRows output h
    exact ⟨rows, hrows, hlight⟩

theorem CoverStore.Genuine.xorRows {s : CoverStore} (h : s.Genuine parityCover)
    (hrows : coverRows (inputs ++ [output]) (parityCover inputs.length) = some rows)
    (harity : inputs.length ≤ maxArity) :
    ∃ s', s.xorRows inputs output = .ok (s', rows) ∧ s'.Genuine parityCover := by
  obtain ⟨s', hs, h'⟩ := h.getOrCompute harity
  refine ⟨s', ?_, h'⟩
  simp only [CoverStore.xorRows, hs, hrows]

/-! ## Exactness -/

/-- At every point of bits the rows hold, and their check succeeds, iff the output is the exclusive
or of the inputs. -/
def IsExclusiveOr (inputs : List Var) (output : Var) (rows : List Constraint) : Prop :=
  ∀ σ : Var → Int, (∀ v ∈ inputs ++ [output], IsBit (σ v)) →
    (AllHold σ rows ↔ bitAt σ output = parity (bitsAt σ inputs)) ∧
    ∀ s : Assignment, (∀ v ∈ inputs ++ [output], s v = some (σ v)) →
      s.satisfies rows = some (decide (bitAt σ output = parity (bitsAt σ inputs)))

theorem isExclusiveOr_of_light (hlight : ∀ row ∈ rows, row.Light)
    (hover : ∀ P : Var → Prop, (∀ v ∈ inputs ++ [output], P v) → AllOver P rows)
    (hhold : ∀ σ : Var → Int, (∀ v ∈ inputs, IsBit (σ v)) → IsBit (σ output) →
      (AllHold σ rows ↔ bitAt σ output = parity (bitsAt σ inputs))) :
    IsExclusiveOr inputs output rows := by
  intro σ hbits
  have hiff := hhold σ (fun v hv => hbits v (List.mem_append_left _ hv))
    (hbits output (List.mem_append_right _ (List.mem_singleton_self _)))
  refine ⟨hiff, ?_⟩
  intro s hs
  rw [satisfies_light hlight (hover _ fun v hv => ⟨hs v hv, hbits v hv⟩)]
  simp only [hiff]

/-- An exclusive or of up to 20 inputs is exact, over any variables and with a cover from a store
after any calls; more inputs are refused. The same is true of the rows that a statement adds to a
model, those of two inputs being written without a cover. -/
theorem exclusiveOr_exact (calls : List CoverCall) (inputs : List Var) (output : Var) (m : Model)
    (defaultBigM : Int) :
    (inputs.length ≤ 20 →
      (∃ s rows, ((CoverStore.fresh parityCover).run calls).xorRows inputs output = .ok (s, rows) ∧
        parityRows inputs output = .ok rows ∧ IsExclusiveOr inputs output rows) ∧
      ∃ rows, (Statement.xor inputs output).assert m defaultBigM = .ok (m.addRows rows) ∧
        IsExclusiveOr inputs output rows ∧
        ∀ a b, inputs = [a, b] → xorRows a b output = some rows) ∧
    (20 < inputs.length →
      parityRows inputs output = .error (.unsupportedArity inputs.length 20) ∧
      ((CoverStore.fresh parityCover).run calls).xorRows inputs output =
        .error (.unsupportedArity inputs.length 20)) := by
  constructor
  · intro h
    constructor
    · obtain ⟨rows, hcover, hrows, hlight⟩ := exists_parityRows output h
      have hgenuine := (CoverStore.genuine_fresh parityCover).run calls
      obtain ⟨s, hs, -⟩ := hgenuine.xorRows hcover h
      refine ⟨s, rows, hs, hrows, isExclusiveOr_of_light hlight ?_ ?_⟩
      · exact fun P hP => coverRows_over hcover hP
      · exact fun σ hin hout => parityRows_hold hrows hin hout
    · obtain ⟨rows, hrows, hlight⟩ := exists_exclusiveOrRows output h
      refine ⟨rows, ?_, isExclusiveOr_of_light hlight ?_ ?_, ?_⟩
      · simp only [Statement.assert, Statement.encode, Statement.leavesModel, hrows]
      · exact fun P hP => exclusiveOrRows_over hrows hP
      · exact fun σ hin hout => exclusiveOrRows_hold hrows hin hout
      · rintro a b rfl
        exact orOverflow_eq_ok_iff.1 hrows
  · intro h
    refine ⟨parityRows_refused output h, ?_⟩
    simp only [CoverStore.xorRows, CoverStore.getOrCompute_refused h, maxArity]

/-- An input that stands twice, an output that is an input, a store that refused a call before, and
one input too many. -/
theorem sharedOutput_exact :
    ((∃ s rows, ((CoverStore.fresh parityCover).run
          [.get 3, .compute 21, .xor [4, 5, 6] 7, .compute 3]).xorRows [0, 1, 0] 1 = .ok (s, rows) ∧
        parityRows [0, 1, 0] 1 = .ok rows ∧ IsExclusiveOr [0, 1, 0] 1 rows) ∧
      ∃ rows, (Statement.xor [0, 1, 0] 1).assert .empty 1000 = .ok (Model.empty.addRows rows) ∧
        IsExclusiveOr [0, 1, 0] 1 rows ∧
        ∀ a b, [0, 1, 0] = [a, b] → xorRows a b 1 = some rows) ∧
    (parityRows (List.range 21) 21 = .error (.unsupportedArity 21 20) ∧
      ((CoverStore.fresh parityCover).run [.compute 21]).xorRows (List.range 21) 21 =
        .error (.unsupportedArity 21 20)) :=
  ⟨(exclusiveOr_exact [.get 3, .compute 21, .xor [4, 5, 6] 7, .compute 3] [0, 1, 0] 1 .empty
      1000).1 (by decide),
    (exclusiveOr_exact [.compute 21] (List.range 21) 21 .empty 1000).2 (by decide)⟩

end Linearize
