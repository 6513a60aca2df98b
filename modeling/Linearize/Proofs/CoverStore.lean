import Linearize.Proofs.ExclusiveOr

/-!
# Linearize.Proofs.CoverStore

What a store of covers of parity has after any calls. One call computes at most one cover, and only
if the store does not have it. So over a whole history the generator is asked once for every arity
that was computed and for no other.
-/

namespace Linearize
namespace CoverStore

open CoverCall

variable {s : CoverStore} {calls : List CoverCall} {call : CoverCall} {n : Nat}

/-! ## One call -/

def compute (s : CoverStore) (n : Nat) : CoverStore :=
  { s with covers := (n, s.generator n) :: s.covers, calls := n :: s.calls }

theorem get?_compute (k : Nat) :
    (s.compute k).get? n = if n = k then some (s.generator k) else s.get? n := by
  rw [get?, compute, List.lookup_cons]
  by_cases h : n = k
  · simp [h]
  · simp [h, beq_false_of_ne h, get?]

theorem getOrCompute_new (hn : n ≤ maxArity) (h : s.get? n = none) :
    s.getOrCompute n = .ok (s.compute n, s.generator n) := by
  rw [getOrCompute, if_neg (Nat.not_lt.2 hn), h]
  rfl

theorem getOrCompute_known (hn : n ≤ maxArity) {cover : List Pattern}
    (h : s.get? n = some cover) : s.getOrCompute n = .ok (s, cover) := by
  rw [getOrCompute, if_neg (Nat.not_lt.2 hn), h]

theorem after_compute_refused (hn : maxArity < n) : s.after (.compute n) = s := by
  simp only [after, getOrCompute_refused hn]

theorem Genuine.getOrCompute_eq (h : s.Genuine parityCover) (hn : n ≤ maxArity) :
    s.getOrCompute n = .ok (s.after (.compute n), parityCover n) := by
  obtain ⟨s', hs, -⟩ := h.getOrCompute hn
  simp only [CoverStore.after, hs]

theorem Genuine.xorRows_eq (h : s.Genuine parityCover) {inputs : List Var} (output : Var)
    (hn : inputs.length ≤ maxArity) :
    ∃ rows, coverRows (inputs ++ [output]) (parityCover inputs.length) = some rows ∧
      s.xorRows inputs output = .ok (s.after (.xor inputs output), rows) ∧
      s.after (.xor inputs output) = s.after (.compute inputs.length) := by
  obtain ⟨rows, hrows, -⟩ := exists_parityRows output hn
  have hxor : s.xorRows inputs output = .ok (s.after (.compute inputs.length), rows) := by
    simp only [CoverStore.xorRows, h.getOrCompute_eq hn, hrows]
  have hafter : s.after (.xor inputs output) = s.after (.compute inputs.length) := by
    simp only [CoverStore.after, hxor]
  exact ⟨rows, hrows, hafter ▸ hxor, hafter⟩

theorem xorRows_refused {inputs : List Var} (output : Var) (hn : maxArity < inputs.length) :
    s.xorRows inputs output = .error (.unsupportedArity inputs.length maxArity) ∧
      s.after (.xor inputs output) = s := by
  have hxor : s.xorRows inputs output = .error (.unsupportedArity inputs.length maxArity) := by
    simp only [CoverStore.xorRows, getOrCompute_refused hn]
  refine ⟨hxor, ?_⟩
  simp only [after, hxor]

theorem Genuine.after_xor (h : s.Genuine parityCover) (inputs : List Var) (output : Var) :
    s.after (.xor inputs output) = s.after (.compute inputs.length) := by
  rcases Nat.lt_or_ge maxArity inputs.length with hlarge | hsmall
  · rw [(xorRows_refused output hlarge).2, after_compute_refused hlarge]
  · obtain ⟨-, -, -, hafter⟩ := h.xorRows_eq output hsmall
    exact hafter

theorem after_compute_cases (s : CoverStore) (n : Nat) :
    (s.after (.compute n) = s ∧ (n ≤ maxArity → (s.get? n).isSome)) ∨
      n ≤ maxArity ∧ s.get? n = none ∧ s.after (.compute n) = s.compute n := by
  rcases Nat.lt_or_ge maxArity n with hlarge | hsmall
  · exact .inl ⟨after_compute_refused hlarge, fun hn => absurd hn (Nat.not_le.2 hlarge)⟩
  · cases hget : s.get? n with
    | some cover =>
      refine .inl ⟨?_, fun _ => rfl⟩
      simp only [after, getOrCompute_known hsmall hget]
    | none =>
      refine .inr ⟨hsmall, rfl, ?_⟩
      simp only [after, getOrCompute_new hsmall hget]

/-- What a call can do: nothing, because the store has the cover or does not need it, or compute one
cover that is not there. -/
theorem Genuine.after_cases (h : s.Genuine parityCover) (call : CoverCall) :
    (s.after call = s ∧ ∀ n, n ≤ maxArity → call.arity? = some n → (s.get? n).isSome) ∨
      ∃ n, n ≤ maxArity ∧ call.arity? = some n ∧ s.get? n = none ∧
        s.after call = s.compute n := by
  -- A call that needs a cover does what a call for the cover alone does.
  have hneeds : ∀ n, call.arity? = some n → s.after call = s.after (.compute n) := by
    intro n harity
    cases call with
    | get k => cases harity
    | compute k =>
      cases harity
      rfl
    | xor inputs output =>
      cases harity
      exact h.after_xor inputs output
  cases harity : call.arity? with
  | none =>
    cases call with
    | get k =>
      refine .inl ⟨rfl, fun n _ hn => ?_⟩
      cases hn
    | compute k => cases harity
    | xor inputs output => cases harity
  | some n =>
    rw [hneeds n harity]
    rcases s.after_compute_cases n with ⟨hafter, hknown⟩ | hnew
    · refine .inl ⟨hafter, fun k hk hn => ?_⟩
      obtain rfl := Option.some.inj hn
      exact hknown hk
    · exact .inr ⟨n, hnew.1, rfl, hnew.2⟩

/-! ## Histories -/

/-- The store keeps covers of parity, those that `calls` have computed. -/
structure Tallied (calls : List CoverCall) (s : CoverStore) : Prop where
  genuine : s.Genuine parityCover
  found : ∀ n, (s.get? n).isSome ↔ Computes calls n
  /-- The generator was asked for every cover that is there, once. -/
  once : ∀ n, s.calls.count n = if (s.get? n).isSome then 1 else 0

theorem tallied_fresh : (fresh parityCover).Tallied [] where
  genuine := genuine_fresh parityCover
  found n := by simp [fresh, get?, Computes]
  once n := rfl

theorem computes_append_iff :
    Computes (calls ++ [call]) n ↔ Computes calls n ∨ n ≤ maxArity ∧ call.arity? = some n := by
  simp only [Computes, List.mem_append, List.mem_singleton, or_and_right, exists_or, exists_eq_left]
  exact and_or_left

theorem Tallied.after (h : s.Tallied calls) (call : CoverCall) :
    (s.after call).Tallied (calls ++ [call]) := by
  have hgenuine := h.genuine.after call
  rcases h.genuine.after_cases call with ⟨hafter, hknown⟩ | ⟨k, hk, harity, hnone, hafter⟩
  · rw [hafter] at hgenuine ⊢
    refine ⟨hgenuine, fun n => ?_, h.once⟩
    rw [computes_append_iff, h.found]
    refine (or_iff_left_of_imp ?_).symm
    rintro ⟨hn, harity⟩
    exact (h.found n).1 (hknown n hn harity)
  · rw [hafter] at hgenuine ⊢
    refine ⟨hgenuine, fun n => ?_, fun n => ?_⟩
    · rw [computes_append_iff, ← h.found, get?_compute, harity]
      by_cases hn : n = k
      · simp [hn, hk]
      · simp [hn, Ne.symm hn]
    · have honce := h.once n
      rw [get?_compute, compute, List.count_cons, honce]
      by_cases hn : n = k
      · simp [hn, hnone]
      · simp [hn, Ne.symm hn]

theorem Tallied.run (h : s.Tallied calls) (later : List CoverCall) :
    (s.run later).Tallied (calls ++ later) := by
  induction later generalizing s calls with
  | nil => rwa [List.append_nil]
  | cons call later ih =>
    rw [List.append_cons]
    exact ih (h.after call)

/-! ## Slots -/

/-- There is a slot for every arity up to `maxArity` and for no other, and it holds one cover. -/
structure Slotted (s : CoverStore) : Prop where
  bound : ∀ n ∈ s.covers.map (·.1), n ≤ maxArity
  nodup : (s.covers.map (·.1)).Nodup

theorem Slotted.after_compute (h : s.Slotted) (n : Nat) : (s.after (.compute n)).Slotted := by
  rcases s.after_compute_cases n with ⟨hafter, -⟩ | ⟨hn, hnone, hafter⟩
  · rwa [hafter]
  · have hnew : n ∉ s.covers.map (·.1) := by
      intro hmem
      obtain ⟨p, hp, rfl⟩ := List.mem_map.1 hmem
      have hfree := List.lookup_eq_none_iff.1 hnone p hp
      simp at hfree
    rw [hafter]
    exact ⟨List.forall_mem_cons.2 ⟨hn, h.bound⟩, List.nodup_cons.2 ⟨hnew, h.nodup⟩⟩

theorem Slotted.after (h : s.Slotted) (call : CoverCall) : (s.after call).Slotted := by
  cases call with
  | get n => exact h
  | compute n => exact h.after_compute n
  | xor inputs output =>
    have hcompute := h.after_compute inputs.length
    simp only [CoverStore.after, CoverStore.xorRows] at hcompute ⊢
    cases hget : s.getOrCompute inputs.length with
    | error e => exact h
    | ok p =>
      obtain ⟨s', cover⟩ := p
      rw [hget] at hcompute
      dsimp only
      cases coverRows (inputs ++ [output]) cover with
      | none => exact h
      | some rows => exact hcompute

theorem Slotted.run (h : s.Slotted) (calls : List CoverCall) : (s.run calls).Slotted := by
  induction calls generalizing s with
  | nil => exact h
  | cons call calls ih => exact ih (h.after call)

theorem Slotted.length_le (h : s.Slotted) : s.covers.length ≤ maxArity + 1 := by
  have hsubset : s.covers.map (·.1) ⊆ List.range (maxArity + 1) :=
    fun n hn => List.mem_range.2 (Nat.lt_succ_of_le (h.bound n hn))
  have hle := (h.nodup.subperm hsubset).length_le
  rwa [List.length_map, List.length_range] at hle

/-- Whatever the generator gives, covers of arities up to 20 only are ever stored, one for each. -/
theorem run_slotted (generator : Nat → List Pattern) (calls : List CoverCall) :
    ((fresh generator).run calls).Slotted ∧
      ((fresh generator).run calls).covers.length ≤ maxArity + 1 := by
  have hfresh : (fresh generator).Slotted := ⟨List.forall_mem_nil _, List.nodup_nil⟩
  exact ⟨hfresh.run calls, (hfresh.run calls).length_le⟩

/-- What the store answers after some calls, and what the calls have cost. -/
structure Answers (calls : List CoverCall) (s : CoverStore) : Prop where
  /-- The generator was asked once for every cover that was computed. -/
  once : ∀ n, Computes calls n → s.calls.count n = 1
  never : ∀ n, ¬ Computes calls n → s.calls.count n = 0
  found : ∀ n, (s.get? n).isSome ↔ n ≤ 20 ∧ ∃ call ∈ calls, call.arity? = some n
  cover : ∀ n cover, s.get? n = some cover → cover = parityCover n
  computed : ∀ n, n ≤ 20 → s.getOrCompute n = .ok (s.after (.compute n), parityCover n)
  rows : ∀ inputs output, inputs.length ≤ 20 → ∃ rows,
    coverRows (inputs ++ [output]) (parityCover inputs.length) = some rows ∧
      s.xorRows inputs output = .ok (s.after (.xor inputs output), rows)
  /-- An arity that has no cover is refused, and the store stays as it is. -/
  refused : ∀ n, 20 < n → s.get? n = none ∧
    s.getOrCompute n = .error (.unsupportedArity n 20) ∧ s.after (.compute n) = s
  refusedRows : ∀ inputs output, 20 < inputs.length →
    s.xorRows inputs output = .error (.unsupportedArity inputs.length 20) ∧
      s.after (.xor inputs output) = s

/-- After any calls a store of covers of parity has asked its generator once for every arity up to
20 that one of them has computed and for no other, it finds the covers of those arities and no
others, and whatever it is asked for next, the covers that it gives or uses are those of the
generator. -/
theorem run_answers (calls : List CoverCall) : ((fresh parityCover).run calls).Answers calls := by
  have h : ((fresh parityCover).run calls).Tallied calls := tallied_fresh.run calls
  refine ⟨?_, ?_, h.found, h.genuine.cover_eq, fun n => h.genuine.getOrCompute_eq, ?_, ?_, ?_⟩
  · intro n hn
    rw [h.once, if_pos ((h.found n).2 hn)]
  · intro n hn
    rw [h.once, if_neg fun hsome => hn ((h.found n).1 hsome)]
  · intro inputs output hn
    obtain ⟨rows, hrows, hxor, -⟩ := h.genuine.xorRows_eq output hn
    exact ⟨rows, hrows, hxor⟩
  · intro n hn
    refine ⟨?_, getOrCompute_refused hn, after_compute_refused hn⟩
    rw [← Option.not_isSome_iff_eq_none, h.found]
    exact fun hcomputes => Nat.not_lt.2 hcomputes.1 hn
  · exact fun inputs output => xorRows_refused output

end CoverStore
end Linearize
