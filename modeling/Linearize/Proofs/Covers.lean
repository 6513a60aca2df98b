import Linearize.Compile
import Linearize.Proofs.Rows

/-!
# Linearize.Proofs.Covers

The rows of a cover hold at a point of bits iff every pattern of the cover admits the point. For the
cover of parity these are the points of even weight, so the rows of an exclusive or hold iff the
output is the parity of the inputs.
-/

namespace Linearize

variable {σ : Var → Int}

@[simp] theorem bitsAt_nil : bitsAt σ [] = [] := rfl

@[simp] theorem bitsAt_cons (v : Var) (vs : List Var) :
    bitsAt σ (v :: vs) = bitAt σ v :: bitsAt σ vs := rfl

@[simp] theorem bitsAt_append (us vs : List Var) :
    bitsAt σ (us ++ vs) = bitsAt σ us ++ bitsAt σ vs := List.map_append

@[simp] theorem length_bitsAt (vs : List Var) : (bitsAt σ vs).length = vs.length :=
  List.length_map _

/-! ## Patterns -/

/-- What a cell contributes where its variable has the value `n`. -/
def Ternary.share : Ternary → Int → Int
  | .one, n => 1 - n
  | .zero, n => n
  | .any, _ => 0

namespace Pattern

/-- The sum of all contributions at a point. Of lists of unequal length the longer one is cut. -/
def load (σ : Var → Int) (p : Pattern) (vs : List Var) : Int :=
  ((p.zip vs).map fun x => x.1.share (σ x.2)).sum

@[simp] theorem load_nil (vs : List Var) : load σ [] vs = 0 := rfl

@[simp] theorem load_no_vars (p : Pattern) : load σ p [] = 0 := by
  rw [load, List.zip_nil_right]
  rfl

@[simp] theorem load_cons (t : Ternary) (p : Pattern) (v : Var) (vs : List Var) :
    load σ (t :: p) (v :: vs) = t.share (σ v) + load σ p vs := rfl

theorem contributions_value {p : Pattern} {vs : List Var} {acc sum : Expr}
    (h : contributions acc p vs = some sum) : sum.value σ = acc.value σ + p.load σ vs := by
  induction p generalizing vs acc with
  | nil =>
    cases h
    simp
  | cons t p ih =>
    cases vs with
    | nil =>
      cases t <;> cases h <;> simp
    | cons v vs =>
      rw [load_cons]
      cases t with
      | one =>
        simp only [contributions] at h
        split at h
        · cases h
        · rename_i acc' hacc
          rw [ih h, Expr.value_add σ hacc, Expr.value_complement, Int.add_assoc, Ternary.share]
      | zero =>
        simp only [contributions] at h
        split at h
        · cases h
        · rename_i acc' hacc
          rw [ih h, Expr.value_add σ hacc, Expr.value_ofVar, Int.add_assoc, Ternary.share]
      | any =>
        rw [ih h, Ternary.share, Int.zero_add]

theorem contributions_induction {P : Expr → Prop} {p : Pattern} {vs : List Var} {acc sum : Expr}
    (h : contributions acc p vs = some sum) (hacc : P acc)
    (hadd : ∀ v ∈ vs, ∀ e e' : Expr, P e →
      e.add (.complement v) = some e' ∨ e.add (.ofVar v) = some e' → P e') : P sum := by
  induction p generalizing vs acc with
  | nil =>
    cases h
    exact hacc
  | cons t p ih =>
    cases vs with
    | nil =>
      cases t <;> cases h <;> exact hacc
    | cons v vs =>
      rw [List.forall_mem_cons] at hadd
      cases t with
      | one =>
        simp only [contributions] at h
        split at h
        · cases h
        · rename_i acc' hacc'
          exact ih h (hadd.1 acc acc' hacc (.inl hacc')) hadd.2
      | zero =>
        simp only [contributions] at h
        split at h
        · cases h
        · rename_i acc' hacc'
          exact ih h (hadd.1 acc acc' hacc (.inr hacc')) hadd.2
      | any => exact ih h hacc hadd.2

theorem row_eq_some_iff {p : Pattern} {vs : List Var} {c : Constraint} :
    p.row vs = some c ↔ ∃ sum, contributions .zero p vs = some sum ∧ c = .le (.const 1) sum := by
  rw [row]
  cases contributions .zero p vs with
  | none => simp
  | some sum => simp [eq_comm]

theorem row_load {p : Pattern} {vs : List Var} {c : Constraint} (h : p.row vs = some c) :
    c.Holds σ ↔ 0 < p.load σ vs := by
  obtain ⟨sum, hsum, rfl⟩ := row_eq_some_iff.1 h
  rw [holds_le, contributions_value hsum, Expr.value_zero, Expr.value_const]
  omega

/-- The contributions are bits at bits, and some contribution is 1 iff some cell differs. -/
theorem load_bits {vs : List Var} (p : Pattern) (hvs : ∀ v ∈ vs, IsBit (σ v)) :
    0 ≤ p.load σ vs ∧ (0 < p.load σ vs ↔ p.admits (bitsAt σ vs) = true) := by
  induction p generalizing vs with
  | nil => simp [admits]
  | cons t p ih =>
    cases vs with
    | nil => simp [admits]
    | cons v vs =>
      rw [List.forall_mem_cons] at hvs
      obtain ⟨hle, hlt⟩ := ih hvs.2
      have hcell : 0 ≤ t.share (σ v) ∧ (0 < t.share (σ v) ↔ t.differs (bitAt σ v) = true) := by
        rcases hvs.1 with h0 | h0 <;> rw [bitAt, h0] <;> cases t <;> decide
      rw [load_cons, bitsAt_cons, admits, Bool.or_eq_true, ← hlt, ← hcell.2]
      omega

/-- The inequality of a pattern holds iff the pattern admits the bits. -/
theorem row_hold {p : Pattern} {vs : List Var} {c : Constraint} (h : p.row vs = some c)
    (hvs : ∀ v ∈ vs, IsBit (σ v)) : c.Holds σ ↔ p.admits (bitsAt σ vs) = true := by
  rw [row_load h, (p.load_bits hvs).2]

theorem admits_append {p q : Pattern} {bs cs : List Bool} (h : p.length = bs.length) :
    admits (p ++ q) (bs ++ cs) = (p.admits bs || q.admits cs) := by
  induction p generalizing bs with
  | nil =>
    obtain rfl := List.length_eq_zero_iff.1 h.symm
    rfl
  | cons t p ih =>
    obtain ⟨b, bs, rfl⟩ := List.exists_cons_of_length_eq_add_one h.symm
    simp only [List.cons_append, admits, ih (Nat.succ.inj h), Bool.or_assoc]

end Pattern

theorem coverAdmits_append (ps qs : List Pattern) (bits : List Bool) :
    coverAdmits (ps ++ qs) bits = (coverAdmits ps bits && coverAdmits qs bits) := List.all_append

theorem coverRows_forall₂ {cover : List Pattern} {vs : List Var} {rows : List Constraint}
    (h : coverRows vs cover = some rows) :
    List.Forall₂ (fun p c => p.row vs = some c) cover rows := by
  induction cover generalizing rows with
  | nil =>
    cases h
    exact .nil
  | cons p rest ih =>
    simp only [coverRows] at h
    split at h
    · cases h
    · rename_i c hc
      split at h
      · cases h
      · rename_i cs hcs
        cases h
        exact .cons hc (ih hcs)

theorem coverRows_hold {cover : List Pattern} {vs : List Var} {rows : List Constraint}
    (h : coverRows vs cover = some rows) (hvs : ∀ v ∈ vs, IsBit (σ v)) :
    AllHold σ rows ↔ coverAdmits cover (bitsAt σ vs) = true := by
  have hrows := coverRows_forall₂ h
  clear h
  induction hrows with
  | nil => simp [coverAdmits]
  | cons hc _ ih =>
    rw [allHold_cons, Pattern.row_hold hc hvs, coverAdmits, List.all_cons, Bool.and_eq_true]
    exact and_congr_right fun _ => ih

/-! ## Parity -/

theorem parity_append (xs ys : List Bool) : parity (xs ++ ys) = (parity xs != parity ys) := by
  induction xs with
  | nil => simp [parity]
  | cons x xs ih => simp only [List.cons_append, parity, ih]; cases x <;> simp

theorem coverAdmits_cons_zero (ps : List Pattern) (b : Bool) (bits : List Bool) :
    coverAdmits (ps.map (Ternary.zero :: ·)) (b :: bits) = (b || coverAdmits ps bits) := by
  cases b <;> simp [coverAdmits, Pattern.admits, Ternary.differs, Function.comp_def]

theorem coverAdmits_cons_one (ps : List Pattern) (b : Bool) (bits : List Bool) :
    coverAdmits (ps.map (Ternary.one :: ·)) (b :: bits) = (!b || coverAdmits ps bits) := by
  cases b <;> simp [coverAdmits, Pattern.admits, Ternary.differs, Function.comp_def]

/-! ## The cover of parity -/

theorem cells_succ (n point : Nat) :
    cells (n + 1) point = (if point.testBit n then .one else .zero) :: cells n point := by
  simp only [cells, List.range_succ_eq_map, List.map_cons, List.map_map, Nat.add_sub_cancel,
    Nat.sub_zero, List.cons.injEq, true_and]
  refine List.map_congr_left fun i _ => ?_
  rw [Function.comp_apply, show n - (i + 1) = n - 1 - i by omega]

theorem countOnes_succ (n point : Nat) :
    countOnes (n + 1) point = countOnes n point + (point.testBit n).toNat := by
  rw [countOnes, List.range_succ, List.countP_append, List.countP_singleton]
  cases point.testBit n <;> rfl

theorem cells_add (n point : Nat) : cells n (2 ^ n + point) = cells n point := by
  refine List.map_congr_left fun i hi => ?_
  rw [Nat.testBit_two_pow_add_gt (by rw [List.mem_range] at hi; omega)]

theorem countOnes_add (n point : Nat) : countOnes n (2 ^ n + point) = countOnes n point := by
  refine List.countP_congr fun i hi => ?_
  rw [Nat.testBit_two_pow_add_gt (List.mem_range.1 hi)]

/-- The points of a parity in counting order: those without the most significant bit come first. -/
theorem parityPoints_eq (n : Nat) (odd : Bool) : parityPoints n odd =
    ((List.range (2 ^ n)).filter fun point => countOnes n point % 2 = odd.toNat).map (cells n) := by
  induction n generalizing odd with
  | zero => cases odd <;> rfl
  | succ n ih =>
    have hlow : ∀ point ∈ List.range (2 ^ n), point.testBit n = false :=
      fun point hp => Nat.testBit_lt_two_pow (List.mem_range.1 hp)
    have hzero : (List.range (2 ^ n)).filter
          (fun point => countOnes (n + 1) point % 2 = odd.toNat) =
        (List.range (2 ^ n)).filter fun point => countOnes n point % 2 = odd.toNat := by
      refine List.filter_congr fun point hp => ?_
      rw [countOnes_succ, hlow point hp, Bool.toNat_false, Nat.add_zero]
    have hone : (List.range (2 ^ n)).filter
          (fun point => countOnes (n + 1) (2 ^ n + point) % 2 = odd.toNat) =
        (List.range (2 ^ n)).filter fun point => countOnes n point % 2 = (!odd).toNat := by
      refine List.filter_congr fun point hp => ?_
      rw [countOnes_succ, countOnes_add, Nat.testBit_two_pow_add_eq, hlow point hp,
        decide_eq_decide]
      cases odd <;> simp <;> omega
    rw [parityPoints, ih, ih, Nat.pow_succ, Nat.mul_two, List.range_add, List.filter_append,
      List.map_append, List.filter_map]
    simp only [Function.comp_def, List.map_map]
    rw [hzero, hone]
    congr 1
    · refine List.map_congr_left fun point hp => ?_
      rw [cells_succ, hlow point (List.mem_of_mem_filter hp)]
      rfl
    · refine List.map_congr_left fun point hp => ?_
      rw [cells_succ, cells_add, Nat.testBit_two_pow_add_eq,
        hlow point (List.mem_of_mem_filter hp)]
      rfl

/-- The cover of parity is what the loop over all points makes. -/
theorem parityCover_eq_parityLoop (arity : Nat) : parityCover arity = parityLoop arity := by
  rw [parityCover, parityPoints_eq, parityLoop, Nat.one_shiftLeft]
  rfl

/-- The full-width patterns of one parity admit the points of the other. -/
theorem parityPoints_admits (odd : Bool) (bits : List Bool) :
    coverAdmits (parityPoints bits.length odd) bits = (parity bits != odd) := by
  induction bits generalizing odd with
  | nil => cases odd <;> rfl
  | cons b bits ih =>
    simp only [List.length_cons, parityPoints, coverAdmits_append, coverAdmits_cons_zero,
      coverAdmits_cons_one, ih, parity]
    cases b <;> cases odd <;> cases parity bits <;> rfl

theorem parityCover_admits (bits : List Bool) (out : Bool) :
    coverAdmits (parityCover bits.length) (bits ++ [out]) = true ↔ out = parity bits := by
  have h := parityPoints_admits true (bits ++ [out])
  rw [List.length_append, List.length_singleton] at h
  rw [parityCover, h, parity_append]
  cases out <;> cases parity bits <;> decide

theorem parityRows_hold {inputs : List Var} {output : Var} {rows : List Constraint}
    (h : parityRows inputs output = .ok rows) (hin : ∀ v ∈ inputs, IsBit (σ v))
    (hout : IsBit (σ output)) :
    AllHold σ rows ↔ bitAt σ output = parity (bitsAt σ inputs) := by
  simp only [parityRows] at h
  split at h
  · cases h
  · have hvs : ∀ v ∈ inputs ++ [output], IsBit (σ v) := by
      intro v hv
      rcases List.mem_append.1 hv with hv | hv
      · exact hin v hv
      · obtain rfl := List.mem_singleton.1 hv
        exact hout
    rw [coverRows_hold (orOverflow_eq_ok_iff.1 h) hvs, bitsAt_append, ← parityCover_admits,
      length_bitsAt]
    rfl

theorem xorRows_hold {a b c : Var} {rows : List Constraint} (h : xorRows a b c = some rows)
    (ha : IsBit (σ a)) (hb : IsBit (σ b)) (hc : IsBit (σ c)) :
    AllHold σ rows ↔ bitAt σ c = parity (bitsAt σ [a, b]) := by
  simp only [xorRows, Option.bind_eq_bind, Option.bind_eq_some_iff, Option.pure_def,
    Option.some.injEq] at h
  obtain ⟨ab, hab, ac, hac, bc, hbc, abc, habc, rfl⟩ := h
  simp only [allHold_cons, allHold_nil, and_true, holds_le, Expr.value_add σ habc,
    Expr.value_add σ hab, Expr.value_add σ hac, Expr.value_add σ hbc, Expr.value_ofVar,
    Expr.value_const, bitsAt_cons, bitsAt_nil, parity, bitAt]
  rcases ha with h1 | h1 <;> rcases hb with h2 | h2 <;> rcases hc with h3 | h3 <;>
    rw [h1, h2, h3] <;> decide

theorem exclusiveOrRows_hold {inputs : List Var} {output : Var} {rows : List Constraint}
    (h : Statement.exclusiveOrRows inputs output = .ok rows) (hin : ∀ v ∈ inputs, IsBit (σ v))
    (hout : IsBit (σ output)) :
    AllHold σ rows ↔ bitAt σ output = parity (bitsAt σ inputs) := by
  simp only [Statement.exclusiveOrRows] at h
  split at h
  · rename_i a b
    simp only [List.forall_mem_cons] at hin
    exact xorRows_hold (orOverflow_eq_ok_iff.1 h) hin.1 hin.2.1 hout
  · exact parityRows_hold h hin hout

end Linearize
