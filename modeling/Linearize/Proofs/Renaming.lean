import Mathlib.Data.List.Sort
import Mathlib.Logic.Equiv.Defs
import Linearize.Compile
import Linearize.Proofs.Guards

/-!
# Linearize.Proofs.Renaming

Variables renamed by a permutation. No operation looks at the names of variables beyond their order,
and the terms of an expression are put in order again after a renaming; so every operation commutes
with renaming, overflows included.
-/

namespace Linearize

theorem map_eq_self {α : Type} {f : α → α} {xs : List α} (h : ∀ x ∈ xs, f x = x) :
    xs.map f = xs := by
  rw [List.map_congr_left (g := id) h, List.map_id]

namespace Expr

/-! ## Expressions -/

/-- Every variable renamed, with the terms in order again. -/
def rename (π : Equiv.Perm Var) (e : Expr) : Expr :=
  ⟨(e.terms.map fun t => (π t.1, t.2)).insertionSort fun s t => s.1 ≤ t.1, e.constant⟩

variable {π ρ : Equiv.Perm Var} {a b e s : Expr}

@[simp] theorem rename_zero : zero.rename π = zero := rfl

@[simp] theorem rename_ofVar (v : Var) : (ofVar v).rename π = ofVar (π v) := rfl

@[simp] theorem rename_complement (v : Var) : (complement v).rename π = complement (π v) := rfl

theorem mem_rename_terms {w : Var} {c : Int} :
    (w, c) ∈ (e.rename π).terms ↔ (π.symm w, c) ∈ e.terms := by
  rw [rename, List.mem_insertionSort, List.mem_map]
  constructor
  · rintro ⟨t, ht, heq⟩
    cases heq
    rw [Equiv.symm_apply_apply]
    exact ht
  · intro h
    exact ⟨_, h, by simp⟩

theorem increasing_iff_pairwise {ts : List (Var × Int)} :
    Increasing ts ↔ ts.Pairwise fun s t => s.1 < t.1 := by
  induction ts with
  | nil => simp [Increasing]
  | cons t ts ih => rw [increasing_cons_iff, List.pairwise_cons, ih]

theorem WellFormed.rename (he : e.WellFormed) (π : Equiv.Perm Var) : (e.rename π).WellFormed := by
  have hdistinct : (e.rename π).terms.Pairwise fun s t => s.1 ≠ t.1 := by
    have hsource : e.terms.Pairwise fun s t => π s.1 ≠ π t.1 :=
      (increasing_iff_pairwise.1 he.increasing).imp fun hlt heq =>
        Nat.ne_of_lt hlt (π.injective heq)
    exact (List.Perm.pairwise_iff (fun h heq => h heq.symm) (List.perm_insertionSort _ _)).2
      (List.pairwise_map.2 hsource)
  have hsorted : (e.rename π).terms.Pairwise fun s t => s.1 ≤ t.1 := List.pairwise_insertionSort _ _
  refine ⟨increasing_iff_pairwise.2 ?_, ?_, ?_, he.constant_fits⟩
  · exact (hsorted.and hdistinct).imp fun h => Nat.lt_of_le_of_ne h.1 h.2
  · rintro ⟨v, c⟩ ht
    exact he.nonzero (π.symm v, c) (mem_rename_terms.1 ht)
  · rintro ⟨v, c⟩ ht
    exact he.fits (π.symm v, c) (mem_rename_terms.1 ht)

theorem coefOf_of_mem {v : Var} {c : Int} {ts : List (Var × Int)} (hts : Regular ts)
    (h : (v, c) ∈ ts) : coefOf v ts = c := by
  induction ts with
  | nil => cases h
  | cons t ts ih =>
    obtain ⟨w, d⟩ := t
    obtain ⟨hw, -, -, hrest⟩ := regular_cons_iff.1 hts
    rw [coefOf]
    rcases List.mem_cons.1 h with heq | hmem
    · cases heq
      rw [if_pos rfl]
    · rw [if_neg (Nat.ne_of_lt (hw _ hmem)), ih hrest hmem]

theorem coef_rename (he : e.WellFormed) (w : Var) : (e.rename π).coef w = e.coef (π.symm w) := by
  rw [coef_eq_coefOf, coef_eq_coefOf]
  by_cases h : ∃ c, (π.symm w, c) ∈ e.terms
  · obtain ⟨c, hc⟩ := h
    rw [coefOf_of_mem he.regular hc,
      coefOf_of_mem (he.rename π).regular (mem_rename_terms.2 hc)]
  · rw [coefOf_eq_zero, coefOf_eq_zero]
    · rintro ⟨v, c⟩ ht rfl
      exact h ⟨c, ht⟩
    · rintro ⟨v, c⟩ ht rfl
      exact h ⟨c, mem_rename_terms.1 ht⟩

theorem rename_congr (h : ∀ v ∈ e.vars, π v = ρ v) : e.rename π = e.rename ρ := by
  have hmap : (e.terms.map fun t => (π t.1, t.2)) = e.terms.map fun t => (ρ t.1, t.2) :=
    List.map_congr_left fun t ht => by rw [h t.1 (List.mem_map_of_mem ht)]
  rw [rename, rename, hmap]

theorem rename_refl (he : e.WellFormed) : e.rename (.refl Var) = e :=
  (he.rename _).ext he rfl fun w => coef_rename he w

theorem rename_eq_self (he : e.WellFormed) (h : ∀ v ∈ e.vars, π v = v) : e.rename π = e := by
  rw [rename_congr (ρ := .refl Var) h, rename_refl he]

@[simp] theorem rename_symm_rename (he : e.WellFormed) : (e.rename π).rename π.symm = e := by
  refine ((he.rename π).rename π.symm).ext he rfl ?_
  intro w
  rw [coef_rename (he.rename π), coef_rename he]
  simp

theorem rename_injective (ha : a.WellFormed) (hb : b.WellFormed) (h : a.rename π = b.rename π) :
    a = b := by
  rw [← rename_symm_rename ha, h, rename_symm_rename hb]

/-! ## Operations -/

/-- Two results that are described alike up to the names are renamings of each other. -/
theorem eq_map_rename {o o' : Option Expr} {n : Int} {f : Var → Int}
    (ho : ∀ s, o = some s ↔ s.WellFormed ∧ s.constant = n ∧ ∀ w, s.coef w = f w)
    (ho' : ∀ s, o' = some s ↔ s.WellFormed ∧ s.constant = n ∧ ∀ w, s.coef w = f (π.symm w)) :
    o' = o.map (rename π) := by
  refine Option.ext ?_
  intro s'
  rw [ho', Option.map_eq_some_iff]
  constructor
  · rintro ⟨hs', hc, hcoef⟩
    refine ⟨s'.rename π.symm, (ho _).2 ⟨hs'.rename _, hc, ?_⟩,
      rename_symm_rename (π := π.symm) hs'⟩
    intro w
    rw [coef_rename hs', hcoef]
    simp
  · rintro ⟨s, hs, rfl⟩
    obtain ⟨hwf, hc, hcoef⟩ := (ho s).1 hs
    exact ⟨hwf.rename π, hc, fun w => by rw [coef_rename hwf, hcoef]⟩

theorem addCoef_rename {v : Var} {c : Int} (he : e.WellFormed) (hc : Fits c) :
    (e.rename π).addCoef (π v) c = (e.addCoef v c).map (rename π) := by
  refine eq_map_rename (fun s => addCoef_eq_some_iff he hc) ?_
  intro s
  rw [addCoef_eq_some_iff (he.rename π) hc]
  simp only [coef_rename he, Equiv.symm_apply_eq]
  rfl

theorem addConst_rename {n : Int} (he : e.WellFormed) :
    (e.rename π).addConst n = (e.addConst n).map (rename π) := by
  refine eq_map_rename (fun s => addConst_eq_some_iff he) ?_
  intro s
  rw [addConst_eq_some_iff (he.rename π)]
  simp only [coef_rename he]
  rfl

theorem add_rename (ha : a.WellFormed) (hb : b.WellFormed) :
    (a.rename π).add (b.rename π) = (a.add b).map (rename π) := by
  refine eq_map_rename (fun s => add_eq_some_iff ha hb) ?_
  intro s
  rw [add_eq_some_iff (ha.rename π) (hb.rename π)]
  simp only [coef_rename ha, coef_rename hb]
  rfl

theorem scale_rename {k : Int} (ha : a.WellFormed) :
    (a.rename π).scale k = (a.scale k).map (rename π) := by
  refine eq_map_rename (fun s => scale_eq_some_iff ha) ?_
  intro s
  rw [scale_eq_some_iff (ha.rename π)]
  simp only [coef_rename ha]
  rfl

theorem sub_rename (ha : a.WellFormed) (hb : b.WellFormed) :
    (a.rename π).sub (b.rename π) = (a.sub b).map (rename π) := by
  simp only [sub, neg, scale_rename hb]
  cases hb' : b.scale (-1) with
  | none => rfl
  | some b' => exact add_rename ha (hb.scale hb')

theorem addTerms_ones_rename {vs : List Var} (he : e.WellFormed) :
    (e.rename π).addTerms ((vs.map π).map fun v => (v, 1)) =
      (e.addTerms (vs.map fun v => (v, 1))).map (rename π) := by
  induction vs generalizing e with
  | nil => rfl
  | cons v vs ih =>
    have hfit : Fits 1 := by decide
    simp only [List.map_cons, addTerms, addCoef_rename he hfit]
    cases h : e.addCoef v 1 with
    | none => rfl
    | some e' => exact ih (he.addCoef hfit h)

theorem sum_rename (vs : List Var) : sum (vs.map π) = (sum vs).map (rename π) :=
  addTerms_ones_rename wellFormed_zero

end Expr

/-! ## Keys and columns -/

variable {π ρ : Equiv.Perm Var}

def Key.rename (π : Equiv.Perm Var) : Key → Key
  | .named name => .named name
  | .less a b => .less (a.rename π) (b.rename π)
  | .and vs => .and (vs.map π)
  | .or vs => .or (vs.map π)
  | .selector vs i => .selector (vs.map π) i

theorem Key.rename_congr {k : Key} (h : ∀ v ∈ k.operands, π v = ρ v) : k.rename π = k.rename ρ := by
  cases k with
  | named name => rfl
  | less a b =>
    obtain ⟨ha, hb⟩ := List.forall_mem_append.1 h
    rw [rename, rename, Expr.rename_congr ha, Expr.rename_congr hb]
  | and vs => exact congrArg Key.and (List.map_congr_left h)
  | or vs => exact congrArg Key.or (List.map_congr_left h)
  | selector vs i => exact congrArg (Key.selector · i) (List.map_congr_left h)

theorem Key.rename_refl {k : Key} (hk : k.WellFormed) : k.rename (.refl Var) = k := by
  cases k with
  | named name => rfl
  | less a b => rw [rename, Expr.rename_refl hk.1, Expr.rename_refl hk.2]
  | and vs => exact congrArg Key.and (List.map_id vs)
  | or vs => exact congrArg Key.or (List.map_id vs)
  | selector vs i => exact congrArg (Key.selector · i) (List.map_id vs)

theorem Key.rename_eq_self {k : Key} (hk : k.WellFormed) (h : ∀ v ∈ k.operands, π v = v) :
    k.rename π = k := by
  rw [Key.rename_congr (ρ := .refl Var) h, Key.rename_refl hk]

theorem Key.rename_injective {k k' : Key} (hk : k.WellFormed) (hk' : k'.WellFormed)
    (h : k.rename π = k'.rename π) : k = k' := by
  have hmap : Function.Injective (List.map π) := List.map_injective_iff.2 π.injective
  cases k with
  | named name =>
    cases k' with
    | named name' => exact h
    | _ => cases h
  | less a b =>
    cases k' with
    | less a' b' =>
      obtain ⟨ha, hb⟩ := Key.less.inj h
      rw [Expr.rename_injective hk.1 hk'.1 ha, Expr.rename_injective hk.2 hk'.2 hb]
    | _ => cases h
  | and vs =>
    cases k' with
    | and vs' => rw [hmap (Key.and.inj h)]
    | _ => cases h
  | or vs =>
    cases k' with
    | or vs' => rw [hmap (Key.or.inj h)]
    | _ => cases h
  | selector vs i =>
    cases k' with
    | selector vs' i' =>
      obtain ⟨hvs, hi⟩ := Key.selector.inj h
      rw [hmap hvs, hi]
    | _ => cases h

def Column.rename (π : Equiv.Perm Var) (c : Column) : Column := ⟨c.key.rename π, c.kind⟩

/-! ## Rows -/

def Constraint.rename (π : Equiv.Perm Var) : Constraint → Constraint
  | .le l r => .le (l.rename π) (r.rename π)
  | .eq l r => .eq (l.rename π) (r.rename π)

def Constraint.WellFormed (c : Constraint) : Prop := c.lhs.WellFormed ∧ c.rhs.WellFormed

theorem bind_rename {α : Type} {o o' : Option α} {g : α → α}
    {f f' : α → Option (List Constraint)} (ho : o' = o.map g)
    (hf : ∀ s, o = some s → f' (g s) = (f s).map (List.map (Constraint.rename π))) :
    (o' >>= f') = (o >>= f).map (List.map (Constraint.rename π)) := by
  subst ho
  cases o with
  | none => rfl
  | some s => exact hf s rfl

theorem lessRows_rename {a b : Expr} {bigM : Int} {r : Var} (hb : b.WellFormed) :
    lessRows (a.rename π) (b.rename π) bigM (π r) =
      (lessRows a b bigM r).map (List.map (Constraint.rename π)) := by
  have hoff : (Expr.complement r).WellFormed := Expr.wellFormed_complement r
  have hon : (Expr.ofVar r).WellFormed := Expr.wellFormed_ofVar r
  refine bind_rename (Expr.addConst_rename hb) ?_
  intro below hbelow
  refine bind_rename (Expr.scale_rename hoff) ?_
  intro off hoff'
  refine bind_rename (Expr.add_rename (hb.addConst hbelow) (hoff.scale hoff')) ?_
  intro upper _
  refine bind_rename (Expr.scale_rename hon) ?_
  intro on hon'
  exact bind_rename (Expr.sub_rename hb (hon.scale hon')) fun lower _ => rfl

theorem andRows_rename {vs : List Var} {r : Var} : andRows (vs.map π) (π r) =
    (andRows vs r).map (List.map (Constraint.rename π)) := by
  unfold andRows
  refine bind_rename (Expr.sum_rename vs) ?_
  intro sum hsum
  rw [List.length_map]
  refine bind_rename (Expr.addConst_rename (Expr.wellFormed_sum hsum)) ?_
  intro low hlow
  refine bind_rename (Expr.addConst_rename ((Expr.wellFormed_sum hsum).addConst hlow))
    ?_
  intro all _
  simp [Constraint.rename, Function.comp_def]

theorem orRows_rename {vs : List Var} {r : Var} : orRows (vs.map π) (π r) =
    (orRows vs r).map (List.map (Constraint.rename π)) := by
  unfold orRows
  refine bind_rename (Expr.sum_rename vs) ?_
  intro sum _
  simp [Constraint.rename, Function.comp_def]

theorem xorRows_rename {a b c : Var} : xorRows (π a) (π b) (π c) =
    (xorRows a b c).map (List.map (Constraint.rename π)) := by
  have hvar : ∀ v, (Expr.ofVar v).WellFormed := Expr.wellFormed_ofVar
  refine bind_rename (Expr.add_rename (hvar a) (hvar b)) ?_
  intro ab hab
  refine bind_rename (Expr.add_rename (hvar a) (hvar c)) ?_
  intro ac _
  refine bind_rename (Expr.add_rename (hvar b) (hvar c)) ?_
  intro bc _
  exact bind_rename (Expr.add_rename ((hvar a).add (hvar b) hab) (hvar c)) fun abc _ => rfl

/-! ## Guards -/

section Guard

variable {slack reach : Expr} {body otherwise : List Constraint} {bigM : Int}

theorem inequalities_rename (c : Constraint) : (c.rename π).inequalities =
    c.inequalities.map fun p => (p.1.rename π, p.2.rename π) := by
  cases c with
  | le l r => rfl
  | eq l r => rfl

theorem Constraint.WellFormed.inequalities {c : Constraint} (hc : c.WellFormed) :
    ∀ p ∈ c.inequalities, p.2.WellFormed := by
  cases c with
  | le l r => exact List.forall_mem_singleton.2 hc.2
  | eq l r => exact List.forall_mem_cons.2 ⟨hc.2, List.forall_mem_singleton.2 hc.1⟩

theorem relaxPairs_rename {ps : List (Expr × Expr)} (hs : slack.WellFormed)
    (hps : ∀ p ∈ ps, p.2.WellFormed) :
    relaxPairs (slack.rename π) (ps.map fun p => (p.1.rename π, p.2.rename π)) =
      (relaxPairs slack ps).map (List.map (Constraint.rename π)) := by
  induction ps with
  | nil => rfl
  | cons p ps ih =>
    obtain ⟨l, r⟩ := p
    rw [List.forall_mem_cons] at hps
    simp only [List.map_cons, relaxPairs, Expr.add_rename hps.1 hs, ih hps.2]
    cases r.add slack with
    | none => rfl
    | some r' => cases relaxPairs slack ps <;> rfl

theorem relax_rename (hs : slack.WellFormed) (hbody : ∀ c ∈ body, c.WellFormed) :
    relax (body.map (Constraint.rename π)) (slack.rename π) =
      (relax body slack).map (List.map (Constraint.rename π)) := by
  have hpairs : (body.map (Constraint.rename π)).flatMap Constraint.inequalities =
      (body.flatMap Constraint.inequalities).map fun p => (p.1.rename π, p.2.rename π) := by
    rw [List.map_flatMap, List.flatMap_map]
    simp only [inequalities_rename]
  rw [relax, hpairs]
  exact relaxPairs_rename hs (List.forall_mem_flatMap.2 fun c hc => (hbody c hc).inequalities)

theorem ifThen_rename {cond : Var} (hbody : ∀ c ∈ body, c.WellFormed) :
    ifThen (π cond) (body.map (Constraint.rename π)) bigM =
      (ifThen cond body bigM).map (List.map (Constraint.rename π)) := by
  have hoff := Expr.wellFormed_complement cond
  rw [ifThen, ifThen, ← Expr.rename_complement, Expr.scale_rename hoff]
  cases h : (Expr.complement cond).scale bigM with
  | none => rfl
  | some slack => exact relax_rename (hoff.scale h) hbody

theorem ifThenElse_rename {cond : Var} (hbody : ∀ c ∈ body, c.WellFormed)
    (hother : ∀ c ∈ otherwise, c.WellFormed) :
    ifThenElse (π cond) (body.map (Constraint.rename π)) (otherwise.map (Constraint.rename π))
        bigM =
      (ifThenElse cond body otherwise bigM).map (List.map (Constraint.rename π)) := by
  have hon := Expr.wellFormed_ofVar cond
  refine bind_rename (ifThen_rename hbody) ?_
  intro on _
  refine bind_rename (Expr.scale_rename hon) ?_
  intro slack hslack
  refine bind_rename (relax_rename (hon.scale hslack) hother) ?_
  intro off _
  simp

theorem branchRows_rename {i : Nat} {cond s : Var} (hreach : reach.WellFormed)
    (hbody : ∀ c ∈ body, c.WellFormed) :
    branchRows (reach.rename π) i (π cond) (π s) (body.map (Constraint.rename π)) bigM =
      (branchRows reach i cond s body bigM).map (List.map (Constraint.rename π)) := by
  have hvar : ∀ v, (Expr.ofVar v).WellFormed := Expr.wellFormed_ofVar
  have hoff := Expr.wellFormed_complement s
  refine bind_rename (Expr.add_rename hreach (hvar cond)) ?_
  intro p _
  refine bind_rename (Expr.addConst_rename (hvar s)) ?_
  intro upper _
  refine bind_rename (Expr.scale_rename (hvar s)) ?_
  intro lower _
  refine bind_rename (Expr.scale_rename hoff) ?_
  intro slack hslack
  exact bind_rename (relax_rename (hoff.scale hslack) hbody) fun rest _ => rfl

theorem chainRows_rename {i : Nat} {branches : List (Var × Var × List Constraint)}
    (hreach : reach.WellFormed) (hbranches : ∀ b ∈ branches, ∀ c ∈ b.2.2, c.WellFormed) :
    chainRows bigM (reach.rename π) i
        (branches.map (Prod.map π (Prod.map π (List.map (Constraint.rename π))))) =
      (chainRows bigM reach i branches).map (List.map (Constraint.rename π)) := by
  induction branches generalizing reach i with
  | nil => rfl
  | cons b branches ih =>
    obtain ⟨cond, s, body⟩ := b
    rw [List.forall_mem_cons] at hbranches
    have hoff := Expr.wellFormed_complement cond
    refine bind_rename (branchRows_rename hreach hbranches.1) ?_
    intro rows _
    refine bind_rename (Expr.add_rename hreach hoff) ?_
    intro reach' hreach'
    refine bind_rename (ih (hreach.add hoff hreach') hbranches.2) ?_
    intro later _
    simp

theorem selectorRows_rename {conds ss : List Var} {bodies : List (List Constraint)}
    (hbodies : ∀ body ∈ bodies, ∀ c ∈ body, c.WellFormed)
    (hother : ∀ c ∈ otherwise, c.WellFormed) :
    selectorRows (conds.map π) (ss.map π) (bodies.map (List.map (Constraint.rename π)))
        (otherwise.map (Constraint.rename π)) bigM =
      (selectorRows conds ss bodies otherwise bigM).map (List.map (Constraint.rename π)) := by
  have hbranches : ∀ b ∈ conds.zip (ss.zip bodies), ∀ c ∈ b.2.2, c.WellFormed := fun b hb =>
    hbodies b.2.2 (List.of_mem_zip (List.of_mem_zip hb).2).2
  unfold selectorRows
  rw [List.zip_map, List.zip_map, ← Expr.rename_zero (π := π)]
  refine bind_rename (chainRows_rename Expr.wellFormed_zero hbranches) ?_
  intro branches _
  refine bind_rename (Expr.sum_rename ss) ?_
  intro total htotal
  have hwf := Expr.wellFormed_sum htotal
  refine bind_rename (Expr.scale_rename hwf) ?_
  intro slack hslack
  refine bind_rename (relax_rename (hwf.scale hslack) hother) ?_
  intro last _
  simp

end Guard

/-! ## Covers -/

theorem contributions_rename {acc : Expr} (p : Pattern) (vs : List Var) (hacc : acc.WellFormed) :
    Pattern.contributions (acc.rename π) p (vs.map π) =
      (Pattern.contributions acc p vs).map (Expr.rename π) := by
  induction p generalizing acc vs with
  | nil => rfl
  | cons t p ih =>
    cases vs with
    | nil => cases t <;> rfl
    | cons v vs =>
      have hvar := Expr.wellFormed_ofVar v
      have hoff := Expr.wellFormed_complement v
      cases t with
      | one =>
        simp only [List.map_cons, Pattern.contributions, ← Expr.rename_complement,
          Expr.add_rename hacc hoff]
        cases h : acc.add (.complement v) with
        | none => rfl
        | some acc' => exact ih vs (hacc.add hoff h)
      | zero =>
        simp only [List.map_cons, Pattern.contributions, ← Expr.rename_ofVar,
          Expr.add_rename hacc hvar]
        cases h : acc.add (.ofVar v) with
        | none => rfl
        | some acc' => exact ih vs (hacc.add hvar h)
      | any => exact ih vs hacc

theorem coverRows_rename (vs : List Var) (cover : List Pattern) : coverRows (vs.map π) cover =
    (coverRows vs cover).map (List.map (Constraint.rename π)) := by
  induction cover with
  | nil => rfl
  | cons p cover ih =>
    have hrow : p.row (vs.map π) = (p.row vs).map (Constraint.rename π) := by
      have hsum := contributions_rename (π := π) p vs Expr.wellFormed_zero
      rw [Expr.rename_zero] at hsum
      rw [Pattern.row, Pattern.row, hsum]
      cases Pattern.contributions .zero p vs <;> rfl
    simp only [coverRows, hrow, ih]
    cases p.row vs with
    | none => rfl
    | some c => cases coverRows vs cover <;> rfl

end Linearize
