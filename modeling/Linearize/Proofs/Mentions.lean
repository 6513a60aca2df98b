import Linearize.Proofs.Statements

/-!
# Linearize.Proofs.Mentions

Which variables rows mention. No encoder writes a variable that it was not given and has not asked
the model for, so the rows of a statement mention columns of the model only.
-/

namespace Linearize

variable {P : Var → Prop} {rows : List Constraint} {bigM : Int}

/-! ## Expressions and constraints -/

/-- All variables of the expression have a property. -/
def Expr.Over (P : Var → Prop) (e : Expr) : Prop := ∀ v ∈ e.vars, P v

def Constraint.Over (P : Var → Prop) (c : Constraint) : Prop := c.lhs.Over P ∧ c.rhs.Over P

def AllOver (P : Var → Prop) (cs : List Constraint) : Prop := ∀ c ∈ cs, c.Over P

namespace Expr

variable {a b e : Expr}

@[simp] theorem over_zero : zero.Over P := List.forall_mem_nil _

@[simp] theorem over_const (n : Int) : (const n).Over P := List.forall_mem_nil _

@[simp] theorem over_ofVar {v : Var} : (ofVar v).Over P ↔ P v := List.forall_mem_singleton

@[simp] theorem over_complement {v : Var} : (complement v).Over P ↔ P v :=
  List.forall_mem_singleton

theorem Over.mono {Q : Var → Prop} (he : e.Over P) (h : ∀ v, P v → Q v) : e.Over Q :=
  fun v hv => h v (he v hv)

theorem Over.add (ha : a.Over P) (hb : b.Over P) (h : a.add b = some e) : e.Over P :=
  add_forall h ha hb

theorem Over.addConst {n : Int} (ha : a.Over P) (h : a.addConst n = some e) : e.Over P := by
  rw [Over, Model.vars_addConst h]
  exact ha

theorem Over.scale {k : Int} (ha : a.Over P) (h : a.scale k = some e) : e.Over P :=
  scale_forall h ha

theorem Over.sub (ha : a.Over P) (hb : b.Over P) (h : a.sub b = some e) : e.Over P := by
  obtain ⟨b', hb', h⟩ := sub_eq_some_iff.1 h
  exact ha.add (hb.scale hb') h

theorem over_sum {vs : List Var} (hvs : ∀ v ∈ vs, P v) (h : sum vs = some e) : e.Over P :=
  addTerms_forall h over_zero (List.forall_mem_map.2 hvs)

end Expr

theorem Constraint.Over.mono {Q : Var → Prop} {c : Constraint} (hc : c.Over P)
    (h : ∀ v, P v → Q v) : c.Over Q := ⟨hc.1.mono h, hc.2.mono h⟩

theorem Constraint.over_le {l r : Expr} : (Constraint.le l r).Over P ↔ l.Over P ∧ r.Over P :=
  Iff.rfl

@[simp] theorem allOver_nil : AllOver P [] := List.forall_mem_nil _

@[simp] theorem allOver_cons {c : Constraint} {cs : List Constraint} :
    AllOver P (c :: cs) ↔ c.Over P ∧ AllOver P cs := List.forall_mem_cons

@[simp] theorem allOver_append {cs ds : List Constraint} :
    AllOver P (cs ++ ds) ↔ AllOver P cs ∧ AllOver P ds := List.forall_mem_append

theorem AllOver.mono {Q : Var → Prop} {cs : List Constraint} (hcs : AllOver P cs)
    (h : ∀ v, P v → Q v) : AllOver Q cs := fun c hc => (hcs c hc).mono h

theorem Constraint.mem_insertVar {v w : Var} {vs : List Var} :
    w ∈ insertVar v vs ↔ w = v ∨ w ∈ vs := by
  induction vs with
  | nil => simp [insertVar]
  | cons u vs ih =>
    simp only [insertVar]
    split
    · simp
    · split
      · rename_i heq
        simp [heq]
      · rw [List.mem_cons, ih, List.mem_cons, or_left_comm]

theorem Constraint.mem_vars_iff {c : Constraint} {v : Var} :
    v ∈ c.vars ↔ v ∈ c.lhs.vars ∨ v ∈ c.rhs.vars := by
  have hmem : ∀ vs : List Var, v ∈ vs.foldr insertVar [] ↔ v ∈ vs := by
    intro vs
    induction vs with
    | nil => rfl
    | cons w vs ih => rw [List.foldr_cons, mem_insertVar, ih, List.mem_cons]
  rw [vars, hmem, List.mem_append]

theorem Constraint.over_iff {c : Constraint} : c.Over P ↔ ∀ v ∈ c.vars, P v := by
  simp only [Over, Expr.Over, mem_vars_iff, or_imp, forall_and]

/-! ## Rows -/

theorem lessRows_over {a b : Expr} {r : Var} (h : lessRows a b bigM r = some rows) (ha : a.Over P)
    (hb : b.Over P) (hr : P r) : AllOver P rows := by
  simp only [lessRows, Option.bind_eq_bind, Option.bind_eq_some_iff, Option.pure_def,
    Option.some.injEq] at h
  obtain ⟨below, hbelow, off, hoff, upper, hupper, on, hon, lower, hlower, rfl⟩ := h
  have hoff' : off.Over P := (Expr.over_complement.2 hr).scale hoff
  have hon' : on.Over P := (Expr.over_ofVar.2 hr).scale hon
  simp only [allOver_cons, Constraint.over_le]
  exact ⟨⟨ha, (hb.addConst hbelow).add hoff' hupper⟩, ⟨hb.sub hon' hlower, ha⟩, allOver_nil⟩

theorem andRows_over {vs : List Var} {r : Var} (h : andRows vs r = some rows)
    (hvs : ∀ v ∈ vs, P v) (hr : P r) : AllOver P rows := by
  simp only [andRows, Option.bind_eq_bind, Option.bind_eq_some_iff, Option.pure_def,
    Option.some.injEq] at h
  obtain ⟨sum, hsum, low, hlow, all, hall, rfl⟩ := h
  have hr' := Expr.over_ofVar.2 hr
  refine allOver_cons.2 ⟨⟨((Expr.over_sum hvs hsum).addConst hlow).addConst hall, hr'⟩, ?_⟩
  exact List.forall_mem_map.2 fun v hv => ⟨hr', Expr.over_ofVar.2 (hvs v hv)⟩

theorem orRows_over {vs : List Var} {r : Var} (h : orRows vs r = some rows)
    (hvs : ∀ v ∈ vs, P v) (hr : P r) : AllOver P rows := by
  simp only [orRows, Option.bind_eq_bind, Option.bind_eq_some_iff, Option.pure_def,
    Option.some.injEq] at h
  obtain ⟨sum, hsum, rfl⟩ := h
  have hr' := Expr.over_ofVar.2 hr
  refine allOver_cons.2 ⟨⟨hr', Expr.over_sum hvs hsum⟩, ?_⟩
  exact List.forall_mem_map.2 fun v hv => ⟨Expr.over_ofVar.2 (hvs v hv), hr'⟩

theorem xorRows_over {a b c : Var} (h : xorRows a b c = some rows) (ha : P a) (hb : P b)
    (hc : P c) : AllOver P rows := by
  simp only [xorRows, Option.bind_eq_bind, Option.bind_eq_some_iff, Option.pure_def,
    Option.some.injEq] at h
  obtain ⟨ab, hab, ac, hac, bc, hbc, abc, habc, rfl⟩ := h
  have ha' := Expr.over_ofVar.2 ha
  have hb' := Expr.over_ofVar.2 hb
  have hc' := Expr.over_ofVar.2 hc
  have hab' := ha'.add hb' hab
  simp only [allOver_cons, Constraint.over_le]
  exact ⟨⟨hc', hab'⟩, ⟨hb', ha'.add hc' hac⟩, ⟨ha', hb'.add hc' hbc⟩,
    ⟨hab'.add hc' habc, Expr.over_const 2⟩, allOver_nil⟩

/-! ## Covers -/

theorem contributions_over {acc sum : Expr} {p : Pattern} {vs : List Var}
    (h : Pattern.contributions acc p vs = some sum) (hacc : acc.Over P) (hvs : ∀ v ∈ vs, P v) :
    sum.Over P := by
  refine Pattern.contributions_induction h hacc ?_
  rintro v hv e e' he (hadd | hadd)
  · exact he.add (Expr.over_complement.2 (hvs v hv)) hadd
  · exact he.add (Expr.over_ofVar.2 (hvs v hv)) hadd

theorem Pattern.row_over {p : Pattern} {vs : List Var} {c : Constraint} (h : p.row vs = some c)
    (hvs : ∀ v ∈ vs, P v) : c.Over P := by
  obtain ⟨sum, hsum, rfl⟩ := row_eq_some_iff.1 h
  exact ⟨Expr.over_const 1, contributions_over hsum Expr.over_zero hvs⟩

theorem coverRows_over {vs : List Var} {cover : List Pattern}
    (h : coverRows vs cover = some rows) (hvs : ∀ v ∈ vs, P v) : AllOver P rows := by
  have hrows := coverRows_forall₂ h
  clear h
  induction hrows with
  | nil => exact allOver_nil
  | cons hc _ ih => exact allOver_cons.2 ⟨Pattern.row_over hc hvs, ih⟩

theorem exclusiveOrRows_over {inputs : List Var} {output : Var}
    (h : Statement.exclusiveOrRows inputs output = .ok rows)
    (hvs : ∀ v ∈ inputs ++ [output], P v) : AllOver P rows := by
  simp only [Statement.exclusiveOrRows] at h
  split at h
  · rename_i a b
    simp only [List.cons_append, List.nil_append, List.forall_mem_cons] at hvs
    exact xorRows_over (orOverflow_eq_ok_iff.1 h) hvs.1 hvs.2.1 hvs.2.2.1
  · simp only [parityRows] at h
    split at h
    · cases h
    · exact coverRows_over (orOverflow_eq_ok_iff.1 h) hvs

theorem relationRows_over {width : Nat} {cover : List Pattern} {a b c : List Var}
    (h : relationRows width cover a b c = .ok rows) (hvs : ∀ v ∈ a ++ b ++ c, P v) :
    AllOver P rows :=
  coverRows_over (relationRows_eq_ok h).2.2.2 hvs

/-! ## Guarded constraint sets -/

theorem Constraint.Over.inequalities {c : Constraint} (hc : c.Over P) :
    ∀ p ∈ c.inequalities, p.1.Over P ∧ p.2.Over P := by
  cases c with
  | le l r => exact List.forall_mem_singleton.2 hc
  | eq l r =>
    simp only [Constraint.inequalities, List.forall_mem_cons]
    exact ⟨hc, hc.symm, List.forall_mem_nil _⟩

theorem relaxPairs_over {slack : Expr} {ps : List (Expr × Expr)}
    (h : relaxPairs slack ps = some rows) (hslack : slack.Over P)
    (hps : ∀ p ∈ ps, p.1.Over P ∧ p.2.Over P) : AllOver P rows := by
  induction ps generalizing rows with
  | nil =>
    cases h
    exact allOver_nil
  | cons p rest ih =>
    obtain ⟨l, r⟩ := p
    rw [List.forall_mem_cons] at hps
    simp only [relaxPairs] at h
    split at h
    · cases h
    · rename_i r' hr'
      split at h
      · cases h
      · rename_i cs hcs
        cases h
        exact allOver_cons.2 ⟨⟨hps.1.1, hps.1.2.add hslack hr'⟩, ih hcs hps.2⟩

theorem relax_over {cs : List Constraint} {slack : Expr} (h : relax cs slack = some rows)
    (hslack : slack.Over P) (hcs : AllOver P cs) : AllOver P rows :=
  relaxPairs_over h hslack (List.forall_mem_flatMap.2 fun c hc => (hcs c hc).inequalities)

theorem ifThen_over {cond : Var} {body : List Constraint}
    (h : ifThen cond body bigM = some rows) (hcond : P cond) (hbody : AllOver P body) :
    AllOver P rows := by
  simp only [ifThen] at h
  split at h
  · cases h
  · rename_i slack hs
    exact relax_over h ((Expr.over_complement.2 hcond).scale hs) hbody

theorem ifThenElse_over {cond : Var} {body otherwise : List Constraint}
    (h : ifThenElse cond body otherwise bigM = some rows) (hcond : P cond)
    (hbody : AllOver P body) (hother : AllOver P otherwise) : AllOver P rows := by
  simp only [ifThenElse, Option.bind_eq_bind, Option.bind_eq_some_iff, Option.pure_def,
    Option.some.injEq] at h
  obtain ⟨on, hon, slack, hs, off, hoff, rfl⟩ := h
  exact allOver_append.2 ⟨ifThen_over hon hcond hbody,
    relax_over hoff ((Expr.over_ofVar.2 hcond).scale hs) hother⟩

theorem branchRows_over {reach : Expr} {i : Nat} {cond s : Var} {body : List Constraint}
    (h : branchRows reach i cond s body bigM = some rows) (hreach : reach.Over P) (hcond : P cond)
    (hs : P s) (hbody : AllOver P body) : AllOver P rows := by
  simp only [branchRows, Option.bind_eq_bind, Option.bind_eq_some_iff, Option.pure_def,
    Option.some.injEq] at h
  obtain ⟨p, hp, upper, hu, lower, hl, slack, hslack, rest, hr, rfl⟩ := h
  have hp' := hreach.add (Expr.over_ofVar.2 hcond) hp
  have hs' := Expr.over_ofVar.2 hs
  simp only [allOver_cons, Constraint.over_le]
  exact ⟨⟨hp', hs'.addConst hu⟩, ⟨hs'.scale hl, hp'⟩,
    relax_over hr ((Expr.over_complement.2 hs).scale hslack) hbody⟩

theorem chainRows_over {reach : Expr} {i : Nat} {branches : List (Var × Var × List Constraint)}
    (h : chainRows bigM reach i branches = some rows) (hreach : reach.Over P)
    (hbranches : ∀ b ∈ branches, P b.1 ∧ P b.2.1 ∧ AllOver P b.2.2) : AllOver P rows := by
  induction branches generalizing reach i rows with
  | nil =>
    cases h
    exact allOver_nil
  | cons b rest ih =>
    obtain ⟨cond, s, body⟩ := b
    rw [List.forall_mem_cons] at hbranches
    obtain ⟨⟨hcond, hs, hbody⟩, hrest⟩ := hbranches
    simp only [chainRows, Option.bind_eq_bind, Option.bind_eq_some_iff, Option.pure_def,
      Option.some.injEq] at h
    obtain ⟨now, hn, reach', hr, later, hl, rfl⟩ := h
    exact allOver_append.2 ⟨branchRows_over hn hreach hcond hs hbody,
      ih hl (hreach.add (Expr.over_complement.2 hcond) hr) hrest⟩

theorem selectorRows_over {conds ss : List Var} {bodies : List (List Constraint)}
    {otherwise : List Constraint} (h : selectorRows conds ss bodies otherwise bigM = some rows)
    (hconds : ∀ v ∈ conds, P v) (hss : ∀ s ∈ ss, P s)
    (hbodies : AllOver P (bodies.flatten ++ otherwise)) : AllOver P rows := by
  obtain ⟨branches, total, slack, last, hb, ht, hs, hl, rfl⟩ := selectorRows_eq_some_iff.1 h
  obtain ⟨hbodies, hother⟩ := allOver_append.1 hbodies
  refine allOver_append.2 ⟨chainRows_over hb Expr.over_zero ?_,
    relax_over hl ((Expr.over_sum hss ht).scale hs) hother⟩
  rintro ⟨c, s, body⟩ hmem
  obtain ⟨hc, hrest⟩ := List.of_mem_zip hmem
  obtain ⟨hs, hbody⟩ := List.of_mem_zip hrest
  exact ⟨hconds c hc, hss s hs, fun d hd => hbodies d (List.mem_flatten.2 ⟨body, hbody, hd⟩)⟩

/-! ## Statements -/

namespace Model

variable {m m' : Model} {e : Encoded}

def Has (m : Model) (v : Var) : Prop := v < m.size

theorem Grows.has (hg : m.Grows m') {v : Var} (hv : m.Has v) : m'.Has v :=
  Nat.lt_of_lt_of_le hv hg.size_le

theorem less_over {a b : Expr} (h : m.less a b bigM = some e)
    (hab : ∀ v ∈ a.vars ++ b.vars, m.Has v) : AllOver e.model.Has e.rows := by
  have hg : m.Grows e.model := indicate_grows h
  rw [List.forall_mem_append] at hab
  exact lessRows_over (indicate_eq_some_iff.1 h).2.2 (fun v hv => hg.has (hab.1 v hv))
    (fun v hv => hg.has (hab.2 v hv)) (indicate_indicates h).lt_size

theorem conjunction_over {vs : List Var} (h : m.conjunction vs = some e)
    (hvs : ∀ v ∈ vs, m.Has v) : AllOver e.model.Has e.rows :=
  andRows_over (indicate_eq_some_iff.1 h).2.2 (fun v hv => (indicate_grows h).has (hvs v hv))
    (indicate_indicates h).lt_size

theorem disjunction_over {vs : List Var} (h : m.disjunction vs = some e)
    (hvs : ∀ v ∈ vs, m.Has v) : AllOver e.model.Has e.rows :=
  orRows_over (indicate_eq_some_iff.1 h).2.2 (fun v hv => (indicate_grows h).has (hvs v hv))
    (indicate_indicates h).lt_size

theorem compare_over {op : Comparison} {a b : Expr} (h : m.compare op a b bigM = some e)
    (hab : ∀ v ∈ a.vars ++ b.vars, m.Has v) : AllOver e.model.Has e.rows := by
  rcases compare_forms op a b with hnone | ⟨x, y, hxy, hform⟩ |
    ⟨x, y, x', y', join, hxy, hxy', hjoin, hform⟩
  · rw [hnone] at h
    cases h
  · rw [hform] at h
    exact less_over h fun v hv => hab v (hxy.vars hv)
  · rw [hform] at h
    obtain ⟨p, q, r, hp, hq, hr, rfl, hqr, hpq, hbin⟩ := joined_cases hjoin h
    have hmp : m.Grows p.model := indicate_grows hp
    have hprows := less_over hp fun v hv => hab v (hxy.vars hv)
    have hqrows := less_over hq fun v hv => hmp.has (hab v (hxy'.vars hv))
    have hops : ∀ v ∈ [p.indicator, q.indicator], q.model.Has v := fun v hv => by
      obtain ⟨c, hc, -⟩ := kind?_eq_some_iff.1 (hbin v hv)
      exact lt_size_of_column hc
    have hrrows : AllOver r.model.Has r.rows := by
      rcases hjoin with rfl | rfl
      · exact conjunction_over hr hops
      · exact disjunction_over hr hops
    rw [allOver_append, allOver_append]
    exact ⟨⟨hprows.mono fun v hv => (hpq.trans hqr).has hv, hqrows.mono fun v hv => hqr.has hv⟩,
      hrrows⟩

theorem chain_over {conds : List Var} {bodies : List (List Constraint)}
    {otherwise : List Constraint} (h : m.chain conds bodies otherwise bigM = .ok (m', rows))
    (hconds : ∀ v ∈ conds, m.Has v) (hbodies : AllOver m.Has (bodies.flatten ++ otherwise)) :
    AllOver m'.Has rows := by
  obtain ⟨-, ⟨rfl, rfl, rfl⟩ | ⟨c, body, rfl, rfl, rfl, hrows⟩ | ⟨-, rfl, hrows⟩⟩ :=
    chain_eq_ok_iff.1 h
  · exact (allOver_append.1 hbodies).2
  · rw [List.flatten_singleton, allOver_append] at hbodies
    exact ifThenElse_over hrows (hconds c List.mem_cons_self) hbodies.1 hbodies.2
  · have hg := selectors_grows m conds 0 conds
    refine selectorRows_over hrows (fun v hv => hg.has (hconds v hv)) ?_
      (hbodies.mono fun v hv => hg.has hv)
    intro s hs
    obtain ⟨j, hj⟩ := List.getElem?_of_mem hs
    exact (selectors_indicates m conds 0 conds hj).lt_size

end Model

/-- The rows of a statement about columns of a model mention columns of the model that it leads to
only. -/
theorem Statement.encode_over {m m' : Model} {x : Statement}
    (h : x.encode m bigM = .ok (m', rows)) (hx : x.Placed m)
    (hrows : AllOver m.Has x.constraints) : AllOver m'.Has rows := by
  have htruths : ∀ v ∈ x.truths, m.Has v := fun v hv => hx.truth_lt hv
  cases x with
  | compare op a b M =>
    obtain ⟨e, he, rfl, rfl⟩ := indicated_eq_ok_iff.1 h
    refine Model.compare_over he (List.forall_mem_append.2 ⟨?_, ?_⟩)
    · exact (hx.compared a (by simp [compared])).2
    · exact (hx.compared b (by simp [compared])).2
  | conjunction vs =>
    obtain ⟨e, he, rfl, rfl⟩ := indicated_eq_ok_iff.1 h
    exact Model.conjunction_over he htruths
  | disjunction vs =>
    obtain ⟨e, he, rfl, rfl⟩ := indicated_eq_ok_iff.1 h
    exact Model.disjunction_over he htruths
  | xor inputs output =>
    obtain ⟨hrows', rfl⟩ := leavesModel_eq_ok_iff.1 h
    exact exclusiveOrRows_over hrows' htruths
  | truncatedXor vs =>
    obtain ⟨hrows', rfl⟩ := leavesModel_eq_ok_iff.1 h
    exact relationRows_over hrows' (split3_forall bitWidth htruths)
  | truncatedWordXor vs =>
    obtain ⟨hrows', rfl⟩ := leavesModel_eq_ok_iff.1 h
    exact relationRows_over hrows' (split3_forall wordWidth htruths)
  | linear row =>
    cases h
    exact hrows
  | ifThen cond body M =>
    obtain ⟨hrows', rfl⟩ := withModel_eq_ok_iff.1 h
    exact ifThen_over hrows' (htruths cond List.mem_cons_self) hrows
  | ifThenElse cond body otherwise M =>
    obtain ⟨hrows', rfl⟩ := withModel_eq_ok_iff.1 h
    obtain ⟨hbody, hother⟩ := allOver_append.1 hrows
    exact ifThenElse_over hrows' (htruths cond List.mem_cons_self) hbody hother
  | chain conds bodies otherwise M => exact Model.chain_over h htruths hrows

end Linearize
