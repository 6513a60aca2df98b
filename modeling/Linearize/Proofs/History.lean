import Linearize.Proofs.Guards
import Linearize.Proofs.Runs

/-!
# Linearize.Proofs.History

Histories of a model. What an operation can do is said once, by `Operation.perform_cases`: it asks
for columns, replaces the bounds of one, or adds rows. The keys of the pools stay distinct along
every history, and the keys of a model whose operations speak of existing columns refer to earlier
columns only.
-/

namespace Linearize
namespace Model

/-! ## Requests -/

/-- `m'` comes about from `m` by requests for binary variables whose keys refer to columns of `vs`
or to columns that exist. -/
inductive AsksFrom (vs : List Var) : Model → Model → Prop where
  | refl (m : Model) : AsksFrom vs m m
  | step {m m' : Model} {k : Key} : AsksFrom vs m m' →
      (∀ u ∈ k.operands, u ∈ vs ∨ u < m'.size) → AsksFrom vs m (m'.binary k).1

namespace AsksFrom

variable {m m' m'' : Model} {vs : List Var}

theorem single {k : Key} (hk : ∀ u ∈ k.operands, u ∈ vs) : m.AsksFrom vs (m.binary k).1 :=
  .step (.refl m) fun u hu => .inl (hk u hu)

theorem trans (h₁ : m.AsksFrom vs m') (h₂ : m'.AsksFrom vs m'') : m.AsksFrom vs m'' := by
  induction h₂ with
  | refl => exact h₁
  | step _ hk ih => exact .step ih hk

theorem grows (h : m.AsksFrom vs m') : m.Grows m' := by
  induction h with
  | refl => exact .refl m
  | step _ _ ih => exact ih.trans (binary_grows _ _)

theorem distinct (h : m.AsksFrom vs m') (hm : m.Distinct) : m'.Distinct := by
  induction h with
  | refl => exact hm
  | step _ _ ih => exact ih.binary _

theorem acyclic (h : m.AsksFrom vs m') (hm : m.Acyclic) (hvs : ∀ v ∈ vs, v < m.size) :
    m'.Acyclic := by
  induction h with
  | refl => exact hm
  | step hasks hk ih =>
    refine Each.binary ih ?_
    intro u hu
    rcases hk u hu with huv | hlt
    · exact Nat.lt_of_lt_of_le (hvs u huv) hasks.grows.size_le
    · exact hlt

end AsksFrom

section Request

variable {m m' : Model} {e : Encoded} {vs : List Var} {bigM : Int}

theorem indicate_asksFrom {k : Key} {rows : Var → Option (List Constraint)}
    (h : m.indicate k rows = some e) (hk : ∀ u ∈ k.operands, u ∈ vs ∨ u < m.size) :
    m.AsksFrom vs e.model := by
  rw [(indicate_eq_some_iff.1 h).1]
  exact .step (.refl m) hk

theorem compare_asksFrom {op : Comparison} {a b : Expr} (h : m.compare op a b bigM = some e) :
    m.AsksFrom (a.vars ++ b.vars) e.model := by
  rcases compare_forms op a b with hnone | ⟨x, y, hxy, hform⟩ |
    ⟨x, y, x', y', join, hxy, hxy', hjoin, hform⟩
  · rw [hnone] at h
    cases h
  · rw [hform] at h
    exact indicate_asksFrom h fun u hu => .inl (hxy.vars hu)
  · rw [hform] at h
    obtain ⟨p, q, r, hp, hq, hr, rfl, -, -, hbin⟩ := joined_cases hjoin h
    have hmp : m.AsksFrom (a.vars ++ b.vars) p.model :=
      indicate_asksFrom hp fun u hu => .inl (hxy.vars hu)
    have hpq : p.model.AsksFrom (a.vars ++ b.vars) q.model :=
      indicate_asksFrom hq fun u hu => .inl (hxy'.vars hu)
    have hops : ∀ v ∈ [p.indicator, q.indicator], v ∈ a.vars ++ b.vars ∨ v < q.model.size := by
      intro v hv
      obtain ⟨c, hc, -⟩ := kind?_eq_some_iff.1 (hbin v hv)
      exact .inr (lt_size_of_column hc)
    have hqr : q.model.AsksFrom (a.vars ++ b.vars) r.model := by
      rcases hjoin with rfl | rfl
      · exact indicate_asksFrom hr hops
      · exact indicate_asksFrom hr hops
    exact (hmp.trans hpq).trans hqr

theorem selectors_asksFrom (m : Model) (conds : List Var) (i : Nat) (rest : List Var) :
    m.AsksFrom conds (m.selectors conds i rest).1 := by
  induction rest generalizing m i with
  | nil => exact .refl m
  | cons c rest ih =>
    have hstep : m.AsksFrom conds (m.binary (.selector conds i)).1 := .single fun u hu => hu
    exact hstep.trans (ih _ (i + 1))

theorem chain_asksFrom {conds : List Var} {bodies : List (List Constraint)}
    {otherwise rows : List Constraint} (h : m.chain conds bodies otherwise bigM = .ok (m', rows)) :
    m.AsksFrom conds m' := by
  obtain ⟨-, ⟨-, rfl, -⟩ | ⟨c, body, -, -, rfl, -⟩ | ⟨-, rfl, -⟩⟩ := chain_eq_ok_iff.1 h
  · exact .refl m'
  · exact .refl m'
  · exact selectors_asksFrom m conds 0 conds

end Request

end Model

open Model

variable {m m' : Model}

theorem Request.ofEncoded_eq_ok_iff {x : Option Encoded} {i : Option Var} {rows : List Constraint} :
    Request.ofEncoded x = .ok (m, i, rows) ↔ ∃ v, i = some v ∧ x = some ⟨m, v, rows⟩ := by
  cases x with
  | none => simp [Request.ofEncoded, orOverflow]
  | some e =>
    obtain ⟨model, indicator, cs⟩ := e
    simp only [Request.ofEncoded, orOverflow, Option.map_some, Except.ok.injEq, Prod.mk.injEq,
      Option.some.injEq, Encoded.mk.injEq]
    grind

theorem Request.answer_chain_eq_ok_iff {conds : List Var} {bodies : List (List Constraint)}
    {otherwise rows : List Constraint} {bigM : Int} {i : Option Var} :
    (Request.chain conds bodies otherwise bigM).answer m = .ok (m', i, rows) ↔
      i = none ∧ m.chain conds bodies otherwise bigM = .ok (m', rows) := by
  simp only [Request.answer]
  cases m.chain conds bodies otherwise bigM with
  | error e => simp
  | ok p =>
    simp only [Except.ok.injEq, Prod.ext_iff]
    grind

theorem Request.answer_asksFrom {r : Request} {i : Option Var} {rows : List Constraint}
    (h : r.answer m = .ok (m', i, rows)) : m.AsksFrom r.operands m' := by
  cases r with
  | compare op a b bigM =>
    obtain ⟨v, -, he⟩ := ofEncoded_eq_ok_iff.1 h
    exact compare_asksFrom he
  | and2 a b =>
    obtain ⟨v, -, he⟩ := ofEncoded_eq_ok_iff.1 h
    exact indicate_asksFrom he fun u hu => .inl hu
  | or2 a b =>
    obtain ⟨v, -, he⟩ := ofEncoded_eq_ok_iff.1 h
    exact indicate_asksFrom he fun u hu => .inl hu
  | conjunction vs =>
    obtain ⟨v, -, he⟩ := ofEncoded_eq_ok_iff.1 h
    exact indicate_asksFrom he fun u hu => .inl hu
  | disjunction vs =>
    obtain ⟨v, -, he⟩ := ofEncoded_eq_ok_iff.1 h
    exact indicate_asksFrom he fun u hu => .inl hu
  | chain conds bodies otherwise bigM =>
    exact chain_asksFrom (answer_chain_eq_ok_iff.1 h).2

/-- What an operation can do: ask for an integer variable, ask for binary variables, replace the
bounds of a column, or add rows. -/
theorem Operation.perform_cases {o : Operation} (h : o.perform m = some m') :
    (∃ k lower upper, (∀ u ∈ k.operands, u ∈ o.operands) ∧
        m' = (m.integerWithin k lower upper).1) ∨
      m.AsksFrom o.operands m' ∨
      (∃ v lower upper, o = .setBounds v lower upper ∧ m.setBounds? v lower upper = some m') ∨
      ∃ cs, m' = m.addRows cs := by
  cases o with
  | binary k =>
    cases h
    exact .inr (.inl (.single fun u hu => hu))
  | integer k =>
    cases h
    exact .inl ⟨k, none, none, fun u hu => hu, rfl⟩
  | namedBinary name =>
    cases h
    exact .inr (.inl (.single (List.forall_mem_nil _)))
  | namedInteger name lower upper =>
    cases h
    exact .inl ⟨.named name, some lower, some upper, List.forall_mem_nil _, rfl⟩
  | setBounds v lower upper => exact .inr (.inr (.inl ⟨v, lower, upper, rfl, h⟩))
  | addRow c =>
    cases h
    exact .inr (.inr (.inr ⟨[c], rfl⟩))
  | addRows cs =>
    cases h
    exact .inr (.inr (.inr ⟨cs, rfl⟩))
  | request r =>
    simp only [perform] at h
    split at h
    · cases h
    · cases h
      exact .inr (.inl (.refl m))
    · rename_i hanswer
      cases h
      exact .inr (.inl (Request.answer_asksFrom hanswer))

/-! ## Bounds -/

@[simp] theorem Column.setBounds_key (lower upper : Option Int) (c : Column) :
    (c.setBounds lower upper).key = c.key := by
  obtain ⟨key, kind⟩ := c
  cases kind <;> rfl

@[simp] theorem Column.setBounds_isInteger (lower upper : Option Int) (c : Column) :
    (c.setBounds lower upper).kind.isInteger = c.kind.isInteger := by
  obtain ⟨key, kind⟩ := c
  cases kind <;> rfl

namespace Model

section Bounds

variable {v w : Var} {lower upper : Option Int}

theorem column_setBounds?_iff (h : m.setBounds? v lower upper = some m') {d : Column} :
    m'.columns[w]? = some d ↔
      ∃ c, m.columns[w]? = some c ∧ (if v = w then c.setBounds lower upper else c) = d := by
  simp only [setBounds?] at h
  split at h
  · cases h
    simp [List.getElem?_modify]
  · cases h

theorem rows_setBounds? (h : m.setBounds? v lower upper = some m') : m'.rows = m.rows := by
  simp only [setBounds?] at h
  split at h
  · cases h
    rfl
  · cases h

theorem column_before_setBounds? (h : m.setBounds? v lower upper = some m') {d : Column}
    (hd : m'.columns[w]? = some d) :
    ∃ c, m.columns[w]? = some c ∧ d.key = c.key ∧ d.kind.isInteger = c.kind.isInteger := by
  obtain ⟨c, hc, rfl⟩ := (column_setBounds?_iff h).1 hd
  refine ⟨c, hc, ?_, ?_⟩ <;> split <;> simp

theorem Distinct.setBounds? (hm : m.Distinct) (h : m.setBounds? v lower upper = some m') :
    m'.Distinct := by
  intro x y c d hc hd hkey hkind
  obtain ⟨c₀, hc₀, hckey, hckind⟩ := column_before_setBounds? h hc
  obtain ⟨d₀, hd₀, hdkey, hdkind⟩ := column_before_setBounds? h hd
  rw [hckey, hdkey] at hkey
  rw [hckind, hdkind] at hkind
  exact hm x y c₀ d₀ hc₀ hd₀ hkey hkind

theorem Acyclic.setBounds? (hm : m.Acyclic) (h : m.setBounds? v lower upper = some m') :
    m'.Acyclic := by
  intro w d hd
  obtain ⟨c, hc, hkey, -⟩ := column_before_setBounds? h hd
  rw [hkey]
  exact hm w c hc

end Bounds

end Model

/-! ## Invariants of histories -/

namespace Operation

variable {o : Operation}

theorem perform_distinct (h : o.perform m = some m') (hm : m.Distinct) : m'.Distinct := by
  obtain ⟨k, l, u, -, rfl⟩ | hasks | ⟨v, l, u, -, hset⟩ | ⟨cs, rfl⟩ := perform_cases h
  · exact hm.integerWithin k l u
  · exact hasks.distinct hm
  · exact hm.setBounds? hset
  · exact hm

theorem perform_acyclic (h : o.perform m = some m') (hm : m.Acyclic)
    (hops : ∀ v ∈ o.operands, v < m.size) : m'.Acyclic := by
  obtain ⟨k, l, u, hk, rfl⟩ | hasks | ⟨v, l, u, -, hset⟩ | ⟨cs, rfl⟩ := perform_cases h
  · exact Each.integerWithin hm fun x hx => hops x (hk x hx)
  · exact hasks.acyclic hm hops
  · exact hm.setBounds? hset
  · exact hm

end Operation

namespace Model

theorem perform_cons_iff {o : Operation} {os : List Operation} :
    m.perform (o :: os) = some m' ↔ ∃ m₁, o.perform m = some m₁ ∧ m₁.perform os = some m' := by
  simp only [perform]
  cases o.perform m with
  | none => simp
  | some m₁ => simp

theorem perform_distinct {os : List Operation} (h : m.perform os = some m') (hm : m.Distinct) :
    m'.Distinct := by
  induction os generalizing m with
  | nil =>
    cases h
    exact hm
  | cons o os ih =>
    obtain ⟨m₁, ho, hos⟩ := perform_cons_iff.1 h
    exact ih hos (Operation.perform_distinct ho hm)

theorem Reachable.distinct (h : m.Reachable) : m.Distinct := by
  induction h with
  | empty => exact orderly_empty.distinct
  | step _ _ ho ih => exact Operation.perform_distinct ho ih

theorem Reachable.acyclic (h : m.Reachable) : m.Acyclic := by
  induction h with
  | empty => exact orderly_empty.acyclic
  | step _ hops ho ih => exact Operation.perform_acyclic ho ih hops

end Model
end Linearize
