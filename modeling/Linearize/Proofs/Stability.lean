import Linearize.Proofs.Statements

/-!
# Linearize.Proofs.Stability

Requests that are made again. Once a statement has been encoded, a model that retains the indicators
has all that the statement asks for, so encoding it there changes no column and gives the same rows.
With another big-M only the rows differ.
-/

namespace Linearize
namespace Model

theorem Grows.antisymm {m m' : Model} (h₁ : m.Grows m') (h₂ : m'.Grows m) : m = m' := by
  have hcolumns : m.columns = m'.columns :=
    h₁.columns.eq_of_length (Nat.le_antisymm h₁.columns.length_le h₂.columns.length_le)
  have hrows : m.rows = m'.rows :=
    h₁.rows.eq_of_length (Nat.le_antisymm h₁.rows.length_le h₂.rows.length_le)
  obtain ⟨columns, rows⟩ := m
  cases hcolumns
  cases hrows
  rfl

/-- Every indicator of `m` is one of `m'`. -/
def Retains (m m' : Model) : Prop := ∀ v k, m.Indicates v k → m'.Indicates v k

theorem Grows.retains {m m' : Model} (h : m.Grows m') : m.Retains m' := fun _ _ hi => h.indicates hi

theorem Retains.trans {m m' m'' : Model} (h₁ : m.Retains m') (h₂ : m'.Retains m'') :
    m.Retains m'' := fun v k hi => h₂ v k (h₁ v k hi)

theorem Indicates.binary_eq {m : Model} {v : Var} {k : Key} (h : m.Indicates v k)
    (hd : m.Distinct) : m.binary k = (m, v) := by
  rcases m.binary_cases k with ⟨w, hw, hb⟩ | ⟨hnone, -⟩
  · rw [hb, hd v w _ _ h hw rfl rfl]
  · exact absurd h (hnone v)

section Again

variable {m m' m₂ : Model} {e e₂ : Encoded} {bigM bigM' : Int}

theorem indicate_retained {k : Key} {rows : Var → Option (List Constraint)}
    (h : m.indicate k rows = some e) (hr : e.model.Retains m₂) (hd : m₂.Distinct)
    (rows' : Var → Option (List Constraint)) :
    m₂.indicate k rows' = (rows' e.indicator).map (⟨m₂, e.indicator, ·⟩) := by
  have hb : m₂.binary k = (m₂, e.indicator) := (hr _ _ (indicate_indicates h)).binary_eq hd
  rw [indicate, hb]
  cases rows' e.indicator <;> rfl

theorem indicate_again {k : Key} {rows : Var → Option (List Constraint)}
    (h : m.indicate k rows = some e) (hr : e.model.Retains m₂) (hd : m₂.Distinct) :
    m₂.indicate k rows = some ⟨m₂, e.indicator, e.rows⟩ := by
  rw [indicate_retained h hr hd, (indicate_eq_some_iff.1 h).2.2]
  rfl

theorem indicate_unchanged {k : Key} {rows rows' : Var → Option (List Constraint)}
    (h : m.indicate k rows = some e) (hr : e.model.Retains m₂) (hd : m₂.Distinct)
    (h₂ : m₂.indicate k rows' = some e₂) : e₂.model = m₂ ∧ e₂.indicator = e.indicator := by
  rw [indicate_retained h hr hd] at h₂
  obtain ⟨_, -, rfl⟩ := Option.map_eq_some_iff.1 h₂
  exact ⟨rfl, rfl⟩

theorem compare_again {op : Comparison} {a b : Expr} (h : m.compare op a b bigM = some e)
    (hr : e.model.Retains m₂) (hd : m₂.Distinct) :
    m₂.compare op a b bigM = some ⟨m₂, e.indicator, e.rows⟩ := by
  rcases compare_forms op a b with hnone | ⟨x, y, -, hform⟩ |
    ⟨x, y, x', y', join, -, -, hjoin, hform⟩
  · rw [hnone] at h
    cases h
  · rw [hform] at h ⊢
    exact indicate_again h hr hd
  · rw [hform] at h ⊢
    obtain ⟨p, q, r, hp, hq, hjoined, rfl, hqr, hpq, -⟩ := joined_cases hjoin h
    have hp₂ := indicate_again hp ((hpq.trans hqr).retains.trans hr) hd
    have hq₂ := indicate_again hq (hqr.retains.trans hr) hd
    have hr₂ : join m₂ [p.indicator, q.indicator] = some ⟨m₂, r.indicator, r.rows⟩ := by
      rcases hjoin with rfl | rfl
      · exact indicate_again hjoined hr hd
      · exact indicate_again hjoined hr hd
    exact joined_eq_some_iff.2 ⟨_, _, _, hp₂, hq₂, hr₂, rfl⟩

theorem compare_unchanged {op : Comparison} {a b : Expr} (h : m.compare op a b bigM = some e)
    (hr : e.model.Retains m₂) (hd : m₂.Distinct) (h₂ : m₂.compare op a b bigM' = some e₂) :
    e₂.model = m₂ ∧ e₂.indicator = e.indicator := by
  rcases compare_forms op a b with hnone | ⟨x, y, -, hform⟩ |
    ⟨x, y, x', y', join, -, -, hjoin, hform⟩
  · rw [hnone] at h
    cases h
  · rw [hform] at h h₂
    exact indicate_unchanged h hr hd h₂
  · rw [hform] at h h₂
    obtain ⟨p, q, r, hp, hq, hjoined, rfl, hqr, hpq, -⟩ := joined_cases hjoin h
    obtain ⟨p₂, q₂, r₂, hp₂, hq₂, hjoined₂, rfl, -, -, -⟩ := joined_cases hjoin h₂
    obtain ⟨hpm, hpi⟩ := indicate_unchanged hp ((hpq.trans hqr).retains.trans hr) hd hp₂
    rw [hpm] at hq₂
    obtain ⟨hqm, hqi⟩ := indicate_unchanged hq (hqr.retains.trans hr) hd hq₂
    rw [hpi, hqm, hqi] at hjoined₂
    have hlast : r₂.model = m₂ ∧ r₂.indicator = r.indicator := by
      rcases hjoin with rfl | rfl
      · exact indicate_unchanged hjoined hr hd hjoined₂
      · exact indicate_unchanged hjoined hr hd hjoined₂
    exact hlast

theorem selectors_again {conds rest : List Var} {i : Nat}
    (hr : (m.selectors conds i rest).1.Retains m₂) (hd : m₂.Distinct) :
    m₂.selectors conds i rest = (m₂, (m.selectors conds i rest).2) := by
  induction rest generalizing m i with
  | nil => rfl
  | cons c rest ih =>
    rw [selectors_cons] at hr ⊢
    have hstep := (selectors_grows (m.binary (.selector conds i)).1 conds (i + 1) rest).retains
    have hb := (hr _ _ (hstep _ _ (binary_indicates m _))).binary_eq hd
    rw [hb, ih hr, selectors_cons]

theorem chain_again {conds : List Var} {bodies : List (List Constraint)}
    {otherwise rows : List Constraint} (h : m.chain conds bodies otherwise bigM = .ok (m', rows))
    (hr : m'.Retains m₂) (hd : m₂.Distinct) :
    m₂.chain conds bodies otherwise bigM = .ok (m₂, rows) := by
  obtain ⟨hlen, ⟨rfl, rfl, rfl⟩ | ⟨c, body, rfl, rfl, rfl, hrows⟩ | ⟨htwo, rfl, hrows⟩⟩ :=
    chain_eq_ok_iff.1 h
  · exact chain_eq_ok_iff.2 ⟨hlen, .inl ⟨rfl, rfl, rfl⟩⟩
  · exact chain_eq_ok_iff.2 ⟨hlen, .inr (.inl ⟨c, body, rfl, rfl, rfl, hrows⟩)⟩
  · refine chain_eq_ok_iff.2 ⟨hlen, .inr (.inr ⟨htwo, ?_⟩)⟩
    rw [selectors_again hr hd]
    exact ⟨rfl, hrows⟩

theorem chain_unchanged {conds : List Var} {bodies : List (List Constraint)}
    {otherwise rows rows₂ : List Constraint} {n : Model}
    (h : m.chain conds bodies otherwise bigM = .ok (m', rows)) (hr : m'.Retains m₂)
    (hd : m₂.Distinct) (h₂ : m₂.chain conds bodies otherwise bigM' = .ok (n, rows₂)) : n = m₂ := by
  obtain ⟨-, ⟨-, rfl, -⟩ | ⟨c, body, -, -, rfl, -⟩ | ⟨htwo, rfl, -⟩⟩ := chain_eq_ok_iff.1 h₂
  · rfl
  · rfl
  · obtain ⟨-, ⟨rfl, -⟩ | ⟨c, body, rfl, -⟩ | ⟨-, rfl, -⟩⟩ := chain_eq_ok_iff.1 h
    · cases htwo
    · simp at htwo
    · rw [selectors_again hr hd]

end Again

end Model

namespace Statement

variable {m m' m₂ : Model} {x : Statement} {rows : List Constraint} {bigM : Int}

/-- Whatever a statement has asked for is there in every later model. -/
theorem encode_again (h : x.encode m bigM = .ok (m', rows)) (hr : m'.Retains m₂)
    (hd : m₂.Distinct) : x.encode m₂ bigM = .ok (m₂, rows) := by
  cases x with
  | compare op a b M =>
    obtain ⟨e, he, rfl, rfl⟩ := indicated_eq_ok_iff.1 h
    exact indicated_eq_ok_iff.2 ⟨_, Model.compare_again he hr hd, rfl, rfl⟩
  | conjunction vs =>
    obtain ⟨e, he, rfl, rfl⟩ := indicated_eq_ok_iff.1 h
    exact indicated_eq_ok_iff.2 ⟨_, Model.indicate_again he hr hd, rfl, rfl⟩
  | disjunction vs =>
    obtain ⟨e, he, rfl, rfl⟩ := indicated_eq_ok_iff.1 h
    exact indicated_eq_ok_iff.2 ⟨_, Model.indicate_again he hr hd, rfl, rfl⟩
  | xor inputs output =>
    exact leavesModel_eq_ok_iff.2 ⟨(leavesModel_eq_ok_iff.1 h).1, rfl⟩
  | truncatedXor vs =>
    exact leavesModel_eq_ok_iff.2 ⟨(leavesModel_eq_ok_iff.1 h).1, rfl⟩
  | truncatedWordXor vs =>
    exact leavesModel_eq_ok_iff.2 ⟨(leavesModel_eq_ok_iff.1 h).1, rfl⟩
  | linear row =>
    cases h
    rfl
  | ifThen cond body M => exact withModel_eq_ok_iff.2 ⟨(withModel_eq_ok_iff.1 h).1, rfl⟩
  | ifThenElse cond body otherwise M =>
    exact withModel_eq_ok_iff.2 ⟨(withModel_eq_ok_iff.1 h).1, rfl⟩
  | chain conds bodies otherwise M => exact Model.chain_again h hr hd

end Statement
end Linearize
