import Linearize.Proofs.Canonical
import Linearize.Proofs.Growth

/-!
# Linearize.Proofs.Indicators

The encoders of connectives and comparisons as steps of a growing model: which columns they ask for,
that their rows fix the values of these columns, and where their rows hold.
-/

namespace Linearize
namespace Model

variable {σ : Var → Int}

/-- At a point where the columns of `m` have the truth values of their keys, `rows` force the
columns that `m'` has beyond them to have theirs. -/
def Fixes (m m' : Model) (rows : List Constraint) : Prop :=
  ∀ σ, m'.IsPoint σ → m.Faithful σ → AllHold σ rows → m'.Faithful σ

theorem Fixes.trans {a b c : Model} {rows₁ rows₂ : List Constraint} (h₁ : a.Fixes b rows₁)
    (h₂ : b.Fixes c rows₂) (hg : b.Grows c) : a.Fixes c (rows₁ ++ rows₂) := by
  intro σ hp hf hrows
  rw [allHold_append] at hrows
  exact h₂ σ hp (h₁ σ (hg.isPoint hp) hf hrows.1) hrows.2

/-! ## One request -/

section Indicate

variable {m : Model} {k : Key} {rows : Var → Option (List Constraint)} {e : Encoded}

theorem indicate_eq_some_iff :
    m.indicate k rows = some e ↔
      e.model = (m.binary k).1 ∧ e.indicator = (m.binary k).2 ∧ rows e.indicator = some e.rows := by
  obtain ⟨model, indicator, cs⟩ := e
  simp only [indicate]
  constructor
  · intro h
    split at h
    · cases h
    · rename_i hr
      cases h
      exact ⟨rfl, rfl, hr⟩
  · rintro ⟨rfl, rfl, hr⟩
    simp only [hr]

theorem indicate_asks (h : m.indicate k rows = some e) (hk : m.Admits k) : m.Asks e.model := by
  rw [(indicate_eq_some_iff.1 h).1]
  exact .single hk

theorem indicate_grows (h : m.indicate k rows = some e) : m.Grows e.model := by
  rw [(indicate_eq_some_iff.1 h).1]
  exact binary_grows m k

theorem indicate_indicates (h : m.indicate k rows = some e) :
    e.model.Indicates e.indicator k := by
  obtain ⟨hm, hi, -⟩ := indicate_eq_some_iff.1 h
  rw [hm, hi]
  exact binary_indicates m k

theorem findBinary?_indicate (h : m.indicate k rows = some e) :
    e.model.findBinary? k = some e.indicator := by
  obtain ⟨hm, hi, -⟩ := indicate_eq_some_iff.1 h
  rw [hm, hi]
  exact findBinary?_binary m k

theorem indicate_faithful_iff (h : m.indicate k rows = some e) (haux : k.isNamed = false) :
    e.model.Faithful σ ↔ m.Faithful σ ∧ (σ e.indicator = 1 ↔ k.Condition σ) := by
  obtain ⟨hm, hi, -⟩ := indicate_eq_some_iff.1 h
  rw [hm, hi]
  exact binary_faithful_iff haux

theorem indicate_fixes (h : m.indicate k rows = some e) (haux : k.isNamed = false)
    (hrows : ∀ σ, e.model.IsPoint σ → AllHold σ e.rows → (σ e.indicator = 1 ↔ k.Condition σ)) :
    m.Fixes e.model e.rows :=
  fun σ hp hf hr => (indicate_faithful_iff h haux).2 ⟨hf, hrows σ hp hr⟩

end Indicate

/-! ## Connectives -/

section Connective

variable {m : Model} {vs : List Var} {e : Encoded}

theorem conjunction_asks (h : m.conjunction vs = some e) (hvs : ∀ v ∈ vs, v < m.size) :
    m.Asks e.model := indicate_asks h ⟨rfl, trivial, hvs⟩

theorem disjunction_asks (h : m.disjunction vs = some e) (hvs : ∀ v ∈ vs, v < m.size) :
    m.Asks e.model := indicate_asks h ⟨rfl, trivial, hvs⟩

theorem conjunction_hold_iff (h : m.conjunction vs = some e) (hvs : ∀ v ∈ vs, IsBit (σ v))
    (hp : e.model.IsPoint σ) :
    AllHold σ e.rows ↔ (σ e.indicator = 1 ↔ (Key.and vs).Condition σ) :=
  andRows_hold (indicate_eq_some_iff.1 h).2.2 hvs ((indicate_indicates h).isBit hp)

theorem disjunction_hold_iff (h : m.disjunction vs = some e) (hvs : ∀ v ∈ vs, IsBit (σ v))
    (hp : e.model.IsPoint σ) :
    AllHold σ e.rows ↔ (σ e.indicator = 1 ↔ (Key.or vs).Condition σ) :=
  orRows_hold (indicate_eq_some_iff.1 h).2.2 hvs ((indicate_indicates h).isBit hp)

theorem conjunction_fixes (h : m.conjunction vs = some e)
    (hvs : ∀ v ∈ vs, m.kind? v = some .binary) : m.Fixes e.model e.rows :=
  indicate_fixes h rfl fun _ hp hr =>
    (conjunction_hold_iff h (fun v hv => (indicate_grows h).isPoint hp v (hvs v hv)) hp).1 hr

theorem disjunction_fixes (h : m.disjunction vs = some e)
    (hvs : ∀ v ∈ vs, m.kind? v = some .binary) : m.Fixes e.model e.rows :=
  indicate_fixes h rfl fun _ hp hr =>
    (disjunction_hold_iff h (fun v hv => (indicate_grows h).isPoint hp v (hvs v hv)) hp).1 hr

theorem and2_eq (m : Model) (a b : Var) : m.and2 a b = m.conjunction [a, b] := by
  simp only [and2, conjunction, indicate, and2Rows_eq]

theorem or2_eq (m : Model) (a b : Var) : m.or2 a b = m.disjunction [a, b] := by
  simp only [or2, disjunction, indicate, or2Rows_eq]

end Connective

/-! ## Comparisons -/

section Comparison

variable {m : Model} {a b : Expr} {bigM : Int} {e : Encoded}

theorem vars_addConst {a a' : Expr} {n : Int} (h : a.addConst n = some a') : a'.vars = a.vars := by
  simp only [Expr.addConst] at h
  split at h
  · cases h
  · cases h; rfl

theorem less_asks (h : m.less a b bigM = some e) (ha : a.WellFormed) (hb : b.WellFormed)
    (hab : ∀ v ∈ a.vars ++ b.vars, v < m.size) : m.Asks e.model :=
  indicate_asks h ⟨rfl, ⟨ha, hb⟩, hab⟩

theorem less_fixes (h : m.less a b bigM = some e) : m.Fixes e.model e.rows :=
  indicate_fixes h rfl fun _ hp hr =>
    lessRows_sound (indicate_eq_some_iff.1 h).2.2 ((indicate_indicates h).isBit hp) hr

theorem less_complete (h : m.less a b bigM = some e) (hp : e.model.IsPoint σ)
    (hf : e.model.Faithful σ) (hon : b.value σ - a.value σ ≤ bigM)
    (hoff : a.value σ - b.value σ < bigM) : AllHold σ e.rows :=
  lessRows_complete (indicate_eq_some_iff.1 h).2.2 ((indicate_indicates h).isBit hp)
    ((indicate_faithful_iff h rfl).1 hf).2 hon hoff

/-- The pairs of expressions whose order decides a comparison of `a` and `b`. -/
inductive Shifted (a b : Expr) : Expr → Expr → Prop where
  | less : Shifted a b a b
  | leq {b' : Expr} : b.addConst 1 = some b' → Shifted a b a b'
  | greater : Shifted a b b a
  | geq {a' : Expr} : a.addConst 1 = some a' → Shifted a b b a'

theorem Shifted.vars {x y : Expr} (h : Shifted a b x y) {v : Var} (hv : v ∈ x.vars ++ y.vars) :
    v ∈ a.vars ++ b.vars := by
  cases h with
  | less => exact hv
  | leq hb => rw [vars_addConst hb] at hv; exact hv
  | greater => exact List.mem_append.2 (List.mem_append.1 hv).symm
  | geq ha => rw [vars_addConst ha] at hv; exact List.mem_append.2 (List.mem_append.1 hv).symm

theorem Shifted.wellFormed {x y : Expr} (h : Shifted a b x y) (ha : a.WellFormed)
    (hb : b.WellFormed) : x.WellFormed ∧ y.WellFormed := by
  cases h with
  | less => exact ⟨ha, hb⟩
  | leq hb' => exact ⟨ha, hb.addConst hb'⟩
  | greater => exact ⟨hb, ha⟩
  | geq ha' => exact ⟨hb, ha.addConst ha'⟩

theorem Shifted.near {x y : Expr} (h : Shifted a b x y) (hab : a.value σ - b.value σ < bigM)
    (hba : b.value σ - a.value σ < bigM) :
    y.value σ - x.value σ ≤ bigM ∧ x.value σ - y.value σ < bigM := by
  cases h with
  | less => omega
  | leq hb => have := Expr.value_addConst σ hb; omega
  | greater => omega
  | geq ha => have := Expr.value_addConst σ ha; omega

/-- In every model and with every big-M a comparison is the same one comparison by `less`, or the
same two of them and a connective, or an overflow. -/
theorem compare_forms (op : Comparison) (a b : Expr) :
    (∀ (m : Model) (bigM : Int), m.compare op a b bigM = none) ∨
      (∃ x y, Shifted a b x y ∧
        ∀ (m : Model) (bigM : Int), m.compare op a b bigM = m.less x y bigM) ∨
      ∃ x y x' y' join, Shifted a b x y ∧ Shifted a b x' y' ∧
        (join = conjunction ∨ join = disjunction) ∧
        ∀ (m : Model) (bigM : Int), m.compare op a b bigM =
          joined (less · x y bigM) (less · x' y' bigM) (fun m u v => join m [u, v]) m := by
  cases op with
  | less => exact .inr (.inl ⟨a, b, .less, fun _ _ => rfl⟩)
  | greater => exact .inr (.inl ⟨b, a, .greater, fun _ _ => rfl⟩)
  | leq =>
    cases hb : b.addConst 1 with
    | none => exact .inl fun m _ => by simp [compare, leq, hb]
    | some b' => exact .inr (.inl ⟨a, b', .leq hb, fun m _ => by simp [compare, leq, hb]⟩)
  | geq =>
    cases ha : a.addConst 1 with
    | none => exact .inl fun m _ => by simp [compare, geq, ha]
    | some a' => exact .inr (.inl ⟨b, a', .geq ha, fun m _ => by simp [compare, geq, ha]⟩)
  | eq =>
    cases hb : b.addConst 1 with
    | none => exact .inl fun m _ => by simp [compare, eq, joined, leq, hb]
    | some b' =>
      cases ha : a.addConst 1 with
      | none =>
        refine .inl ?_
        intro m bigM
        simp only [compare, eq, joined, geq, ha]
        split <;> rfl
      | some a' =>
        refine .inr (.inr ⟨a, b', b, a', conjunction, .leq hb, .geq ha, .inl rfl, ?_⟩)
        intro m bigM
        simp only [compare, eq, joined, leq, geq, hb, ha, and2_eq]
  | neq =>
    refine .inr (.inr ⟨a, b, b, a, disjunction, .less, .greater, .inr rfl, ?_⟩)
    intro m bigM
    simp only [compare, neq, joined, greater, or2_eq]

theorem joined_eq_some_iff {first second : Model → Option Encoded}
    {join : Model → Var → Var → Option Encoded} :
    joined first second join m = some e ↔
      ∃ p q r, first m = some p ∧ second p.model = some q ∧
        join q.model p.indicator q.indicator = some r ∧
        e = ⟨r.model, r.indicator, p.rows ++ q.rows ++ r.rows⟩ := by
  simp only [joined]
  constructor
  · intro h
    split at h
    · cases h
    · rename_i p hp
      split at h
      · cases h
      · rename_i q hq
        split at h
        · cases h
        · rename_i r hr
          cases h
          exact ⟨p, q, r, hp, hq, hr, rfl⟩
  · rintro ⟨p, q, r, hp, hq, hr, rfl⟩
    simp only [hp, hq, hr]

theorem joined_cases {x y x' y' : Expr} {join : Model → List Var → Option Encoded}
    (hjoin : join = conjunction ∨ join = disjunction)
    (h : joined (less · x y bigM) (less · x' y' bigM) (fun m u v => join m [u, v]) m = some e) :
    ∃ p q r, m.less x y bigM = some p ∧ p.model.less x' y' bigM = some q ∧
      join q.model [p.indicator, q.indicator] = some r ∧
      e = ⟨r.model, r.indicator, p.rows ++ q.rows ++ r.rows⟩ ∧
      q.model.Grows r.model ∧ p.model.Grows q.model ∧
      ∀ v ∈ [p.indicator, q.indicator], q.model.kind? v = some .binary := by
  obtain ⟨p, q, r, hp, hq, hr, rfl⟩ := joined_eq_some_iff.1 h
  have hpq : p.model.Grows q.model := indicate_grows hq
  refine ⟨p, q, r, hp, hq, hr, rfl, ?_, hpq, ?_⟩
  · rcases hjoin with rfl | rfl <;> exact indicate_grows hr
  · intro v hv
    simp only [List.mem_cons, List.not_mem_nil, or_false] at hv
    rcases hv with rfl | rfl
    · exact (hpq.indicates (indicate_indicates hp)).kind?
    · exact (indicate_indicates hq).kind?

theorem compare_asks {op : Comparison} (h : m.compare op a b bigM = some e)
    (ha : a.WellFormed) (hb : b.WellFormed) (hab : ∀ v ∈ a.vars ++ b.vars, v < m.size) :
    m.Asks e.model := by
  rcases compare_forms op a b with hnone | ⟨x, y, hxy, hform⟩ |
    ⟨x, y, x', y', join, hxy, hxy', hjoin, hform⟩
  · rw [hnone] at h; cases h
  · rw [hform] at h
    obtain ⟨hx, hy⟩ := hxy.wellFormed ha hb
    exact less_asks h hx hy fun v hv => hab v (hxy.vars hv)
  · rw [hform] at h
    obtain ⟨p, q, r, hp, hq, hr, rfl, -, -, hbin⟩ := joined_cases hjoin h
    obtain ⟨hx, hy⟩ := hxy.wellFormed ha hb
    obtain ⟨hx', hy'⟩ := hxy'.wellFormed ha hb
    have hmp : m.Asks p.model := less_asks hp hx hy fun v hv => hab v (hxy.vars hv)
    have hpq : p.model.Asks q.model := less_asks hq hx' hy' fun v hv =>
      Nat.lt_of_lt_of_le (hab v (hxy'.vars hv)) hmp.grows.size_le
    have hops : ∀ v ∈ [p.indicator, q.indicator], v < q.model.size := fun v hv => by
      obtain ⟨c, hc, -⟩ := kind?_eq_some_iff.1 (hbin v hv)
      exact lt_size_of_column hc
    have hqr : q.model.Asks r.model := by
      rcases hjoin with rfl | rfl
      · exact conjunction_asks hr hops
      · exact disjunction_asks hr hops
    exact (hmp.trans hpq).trans hqr

theorem compare_fixes {op : Comparison} (h : m.compare op a b bigM = some e) :
    m.Fixes e.model e.rows := by
  rcases compare_forms op a b with hnone | ⟨x, y, -, hform⟩ |
    ⟨x, y, x', y', join, -, -, hjoin, hform⟩
  · rw [hnone] at h; cases h
  · rw [hform] at h
    exact less_fixes h
  · rw [hform] at h
    obtain ⟨p, q, r, hp, hq, hr, rfl, hqr, hpq, hbin⟩ := joined_cases hjoin h
    have hfix : q.model.Fixes r.model r.rows := by
      rcases hjoin with rfl | rfl
      · exact conjunction_fixes hr hbin
      · exact disjunction_fixes hr hbin
    exact ((less_fixes hp).trans (less_fixes hq) hpq).trans hfix hqr

/-- With a big-M that exceeds the distance of the two values, the rows of a comparison hold where
the indicators have the truth values of their keys. -/
theorem compare_complete {op : Comparison} (h : m.compare op a b bigM = some e)
    (hp : e.model.IsPoint σ) (hf : e.model.Faithful σ) (hab : a.value σ - b.value σ < bigM)
    (hba : b.value σ - a.value σ < bigM) : AllHold σ e.rows := by
  rcases compare_forms op a b with hnone | ⟨x, y, hxy, hform⟩ |
    ⟨x, y, x', y', join, hxy, hxy', hjoin, hform⟩
  · rw [hnone] at h; cases h
  · rw [hform] at h
    exact less_complete h hp hf (hxy.near hab hba).1 (hxy.near hab hba).2
  · rw [hform] at h
    obtain ⟨p, q, r, hp', hq, hr, rfl, hqr, hpq, hbin⟩ := joined_cases hjoin h
    have hqp := hqr.isPoint hp
    have hqf := hqr.faithful hf
    have hrows₁ := less_complete hp' (hpq.isPoint hqp) (hpq.faithful hqf) (hxy.near hab hba).1
      (hxy.near hab hba).2
    have hrows₂ := less_complete hq hqp hqf (hxy'.near hab hba).1 (hxy'.near hab hba).2
    have hrows₃ : AllHold σ r.rows := by
      rcases hjoin with rfl | rfl
      · exact (conjunction_hold_iff hr (fun v hv => hqp v (hbin v hv)) hp).2
          ((indicate_faithful_iff hr rfl).1 hf).2
      · exact (disjunction_hold_iff hr (fun v hv => hqp v (hbin v hv)) hp).2
          ((indicate_faithful_iff hr rfl).1 hf).2
    simp only [allHold_append]
    exact ⟨⟨hrows₁, hrows₂⟩, hrows₃⟩

end Comparison

end Model
end Linearize
