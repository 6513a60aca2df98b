import Mathlib.Logic.Equiv.Basic
import Linearize.Proofs.Renaming
import Linearize.Proofs.Stability

/-!
# Linearize.Proofs.Embedding

A model inside another one. Let the columns of `m` stand in `n` under other names, and let `n` have
all that a statement asks for. Then the statement can be encoded in `m`, the renaming extends to the
columns that it asks for, and the rows are those that it has in `n` under their names there.
-/

namespace Linearize

variable {π ρ τ : Equiv.Perm Var}

/-! ## Declared names stay -/

section Fixed

variable {s : Scope} (hfix : ∀ v, s.Declares v → π v = v)

include hfix

theorem Scope.Covers.rename_eq {e : Expr} (he : s.Covers e) : e.rename π = e :=
  Expr.rename_eq_self he.wellFormed fun v hv => hfix v (he.vars v hv)

theorem Scope.map_rename_eq {cs : List Constraint} (hcs : ∀ c ∈ cs, s.CoversRow c) :
    cs.map (Constraint.rename π) = cs := by
  apply map_eq_self
  intro c hc
  have hl := Scope.Covers.rename_eq hfix (hcs c hc).1
  have hr := Scope.Covers.rename_eq hfix (hcs c hc).2
  cases c with
  | le l r => exact congrArg₂ Constraint.le hl hr
  | eq l r => exact congrArg₂ Constraint.eq hl hr

theorem Scope.map_truths_eq {vs : List Var} (hvs : ∀ v ∈ vs, s.DeclaresBinary v) :
    vs.map π = vs := by
  apply map_eq_self
  intro v hv
  exact hfix v (hvs v hv).declares

end Fixed

theorem map_rename_eq_of_some {o : Option (List Constraint)} {rows : List Constraint}
    (h : o = o.map (List.map (Constraint.rename π))) (ho : o = some rows) :
    rows.map (Constraint.rename π) = rows := by
  subst ho
  exact (Option.some.inj h).symm

theorem coverRows_fixed {vs : List Var} {cover : List Pattern} {rows : List Constraint}
    (hvs : vs.map π = vs) (h : coverRows vs cover = some rows) :
    rows.map (Constraint.rename π) = rows := by
  have hrows := coverRows_rename (π := π) vs cover
  rw [hvs] at hrows
  exact map_rename_eq_of_some hrows h

theorem exclusiveOrRows_fixed {inputs : List Var} {output : Var} {rows : List Constraint}
    (hin : inputs.map π = inputs) (hout : π output = output)
    (h : Statement.exclusiveOrRows inputs output = .ok rows) :
    rows.map (Constraint.rename π) = rows := by
  simp only [Statement.exclusiveOrRows] at h
  split at h
  · rename_i a b
    obtain ⟨ha, hb⟩ : π a = a ∧ π b = b := by simpa using hin
    have hrows := xorRows_rename (π := π) (a := a) (b := b) (c := output)
    rw [ha, hb, hout] at hrows
    exact map_rename_eq_of_some hrows (orOverflow_eq_ok_iff.1 h)
  · simp only [parityRows] at h
    split at h
    · cases h
    · refine coverRows_fixed ?_ (orOverflow_eq_ok_iff.1 h)
      rw [List.map_append, hin, List.map_singleton, hout]

theorem relationRows_fixed {width : Nat} {cover : List Pattern} {a b c : List Var}
    {rows : List Constraint} (hvs : ∀ v ∈ a ++ b ++ c, π v = v)
    (h : relationRows width cover a b c = .ok rows) : rows.map (Constraint.rename π) = rows :=
  coverRows_fixed (map_eq_self hvs) (relationRows_eq_ok h).2.2.2

theorem ifThen_fixed {cond : Var} {body rows : List Constraint} {bigM : Int} (hc : π cond = cond)
    (hbody : body.map (Constraint.rename π) = body ∧ ∀ c ∈ body, c.WellFormed)
    (h : ifThen cond body bigM = some rows) : rows.map (Constraint.rename π) = rows := by
  have hrows : ifThen (π cond) (body.map (Constraint.rename π)) bigM =
      (ifThen cond body bigM).map (List.map (Constraint.rename π)) := ifThen_rename hbody.2
  rw [hc, hbody.1] at hrows
  exact map_rename_eq_of_some hrows h

theorem ifThenElse_fixed {cond : Var} {body otherwise rows : List Constraint} {bigM : Int}
    (hc : π cond = cond)
    (hbody : body.map (Constraint.rename π) = body ∧ ∀ c ∈ body, c.WellFormed)
    (hother : otherwise.map (Constraint.rename π) = otherwise ∧ ∀ c ∈ otherwise, c.WellFormed)
    (h : ifThenElse cond body otherwise bigM = some rows) :
    rows.map (Constraint.rename π) = rows := by
  have hrows : ifThenElse (π cond) (body.map (Constraint.rename π))
      (otherwise.map (Constraint.rename π)) bigM =
        (ifThenElse cond body otherwise bigM).map (List.map (Constraint.rename π)) :=
    ifThenElse_rename hbody.2 hother.2
  rw [hc, hbody.1, hother.1] at hrows
  exact map_rename_eq_of_some hrows h

theorem Scope.CoversRow.wellFormed {s : Scope} {c : Constraint} (hc : s.CoversRow c) :
    c.WellFormed := ⟨hc.1.wellFormed, hc.2.wellFormed⟩

/-- Of a chain over declared names only the selectors are renamed. -/
theorem selectorRows_fixed {s : Scope} {conds ss : List Var} {bodies : List (List Constraint)}
    {otherwise : List Constraint} {bigM : Int} (hfix : ∀ v, s.Declares v → π v = v)
    (hc : ∀ v ∈ conds, s.DeclaresBinary v) (hbody : ∀ body ∈ bodies, ∀ c ∈ body, s.CoversRow c)
    (hother : ∀ c ∈ otherwise, s.CoversRow c) :
    selectorRows conds (ss.map π) bodies otherwise bigM =
      (selectorRows conds ss bodies otherwise bigM).map (List.map (Constraint.rename π)) := by
  have hbodies : bodies.map (List.map (Constraint.rename π)) = bodies :=
    map_eq_self fun body hb => Scope.map_rename_eq hfix (hbody body hb)
  rw [← selectorRows_rename (fun body hb c hcb => (hbody body hb c hcb).wellFormed)
    (fun c hco => (hother c hco).wellFormed), Scope.map_truths_eq hfix hc, hbodies,
    Scope.map_rename_eq hfix hother]

namespace Model

variable {m m' m₁ n : Model} {rows rows' : List Constraint}

/-- Every column of `m` stands in `n` under its new name, its key renamed. -/
def Embeds (m : Model) (π : Equiv.Perm Var) (n : Model) : Prop :=
  ∀ (v : Var) (c : Column), m.columns[v]? = some c → n.columns[π v]? = some (c.rename π)

def Keeps (m : Model) (π ρ : Equiv.Perm Var) : Prop := ∀ v, v < m.size → ρ v = π v

theorem Keeps.trans (h₁ : m.Keeps π ρ) (h₂ : m'.Keeps ρ τ) (hg : m.Grows m') : m.Keeps π τ :=
  fun v hv => (h₂ v (Nat.lt_of_lt_of_le hv hg.size_le)).trans (h₁ v hv)

/-- A permutation changed at one place; the place that loses its value there is the only other one
that changes. -/
theorem exists_extension (π : Equiv.Perm Var) (u w : Var) :
    ∃ ρ : Equiv.Perm Var, ρ u = w ∧ ∀ v, v ≠ u → π v ≠ w → ρ v = π v := by
  refine ⟨(Equiv.swap u (π.symm w)).trans π, ?_, ?_⟩
  · rw [Equiv.trans_apply, Equiv.swap_apply_left, Equiv.apply_symm_apply]
  · intro v hvu hvw
    have hne : v ≠ π.symm w := by
      rintro rfl
      exact hvw (Equiv.apply_symm_apply π w)
    rw [Equiv.trans_apply, Equiv.swap_apply_of_ne_of_ne hvu hne]

theorem Embeds.ne_of_new {k : Key} {v w : Var} (h : m.Embeds π n) (hm : m.Orderly)
    (hk : k.WellFormed) (hnew : ∀ v, ¬ m.Indicates v k) (hw : n.Indicates w (k.rename π))
    (hv : v < m.size) : π v ≠ w := by
  rintro rfl
  obtain ⟨⟨key, kind⟩, hc⟩ := exists_column hv
  have hcol := h v _ hc
  rw [show n.columns[π v]? = _ from hw] at hcol
  obtain ⟨hkey, hkind⟩ := Column.mk.inj (Option.some.inj hcol)
  obtain rfl : k = key := Key.rename_injective hk (hm.wellFormed v _ hc) hkey
  cases hkind
  exact hnew v hc

theorem Embeds.binary {k : Key} {w : Var} (h : m.Embeds π n) (hm : m.Orderly) (hn : n.Distinct)
    (hk : m.Admits k) (hw : n.Indicates w (k.rename π)) :
    ∃ ρ, m.Keeps π ρ ∧ (m.binary k).1.Embeds ρ n ∧ ρ (m.binary k).2 = w := by
  rcases m.binary_cases k with ⟨v, hv, hb⟩ | ⟨hnone, hb⟩
  · rw [hb]
    exact ⟨π, fun _ _ => rfl, h, hn (π v) w _ _ (h v _ hv) hw rfl rfl⟩
  · obtain ⟨ρ, hnew, hold⟩ := exists_extension π m.size w
    have hkeep : m.Keeps π ρ := fun v hv =>
      hold v (Nat.ne_of_lt hv) (h.ne_of_new hm hk.wellFormed hnone hw hv)
    rw [hb]
    refine ⟨ρ, hkeep, ?_, hnew⟩
    intro v c hc
    rcases column_addColumn_iff.1 hc with hc | ⟨rfl, rfl⟩
    · -- the operands of an old key are old columns
      have hlt := lt_size_of_column hc
      have hkey : c.key.rename ρ = c.key.rename π :=
        Key.rename_congr fun u hu => hkeep u (Nat.lt_trans (hm.acyclic v c hc u hu) hlt)
      rw [hkeep v hlt, Column.rename, hkey]
      exact h v c hc
    · have hkey : k.rename ρ = k.rename π :=
        Key.rename_congr fun u hu => hkeep u (hk.operands u hu)
      rw [hnew, Column.rename, hkey]
      exact hw

/-- What leads from `m` to `m'` and gives `rows` is what gives `rows'` in `n`, under the names that
`ρ` adds to those of `π`. -/
structure Follows (m n : Model) (π ρ : Equiv.Perm Var) (m' : Model)
    (rows rows' : List Constraint) : Prop where
  asks : m.Asks m'
  keeps : m.Keeps π ρ
  embeds : m'.Embeds ρ n
  rows : ∀ τ, m'.Keeps ρ τ → rows' = rows.map (Constraint.rename τ)

theorem Follows.trans {σ : Equiv.Perm Var} {later later' : List Constraint}
    (h₁ : Follows m n π ρ m₁ rows rows') (h₂ : Follows m₁ n ρ σ m' later later') :
    Follows m n π σ m' (rows ++ later) (rows' ++ later') where
  asks := h₁.asks.trans h₂.asks
  keeps := h₁.keeps.trans h₂.keeps h₁.asks.grows
  embeds := h₂.embeds
  rows := by
    intro τ hτ
    rw [List.map_append, ← h₂.rows τ hτ, ← h₁.rows τ (h₂.keeps.trans hτ h₂.asks.grows)]

theorem Embeds.follows (h : m.Embeds π n)
    (hrows : ∀ τ, m.Keeps π τ → rows.map (Constraint.rename τ) = rows) :
    Follows m n π π m rows rows where
  asks := .refl m
  keeps := fun _ _ => rfl
  embeds := h
  rows := fun τ hτ => (hrows τ hτ).symm

/-! ## Indicators -/

/-- The rows of a request commute with every renaming that keeps the columns of `m`. -/
theorem indicate_embeds {k : Key} {write write' : Var → Option (List Constraint)} {f : Encoded}
    (h : m.Embeds π n) (hm : m.Orderly) (hn : n.Distinct) (hk : m.Admits k)
    (hwrite : ∀ τ, m.Keeps π τ → ∀ r,
      write' (τ r) = (write r).map (List.map (Constraint.rename τ)))
    (hf : n.indicate (k.rename π) write' = some f) (hself : f.model = n) :
    ∃ e ρ, m.indicate k write = some e ∧ f.indicator = ρ e.indicator ∧
      Follows m n π ρ e.model e.rows f.rows := by
  obtain ⟨-, -, hrows⟩ := indicate_eq_some_iff.1 hf
  have hw : n.Indicates f.indicator (k.rename π) := by
    have hind := indicate_indicates hf
    rwa [hself] at hind
  obtain ⟨ρ, hkeep, hembeds, hρ⟩ := h.binary hm hn hk hw
  have hg : m.Grows (m.binary k).1 := binary_grows m k
  rw [← hρ, hwrite ρ hkeep, Option.map_eq_some_iff] at hrows
  obtain ⟨cs, hcs, -⟩ := hrows
  refine ⟨⟨(m.binary k).1, (m.binary k).2, cs⟩, ρ, indicate_eq_some_iff.2 ⟨rfl, rfl, hcs⟩, hρ.symm,
    .single hk, hkeep, hembeds, ?_⟩
  intro τ hτ
  have hτr : τ (m.binary k).2 = f.indicator :=
    (hτ _ (binary_indicates m k).lt_size).trans hρ
  have hall := hwrite τ (hkeep.trans hτ hg) (m.binary k).2
  rw [hτr, hcs, (indicate_eq_some_iff.1 hf).2.2] at hall
  exact Option.some.inj hall

/-- The columns of the declared names are there, under names that stay. -/
def Settles (m : Model) (s : Scope) (π : Equiv.Perm Var) : Prop :=
  ∀ v, s.Declares v → v < m.size ∧ π v = v

theorem Settles.fixed {s : Scope} (h : m.Settles s π) (hkeep : m.Keeps π τ) :
    ∀ v, s.Declares v → τ v = v :=
  fun v hv => (hkeep v (h v hv).1).trans (h v hv).2

theorem Settles.grows {s : Scope} (h : m.Settles s π) (hkeep : m.Keeps π ρ) (hg : m.Grows m') :
    m'.Settles s ρ :=
  fun v hv => ⟨Nat.lt_of_lt_of_le (h v hv).1 hg.size_le, h.fixed hkeep v hv⟩

section Scope

variable {s : Scope} {bigM : Int} {f : Encoded}

theorem less_embeds {a b : Expr} (h : m.Embeds π n) (hm : m.Orderly) (hn : n.Distinct)
    (hs : m.Settles s π) (ha : s.Covers a) (hb : s.Covers b) (hf : n.less a b bigM = some f)
    (hself : f.model = n) :
    ∃ e ρ, m.less a b bigM = some e ∧ f.indicator = ρ e.indicator ∧
      Follows m n π ρ e.model e.rows f.rows := by
  have hfix : ∀ τ, m.Keeps π τ → a.rename τ = a ∧ b.rename τ = b := fun τ hτ =>
    ⟨Scope.Covers.rename_eq (hs.fixed hτ) ha, Scope.Covers.rename_eq (hs.fixed hτ) hb⟩
  have hops : ∀ v ∈ a.vars ++ b.vars, v < m.size := by
    refine List.forall_mem_append.2 ⟨?_, ?_⟩
    · intro v hv
      exact (hs v (ha.vars v hv)).1
    · intro v hv
      exact (hs v (hb.vars v hv)).1
  have hkey : (Key.less a b).rename π = .less a b := by
    obtain ⟨ha', hb'⟩ := hfix π fun _ _ => rfl
    rw [Key.rename, ha', hb']
  have hf' : n.indicate ((Key.less a b).rename π) (lessRows a b bigM) = some f := by
    rw [hkey]
    exact hf
  refine indicate_embeds h hm hn ⟨rfl, ⟨ha.wellFormed, hb.wellFormed⟩, hops⟩ ?_
    hf' hself
  intro τ hτ r
  obtain ⟨ha', hb'⟩ := hfix τ hτ
  have hrows : lessRows (a.rename τ) (b.rename τ) bigM (τ r) =
      (lessRows a b bigM r).map (List.map (Constraint.rename τ)) := lessRows_rename hb.wellFormed
  rwa [ha', hb'] at hrows

theorem connective_embeds {join : Model → List Var → Option Encoded} {vs : List Var}
    (hjoin : join = conjunction ∨ join = disjunction) (h : m.Embeds π n) (hm : m.Orderly)
    (hn : n.Distinct) (hvs : ∀ v ∈ vs, v < m.size) (hf : join n (vs.map π) = some f)
    (hself : f.model = n) :
    ∃ e ρ, join m vs = some e ∧ f.indicator = ρ e.indicator ∧
      Follows m n π ρ e.model e.rows f.rows := by
  have hmap : ∀ τ, m.Keeps π τ → vs.map π = vs.map τ := fun τ hτ =>
    List.map_congr_left fun v hv => (hτ v (hvs v hv)).symm
  rcases hjoin with rfl | rfl
  · refine indicate_embeds (k := .and vs) h hm hn ⟨rfl, trivial, hvs⟩ ?_ hf hself
    intro τ hτ r
    rw [hmap τ hτ]
    exact andRows_rename
  · refine indicate_embeds (k := .or vs) h hm hn ⟨rfl, trivial, hvs⟩ ?_ hf hself
    intro τ hτ r
    rw [hmap τ hτ]
    exact orRows_rename

theorem compare_embeds {op : Comparison} {a b : Expr} (h : m.Embeds π n) (hm : m.Orderly)
    (hn : n.Distinct) (hs : m.Settles s π) (ha : s.Covers a) (hb : s.Covers b)
    (hf : n.compare op a b bigM = some f) (hself : f.model = n) :
    ∃ e ρ, m.compare op a b bigM = some e ∧ f.indicator = ρ e.indicator ∧
      Follows m n π ρ e.model e.rows f.rows := by
  have hcovers : ∀ {x y}, Shifted a b x y → s.Covers x ∧ s.Covers y := by
    intro x y hxy
    obtain ⟨hx, hy⟩ := hxy.wellFormed ha.wellFormed hb.wellFormed
    have hvars : ∀ v ∈ x.vars ++ y.vars, s.Declares v := fun v hv =>
      List.forall_mem_append.2 ⟨ha.vars, hb.vars⟩ v (hxy.vars hv)
    obtain ⟨hvx, hvy⟩ := List.forall_mem_append.1 hvars
    exact ⟨⟨hx, hvx⟩, ⟨hy, hvy⟩⟩
  rcases compare_forms op a b with hnone | ⟨x, y, hxy, hform⟩ |
    ⟨x, y, x', y', join, hxy, hxy', hjoin, hform⟩
  · rw [hnone] at hf
    cases hf
  · rw [hform] at hf ⊢
    exact less_embeds h hm hn hs (hcovers hxy).1 (hcovers hxy).2 hf hself
  · rw [hform] at hf ⊢
    obtain ⟨p, q, r, hp, hq, hr, rfl, hqr, hpq, -⟩ := joined_cases hjoin hf
    -- `n` has all three indicators, so none of the three steps changes it
    have hpn : p.model = n := Grows.antisymm (hself ▸ hpq.trans hqr) (indicate_grows hp)
    have hqn : q.model = n := Grows.antisymm (hself ▸ hqr) (hpn ▸ hpq)
    rw [hpn] at hq
    rw [hqn] at hr
    obtain ⟨e₁, ρ₁, he₁, hi₁, h₁⟩ :=
      less_embeds h hm hn hs (hcovers hxy).1 (hcovers hxy).2 hp hpn
    have hm₁ := h₁.asks.orderly hm
    obtain ⟨e₂, ρ₂, he₂, hi₂, h₂⟩ := less_embeds h₁.embeds hm₁ hn (hs.grows h₁.keeps h₁.asks.grows)
      (hcovers hxy').1 (hcovers hxy').2 hq hqn
    have hlt₁ : e₁.indicator < e₁.model.size := (indicate_indicates he₁).lt_size
    have hlt₂ : e₂.indicator < e₂.model.size := (indicate_indicates he₂).lt_size
    have hops : ∀ v ∈ [e₁.indicator, e₂.indicator], v < e₂.model.size :=
      List.forall_mem_cons.2 ⟨Nat.lt_of_lt_of_le hlt₁ h₂.asks.grows.size_le,
        List.forall_mem_singleton.2 hlt₂⟩
    have hmap : [p.indicator, q.indicator] = [e₁.indicator, e₂.indicator].map ρ₂ := by
      rw [List.map_cons, List.map_singleton, hi₁, hi₂, h₂.keeps _ hlt₁]
    rw [hmap] at hr
    obtain ⟨e₃, ρ₃, he₃, hi₃, h₃⟩ :=
      connective_embeds hjoin h₂.embeds (h₂.asks.orderly hm₁) hn hops hr hself
    exact ⟨⟨e₃.model, e₃.indicator, e₁.rows ++ e₂.rows ++ e₃.rows⟩, ρ₃,
      joined_eq_some_iff.2 ⟨e₁, e₂, e₃, he₁, he₂, he₃, rfl⟩, hi₃, (h₁.trans h₂).trans h₃⟩

/-! ## Chains -/

theorem selectors_embeds {conds rest ss : List Var} {i : Nat} (h : m.Embeds π n) (hm : m.Orderly)
    (hn : n.Distinct) (hc : ∀ v ∈ conds, v < m.size ∧ π v = v)
    (hf : n.selectors conds i rest = (n, ss)) :
    ∃ ρ, m.Keeps π ρ ∧ (m.selectors conds i rest).1.Embeds ρ n ∧
      ss = (m.selectors conds i rest).2.map ρ := by
  induction rest generalizing m π i ss with
  | nil =>
    cases hf
    exact ⟨π, fun _ _ => rfl, h, rfl⟩
  | cons c rest ih =>
    rw [selectors_cons] at hf ⊢
    obtain ⟨hmodel, hss⟩ := Prod.mk.inj hf
    have hself : (n.binary (.selector conds i)).1 = n := by
      have hg := selectors_grows (n.binary (.selector conds i)).1 conds (i + 1) rest
      rw [hmodel] at hg
      exact Grows.antisymm hg (binary_grows n _)
    rw [hself] at hmodel hss
    have hadmits : m.Admits (.selector conds i) := ⟨rfl, trivial, fun v hv => (hc v hv).1⟩
    have hkey : (Key.selector conds i).rename π = .selector conds i :=
      Key.rename_eq_self trivial fun v hv => (hc v hv).2
    have hw : n.Indicates (n.binary (.selector conds i)).2 ((Key.selector conds i).rename π) := by
      have hind := binary_indicates n (.selector conds i)
      rw [hself] at hind
      rw [hkey]
      exact hind
    obtain ⟨ρ₁, hkeep₁, hembeds₁, hρ₁⟩ := h.binary hm hn hadmits hw
    have hasks : m.Asks (m.binary (.selector conds i)).1 := .single hadmits
    have hc₁ : ∀ v ∈ conds, v < (m.binary (.selector conds i)).1.size ∧ ρ₁ v = v := fun v hv =>
      ⟨Nat.lt_of_lt_of_le (hc v hv).1 hasks.grows.size_le,
        (hkeep₁ v (hc v hv).1).trans (hc v hv).2⟩
    have hlater : n.selectors conds (i + 1) rest = (n, (n.selectors conds (i + 1) rest).2) :=
      Prod.ext hmodel rfl
    obtain ⟨ρ, hkeep, hembeds, hrest⟩ := ih hembeds₁ (hasks.orderly hm) hc₁ hlater
    refine ⟨ρ, hkeep₁.trans hkeep hasks.grows, hembeds, ?_⟩
    have hfirst := (hkeep _ (binary_indicates m (.selector conds i)).lt_size).trans hρ₁
    rw [← hss, List.map_cons, hfirst, ← hrest]

theorem chain_embeds {conds : List Var} {bodies : List (List Constraint)}
    {otherwise : List Constraint} (h : m.Embeds π n) (hm : m.Orderly) (hn : n.Distinct)
    (hs : m.Settles s π) (hc : ∀ v ∈ conds, s.DeclaresBinary v)
    (hcs : ∀ c ∈ bodies.flatten ++ otherwise, s.CoversRow c)
    (hf : n.chain conds bodies otherwise bigM = .ok (n, rows')) :
    ∃ m' rows ρ, m.chain conds bodies otherwise bigM = .ok (m', rows) ∧
      Follows m n π ρ m' rows rows' := by
  obtain ⟨hbodies, hother⟩ := List.forall_mem_append.1 hcs
  have hbody : ∀ body ∈ bodies, ∀ c ∈ body, s.CoversRow c := fun body hb c hc =>
    hbodies c (List.mem_flatten_of_mem hb hc)
  obtain ⟨hlen, ⟨rfl, -, rfl⟩ | ⟨c, body, rfl, rfl, -, hrows⟩ | ⟨htwo, hself, hrows⟩⟩ :=
    chain_eq_ok_iff.1 hf
  · refine ⟨m, rows', π, chain_eq_ok_iff.2 ⟨hlen, .inl ⟨rfl, rfl, rfl⟩⟩, h.follows ?_⟩
    intro τ hτ
    exact Scope.map_rename_eq (hs.fixed hτ) hother
  · refine ⟨m, rows', π, chain_eq_ok_iff.2 ⟨hlen, .inr (.inl ⟨c, body, rfl, rfl, rfl, hrows⟩)⟩,
      h.follows ?_⟩
    intro τ hτ
    have hfix := hs.fixed hτ
    refine ifThenElse_fixed (hfix c (hc c List.mem_cons_self).declares) ?_ ?_ hrows
    · exact ⟨Scope.map_rename_eq hfix (hbody body List.mem_cons_self),
        fun d hd => (hbody body List.mem_cons_self d hd).wellFormed⟩
    · exact ⟨Scope.map_rename_eq hfix hother, fun d hd => (hother d hd).wellFormed⟩
  · have hvars : ∀ v ∈ conds, v < m.size ∧ π v = v := fun v hv => hs v (hc v hv).declares
    have hselectors : n.selectors conds 0 conds = (n, (n.selectors conds 0 conds).2) :=
      Prod.ext hself.symm rfl
    obtain ⟨ρ, hkeep, hembeds, hss⟩ := selectors_embeds h hm hn hvars hselectors
    have hasks : m.Asks (m.selectors conds 0 conds).1 :=
      selectors_asks 0 conds fun v hv => (hvars v hv).1
    -- the same rows under every renaming that keeps the columns
    have hall : ∀ τ, (m.selectors conds 0 conds).1.Keeps ρ τ →
        (selectorRows conds (m.selectors conds 0 conds).2 bodies otherwise bigM).map
          (List.map (Constraint.rename τ)) = some rows' := by
      intro τ hτ
      have hfix := hs.fixed (hkeep.trans hτ hasks.grows)
      have hssτ : (n.selectors conds 0 conds).2 = (m.selectors conds 0 conds).2.map τ := by
        rw [hss]
        refine List.map_congr_left fun v hv => (hτ v ?_).symm
        obtain ⟨j, hj⟩ := List.getElem?_of_mem hv
        exact (selectors_indicates m conds 0 conds hj).lt_size
      rw [← selectorRows_fixed hfix hc hbody hother, ← hssτ]
      exact hrows
    obtain ⟨rows, hsome, -⟩ := Option.map_eq_some_iff.1 (hall ρ fun _ _ => rfl)
    refine ⟨_, rows, ρ, chain_eq_ok_iff.2 ⟨hlen, .inr (.inr ⟨htwo, rfl, hsome⟩)⟩, hasks, hkeep,
      hembeds, ?_⟩
    intro τ hτ
    have hτrows := hall τ hτ
    rw [hsome] at hτrows
    exact (Option.some.inj hτrows).symm

end Scope

end Model

/-- A statement that is closed in `n` can be encoded in a model inside `n`. -/
theorem Statement.encode_embeds {m n : Model} {s : Scope} {x : Statement} {bigM : Int}
    {rows' : List Constraint} (h : m.Embeds π n) (hm : m.Orderly) (hn : n.Distinct)
    (hs : m.Settles s π) (hx : x.InScope s) (hf : x.encode n bigM = .ok (n, rows')) :
    ∃ m' rows ρ, x.encode m bigM = .ok (m', rows) ∧ m.Follows n π ρ m' rows rows' := by
  have htruths : ∀ v ∈ x.truths, v < m.size ∧ π v = v := fun v hv =>
    hs v (hx.truths v hv).declares
  have hfix : ∀ τ, m.Keeps π τ → ∀ v ∈ x.truths, τ v = v := fun τ hτ v hv =>
    hs.fixed hτ v (hx.truths v hv).declares
  have hsets : ∀ τ, m.Keeps π τ → ∀ cs : List Constraint, cs ⊆ x.constraints →
      cs.map (Constraint.rename τ) = cs ∧ ∀ c ∈ cs, c.WellFormed := fun τ hτ cs hcs =>
    ⟨Scope.map_rename_eq (hs.fixed hτ) fun c hc => hx.constraints c (hcs hc),
      fun c hc => (hx.constraints c (hcs hc)).wellFormed⟩
  cases x with
  | compare op a b M =>
    obtain ⟨f, hcall, hself, rfl⟩ := indicated_eq_ok_iff.1 hf
    obtain ⟨e, ρ, he, -, hfollows⟩ := Model.compare_embeds h hm hn hs
      (hx.compared a (by simp [compared])) (hx.compared b (by simp [compared])) hcall hself
    exact ⟨e.model, e.rows, ρ, indicated_eq_ok_iff.2 ⟨e, he, rfl, rfl⟩, hfollows⟩
  | conjunction vs =>
    obtain ⟨f, hcall, hself, rfl⟩ := indicated_eq_ok_iff.1 hf
    have hvs : vs.map π = vs := Scope.map_truths_eq (fun v hv => (hs v hv).2) hx.truths
    rw [← hvs] at hcall
    obtain ⟨e, ρ, he, -, hfollows⟩ := Model.connective_embeds (.inl rfl) h hm hn
      (fun v hv => (htruths v hv).1) hcall hself
    exact ⟨e.model, e.rows, ρ, indicated_eq_ok_iff.2 ⟨e, he, rfl, rfl⟩, hfollows⟩
  | disjunction vs =>
    obtain ⟨f, hcall, hself, rfl⟩ := indicated_eq_ok_iff.1 hf
    have hvs : vs.map π = vs := Scope.map_truths_eq (fun v hv => (hs v hv).2) hx.truths
    rw [← hvs] at hcall
    obtain ⟨e, ρ, he, -, hfollows⟩ := Model.connective_embeds (.inr rfl) h hm hn
      (fun v hv => (htruths v hv).1) hcall hself
    exact ⟨e.model, e.rows, ρ, indicated_eq_ok_iff.2 ⟨e, he, rfl, rfl⟩, hfollows⟩
  | xor inputs output =>
    obtain ⟨hrows, -⟩ := leavesModel_eq_ok_iff.1 hf
    refine ⟨m, rows', π, leavesModel_eq_ok_iff.2 ⟨hrows, rfl⟩, h.follows ?_⟩
    intro τ hτ
    obtain ⟨hin, hout⟩ := List.forall_mem_append.1 hx.truths
    refine exclusiveOrRows_fixed (Scope.map_truths_eq (hs.fixed hτ) hin) ?_ hrows
    exact hfix τ hτ output (List.mem_append_right _ List.mem_cons_self)
  | truncatedXor vs =>
    obtain ⟨hrows, -⟩ := leavesModel_eq_ok_iff.1 hf
    refine ⟨m, rows', π, leavesModel_eq_ok_iff.2 ⟨hrows, rfl⟩, h.follows ?_⟩
    intro τ hτ
    exact relationRows_fixed (split3_forall bitWidth (hfix τ hτ)) hrows
  | truncatedWordXor vs =>
    obtain ⟨hrows, -⟩ := leavesModel_eq_ok_iff.1 hf
    refine ⟨m, rows', π, leavesModel_eq_ok_iff.2 ⟨hrows, rfl⟩, h.follows ?_⟩
    intro τ hτ
    exact relationRows_fixed (split3_forall wordWidth (hfix τ hτ)) hrows
  | linear row =>
    cases hf
    exact ⟨m, [row], π, rfl, h.follows fun τ hτ => (hsets τ hτ [row] (List.Subset.refl _)).1⟩
  | ifThen cond body M =>
    obtain ⟨hrows, -⟩ := withModel_eq_ok_iff.1 hf
    refine ⟨m, rows', π, withModel_eq_ok_iff.2 ⟨hrows, rfl⟩, h.follows ?_⟩
    intro τ hτ
    exact ifThen_fixed (hfix τ hτ cond List.mem_cons_self)
      (hsets τ hτ body (List.Subset.refl _)) hrows
  | ifThenElse cond body otherwise M =>
    obtain ⟨hrows, -⟩ := withModel_eq_ok_iff.1 hf
    refine ⟨m, rows', π, withModel_eq_ok_iff.2 ⟨hrows, rfl⟩, h.follows ?_⟩
    intro τ hτ
    exact ifThenElse_fixed (hfix τ hτ cond List.mem_cons_self)
      (hsets τ hτ body (List.subset_append_left _ _))
      (hsets τ hτ otherwise (List.subset_append_right _ _)) hrows
  | chain conds bodies otherwise M =>
    exact Model.chain_embeds h hm hn hs hx.truths hx.constraints hf

end Linearize
