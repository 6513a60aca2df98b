import Mathlib.Logic.ExistsUnique
import Linearize.Proofs.Agreement
import Linearize.Proofs.Soundness

/-!
# Linearize.Proofs.Completeness

A point that satisfies what the text says extends to exactly one point of the model that satisfies
the compiled rows, if every big-M is great enough at it. The extension gives each auxiliary column
the truth value of its key. It can be built from the left, since a key refers to columns before its
own.
-/

namespace Linearize

def Model.IsAuxiliary (m : Model) (v : Var) : Prop := ∃ k, m.key? v = some k ∧ k.isNamed = false

namespace Model

variable {m : Model} {σ τ : Var → Int}

/-- Below `n`, every column that stands for a condition has its truth value. -/
def FaithfulBelow (m : Model) (n : Nat) (τ : Var → Int) : Prop :=
  ∀ v k, v < n → m.key? v = some k → k.isNamed = false →
    (τ v = 1 ∧ k.Condition τ) ∨ (τ v = 0 ∧ ¬ k.Condition τ)

theorem key_operands_lt (hm : m.Acyclic) {v : Var} {k : Key} (hk : m.key? v = some k) {u : Var}
    (hu : u ∈ k.operands) : u < v := by
  obtain ⟨c, hc, rfl⟩ := key?_eq_some_iff.1 hk
  exact hm v c hc u hu

/-- Every point can be made faithful by a change of auxiliary columns only. -/
theorem exists_faithfulBelow (hm : m.Acyclic) (σ : Var → Int) (n : Nat) :
    ∃ τ, (∀ v, ¬ m.IsAuxiliary v → τ v = σ v) ∧ m.FaithfulBelow n τ := by
  induction n with
  | zero => exact ⟨σ, fun _ _ => rfl, fun v k hv => absurd hv (Nat.not_lt_zero v)⟩
  | succ n ih =>
    obtain ⟨τ, hsame, hbelow⟩ := ih
    by_cases haux : m.IsAuxiliary n
    · obtain ⟨k, hk, hnamed⟩ := haux
      obtain ⟨b, hb⟩ : ∃ b : Int, (b = 1 ∧ k.Condition τ) ∨ (b = 0 ∧ ¬ k.Condition τ) := by
        by_cases hcond : k.Condition τ
        · exact ⟨1, .inl ⟨rfl, hcond⟩⟩
        · exact ⟨0, .inr ⟨rfl, hcond⟩⟩
      refine ⟨Function.update τ n b, ?_, ?_⟩
      · intro v hv
        rw [Function.update_of_ne, hsame v hv]
        rintro rfl
        exact hv ⟨k, hk, hnamed⟩
      · intro v k' hv hk' hnamed'
        -- no key up to `n` refers to the column `n`
        have hcongr : k'.Condition (Function.update τ n b) ↔ k'.Condition τ := by
          refine Key.condition_congr fun u hu => Function.update_of_ne ?_ _ _
          exact Nat.ne_of_lt (Nat.lt_of_lt_of_le (key_operands_lt hm hk' hu) (Nat.le_of_lt_succ hv))
        rw [hcongr]
        by_cases hvn : v = n
        · subst hvn
          rw [hk] at hk'
          cases hk'
          rw [Function.update_self]
          exact hb
        · rw [Function.update_of_ne hvn]
          exact hbelow v k' (by omega) hk' hnamed'
    · refine ⟨τ, hsame, ?_⟩
      intro v k' hv hk' hnamed'
      refine hbelow v k' ?_ hk' hnamed'
      have hvn : v ≠ n := by
        rintro rfl
        exact haux ⟨k', hk', hnamed'⟩
      omega

theorem FaithfulBelow.faithful (h : m.FaithfulBelow m.size τ) : m.Faithful τ := by
  intro v k hk hnamed
  obtain ⟨c, hc, -⟩ := key?_eq_some_iff.1 hk
  rcases h v k (lt_size_of_column hc) hk hnamed with ⟨h1, hcond⟩ | ⟨h0, hcond⟩
  · exact iff_of_true h1 hcond
  · refine iff_of_false ?_ hcond
    intro h1
    rw [h0] at h1
    cases h1

/-- The truth values of the auxiliary columns are determined by all other columns. -/
theorem Faithful.unique (hm : m.Acyclic) (ha : m.AuxiliaryBinary) (hσ : m.Faithful σ)
    (hτ : m.Faithful τ) (hpσ : m.IsPoint σ) (hpτ : m.IsPoint τ)
    (hsame : ∀ v, ¬ m.IsAuxiliary v → σ v = τ v) (v : Var) : σ v = τ v := by
  induction v using Nat.strong_induction_on with
  | _ v ih =>
    by_cases haux : m.IsAuxiliary v
    · obtain ⟨k, hk, hnamed⟩ := haux
      have hcongr : k.Condition σ ↔ k.Condition τ :=
        Key.condition_congr fun u hu => ih u (key_operands_lt hm hk hu)
      have hiff : σ v = 1 ↔ τ v = 1 := by
        rw [hσ v k hk hnamed, hτ v k hk hnamed, hcongr]
      obtain ⟨c, hc, rfl⟩ := key?_eq_some_iff.1 hk
      have hkind : m.kind? v = some .binary := kind?_eq_some_iff.2 ⟨c, hc, ha v c hc hnamed⟩
      rcases hpσ v hkind with h | h <;> rcases hpτ v hkind with h' | h' <;> omega
    · exact hsame v haux

end Model

namespace Compilation

variable {c c' : Compilation} {M : Int} {σ τ : Var → Int}

theorem Valid.not_isAuxiliary (hv : c.Valid) {m : Model} (hg : c.model.Grows m) {v : Var}
    (h : c.scope.Declares v) : ¬ m.IsAuxiliary v := by
  obtain ⟨name, d, hd, rfl⟩ := h
  have hcol : ∃ kind, c.model.columns[d.var]? = some ⟨.named name, kind⟩ := by
    cases d with
    | binary v => exact ⟨_, hv.binary hd⟩
    | integer v =>
      obtain ⟨l, u, hc⟩ := hv.integer hd
      exact ⟨_, hc⟩
  obtain ⟨kind, hcol⟩ := hcol
  rintro ⟨k, hk, hnamed⟩
  obtain ⟨e, he, rfl⟩ := Model.key?_eq_some_iff.1 hk
  rw [hg.column hcol] at he
  cases he
  cases hnamed

/-- One line: its rows hold where its statement holds and is adequate. -/
theorem addLine_complete (hv : c.Valid) {line : List Char} (h : c.addLine M line = .ok c')
    (hp : c'.model.IsPoint τ) (hf : c'.model.Faithful τ)
    (hagree : ∀ v, c.scope.Declares v → τ v = σ v)
    (hx : ∀ x, c.clauseOf? line = some (.state x) → x.Holds σ ∧ x.Adequate M σ)
    (hr : AllHold τ c.model.rows) : AllHold τ c'.model.rows := by
  rcases addLine_cases h with ⟨-, rfl⟩ | ⟨clause, hsome, happly, hscope⟩
  · exact hr
  · rcases apply_cases happly with ⟨name, scope, rfl, -, rfl⟩ |
      ⟨name, lower, upper, scope, rfl, -, rfl⟩ | ⟨x, m, rows, rfl, henc, rfl⟩
    · show AllHold τ (c.model.namedBinary name).1.rows
      rw [Model.namedBinary, Model.binary_rows]
      exact hr
    · show AllHold τ (c.model.namedInteger name lower upper).1.rows
      rw [Model.namedInteger, Model.integerWithin_rows]
      exact hr
    · have hin := hscope x rfl
      have hplaced := hv.placed hin
      obtain ⟨hholds, hadequate⟩ := hx x hsome
      rw [← Statement.holds_congr hagree hin] at hholds
      rw [← Statement.adequate_congr hagree hin] at hadequate
      have hrows : AllHold τ rows :=
        Statement.encode_complete henc hplaced hp hf hholds hadequate
      show AllHold τ (m.rows ++ rows)
      rw [(Statement.encode_asks henc hplaced).rows, allHold_append]
      exact ⟨hr, hrows⟩

/-- Many lines: all rows hold where all statements hold and are adequate. -/
theorem Runs.complete {lines : List String} (h : Runs M c lines c') (hv : c.Valid)
    (hp : c'.model.IsPoint τ) (hf : c'.model.Faithful τ)
    (hsame : ∀ v, ¬ c'.model.IsAuxiliary v → τ v = σ v)
    (hx : ∀ x ∈ c.statements M lines, x.Holds σ ∧ x.Adequate M σ)
    (hr : AllHold τ c.model.rows) : AllHold τ c'.model.rows := by
  induction h with
  | nil => exact hr
  | @cons c c₁ c' line rest hline hrest ih =>
    have hv₁ := hv.addLine hline
    have hg := hrest.grows hv₁
    have hagree : ∀ v, c.scope.Declares v → τ v = σ v := fun v hd =>
      hsame v (hv.not_isAuxiliary ((hv.addLine_grows hline).trans hg) hd)
    refine ih hv₁ hp hf hsame (fun x hmem => hx x ((statements_cons hline).2 (.inr hmem))) ?_
    exact addLine_complete hv hline (hg.isPoint hp) (hg.faithful hf) hagree
      (fun x hmem => hx x ((statements_cons hline).2 (.inl hmem))) hr

/-- Completeness of compilation: if every statement holds at a point of the declared names and every
big-M is great enough there, then exactly one choice of the auxiliary columns satisfies the rows. -/
theorem accepted_complete (M : Int) (lines : List String) (c : Compilation) (σ : Var → Int)
    (h : Accepts M lines c)
    (hbits : ∀ v name, c.model.columns[v]? = some ⟨.named name, .binary⟩ → σ v = 0 ∨ σ v = 1)
    (hholds : ∀ x ∈ statements M .empty lines, x.Holds σ)
    (hadequate : ∀ x ∈ statements M .empty lines, x.Adequate M σ) :
    ∃! τ : Var → Int, (∀ v, ¬ c.model.IsAuxiliary v → τ v = σ v) ∧
      (∀ v, c.model.IsAuxiliary v → τ v = 0 ∨ τ v = 1) ∧ AllHold τ c.model.rows := by
  have hrun := accepts_iff.1 h
  have hv := hrun.valid valid_empty
  -- bits on the auxiliary columns are all that a point of the model needs beyond `σ`
  have hpoint : ∀ τ : Var → Int, (∀ v, ¬ c.model.IsAuxiliary v → τ v = σ v) →
      (∀ v, c.model.IsAuxiliary v → τ v = 0 ∨ τ v = 1) → c.model.IsPoint τ := by
    intro τ hsame hbit v hkind
    by_cases haux : c.model.IsAuxiliary v
    · exact hbit v haux
    · obtain ⟨⟨key, kind⟩, hd, rfl⟩ := Model.kind?_eq_some_iff.1 hkind
      rw [hsame v haux]
      rcases key.named_or_auxiliary with ⟨name, rfl⟩ | hnamed
      · exact hbits v name hd
      · exact absurd ⟨key, Model.key?_eq_some_iff.2 ⟨_, hd, rfl⟩, hnamed⟩ haux
  obtain ⟨τ, hsame, hbelow⟩ := Model.exists_faithfulBelow hv.orderly.acyclic σ c.model.size
  have hbit : ∀ v, c.model.IsAuxiliary v → τ v = 0 ∨ τ v = 1 := by
    rintro v ⟨k, hk, hnamed⟩
    obtain ⟨d, hd, -⟩ := Model.key?_eq_some_iff.1 hk
    exact (hbelow v k (Model.lt_size_of_column hd) hk hnamed).symm.imp And.left And.left
  have hp := hpoint τ hsame hbit
  have hf := hbelow.faithful
  have hempty : AllHold τ Compilation.empty.model.rows := allHold_nil
  have hrows : AllHold τ c.model.rows := hrun.complete valid_empty hp hf hsame
    (fun x hx => ⟨hholds x hx, hadequate x hx⟩) hempty
  refine ⟨τ, ⟨hsame, hbit, hrows⟩, ?_⟩
  rintro τ' ⟨hsame', hbit', hrows'⟩
  have hp' := hpoint τ' hsame' hbit'
  have hf' := (hrun.sound valid_empty hp' faithful_empty hrows').1
  funext v
  refine Model.Faithful.unique hv.orderly.acyclic hv.orderly.auxiliary hf' hf hp' hp ?_ v
  intro u hu
  rw [hsame' u hu, hsame u hu]

/-- The comparison has the default big-M, which is great enough for all values of `x`. -/
def wideLines : List String := ["(bin a)", "(int x 0 9)", "(less x 3)", "(if a ((<= x 2)))"]

def wideCompilation : Compilation where
  scope := [("a", .binary 0), ("x", .integer 1)]
  model := {
    columns := [⟨.named "a", .binary⟩, ⟨.named "x", .integer (some 0) (some 9)⟩,
      ⟨.less (.ofVar 1) (.const 3), .binary⟩]
    rows := [.le (.ofVar 1) ⟨[(2, -1000)], 1002⟩, .le ⟨[(2, -1000)], 3⟩ (.ofVar 1),
      .le (.ofVar 1) ⟨[(0, -1000)], 1002⟩] }

def widePoint (v : Var) : Int := if v = 1 then 7 else 0

theorem wideLines_complete :
    ∃! τ : Var → Int, (∀ v, ¬ wideCompilation.model.IsAuxiliary v → τ v = widePoint v) ∧
      (∀ v, wideCompilation.model.IsAuxiliary v → τ v = 0 ∨ τ v = 1) ∧
        AllHold τ wideCompilation.model.rows := by
  have hstatements : statements 1000 .empty wideLines =
      [.compare .less (.ofVar 1) (.const 3) none,
        .ifThen 0 [.le (.ofVar 1) (.const 2)] none] := by
    decide +kernel
  refine accepted_complete 1000 wideLines wideCompilation widePoint ?_ ?_ ?_ ?_
  · unfold Accepts
    decide +kernel
  · intro v name hv
    by_cases h : v = 1
    · subst h
      cases hv
    · exact .inl (if_neg h)
  · rw [hstatements]
    simp [Statement.Holds, AllHold, selected, widePoint]
  · rw [hstatements]
    simp [Statement.Adequate, unselected, widePoint, Constraint.Within, Constraint.inequalities]

end Compilation
end Linearize
