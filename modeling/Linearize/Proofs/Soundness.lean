import Linearize.Proofs.Runs

/-!
# Linearize.Proofs.Soundness

A point that satisfies the compiled rows satisfies what the text says, whatever the big-M of its
statements. The invariant along the lines is that all columns so far have the truth values of their
keys.
-/

namespace Linearize
namespace Compilation

variable {c c' : Compilation} {M : Int} {σ : Var → Int}

theorem faithful_declareBinary (name : String) (h : c.model.Faithful σ) :
    (c.model.namedBinary name).1.Faithful σ := by
  intro v k hk haux
  obtain ⟨d, hd, rfl⟩ := Model.key?_eq_some_iff.1 hk
  rcases Model.column_binary hd with hd | ⟨-, rfl⟩
  · exact h v _ (Model.key?_eq_some_iff.2 ⟨d, hd, rfl⟩) haux
  · cases haux

theorem faithful_declareInteger (name : String) (lower upper : Int) (h : c.model.Faithful σ) :
    (c.model.namedInteger name lower upper).1.Faithful σ := by
  intro v k hk haux
  obtain ⟨d, hd, rfl⟩ := Model.key?_eq_some_iff.1 hk
  rcases c.model.integerWithin_cases (.named name) (some lower) (some upper) with
    ⟨w, e, -, -, -, hm⟩ | ⟨-, hm⟩
  · rw [Model.namedInteger, hm] at hd
    exact h v _ (Model.key?_eq_some_iff.2 ⟨d, hd, rfl⟩) haux
  · rw [Model.namedInteger, hm] at hd
    rcases Model.column_addColumn_iff.1 hd with hd | ⟨-, rfl⟩
    · exact h v _ (Model.key?_eq_some_iff.2 ⟨d, hd, rfl⟩) haux
    · cases haux

/-- One line: its statement holds, and its indicators have the truth values of their keys. -/
theorem addLine_sound (hv : c.Valid) {line : List Char} (h : c.addLine M line = .ok c')
    (hp : c'.model.IsPoint σ) (hf : c.model.Faithful σ) (hr : AllHold σ c'.model.rows) :
    c'.model.Faithful σ ∧ ∀ x, c.clauseOf? line = some (.state x) → x.Holds σ := by
  rcases addLine_cases h with ⟨hnone, rfl⟩ | ⟨clause, hsome, happly, hscope⟩
  · refine ⟨hf, ?_⟩
    intro x hx
    rw [hnone] at hx
    cases hx
  · rcases apply_cases happly with ⟨name, scope, rfl, -, rfl⟩ |
      ⟨name, lower, upper, scope, rfl, -, rfl⟩ | ⟨y, m, rows, rfl, henc, rfl⟩
    · refine ⟨faithful_declareBinary name hf, ?_⟩
      intro x hx
      rw [hsome] at hx
      cases hx
    · refine ⟨faithful_declareInteger name lower upper hf, ?_⟩
      intro x hx
      rw [hsome] at hx
      cases hx
    · have hrows : AllHold σ rows := fun r hmem => hr r (List.mem_append_right _ hmem)
      obtain ⟨hf', hholds⟩ :=
        Statement.encode_sound henc (hv.placed (hscope y rfl)) hp hf hrows
      refine ⟨hf', ?_⟩
      intro x hx
      rw [hsome] at hx
      cases hx
      exact hholds

/-- Many lines: all statements hold, and all indicators have the truth values of their keys. -/
theorem Runs.sound {lines : List String} (h : Runs M c lines c') (hv : c.Valid)
    (hp : c'.model.IsPoint σ) (hf : c.model.Faithful σ) (hr : AllHold σ c'.model.rows) :
    c'.model.Faithful σ ∧ ∀ x ∈ c.statements M lines, x.Holds σ := by
  induction h with
  | nil => exact ⟨hf, List.forall_mem_nil _⟩
  | @cons c c₁ c' line rest hline hrest ih =>
    have hv₁ := hv.addLine hline
    have hg := hrest.grows hv₁
    obtain ⟨hf₁, hx₁⟩ := addLine_sound hv hline (hg.isPoint hp) hf (hg.allHold hr)
    obtain ⟨hf', hx'⟩ := ih hv₁ hp hf₁ hr
    refine ⟨hf', ?_⟩
    intro x hx
    rcases (statements_cons hline).1 hx with hx | hx
    · exact hx₁ x hx
    · exact hx' x hx

theorem faithful_empty : Model.empty.Faithful σ := fun _ _ hk => by cases hk

/-- Soundness of compilation for every big-M: a point of the model that satisfies its rows makes
every statement of the text hold and gives every auxiliary column the truth value of its key. -/
theorem accepted_sound (M : Int) (lines : List String) (c : Compilation) (σ : Var → Int)
    (h : Accepts M lines c) (hp : c.model.IsPoint σ) (hr : AllHold σ c.model.rows) :
    (∀ x ∈ statements M .empty lines, x.Holds σ) ∧
      ∀ v k, c.model.key? v = some k → k.isNamed = false →
        (σ v = 1 ∧ k.Condition σ) ∨ (σ v = 0 ∧ ¬ k.Condition σ) := by
  have hrun := accepts_iff.1 h
  obtain ⟨hf, hx⟩ := hrun.sound valid_empty hp faithful_empty hr
  refine ⟨hx, ?_⟩
  intro v k hk haux
  obtain ⟨d, hd, rfl⟩ := Model.key?_eq_some_iff.1 hk
  have hkind := (hrun.valid valid_empty).orderly.auxiliary v d hd haux
  have hbit : IsBit (σ v) := hp v (Model.kind?_eq_some_iff.2 ⟨d, hd, hkind⟩)
  have hiff := hf v _ hk haux
  rcases hbit with h0 | h1
  · exact .inr ⟨h0, fun hcond => by rw [hiff.2 hcond] at h0; cases h0⟩
  · exact .inl ⟨h1, hiff.1 h1⟩

/-- The comparison has a big-M of 1, less than the distance of most values of `x` from 3. -/
def tightLines : List String := ["(bin a)", "(int x 0 9)", "(less x 3 1)", "(if a ((<= x 2)))"]

def tightCompilation : Compilation where
  scope := [("a", .binary 0), ("x", .integer 1)]
  model := {
    columns := [⟨.named "a", .binary⟩, ⟨.named "x", .integer (some 0) (some 9)⟩,
      ⟨.less (.ofVar 1) (.const 3), .binary⟩]
    rows := [.le (.ofVar 1) ⟨[(2, -1)], 3⟩, .le ⟨[(2, -1)], 3⟩ (.ofVar 1),
      .le (.ofVar 1) ⟨[(0, -1000)], 1002⟩] }

def tightPoint (v : Var) : Int := if v = 1 then 2 else 1

theorem tightLines_sound :
    (∀ x ∈ statements 1000 .empty tightLines, x.Holds tightPoint) ∧
      ∀ v k, tightCompilation.model.key? v = some k → k.isNamed = false →
        (tightPoint v = 1 ∧ k.Condition tightPoint) ∨
          (tightPoint v = 0 ∧ ¬ k.Condition tightPoint) := by
  refine accepted_sound 1000 tightLines tightCompilation tightPoint ?_ ?_ ?_
  · unfold Accepts
    decide +kernel
  · intro v hv
    by_cases h : v = 1
    · subst h
      cases hv
    · exact .inr (if_neg h)
  · unfold AllHold
    decide

end Compilation
end Linearize
