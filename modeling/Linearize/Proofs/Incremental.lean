import Mathlib.Order.Bounds.Defs
import Linearize.Proofs.Runs

/-!
# Linearize.Proofs.Incremental

Compilation is incremental. Lines that fail do so at the first line that cannot be processed, and
what stands behind that line does not matter. Lines that are processed keep what the lines before
them left: every name with its column, the columns and the rows at their places.
-/

namespace Linearize
namespace Compilation

variable {c c' : Compilation} {M : Int} {lines : List String}

/-! ## The line that fails -/

theorem ofLine_eq_atLine_iff {n N : Nat} {e cause : LineError} :
    CompileError.ofLine n e = .atLine N cause ↔
      n = N ∧ e = cause ∧ e ≠ .read .overflow ∧ e ≠ .encode .overflow := by
  unfold CompileError.ofLine
  split <;> simp_all

theorem addLines_append (n : Nat) (c : Compilation) (before after : List (Option String)) :
    addLines M n c (before ++ after) =
      match addLines M n c before with
      | .error e => .error e
      | .ok c₁ => addLines M (n + before.length) c₁ after := by
  induction before generalizing n c with
  | nil => rfl
  | cons line rest ih =>
    cases line with
    | none => rfl
    | some line =>
      simp only [List.cons_append, addLines]
      cases c.addLine M line.toList with
      | error e => rfl
      | ok c₁ =>
        simp only [ih, List.length_cons]
        rw [Nat.add_right_comm, Nat.add_assoc]

/-- A line fails where the lines before it lead. -/
theorem addLines_eq_atLine_iff {n N : Nat} {cause : LineError} :
    addLines M n c (lines.map some) = .error (.atLine N cause) ↔
      ∃ before line after c₁, lines = before ++ line :: after ∧ Runs M c before c₁ ∧
        c₁.addLine M line.toList = .error cause ∧
        CompileError.ofLine (n + before.length + 1) cause = .atLine N cause := by
  constructor
  · intro h
    induction lines generalizing c n with
    | nil => cases h
    | cons line rest ih =>
      simp only [List.map_cons, addLines] at h
      split at h
      · rename_i e he
        have hof := Except.error.inj h
        obtain ⟨-, rfl, -⟩ := ofLine_eq_atLine_iff.1 hof
        exact ⟨[], line, rest, c, rfl, .nil c, he, hof⟩
      · rename_i c₂ hc
        obtain ⟨before, line', after, c₁, rfl, hrun, he, hof⟩ := ih h
        refine ⟨line :: before, line', after, c₁, rfl, .cons hc hrun, he, ?_⟩
        rw [List.length_cons, ← hof]
        congr 1
        omega
  · rintro ⟨before, line, after, c₁, rfl, hrun, he, hof⟩
    rw [List.map_append, addLines_append, addLines_eq_ok_iff.2 hrun]
    simp only [List.map_cons, addLines, he, List.length_map, hof]

/-! ## What the lines before leave -/

/-- `c'` has the names of `c` with their columns, and its columns and rows at their places. -/
structure Extends (c c' : Compilation) : Prop where
  declared : ∀ {name d}, c.scope.get? name = some d → c'.scope.get? name = some d
  model : c.model.Grows c'.model

namespace Extends

theorem refl (c : Compilation) : c.Extends c := ⟨id, .refl _⟩

theorem trans {a b c : Compilation} (h₁ : a.Extends b) (h₂ : b.Extends c) : a.Extends c :=
  ⟨fun h => h₂.declared (h₁.declared h), h₁.model.trans h₂.model⟩

end Extends

theorem increasing_addLine (hs : c.scope.Increasing) {line : List Char}
    (h : c.addLine M line = .ok c') : c'.scope.Increasing := by
  rcases addLine_cases h with ⟨-, rfl⟩ | ⟨clause, -, happly, -⟩
  · exact hs
  · rcases apply_cases happly with ⟨name, scope, rfl, hnew, rfl⟩ |
      ⟨name, lower, upper, scope, rfl, hnew, rfl⟩ | ⟨x, m, rows, rfl, -, rfl⟩
    · exact hs.insertNew? hnew
    · exact hs.insertNew? hnew
    · exact hs

theorem Runs.increasing (h : Runs M c lines c') (hs : c.scope.Increasing) :
    c'.scope.Increasing := by
  induction h with
  | nil => exact hs
  | cons hline _ ih => exact ih (increasing_addLine hs hline)

theorem get?_addLine (hs : c.scope.Increasing) {line : List Char} (h : c.addLine M line = .ok c')
    {name : String} {d : Declared} (hd : c.scope.get? name = some d) :
    c'.scope.get? name = some d := by
  rcases addLine_cases h with ⟨-, rfl⟩ | ⟨clause, -, happly, -⟩
  · exact hd
  · rcases apply_cases happly with ⟨name', scope, rfl, hnew, rfl⟩ |
      ⟨name', lower, upper, scope, rfl, hnew, rfl⟩ | ⟨x, m, rows, rfl, -, rfl⟩
    · exact hs.get?_insertNew? hnew hd
    · exact hs.get?_insertNew? hnew hd
    · exact hd

theorem Runs.extends (h : Runs M c lines c') (hv : c.Valid) (hs : c.scope.Increasing) :
    c.Extends c' := by
  induction h with
  | nil => exact .refl _
  | cons hline _ ih =>
    exact .trans ⟨get?_addLine hs hline, hv.addLine_grows hline⟩
      (ih (hv.addLine hline) (increasing_addLine hs hline))

theorem increasing_empty : empty.scope.Increasing := .nil

theorem Accepts.increasing {lines : List String} (h : Accepts M lines c) : c.scope.Increasing :=
  (accepts_iff.1 h).increasing increasing_empty

/-! ## Both -/

/-- Compilation is incremental. Of lines that fail, the number of the error is that of the first
line up to which they are not processed, and nothing behind that line changes the error. Of lines
that are processed, the first ones are processed too, and the later ones add to what they leave. -/
theorem addLines_incremental (M : Int) :
    (∀ (lines : List String) (N : Nat) (cause : LineError),
      addLines M 0 .empty (lines.map some) = .error (.atLine N cause) →
        IsLeast {n | n ≤ lines.length ∧ ∀ c, ¬ Accepts M (lines.take n) c} N ∧
        (∃ c line, Accepts M (lines.take (N - 1)) c ∧ lines[N - 1]? = some line ∧
          c.addLine M line.toList = .error cause) ∧
        ∀ input : List (Option String), input.take N = (lines.take N).map some →
          addLines M 0 .empty input = .error (.atLine N cause)) ∧
    ∀ before after c', Accepts M (before ++ after) c' →
      ∃ c, Accepts M before c ∧ c.Extends c' := by
  constructor
  · intro lines N cause h
    obtain ⟨before, line, after, c, rfl, hrun, he, hof⟩ := addLines_eq_atLine_iff.1 h
    obtain rfl : before.length + 1 = N := by
      have := (ofLine_eq_atLine_iff.1 hof).1
      omega
    have htake : (before ++ line :: after).take (before.length + 1) = before ++ [line] := by
      rw [List.take_append, List.take_of_length_le (Nat.le_succ _), Nat.add_sub_cancel_left,
        List.take_succ_cons, List.take_zero]
    refine ⟨⟨⟨by simp, ?_⟩, ?_⟩, ⟨c, line, ?_, ?_, he⟩, ?_⟩
    · intro c₂ h₂
      obtain ⟨c₁, hrun₁, hlast⟩ := runs_append_iff.1 (accepts_iff.1 (htake ▸ h₂))
      obtain rfl := hrun.deterministic hrun₁
      cases hlast with
      | cons hline _ =>
        rw [he] at hline
        cases hline
    · rintro n ⟨-, hn⟩
      -- fewer lines are some of those that are processed
      by_contra hlt
      have hle : n ≤ before.length := by omega
      rw [List.take_append_of_le_length hle] at hn
      rw [← List.take_append_drop n before] at hrun
      obtain ⟨c₁, hrun₁, -⟩ := runs_append_iff.1 hrun
      exact hn c₁ (accepts_iff.2 hrun₁)
    · rw [Nat.add_sub_cancel, List.take_left]
      exact accepts_iff.2 hrun
    · simp
    · intro input hinput
      rw [← List.take_append_drop (before.length + 1) input, hinput, htake, addLines_append,
        addLines_eq_atLine_iff.2 ⟨before, line, [], c, rfl, hrun, he, hof⟩]
  · intro before after c' h
    obtain ⟨c, hrun, hrest⟩ := runs_append_iff.1 (accepts_iff.1 h)
    exact ⟨c, accepts_iff.2 hrun,
      hrest.extends (hrun.valid valid_empty) (hrun.increasing increasing_empty)⟩

/-- The name is declared twice, behind a comment and a blank line. -/
def twiceLines : List String := ["(bin a)", "; again", "", "(bin a)", "(bin b)"]

def twiceCompilation : Compilation where
  scope := [("a", .binary 0), ("x", .integer 1)]
  model := ⟨[⟨.named "a", .binary⟩, ⟨.named "x", .integer (some 0) (some 9)⟩], []⟩

theorem twiceLines_incremental :
    IsLeast {n | n ≤ twiceLines.length ∧ ∀ c, ¬ Accepts 1000 (twiceLines.take n) c} 4 ∧
      addLines 1000 0 .empty [some "(bin a)", some "; again", some "", some "(bin a)", none] =
        .error (.atLine 4 (.read (.duplicateVariable "a"))) ∧
      ∃ c, Accepts 1000 ["(bin a)"] c ∧ c.Extends twiceCompilation := by
  obtain ⟨hleast, -, hinput⟩ := (addLines_incremental 1000).1 twiceLines 4
    (.read (.duplicateVariable "a")) (by decide +kernel)
  refine ⟨hleast, hinput _ (by decide), ?_⟩
  refine (addLines_incremental 1000).2 ["(bin a)"] ["(int x 0 9)"] twiceCompilation ?_
  unfold Accepts
  decide +kernel

end Compilation
end Linearize
