import Linearize.Proofs.Names
import Linearize.Proofs.Records
import Linearize.Solver.Report

/-!
# Linearize.Proofs.Reports

The report of a run. Names of a pool are distinct, so no value of a column is lost behind that of
another one, and the only integer variable that can be called `probability` is the one that is
declared so.
-/

namespace Linearize

theorem weightOf_eq (type : ModelType) (x : Float) :
    weightOf type x =
      if type = .truncatedDifferential ∨ type = .wordwiseTruncatedDifferential then x
      else x / 10.0 := by
  cases type <;> simp [weightOf, ModelType.isTruncated]

theorem SolverSpecs.exists_summary (specs : SolverSpecs) (solver : String) (transcript : List Char)
    (status : SolveStatus)
    (h : (specs.summary solver transcript).toOption.map (·.status) = some status) :
    ∃ summary, specs.summary solver transcript = .ok summary ∧ summary.status = status := by
  cases hsummary : specs.summary solver transcript with
  | error e =>
    rw [hsummary] at h
    cases h
  | ok summary =>
    rw [hsummary] at h
    exact ⟨summary, rfl, Option.some.inj h⟩

namespace Model

open VariableValues

variable {m : Model}

/-- What a report says of the columns of a model, the records being `found`. -/
structure Accounts (m : Model) (type : ModelType) (found : List Regex.Match) (r : Report) :
    Prop where
  binaries : ∃ names, m.binaryNames = some names ∧ m.NamesPool false names ∧
    Answers found names r.binaries
  integers : ∃ names, m.integerNames = some names ∧ m.NamesPool true names ∧
    Answers found names r.integers
  /-- There are as many entries as columns. -/
  total : r.binaries.values.length + r.integers.values.length = m.size
  /-- The value of the declared variable, in tenths unless the model is a truncated one. -/
  weight : ∀ v, m.findInteger? (.named "probability") = some v →
    ∃ x, HasValue found v x ∧
      r.totalWeight = some
        (if type = .truncatedDifferential ∨ type = .wordwiseTruncatedDifferential then x
        else x / 10.0)
  weightless : m.findInteger? (.named "probability") = none → r.totalWeight = none

theorem NamesPool.probability_mem_iff {names : List (String × Var)} (h : m.NamesPool true names)
    (hm : m.Distinct) {v : Var} :
    ("probability", v) ∈ names ↔ m.findInteger? (.named "probability") = some v := by
  rw [hm.findInteger?_eq_some_iff]
  constructor
  · intro hmem
    obtain ⟨k, hk, hint⟩ := (h.column v).1 (List.mem_map_of_mem hmem)
    obtain ⟨l, u, rfl⟩ := Kind.isInteger_eq_true_iff.1 hint
    exact ⟨exists_kind?_iff.1 ⟨_, hk⟩, h.plain _ v hmem (by decide), l, u, hk⟩
  · rintro ⟨-, hkey, l, u, hk⟩
    exact h.declared _ v ⟨_, hk, rfl⟩ hkey

/-- A report of distinct names gives every column its value. -/
theorem ofSolution_accounts (hm : m.Distinct) {type : ModelType} {found : List Regex.Match}
    {binaries integers : List (String × Var)} {shown shown' : VariableValues} (summary : Summary)
    (hbinaries : m.binaryNames = some binaries) (hintegers : m.integerNames = some integers)
    (hb : m.NamesPool false binaries) (hi : m.NamesPool true integers)
    (hlength : binaries.length + integers.length = m.size)
    (hshown : Answers found binaries shown) (hshown' : Answers found integers shown') :
    m.Accounts type found (.ofSolution summary type shown shown') where
  binaries := ⟨binaries, hbinaries, hb, hshown⟩
  integers := ⟨integers, hintegers, hi, hshown'⟩
  total := by
    have h := hshown.names.length_eq
    have h' := hshown'.names.length_eq
    simp only [Table.names, List.length_map] at h h'
    rw [Report.ofSolution, h, h', hlength]
  weight := by
    intro v hv
    obtain ⟨x, hget, hx⟩ := hshown'.value _ v ((hi.probability_mem_iff hm).2 hv)
    refine ⟨x, hx, ?_⟩
    rw [← weightOf_eq]
    exact congrArg (Option.map _) hget
  weightless := by
    intro hnone
    have hget : shown'.values.get? probabilityName = none := by
      rw [Table.get?_eq_none_iff, hshown'.names.mem_iff]
      intro hmem
      obtain ⟨⟨s, v⟩, hsv, rfl⟩ := List.mem_map.1 hmem
      rw [(hi.probability_mem_iff hm).1 hsv] at hnone
      cases hnone
    exact congrArg (Option.map _) hget

/-- The report of a satisfiable model gives every column once, with the value of its first record,
and that of an infeasible one gives none. -/
theorem Reachable.report_accounts (h : m.Reachable) (specs : SolverSpecs) (type : ModelType)
    (solver : String) (transcript : List Char) (summary : Summary)
    (hsummary : specs.summary solver transcript = .ok summary) :
    (summary.status = .satisfiable →
      ∃ pattern, Regex.parse? recordPattern.toList = some pattern ∧
        ∀ solution, ∃ r, m.report specs type solver transcript (some solution) = .ok r ∧
          m.Accounts type (pattern.allMatches solution) r) ∧
    (summary.status = .unsatisfiable →
      ∀ solution, ∃ r, m.report specs type solver transcript solution = .ok r ∧
        r.binaries = ⟨[], []⟩ ∧ r.integers = ⟨[], []⟩ ∧ r.totalWeight = none) := by
  constructor
  · intro hstatus
    obtain ⟨pattern, hpattern⟩ := recordPattern_reads
    obtain ⟨binaries, hbinaries, hb, hblength⟩ := h.exists_poolNames false
    obtain ⟨integers, hintegers, hi, hilength⟩ := h.exists_poolNames true
    refine ⟨pattern, hpattern, fun solution =>
      ⟨.ofSolution summary type (.ofSolution binaries solution) (.ofSolution integers solution),
        ?_, ?_⟩⟩
    · simp only [report, hsummary, hstatus, binaryNames, integerNames, hbinaries, hintegers]
    · refine ofSolution_accounts h.distinct summary hbinaries hintegers hb hi ?_
        (ofSolution_answers hpattern hb.distinct solution)
        (ofSolution_answers hpattern hi.distinct solution)
      rw [hblength, hilength, length_pools]
  · intro hstatus solution
    exact ⟨.infeasible summary, by simp only [report, hsummary, hstatus], rfl, rfl, rfl⟩

/-- A conjunction whose name was declared before, and a weight. -/
def weighed : Model where
  columns := [⟨.named "a", .binary⟩, ⟨.named "b", .binary⟩, ⟨.named "a_and_b_dummy", .binary⟩,
    ⟨.and [0, 1], .binary⟩, ⟨.named "probability", .integer (some 0) (some 100)⟩]
  rows := []

theorem weighed_reachable : weighed.Reachable :=
  .step (o := .namedInteger "probability" 0 100)
    (.step (o := .binary (.and [0, 1]))
      (.step (o := .namedBinary "a_and_b_dummy")
        (.step (o := .namedBinary "b")
          (.step (o := .namedBinary "a") .empty (by decide) rfl) (by decide) rfl) (by decide) rfl)
      (by decide) rfl)
    (by decide) rfl

def solvedTranscript : List Char :=
  "INTEGER OPTIMAL SOLUTION FOUND\nTime used:   0.1 secs\n".toList

def refutedTranscript : List Char :=
  "PROBLEM HAS NO PRIMAL FEASIBLE SOLUTION\nTime used:   0.0 secs\n".toList

theorem weighed_accounts :
    (∃ pattern, Regex.parse? recordPattern.toList = some pattern ∧
      ∀ solution, ∃ r,
        weighed.report .default .xorDifferential "glpk" solvedTranscript (some solution) = .ok r ∧
        weighed.Accounts .xorDifferential (pattern.allMatches solution) r) ∧
    ∀ solution, ∃ r,
      weighed.report .default .xorDifferential "glpk" refutedTranscript solution = .ok r ∧
      r.binaries = ⟨[], []⟩ ∧ r.integers = ⟨[], []⟩ ∧ r.totalWeight = none := by
  obtain ⟨solved, hsolved, hsatisfiable⟩ :=
    SolverSpecs.exists_summary .default "glpk" solvedTranscript .satisfiable (by decide +kernel)
  obtain ⟨refuted, hrefuted, hunsatisfiable⟩ :=
    SolverSpecs.exists_summary .default "glpk" refutedTranscript .unsatisfiable
      (by decide +kernel)
  constructor
  · exact (weighed_reachable.report_accounts .default .xorDifferential "glpk" solvedTranscript
      solved hsolved).1 hsatisfiable
  · exact (weighed_reachable.report_accounts .default .xorDifferential "glpk" refutedTranscript
      refuted hrefuted).2 hunsatisfiable

end Model
end Linearize
