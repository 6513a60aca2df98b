import Linearize.Proofs.Names
import Linearize.Proofs.Programs
import Linearize.Proofs.RecordPattern

/-!
# Linearize.Proofs.Solutions

From the text of a solution with a line for each column every name gets the value of its own
numeral.
-/

namespace Linearize

open Regex

def SolutionLine.record (l : SolutionLine) : Nat × Float := (l.column + 1, l.numeral.value)

theorem recordRegex_fails {ys : List Char} (h : StopsAt letterSet ys) : recordRegex.Fails ys :=
  .anchor_seq _ (fails_one h).seq

theorem matchesFrom_congr {p : Program} {c d : Cursor} (h : p.searchFrom? c = p.searchFrom? d)
    (limit : Nat) : p.matchesFrom limit c = p.matchesFrom limit d := by
  cases limit with
  | zero => rfl
  | succ limit => rw [Program.matchesFrom, Program.matchesFrom, h]

/-- By induction on the lines. Behind a match the text goes on with a line feed, where nothing
starts, so that the next search is one from the beginning of the next line. -/
theorem matchesFrom_solutionText {lines : List SolutionLine} {limit : Nat} (before : List Char)
    (hlimit : lines.length < limit)
    (hbefore : StartsLine before) :
    ((Program.ofRegex recordRegex).matchesFrom limit
      (.between before (solutionText lines))).filterMap recordOf? =
        lines.map SolutionLine.record := by
  have hsearch := Program.ofRegex_searchFrom? recordRegex recordRegex_loopsAdvance
  induction lines generalizing limit before with
  | nil =>
    obtain ⟨limit, rfl⟩ := Nat.exists_eq_succ_of_ne_zero (Nat.ne_zero_of_lt hlimit)
    have hnone : (Program.ofRegex recordRegex).searchFrom? (.between before []) = none :=
      (hsearch _).trans (matchAt?_of_fails (recordRegex_fails (stopsAt_nil _)) before)
    change List.filterMap recordOf? (Program.matchesFrom _ (limit + 1) (.between before [])) = []
    rw [Program.matchesFrom, hnone]
    rfl
  | cons l lines ih =>
    obtain ⟨limit, rfl⟩ := Nat.exists_eq_succ_of_ne_zero (Nat.ne_zero_of_lt hlimit)
    have htext : solutionText (l :: lines) = l.body ++ '\n' :: solutionText lines := by
      rw [solutionText, List.flatMap_cons, SolutionLine.text, List.append_assoc]
      rfl
    obtain ⟨m, hmatch, hstart, hstop, hrecord⟩ :=
      l.exists_match before (solutionText lines) hbefore
    have hfound : (Program.ofRegex recordRegex).searchFrom?
        (.between before (l.body ++ '\n' :: solutionText lines)) = some m :=
      (hsearch _).trans (leftmost?_of_matchAt? hmatch)
    have hnext : (Program.ofRegex recordRegex).searchFrom? m.stop =
        (Program.ofRegex recordRegex).searchFrom?
          (.between (before ++ l.body ++ ['\n']) (solutionText lines)) := by
      rw [hstop, hsearch, hsearch]
      exact leftmost?_cons (recordRegex_fails (stopsAt_cons (by decide)))
    have hmoved : m.stop.left ≠ m.start.left := by
      have hbody : 0 < l.body.length := Nat.succ_pos _
      rw [hstart, hstop]
      simp only [Cursor.between, List.length_append]
      omega
    rw [htext, Nat.succ_eq_add_one, Program.matchesFrom, hfound]
    simp only [if_neg hmoved]
    rw [List.filterMap_cons_some hrecord, matchesFrom_congr hnext,
      ih _ (Nat.lt_of_succ_lt_succ hlimit) (.inr List.getLast?_concat)]
    rfl

theorem length_le_solutionText (lines : List SolutionLine) :
    lines.length ≤ (solutionText lines).length := by
  induction lines with
  | nil => exact Nat.le_refl 0
  | cons l lines ih =>
    rw [solutionText, List.flatMap_cons, List.length_append, SolutionLine.text,
      List.length_append] at *
    simp only [List.length_cons, List.length_nil]
    omega

theorem records_solutionText (lines : List SolutionLine) :
    records (solutionText lines) = lines.map SolutionLine.record := by
  rw [records_eq parse_recordPattern]
  exact matchesFrom_solutionText []
    (Nat.lt_succ_of_le (length_le_solutionText lines)) (.inl rfl)

theorem lookup_record (lines : List SolutionLine) (v : Var) :
    (lines.map SolutionLine.record).lookup (v + 1) =
      (lines.find? fun l => l.column = v).map fun l => l.numeral.value := by
  induction lines with
  | nil => rfl
  | cons l lines ih =>
    rw [List.map_cons, SolutionLine.record, List.lookup_cons, List.find?_cons]
    by_cases h : l.column = v
    · simp [h]
    · simp [h, ih, beq_false_of_ne (Ne.symm h)]

namespace Model

variable {m : Model}

/-- Whatever numerals a solution writes for the columns of a pool, in whatever order of its lines,
the name of each column gets the value of the first numeral that is written for it, and no name is
left unmatched. -/
theorem Reachable.solution_exact (h : m.Reachable) (integers : Bool) {lines : List SolutionLine}
    (hlines : ∀ v, m.InPool integers v → ∃ l ∈ lines, l.column = v) :
    ∃ names, m.poolNames integers = some names ∧ m.NamesPool integers names ∧
      (VariableValues.ofSolution names (solutionText lines)).unmatched = [] ∧
      (VariableValues.ofSolution names (solutionText lines)).values.names.Perm
        (names.map (·.1)) ∧
      ∀ s v, (s, v) ∈ names → ∃ l, lines.find? (fun l => l.column = v) = some l ∧
        Text.parseFloat? l.numeral.text = some l.numeral.value ∧
        (VariableValues.ofSolution names (solutionText lines)).values.get? s =
          some l.numeral.value := by
  obtain ⟨names, hnames, hpool, -⟩ := h.exists_poolNames integers
  have hfound : ∀ s v, (s, v) ∈ names →
      ∃ l, lines.find? (fun l => l.column = v) = some l := by
    intro s v hmem
    obtain ⟨l, hl, hcolumn⟩ := hlines v ((hpool.column v).1 (List.mem_map_of_mem hmem))
    refine Option.isSome_iff_exists.1 (List.find?_isSome.2 ⟨l, hl, ?_⟩)
    exact decide_eq_true hcolumn
  refine ⟨names, hnames, hpool, ?_⟩
  rw [VariableValues.ofSolution, records_solutionText]
  refine ⟨?_, ?_, ?_⟩
  · rw [VariableValues.addAll_unmatched]
    refine List.append_eq_nil_iff.2 ⟨rfl, List.map_eq_nil_iff.2 (List.filter_eq_nil_iff.2 ?_)⟩
    rintro ⟨s, v⟩ hmem
    obtain ⟨l, hl⟩ := hfound s v hmem
    simp [lookup_record, hl]
  · have hnew : ∀ s ∈ names.map (·.1), s ∉ VariableValues.empty.values.names :=
      fun _ _ => List.not_mem_nil
    simpa [VariableValues.empty, Table.names] using VariableValues.addAll_names hpool.distinct hnew
  · intro s v hmem
    obtain ⟨l, hl⟩ := hfound s v hmem
    refine ⟨l, hl, l.numeral.parseFloat?_text, ?_⟩
    rw [VariableValues.addAll_get? hpool.distinct hmem, lookup_record, hl]
    rfl

/-- Two truth values and a weight between them. -/
def mixedColumns : Model where
  columns := [⟨.named "a", .binary⟩, ⟨.named "probability", .integer (some 0) (some 100)⟩,
    ⟨.named "b", .binary⟩]
  rows := []

theorem mixedColumns_reachable : mixedColumns.Reachable :=
  .step (o := .namedBinary "b")
    (.step (o := .namedInteger "probability" 0 100)
      (.step (o := .namedBinary "a") .empty (by decide) rfl) (by decide) rfl)
    (by decide) rfl

/-- The columns in another order, one of them twice. -/
def shuffledLines : List SolutionLine :=
  [⟨'z', 2, ['\t'], some [' ', ' '],
      ⟨true, .ofNat 3, some (.ofNat 5), some ⟨false, .plus, .ofNat 4⟩⟩,
      by simp, by simp, by simp, by simp, by simp⟩,
    ⟨'x', 0, [' '], none, ⟨false, .ofNat 10, none, none⟩,
      by simp, by simp, by simp, by simp, by simp⟩,
    ⟨'y', 1, [' '], none, ⟨false, .ofNat 7, none, none⟩,
      by simp, by simp, by simp, by simp, by simp⟩,
    ⟨'x', 0, [' '], none, ⟨false, .ofNat 1, none, none⟩,
      by simp, by simp, by simp, by simp, by simp⟩]

theorem shuffledLines_solution_exact :
    solutionText shuffledLines = "z_3\t*  -3.5e+4\nx_1 10\ny_2 7\nx_1 1\n".toList ∧
    ∃ names, mixedColumns.poolNames false = some names ∧ mixedColumns.NamesPool false names ∧
      (VariableValues.ofSolution names (solutionText shuffledLines)).unmatched = [] ∧
      (VariableValues.ofSolution names (solutionText shuffledLines)).values.names.Perm
        (names.map (·.1)) ∧
      ∀ s v, (s, v) ∈ names → ∃ l, shuffledLines.find? (fun l => l.column = v) = some l ∧
        Text.parseFloat? l.numeral.text = some l.numeral.value ∧
        (VariableValues.ofSolution names (solutionText shuffledLines)).values.get? s =
          some l.numeral.value := by
  refine ⟨by decide +kernel, mixedColumns_reachable.solution_exact false ?_⟩
  rintro v ⟨k, hk, -⟩
  match v with
  | 0 => exact ⟨_, .tail _ (.head _), rfl⟩
  | 1 => exact ⟨_, .tail _ (.tail _ (.head _)), rfl⟩
  | 2 => exact ⟨_, .head _, rfl⟩
  | v + 3 => cases hk

end Model
end Linearize
