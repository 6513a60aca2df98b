import Linearize.Solver.Values

/-!
# Linearize.Proofs.Records

Values from the records of a solution. A match of the record pattern gives a value to a column if
both of its numerals can be read, and the first match that gives a value to a column counts. Every
name that is asked for gets one entry.
-/

namespace Linearize

/-! ## Records -/

/-- The match gives the value `x` to the column that has the number `n`, counted from 1. -/
def Gives (record : Regex.Match) (n : Nat) (x : Float) : Prop :=
  ∃ column value, record.group? 1 = some column ∧ record.group? 2 = some value ∧
    Text.parseNatural? column = some n ∧ Text.parseFloat? value = some x

/-- The first match that gives the column with the number `n` a value gives it `x`. -/
def FirstGives (found : List Regex.Match) (n : Nat) (x : Float) : Prop :=
  ∃ before record after, found = before ++ record :: after ∧ Gives record n x ∧
    ∀ r ∈ before, ∀ y, ¬ Gives r n y

def Unrecorded (found : List Regex.Match) (v : Var) : Prop :=
  ∀ r ∈ found, ∀ y, ¬ Gives r (v + 1) y

/-- The value of a column: the first that it is given, or 0. -/
def HasValue (found : List Regex.Match) (v : Var) (x : Float) : Prop :=
  FirstGives found (v + 1) x ∨ Unrecorded found v ∧ x = 0.0

theorem recordPattern_reads : ∃ pattern, Regex.parse? recordPattern.toList = some pattern :=
  Option.isSome_iff_exists.1 (by decide +kernel)

theorem records_eq {pattern : Regex} (h : Regex.parse? recordPattern.toList = some pattern)
    (solution : List Char) :
    records solution = (pattern.allMatches solution).filterMap recordOf? := by
  -- not by `simp`, which would read the pattern to get at the cases
  delta records
  rw [h]

theorem recordOf?_eq_some_iff {record : Regex.Match} {n : Nat} {x : Float} :
    recordOf? record = some (n, x) ↔ Gives record n x := by
  simp only [recordOf?, Gives]
  grind

section Found

variable {found : List Regex.Match} {r : Regex.Match} {n : Nat} {v : Var} {x : Float}

theorem firstGives_cons_iff :
    FirstGives (r :: found) n x ↔ Gives r n x ∨ (∀ y, ¬ Gives r n y) ∧ FirstGives found n x := by
  constructor
  · rintro ⟨before, record, after, hsplit, hx, hbefore⟩
    cases before with
    | nil =>
      cases hsplit
      exact .inl hx
    | cons r' before =>
      rw [List.forall_mem_cons] at hbefore
      obtain ⟨rfl, htail⟩ := List.cons.inj hsplit
      exact .inr ⟨hbefore.1, before, record, after, htail, hx, hbefore.2⟩
  · rintro (hx | ⟨hr, before, record, after, rfl, hx, hbefore⟩)
    · exact ⟨[], r, found, rfl, hx, List.forall_mem_nil _⟩
    · exact ⟨r :: before, record, after, rfl, hx, List.forall_mem_cons.2 ⟨hr, hbefore⟩⟩

theorem lookup_eq_some_iff :
    (found.filterMap recordOf?).lookup n = some x ↔ FirstGives found n x := by
  induction found with
  | nil => simp [FirstGives]
  | cons r found ih =>
    rw [firstGives_cons_iff]
    simp only [← recordOf?_eq_some_iff]
    cases hr : recordOf? r with
    | none => simp [List.filterMap_cons_none hr, ih]
    | some e =>
      obtain ⟨k, y⟩ := e
      rw [List.filterMap_cons_some hr, List.lookup_cons]
      by_cases hk : n = k
      · simp [hk]
      · simpa [beq_false_of_ne hk, Ne.symm hk] using ih

theorem lookup_eq_none_iff :
    (found.filterMap recordOf?).lookup (v + 1) = none ↔ Unrecorded found v := by
  simp only [List.lookup_eq_none_iff, List.mem_filterMap, Unrecorded, ← recordOf?_eq_some_iff,
    Prod.forall]
  grind

theorem hasValue_iff :
    HasValue found v x ↔ ((found.filterMap recordOf?).lookup (v + 1)).getD 0.0 = x := by
  rw [HasValue, ← lookup_eq_some_iff, ← lookup_eq_none_iff]
  cases (found.filterMap recordOf?).lookup (v + 1) with
  | none => simp [eq_comm]
  | some y => simp

end Found

/-! ## Values -/

namespace VariableValues

/-- What the values say that are found under the requested names. -/
structure Answers (found : List Regex.Match) (requested : List (String × Var))
    (shown : VariableValues) : Prop where
  /-- Every requested name has one entry. -/
  names : shown.values.names.Perm (requested.map (·.1))
  /-- The entry of a name is the value of its column. -/
  value : ∀ s v, (s, v) ∈ requested → ∃ x, shown.values.get? s = some x ∧ HasValue found v x
  /-- The names of the columns without a record, as they were requested. -/
  unmatched : ∃ missing : List (String × Var), missing.Sublist requested ∧ shown.unmatched = missing.map (·.1) ∧
    ∀ e ∈ requested, e ∈ missing ↔ Unrecorded found e.2

section AddAll

variable {found : List (Nat × Float)} {acc : VariableValues} {requested : List (String × Var)}

theorem addAll_cons (found : List (Nat × Float)) (acc : VariableValues) (s : String) (v : Var)
    (rest : List (String × Var)) :
    addAll found acc ((s, v) :: rest) =
      addAll found ⟨acc.values.put s ((found.lookup (v + 1)).getD 0.0),
        acc.unmatched ++ if (found.lookup (v + 1)).isNone then [s] else []⟩ rest := by
  simp only [addAll]
  cases found.lookup (v + 1) with
  | none => rfl
  | some x => simp

theorem addAll_unmatched :
    (addAll found acc requested).unmatched =
      acc.unmatched ++
        (requested.filter fun e => (found.lookup (e.2 + 1)).isNone).map (·.1) := by
  induction requested generalizing acc with
  | nil => simp [addAll]
  | cons e rest ih =>
    rw [addAll_cons, ih, List.append_assoc, List.filter_cons]
    cases (found.lookup (e.2 + 1)).isNone <;> rfl

theorem addAll_get?_of_notMem {s : String} (hs : s ∉ requested.map (·.1)) :
    (addAll found acc requested).values.get? s = acc.values.get? s := by
  induction requested generalizing acc with
  | nil => rfl
  | cons e rest ih =>
    rw [List.map_cons, List.mem_cons, not_or] at hs
    rw [addAll_cons, ih hs.2, Table.get?_put, if_neg hs.1]

theorem addAll_get? (hnodup : (requested.map (·.1)).Nodup) {s : String} {v : Var}
    (hmem : (s, v) ∈ requested) :
    (addAll found acc requested).values.get? s = some ((found.lookup (v + 1)).getD 0.0) := by
  induction requested generalizing acc with
  | nil => cases hmem
  | cons e rest ih =>
    obtain ⟨hnew, hrest⟩ := List.nodup_cons.1 hnodup
    rw [addAll_cons]
    rcases List.mem_cons.1 hmem with rfl | hmem
    · rw [addAll_get?_of_notMem hnew, Table.get?_put, if_pos rfl]
    · exact ih hrest hmem

theorem addAll_names (hnodup : (requested.map (·.1)).Nodup)
    (hnew : ∀ s ∈ requested.map (·.1), s ∉ acc.values.names) :
    (addAll found acc requested).values.names.Perm
      (requested.map (·.1) ++ acc.values.names) := by
  induction requested generalizing acc with
  | nil => exact .refl _
  | cons e rest ih =>
    obtain ⟨s, v⟩ := e
    obtain ⟨hs, hrest⟩ := List.nodup_cons.1 hnodup
    rw [List.map_cons, List.forall_mem_cons] at hnew
    have hput := Table.names_put hnew.1 ((found.lookup (v + 1)).getD 0.0)
    rw [addAll_cons]
    refine (ih hrest ?_).trans ?_
    · intro t ht htput
      rcases List.mem_cons.1 (hput.mem_iff.1 htput) with rfl | htacc
      · exact hs ht
      · exact hnew.2 t ht htacc
    · exact (hput.append_left _).trans List.perm_middle

end AddAll

theorem ofSolution_answers {pattern : Regex} {requested : List (String × Var)}
    (hpattern : Regex.parse? recordPattern.toList = some pattern)
    (hnodup : (requested.map (·.1)).Nodup) (solution : List Char) :
    Answers (pattern.allMatches solution) requested (ofSolution requested solution) := by
  rw [ofSolution, records_eq hpattern]
  refine ⟨?_, ?_, ?_⟩
  · have hnew : ∀ s ∈ requested.map (·.1), s ∉ empty.values.names := fun _ _ => List.not_mem_nil
    simpa [empty, Table.names] using addAll_names hnodup hnew
  · intro s v hmem
    exact ⟨_, addAll_get? hnodup hmem, hasValue_iff.2 rfl⟩
  · refine ⟨_, List.filter_sublist, addAll_unmatched, ?_⟩
    intro e he
    rw [List.mem_filter, Option.isNone_iff_eq_none, lookup_eq_none_iff, and_iff_right he]

end VariableValues
end Linearize
