import Linearize.Proofs.Statements

/-!
# Linearize.Proofs.Runs

Compilations as they go from line to line. What a line can do is said once, by `addLine_cases`; the
invariant of a compilation is that the columns are in order and that every name of the scope has a
column of its kind.
-/

namespace Linearize

namespace Model

theorem addRows_grows (m : Model) (rows : List Constraint) : m.Grows (m.addRows rows) :=
  ⟨List.prefix_refl _, List.prefix_append _ _⟩

theorem integerWithin_grows (m : Model) (k : Key) (lower upper : Option Int) :
    m.Grows (m.integerWithin k lower upper).1 := by
  rcases m.integerWithin_cases k lower upper with ⟨v, c, -, -, -, h⟩ | ⟨-, h⟩
  · rw [h]
    exact .refl m
  · rw [h]
    exact addColumn_grows m _

theorem integerWithin_rows (m : Model) (k : Key) (lower upper : Option Int) :
    (m.integerWithin k lower upper).1.rows = m.rows := by
  rcases m.integerWithin_cases k lower upper with ⟨v, c, -, -, -, h⟩ | ⟨-, h⟩ <;> rw [h]
  rfl

theorem integerWithin_column (m : Model) (k : Key) (lower upper : Option Int) :
    ∃ l u, (m.integerWithin k lower upper).1.columns[(m.integerWithin k lower upper).2]? =
      some ⟨k, .integer l u⟩ := by
  rcases m.integerWithin_cases k lower upper with ⟨v, c, hc, hk, hkind, h⟩ | ⟨-, h⟩
  · rw [h]
    obtain ⟨key, kind⟩ := c
    cases hk
    cases kind with
    | binary => cases hkind
    | integer l u => exact ⟨l, u, hc⟩
  · rw [h]
    exact ⟨lower, upper, column_addColumn_iff.2 (.inr ⟨rfl, rfl⟩)⟩

end Model

namespace Compilation

variable {c c' : Compilation} {M : Int}

/-! ## One line -/

/-- The columns are in order, and every declared name has its column. -/
structure Valid (c : Compilation) : Prop where
  orderly : c.model.Orderly
  binary : ∀ {name v}, c.scope.get? name = some (.binary v) → c.model.Indicates v (.named name)
  integer : ∀ {name v}, c.scope.get? name = some (.integer v) →
    ∃ l u, c.model.columns[v]? = some ⟨.named name, .integer l u⟩

theorem valid_empty : Valid empty where
  orderly := Model.orderly_empty
  binary := fun h => by cases h
  integer := fun h => by cases h

theorem Valid.lt_size (hv : c.Valid) {v : Var} (h : c.scope.Declares v) : v < c.model.size := by
  obtain ⟨name, d, hd, rfl⟩ := h
  cases d with
  | binary v => exact (hv.binary hd).lt_size
  | integer v =>
    obtain ⟨l, u, hc⟩ := hv.integer hd
    exact Model.lt_size_of_column hc

theorem Valid.placed (hv : c.Valid) {x : Statement} (hx : x.InScope c.scope) :
    x.Placed c.model where
  truths := fun v hv' => by
    obtain ⟨name, hname⟩ := hx.truths v hv'
    exact (hv.binary hname).kind?
  compared := fun e he =>
    ⟨(hx.compared e he).wellFormed, fun v hv' => hv.lt_size ((hx.compared e he).vars v hv')⟩

theorem clauseOf?_eq_some_iff {line : List Char} {clause : Clause} :
    c.clauseOf? line = some clause ↔
      isSilent (Text.trim line) = false ∧ c.scope.readClause (Text.trim line) = .ok clause := by
  simp only [clauseOf?]
  cases isSilent (Text.trim line) with
  | true => simp
  | false => cases c.scope.readClause (Text.trim line) <;> simp

theorem addLine_eq_ok_iff {line : List Char} : c.addLine M line = .ok c' ↔
    (isSilent (Text.trim line) = true ∧ c' = c) ∨
      ∃ clause, c.clauseOf? line = some clause ∧ c.apply M clause = .ok c' := by
  simp only [clauseOf?_eq_some_iff, addLine]
  cases isSilent (Text.trim line) with
  | true => simp [eq_comm]
  | false => cases c.scope.readClause (Text.trim line) <;> simp

theorem apply_state_eq_ok_iff {x : Statement} : c.apply M (.state x) = .ok c' ↔
    ∃ m rows, x.encode c.model M = .ok (m, rows) ∧ c' = ⟨c.scope, m.addRows rows⟩ := by
  simp only [apply, Statement.assert]
  cases x.encode c.model M with
  | error e => simp
  | ok r =>
    obtain ⟨m, rows⟩ := r
    simp [eq_comm]

theorem apply_cases {clause : Clause} (h : c.apply M clause = .ok c') :
    (∃ name scope, clause = .declareBinary name ∧
        c.scope.insertNew? name (.binary (c.model.namedBinary name).2) = some scope ∧
        c' = ⟨scope, (c.model.namedBinary name).1⟩) ∨
      (∃ name lower upper scope, clause = .declareInteger name lower upper ∧
        c.scope.insertNew? name (.integer (c.model.namedInteger name lower upper).2) =
          some scope ∧ c' = ⟨scope, (c.model.namedInteger name lower upper).1⟩) ∨
      ∃ x m rows, clause = .state x ∧ x.encode c.model M = .ok (m, rows) ∧
        c' = ⟨c.scope, m.addRows rows⟩ := by
  cases clause with
  | declareBinary name =>
    simp only [apply, declare] at h
    split at h
    · cases h
    · rename_i scope hs
      cases h
      exact .inl ⟨name, scope, rfl, hs, rfl⟩
  | declareInteger name lower upper =>
    simp only [apply, declare] at h
    split at h
    · cases h
    · rename_i scope hs
      cases h
      exact .inr (.inl ⟨name, lower, upper, scope, rfl, hs, rfl⟩)
  | state x =>
    obtain ⟨m, rows, hx, rfl⟩ := apply_state_eq_ok_iff.1 h
    exact .inr (.inr ⟨x, m, rows, rfl, hx, rfl⟩)

/-- What a line can do: nothing, or what its clause does. A statement that it makes is in scope. -/
theorem addLine_cases {line : List Char} (h : c.addLine M line = .ok c') :
    (c.clauseOf? line = none ∧ c' = c) ∨
      ∃ clause, c.clauseOf? line = some clause ∧ c.apply M clause = .ok c' ∧
        ∀ x, clause = .state x → x.InScope c.scope := by
  rcases addLine_eq_ok_iff.1 h with ⟨hsilent, rfl⟩ | ⟨clause, hclause, happly⟩
  · exact .inl ⟨by rw [clauseOf?, if_pos hsilent], rfl⟩
  · refine .inr ⟨clause, hclause, happly, ?_⟩
    rintro x rfl
    exact Scope.readClause_inScope (clauseOf?_eq_some_iff.1 hclause).2

theorem Valid.declareBinary (hv : c.Valid) {name : String} {scope : Scope}
    (h : c.scope.insertNew? name (.binary (c.model.namedBinary name).2) = some scope) :
    Valid ⟨scope, (c.model.namedBinary name).1⟩ := by
  have hg : c.model.Grows (c.model.namedBinary name).1 := Model.binary_grows _ _
  refine ⟨hv.orderly.binary trivial (List.forall_mem_nil _),
    ?_, ?_⟩
  · intro n v hn
    rw [Table.get?_insertNew? h] at hn
    split at hn
    · rename_i heq
      cases hn
      rw [heq]
      exact Model.binary_indicates _ _
    · exact hg.indicates (hv.binary hn)
  · intro n v hn
    rw [Table.get?_insertNew? h] at hn
    split at hn
    · cases hn
    · obtain ⟨l, u, hc⟩ := hv.integer hn
      exact ⟨l, u, hg.column hc⟩

theorem Valid.declareInteger (hv : c.Valid) {name : String} {lower upper : Int} {scope : Scope}
    (h : c.scope.insertNew? name (.integer (c.model.namedInteger name lower upper).2) =
      some scope) : Valid ⟨scope, (c.model.namedInteger name lower upper).1⟩ := by
  have hg : c.model.Grows (c.model.namedInteger name lower upper).1 :=
    Model.integerWithin_grows _ _ _ _
  refine ⟨hv.orderly.namedInteger _ _ _, ?_, ?_⟩
  · intro n v hn
    rw [Table.get?_insertNew? h] at hn
    split at hn
    · cases hn
    · exact hg.indicates (hv.binary hn)
  · intro n v hn
    rw [Table.get?_insertNew? h] at hn
    split at hn
    · rename_i heq
      cases hn
      rw [heq]
      exact Model.integerWithin_column _ _ _ _
    · obtain ⟨l, u, hc⟩ := hv.integer hn
      exact ⟨l, u, hg.column hc⟩

theorem Valid.state (hv : c.Valid) {x : Statement} {m : Model} {rows : List Constraint}
    (hx : x.InScope c.scope) (h : x.encode c.model M = .ok (m, rows)) :
    Valid ⟨c.scope, m.addRows rows⟩ := by
  have hasks : c.model.Asks m := Statement.encode_asks h (hv.placed hx)
  have hg := hasks.grows
  have hm := hasks.orderly hv.orderly
  refine ⟨⟨hm.distinct, hm.acyclic, hm.auxiliary, hm.wellFormed⟩,
    fun hn => hg.indicates (hv.binary hn), ?_⟩
  intro name v hn
  obtain ⟨l, u, hc⟩ := hv.integer hn
  exact ⟨l, u, hg.column hc⟩

theorem Valid.addLine (hv : c.Valid) {line : List Char} (h : c.addLine M line = .ok c') :
    c'.Valid := by
  rcases addLine_cases h with ⟨-, rfl⟩ | ⟨clause, -, happly, hscope⟩
  · exact hv
  · rcases apply_cases happly with ⟨name, scope, rfl, hs, rfl⟩ |
      ⟨name, lower, upper, scope, rfl, hs, rfl⟩ | ⟨x, m, rows, rfl, henc, rfl⟩
    · exact hv.declareBinary hs
    · exact hv.declareInteger hs
    · exact hv.state (hscope x rfl) henc

theorem Valid.addLine_grows (hv : c.Valid) {line : List Char} (h : c.addLine M line = .ok c') :
    c.model.Grows c'.model := by
  rcases addLine_cases h with ⟨-, rfl⟩ | ⟨clause, -, happly, hscope⟩
  · exact .refl _
  · rcases apply_cases happly with ⟨name, scope, rfl, hs, rfl⟩ |
      ⟨name, lower, upper, scope, rfl, hs, rfl⟩ | ⟨x, m, rows, rfl, henc, rfl⟩
    · exact Model.binary_grows _ _
    · exact Model.integerWithin_grows _ _ _ _
    · have hasks := Statement.encode_asks henc (hv.placed (hscope x rfl))
      exact hasks.grows.trans (Model.addRows_grows m rows)

/-! ## Many lines -/

/-- The lines are all processed and lead from one compilation to another. -/
inductive Runs (M : Int) : Compilation → List String → Compilation → Prop where
  | nil (c : Compilation) : Runs M c [] c
  | cons {c c₁ c' : Compilation} {line : String} {rest : List String} :
      c.addLine M line.toList = .ok c₁ → Runs M c₁ rest c' → Runs M c (line :: rest) c'

theorem addLines_eq_ok_iff {n : Nat} {lines : List String} :
    addLines M n c (lines.map some) = .ok c' ↔ Runs M c lines c' := by
  induction lines generalizing c n with
  | nil =>
    simp only [List.map_nil, addLines, Except.ok.injEq]
    constructor
    · rintro rfl
      exact .nil c
    · intro h
      cases h
      rfl
  | cons line rest ih =>
    simp only [List.map_cons, addLines]
    constructor
    · intro h
      split at h
      · cases h
      · rename_i c₁ hc
        exact .cons hc (ih.1 h)
    · intro h
      cases h with
      | cons hc hrest => simp only [hc, ih.2 hrest]

theorem accepts_iff {lines : List String} : Accepts M lines c ↔ Runs M .empty lines c :=
  addLines_eq_ok_iff

theorem runs_append_iff {lines lines' : List String} : Runs M c (lines ++ lines') c' ↔
    ∃ c₁, Runs M c lines c₁ ∧ Runs M c₁ lines' c' := by
  induction lines generalizing c with
  | nil =>
    constructor
    · intro h
      exact ⟨c, .nil c, h⟩
    · rintro ⟨c₁, h, h'⟩
      cases h
      exact h'
  | cons line rest ih =>
    constructor
    · intro h
      cases h with
      | cons hline hrest =>
        obtain ⟨c₁, h₁, h₂⟩ := ih.1 hrest
        exact ⟨c₁, .cons hline h₁, h₂⟩
    · rintro ⟨c₁, h, h'⟩
      cases h with
      | cons hline hrest => exact .cons hline (ih.2 ⟨c₁, hrest, h'⟩)

namespace Runs

variable {lines : List String}

theorem valid (h : Runs M c lines c') (hv : c.Valid) : c'.Valid := by
  induction h with
  | nil => exact hv
  | cons hc _ ih => exact ih (hv.addLine hc)

theorem deterministic {c'' : Compilation} (h : Runs M c lines c') (h' : Runs M c lines c'') :
    c' = c'' :=
  Except.ok.inj ((addLines_eq_ok_iff (n := 0).2 h).symm.trans (addLines_eq_ok_iff.2 h'))

theorem grows (h : Runs M c lines c') (hv : c.Valid) : c.model.Grows c'.model := by
  induction h with
  | nil => exact .refl _
  | cons hc _ ih => exact (hv.addLine_grows hc).trans (ih (hv.addLine hc))

end Runs

theorem Accepts.valid {lines : List String} (h : Accepts M lines c) : c.Valid :=
  (accepts_iff.1 h).valid valid_empty

theorem statements_cons {c₁ : Compilation} {line : String} {rest : List String}
    (h : c.addLine M line.toList = .ok c₁) {x : Statement} :
    x ∈ c.statements M (line :: rest) ↔
      c.clauseOf? line.toList = some (.state x) ∨ x ∈ c₁.statements M rest := by
  simp only [statements, clauses, h, List.filterMap_append, List.mem_append]
  refine or_congr_left ?_
  cases hc : c.clauseOf? line.toList with
  | none => simp
  | some clause => cases clause <;> simp [eq_comm]

end Compilation
end Linearize
