import Mathlib.Data.Finset.Card
import Linearize.Proofs.Embedding
import Linearize.Proofs.Runs

/-!
# Linearize.Proofs.Reordering

The order of statements does not matter. Every statement of a run is closed in the model that the
run leads to, so the same statements in another order can be followed from there: they are all
encoded, and a renaming of the columns is built along the way. As both orders can be followed in
the model of the other one, both models have the same number of columns.
-/

namespace Linearize

variable {π ρ τ : Equiv.Perm Var} {M : Int}

/-! ## Models up to names -/

/-- The columns of `n` are those of `m` under new names, and so are the rows, in some order. -/
structure Model.Renames (m : Model) (π : Equiv.Perm Var) (n : Model) : Prop where
  size : ∀ v, π v < n.size ↔ v < m.size
  embeds : m.Embeds π n
  rows : (m.rows.map (Constraint.rename π)).Perm n.rows

namespace Model

variable {m n : Model}

theorem Embeds.lt_size (h : m.Embeds π n) {v : Var} (hv : v < m.size) : π v < n.size := by
  obtain ⟨c, hc⟩ := exists_column hv
  exact lt_size_of_column (h v c hc)

theorem Embeds.image_subset (h : m.Embeds π n) :
    (Finset.range m.size).map π.toEmbedding ⊆ Finset.range n.size := by
  intro w hw
  obtain ⟨v, hv, rfl⟩ := Finset.mem_map.1 hw
  exact Finset.mem_range.2 (h.lt_size (Finset.mem_range.1 hv))

theorem Embeds.size_le (h : m.Embeds π n) : m.size ≤ n.size := by
  have hcard := Finset.card_le_card h.image_subset
  rwa [Finset.card_map, Finset.card_range, Finset.card_range] at hcard

theorem Embeds.lt_size_iff (h : m.Embeds π n) (hsize : n.size ≤ m.size) (v : Var) :
    π v < n.size ↔ v < m.size := by
  refine ⟨?_, h.lt_size⟩
  intro hv
  have himage : (Finset.range m.size).map π.toEmbedding = Finset.range n.size := by
    refine Finset.eq_of_subset_of_card_le h.image_subset ?_
    rwa [Finset.card_map, Finset.card_range, Finset.card_range]
  rw [← Finset.mem_range, ← himage, Finset.mem_map] at hv
  obtain ⟨u, hu, heq⟩ := hv
  rw [← π.injective heq]
  exact Finset.mem_range.1 hu

theorem Grows.embeds (h : m.Grows n) (hm : m.Orderly) : m.Embeds (.refl Var) n := by
  intro v c hc
  have hkey : c.key.rename (.refl Var) = c.key := Key.rename_refl (hm.wellFormed v c hc)
  rw [Column.rename, hkey]
  exact h.column hc

end Model

/-! ## Statements one after the other -/

/-- The statements are encoded one after the other, each with its rows added. -/
inductive Model.Encodes (M : Int) : Model → List Statement → Model → Prop where
  | nil (m : Model) : Encodes M m [] m
  | cons {m m₁ m' : Model} {x : Statement} {xs : List Statement} {rows : List Constraint} :
      x.encode m M = .ok (m₁, rows) → Encodes M (m₁.addRows rows) xs m' → Encodes M m (x :: xs) m'

def Statement.rowsIn (M : Int) (m : Model) (x : Statement) : List Constraint :=
  match x.encode m M with
  | .ok (_, rows) => rows
  | .error _ => []

theorem Statement.rowsIn_eq {m m' : Model} {x : Statement} {rows : List Constraint}
    (h : x.encode m M = .ok (m', rows)) : x.rowsIn M m = rows := by
  rw [rowsIn, h]

namespace Model
namespace Encodes

open Compilation (Valid)

variable {s : Scope} {m m' n : Model} {xs ys : List Statement}

theorem deterministic (h : Encodes M m xs m') (h' : Encodes M m xs n) : m' = n := by
  induction h with
  | nil =>
    cases h'
    rfl
  | cons hx _ ih =>
    cases h' with
    | cons hx' hrest =>
      rw [hx] at hx'
      cases hx'
      exact ih hrest

theorem valid (h : Encodes M m xs m') (hxs : ∀ x ∈ xs, x.InScope s) (hv : Valid ⟨s, m⟩) :
    Valid ⟨s, m'⟩ := by
  induction h with
  | nil => exact hv
  | cons hx _ ih =>
    rw [List.forall_mem_cons] at hxs
    exact ih hxs.2 (hv.state hxs.1 hx)

theorem grows (h : Encodes M m xs m') (hxs : ∀ x ∈ xs, x.InScope s) (hv : Valid ⟨s, m⟩) :
    m.Grows m' := by
  induction h with
  | nil => exact .refl _
  | cons hx _ ih =>
    rw [List.forall_mem_cons] at hxs
    have hasks := Statement.encode_asks hx (hv.placed hxs.1)
    exact (hasks.grows.trans (addRows_grows _ _)).trans (ih hxs.2 (hv.state hxs.1 hx))

/-- Every statement of a run is closed in the last model, and the rows of that model are its. -/
theorem closed (h : Encodes M m xs m') (hxs : ∀ x ∈ xs, x.InScope s) (hv : Valid ⟨s, m⟩) :
    (∀ x ∈ xs, x.encode m' M = .ok (m', x.rowsIn M m')) ∧
      m'.rows = m.rows ++ xs.flatMap (Statement.rowsIn M m') := by
  induction h with
  | nil => exact ⟨List.forall_mem_nil _, by simp⟩
  | @cons m m₁ m' x xs rows hx hrest ih =>
    rw [List.forall_mem_cons] at hxs
    have hv₁ := hv.state hxs.1 hx
    obtain ⟨hclosed, hrows⟩ := ih hxs.2 hv₁
    have hagain : x.encode m' M = .ok (m', rows) :=
      Statement.encode_again hx ((addRows_grows m₁ rows).trans (hrest.grows hxs.2 hv₁)).retains
        (hrest.valid hxs.2 hv₁).orderly.distinct
    have hin := Statement.rowsIn_eq hagain
    refine ⟨List.forall_mem_cons.2 ⟨by rw [hin]; exact hagain, hclosed⟩, ?_⟩
    have hasks := Statement.encode_asks hx (hv.placed hxs.1)
    rw [hrows, addRows, hasks.rows, List.flatMap_cons, hin, List.append_assoc]

theorem exists_of_closed (hn : n.Distinct) (hxs : ∀ x ∈ xs, x.InScope s)
    (hclosed : ∀ x ∈ xs, x.encode n M = .ok (n, x.rowsIn M n)) (hv : Valid ⟨s, m⟩)
    (hs : m.Settles s π) (h : m.Embeds π n) :
    ∃ m' ρ, Encodes M m xs m' ∧ m.Keeps π ρ ∧ m'.Embeds ρ n ∧
      m'.rows.map (Constraint.rename ρ) =
        m.rows.map (Constraint.rename ρ) ++ xs.flatMap (Statement.rowsIn M n) := by
  induction xs generalizing m π with
  | nil => exact ⟨m, π, .nil m, fun _ _ => rfl, h, by simp⟩
  | cons x xs ih =>
    rw [List.forall_mem_cons] at hxs hclosed
    obtain ⟨m₁, rows, ρ₁, hx, hfollows⟩ :=
      Statement.encode_embeds h hv.orderly hn hs hxs.1 hclosed.1
    have hg : m.Grows (m₁.addRows rows) := hfollows.asks.grows.trans (addRows_grows m₁ rows)
    obtain ⟨m', ρ, hrun, hkeep, hembeds, hrows⟩ := ih hxs.2 hclosed.2 (hv.state hxs.1 hx)
      (hs.grows hfollows.keeps hg) hfollows.embeds
    refine ⟨m', ρ, .cons hx hrun, hfollows.keeps.trans hkeep hg, hembeds, ?_⟩
    rw [hrows, addRows, hfollows.asks.rows, List.map_append, ← hfollows.rows ρ hkeep,
      List.flatMap_cons, List.append_assoc]

/-- The same statements in another order lead to the same model, up to the names of the columns
that they ask for. -/
theorem exists_of_perm (h : Encodes M m xs n) (hperm : xs.Perm ys) (hxs : ∀ x ∈ xs, x.InScope s)
    (hv : Valid ⟨s, m⟩) (hrows : m.rows = []) :
    ∃ n' π, Encodes M m ys n' ∧ (∀ v, v < m.size → π v = v) ∧ n.Renames π n' := by
  have hys : ∀ y ∈ ys, y.InScope s := fun y hy => hxs y (hperm.mem_iff.2 hy)
  have hs : m.Settles s (.refl Var) := fun v hd => ⟨hv.lt_size hd, rfl⟩
  -- the permuted statements, followed in the model of the given order
  obtain ⟨hclosed, -⟩ := h.closed hxs hv
  obtain ⟨n', ρ, hrun, -, hback, -⟩ := exists_of_closed (h.valid hxs hv).orderly.distinct hys
    (fun y hy => hclosed y (hperm.mem_iff.2 hy)) hv hs ((h.grows hxs hv).embeds hv.orderly)
  -- and the other way round
  obtain ⟨hclosed', hrows'⟩ := hrun.closed hys hv
  obtain ⟨n'', π, hrun', hkeep, hembeds, hmap⟩ := exists_of_closed
    (hrun.valid hys hv).orderly.distinct hxs (fun x hx => hclosed' x (hperm.mem_iff.1 hx)) hv hs
    ((hrun.grows hys hv).embeds hv.orderly)
  obtain rfl : n'' = n := hrun'.deterministic h
  refine ⟨n', π, hrun, hkeep, hembeds.lt_size_iff hback.size_le, hembeds, ?_⟩
  rw [hmap, hrows', hrows]
  exact hperm.flatMap_right _

end Encodes
end Model

/-! ## Declarations and statements -/

def Tree.isDeclaration : Tree → Bool
  | .node (.ident op :: _) => op = "bin" || op = "int"
  | _ => false

theorem Scope.readClauseTree_state_iff {s : Scope} {t : Tree} {clause : Clause}
    (h : s.readClauseTree t = .ok clause) :
    (∃ x, clause = .state x) ↔ t.isDeclaration = false := by
  obtain ⟨us, hus, h⟩ := bind_eq_ok_iff.1 h
  cases t with
  | ident name => cases hus
  | int k => cases hus
  | node ts =>
    cases hus
    cases us with
    | nil => cases h
    | cons head args =>
      obtain ⟨op, hop, h⟩ := bind_eq_ok_iff.1 h
      cases head with
      | int k => cases hop
      | node us => cases hop
      | ident name =>
        cases hop
        split at h
        · rename_i hbin
          unfold readDeclareBinary at h
          split at h
          · obtain ⟨k, -, h⟩ := bind_eq_ok_iff.1 h
            cases h
            simp [Tree.isDeclaration, hbin]
          · cases h
        · rename_i hbin
          split at h
          · rename_i hint
            unfold readDeclareInteger at h
            split at h
            · obtain ⟨k, -, h⟩ := bind_eq_ok_iff.1 h
              obtain ⟨l, -, h⟩ := bind_eq_ok_iff.1 h
              obtain ⟨u, -, h⟩ := bind_eq_ok_iff.1 h
              cases h
              simp [Tree.isDeclaration, hint]
            · cases h
          · rename_i hint
            obtain ⟨x, -, h⟩ := bind_eq_ok_iff.1 h
            cases h
            simp [Tree.isDeclaration, hbin, hint]

namespace Compilation

open Model (Encodes)

variable {c c' : Compilation} {line : String} {lines lines' : List String}

def isDeclaration (line : String) : Bool :=
  match Tree.parse (Text.trim line.toList) with
  | .ok t => t.isDeclaration
  | .error _ => false

/-- What a line states, if it states something. -/
def statementOf? (c : Compilation) (line : String) : Option Statement :=
  match c.clauseOf? line.toList with
  | some (.state x) => some x
  | _ => none

theorem clauseOf?_state_iff {clause : Clause} (h : c.clauseOf? line.toList = some clause) :
    (∃ x, clause = .state x) ↔ isDeclaration line = false := by
  obtain ⟨-, h⟩ := clauseOf?_eq_some_iff.1 h
  simp only [Scope.readClause] at h
  split at h
  · cases h
  · rename_i t ht
    simp only [isDeclaration, ht]
    exact Scope.readClauseTree_state_iff h

theorem statementOf?_eq_some_iff {x : Statement} :
    c.statementOf? line = some x ↔ c.clauseOf? line.toList = some (.state x) := by
  simp only [statementOf?]
  split
  · rename_i y hy
    simp [hy]
  · rename_i hno
    constructor
    · intro h
      cases h
    · intro h
      exact absurd h (hno x)

theorem statementOf?_silent (h : isSilent (Text.trim line.toList) = true) :
    c.statementOf? line = none := by
  simp only [statementOf?, clauseOf?, h, if_true]

/-- The line is silent, or it states something. -/
def Reads (c : Compilation) (line : String) : Prop :=
  isSilent (Text.trim line.toList) = true ∨ ∃ x, c.statementOf? line = some x

/-- Lines without declarations are processed iff they can be read and their statements encoded. -/
theorem runs_iff (hlines : ∀ line ∈ lines, isDeclaration line = false) :
    Runs M c lines c' ↔ (∀ line ∈ lines, c.Reads line) ∧
      Encodes M c.model (lines.filterMap c.statementOf?) c'.model ∧ c'.scope = c.scope := by
  induction lines generalizing c with
  | nil =>
    simp only [List.filterMap_nil]
    constructor
    · intro h
      cases h
      exact ⟨List.forall_mem_nil _, .nil _, rfl⟩
    · rintro ⟨-, hrun, hscope⟩
      obtain ⟨scope, model⟩ := c
      obtain ⟨scope', model'⟩ := c'
      cases hrun
      cases hscope
      exact .nil _
  | cons line rest ih =>
    rw [List.forall_mem_cons] at hlines
    rw [List.forall_mem_cons]
    constructor
    · intro h
      cases h with
      | cons hline hrest =>
        rcases addLine_eq_ok_iff.1 hline with ⟨hsilent, rfl⟩ | ⟨clause, hclause, happly⟩
        · obtain ⟨hreads, hrun, hscope⟩ := (ih hlines.2).1 hrest
          rw [List.filterMap_cons_none (statementOf?_silent hsilent)]
          exact ⟨⟨.inl hsilent, hreads⟩, hrun, hscope⟩
        · obtain ⟨x, rfl⟩ := (clauseOf?_state_iff hclause).2 hlines.1
          obtain ⟨m, rows, hx, rfl⟩ := apply_state_eq_ok_iff.1 happly
          have hstate := statementOf?_eq_some_iff.2 hclause
          obtain ⟨hreads, hrun, hscope⟩ := (ih hlines.2).1 hrest
          rw [List.filterMap_cons_some hstate]
          exact ⟨⟨.inr ⟨x, hstate⟩, hreads⟩, .cons hx hrun, hscope⟩
    · rintro ⟨⟨hsilent | ⟨x, hstate⟩, hreads⟩, hrun, hscope⟩
      · rw [List.filterMap_cons_none (statementOf?_silent hsilent)] at hrun
        exact .cons (addLine_eq_ok_iff.2 (.inl ⟨hsilent, rfl⟩))
          ((ih hlines.2).2 ⟨hreads, hrun, hscope⟩)
      · rw [List.filterMap_cons_some hstate] at hrun
        cases hrun with
        | @cons _ m₁ _ _ _ rows hx hrest =>
          have hclause := statementOf?_eq_some_iff.1 hstate
          have happly : c.apply M (.state x) = .ok ⟨c.scope, m₁.addRows rows⟩ :=
            apply_state_eq_ok_iff.2 ⟨m₁, rows, hx, rfl⟩
          exact .cons (addLine_eq_ok_iff.2 (.inr ⟨_, hclause, happly⟩))
            ((ih hlines.2).2 ⟨hreads, hrest, hscope⟩)

theorem Runs.rows_of_declarations (h : Runs M c lines c')
    (hlines : ∀ line ∈ lines, isSilent (Text.trim line.toList) = true ∨ isDeclaration line = true) :
    c'.model.rows = c.model.rows := by
  induction h with
  | nil => rfl
  | @cons c c₁ c' line rest hline _ ih =>
    rw [List.forall_mem_cons] at hlines
    rw [ih hlines.2]
    rcases addLine_eq_ok_iff.1 hline with ⟨-, rfl⟩ | ⟨clause, hclause, happly⟩
    · rfl
    · rcases apply_cases happly with ⟨name, scope, rfl, -, rfl⟩ |
        ⟨name, lower, upper, scope, rfl, -, rfl⟩ | ⟨x, m, rows, rfl, -, rfl⟩
      · exact Model.binary_rows _ _
      · exact Model.integerWithin_rows _ _ _ _
      · -- the line would have to be a declaration
        have hstate := (clauseOf?_state_iff hclause).1 ⟨x, rfl⟩
        have hsilent := (clauseOf?_eq_some_iff.1 hclause).1
        rw [hstate, hsilent] at hlines
        rcases hlines.1 with h | h <;> cases h

/-- The order of statements does not matter: behind the same declarations, the same lines in another
order are processed as well, and the two models differ only by the names of auxiliary columns and
by the order of the rows. -/
theorem accepted_reordered (M : Int) (declarations lines lines' : List String) (c : Compilation)
    (hdeclarations : ∀ line ∈ declarations,
      isSilent (Text.trim line.toList) = true ∨ isDeclaration line = true)
    (hlines : ∀ line ∈ lines, isDeclaration line = false) (hperm : lines.Perm lines')
    (h : Accepts M (declarations ++ lines) c) :
    ∃ c', Accepts M (declarations ++ lines') c' ∧ c'.scope = c.scope ∧
      ∃ π : Equiv.Perm Var, (∀ v, c.scope.Declares v → π v = v) ∧
        c.model.Renames π c'.model := by
  obtain ⟨c₀, hrun₀, hrun⟩ := runs_append_iff.1 (accepts_iff.1 h)
  have hv : c₀.Valid := hrun₀.valid valid_empty
  have hrows : c₀.model.rows = [] := hrun₀.rows_of_declarations hdeclarations
  obtain ⟨hreads, hencodes, hscope⟩ := (runs_iff hlines).1 hrun
  have hin : ∀ x ∈ lines.filterMap c₀.statementOf?, x.InScope c₀.scope := by
    intro x hx
    obtain ⟨line, -, hstate⟩ := List.mem_filterMap.1 hx
    exact Scope.readClause_inScope
      (clauseOf?_eq_some_iff.1 (statementOf?_eq_some_iff.1 hstate)).2
  obtain ⟨n, π, hencodes', hfix, hrenames⟩ :=
    hencodes.exists_of_perm (hperm.filterMap _) hin hv hrows
  have hrun' : Runs M c₀ lines' ⟨c₀.scope, n⟩ :=
    (runs_iff fun line hl => hlines line (hperm.mem_iff.2 hl)).2
      ⟨fun line hl => hreads line (hperm.mem_iff.2 hl), hencodes', rfl⟩
  refine ⟨⟨c₀.scope, n⟩, accepts_iff.2 (runs_append_iff.2 ⟨c₀, hrun₀, hrun'⟩), hscope.symm, π,
    fun v hd => hfix v (hv.lt_size ?_), hrenames⟩
  rw [← hscope]
  exact hd

/-- The equality asks for an indicator that the bound asks for too, and joins it to another one. -/
def sharedLines : List String := ["(eq x 3)", "; the same bound", "(geq x 3)"]

def sharedCompilation : Compilation where
  scope := [("x", .integer 0)]
  model := {
    columns := [⟨.named "x", .integer (some 0) (some 9)⟩, ⟨.less (.ofVar 0) (.const 4), .binary⟩,
      ⟨.less (.const 3) ⟨[(0, 1)], 1⟩, .binary⟩, ⟨.and [1, 2], .binary⟩]
    rows := [.le (.ofVar 0) ⟨[(1, -1000)], 1003⟩, .le ⟨[(1, -1000)], 4⟩ (.ofVar 0),
      .le (.const 3) ⟨[(0, 1), (2, -1000)], 1000⟩, .le ⟨[(0, 1), (2, -1000)], 1⟩ (.const 3),
      .le ⟨[(1, 1), (2, 1)], -1⟩ (.ofVar 3), .le (.ofVar 3) (.ofVar 1), .le (.ofVar 3) (.ofVar 2),
      .le (.const 3) ⟨[(0, 1), (2, -1000)], 1000⟩, .le ⟨[(0, 1), (2, -1000)], 1⟩ (.const 3)] }

theorem sharedLines_reordered :
    ∃ c', Accepts 1000 ("(int x 0 9)" :: sharedLines.reverse) c' ∧
      c'.scope = sharedCompilation.scope ∧
      ∃ π : Equiv.Perm Var, (∀ v, sharedCompilation.scope.Declares v → π v = v) ∧
        sharedCompilation.model.Renames π c'.model := by
  refine accepted_reordered 1000 ["(int x 0 9)"] sharedLines sharedLines.reverse sharedCompilation
    ?_ ?_ (List.reverse_perm _).symm ?_
  · decide +kernel
  · decide +kernel
  · unfold Accepts
    decide +kernel

end Compilation
end Linearize
