import Linearize.Proofs.Incremental
import Linearize.Proofs.Mentions

/-!
# Linearize.Proofs.Declarations

What the columns owe to the declarations. Along the lines, every declaration has a column of its
name, kind and bounds that the scope leads to, every other column stands for a condition, and no row
mentions anything but columns.
-/

namespace Linearize

/-- The name that a clause declares, and the kind of its column. -/
def Clause.declared? : Clause → Option (String × Kind)
  | .declareBinary name => some (name, .binary)
  | .declareInteger name lower upper => some (name, .integer (some lower) (some upper))
  | .state _ => none

def Kind.declared (v : Var) : Kind → Declared
  | .binary => .binary v
  | .integer _ _ => .integer v

@[simp] theorem Kind.declared_var (v : Var) (kind : Kind) : (kind.declared v).var = v := by
  cases kind <;> rfl

namespace Compilation

variable {c c' : Compilation} {M : Int} {decls : List (String × Kind)}

def declarations (M : Int) (c : Compilation) (lines : List String) : List (String × Kind) :=
  (c.clauses M lines).filterMap Clause.declared?

/-- The columns of names are those of the declarations, and rows mention columns only. -/
structure Reflects (c : Compilation) (decls : List (String × Kind)) : Prop where
  declared : ∀ {name kind}, (name, kind) ∈ decls → ∃ v,
    c.scope.get? name = some (kind.declared v) ∧ c.model.columns[v]? = some ⟨.named name, kind⟩
  named : ∀ {v name kind}, c.model.columns[v]? = some ⟨.named name, kind⟩ →
    c.scope.get? name = some (kind.declared v) ∧ (name, kind) ∈ decls
  rows : AllOver c.model.Has c.model.rows

theorem reflects_empty : Reflects empty [] where
  declared := fun h => by cases h
  named := fun h => by cases h
  rows := allOver_nil

theorem Valid.over (hv : c.Valid) {r : Constraint} (hr : c.scope.CoversRow r) :
    r.Over c.model.Has :=
  ⟨fun v h => hv.lt_size (hr.1.vars v h), fun v h => hv.lt_size (hr.2.vars v h)⟩

theorem Reflects.fresh (h : c.Reflects decls) (hs : c.scope.Increasing) {name : String}
    {d : Declared} {scope : Scope} (hnew : c.scope.insertNew? name d = some scope) (v : Var)
    (kind : Kind) : c.model.columns[v]? ≠ some ⟨.named name, kind⟩ := by
  intro hc
  have hnone := hs.get?_eq_none hnew
  rw [(h.named hc).1] at hnone
  cases hnone

theorem Reflects.apply_declared (h : c.Reflects decls) (hs : c.scope.Increasing) {clause : Clause}
    {name : String} {kind : Kind} (happly : c.apply M clause = .ok c')
    (hclause : clause.declared? = some (name, kind)) :
    c.scope.insertNew? name (kind.declared c.model.size) = some c'.scope ∧
      c'.model = (c.model.addColumn ⟨.named name, kind⟩).1 := by
  rcases apply_cases happly with ⟨name, scope, rfl, hnew, rfl⟩ |
    ⟨name, lower, upper, scope, rfl, hnew, rfl⟩ | ⟨x, m, rows, rfl, -, rfl⟩
  · cases hclause
    rcases c.model.binary_cases (.named name) with ⟨v, hv, -⟩ | ⟨-, hb⟩
    · exact absurd hv (h.fresh hs hnew v _)
    · rw [Model.namedBinary, hb] at hnew ⊢
      exact ⟨hnew, rfl⟩
  · cases hclause
    rcases c.model.integerWithin_cases (.named name) (some lower) (some upper) with
      ⟨v, ⟨key, kind⟩, hv, rfl, -, -⟩ | ⟨-, hb⟩
    · exact absurd hv (h.fresh hs hnew v _)
    · rw [Model.namedInteger, hb] at hnew ⊢
      exact ⟨hnew, rfl⟩
  · cases hclause

theorem Reflects.declare (h : c.Reflects decls) (hs : c.scope.Increasing) {clause : Clause}
    {name : String} {kind : Kind} (happly : c.apply M clause = .ok c')
    (hclause : clause.declared? = some (name, kind)) : c'.Reflects (decls ++ [(name, kind)]) := by
  obtain ⟨hnew, hmodel⟩ := h.apply_declared hs happly hclause
  have hg : c.model.Grows c'.model := by
    rw [hmodel]
    exact Model.addColumn_grows _ _
  have hcolumn : ∀ {v : Var} {d : Column}, c'.model.columns[v]? = some d ↔
      c.model.columns[v]? = some d ∨ v = c.model.size ∧ d = ⟨.named name, kind⟩ := by
    intro v d
    rw [hmodel, Model.column_addColumn_iff]
  have hself : c'.scope.get? name = some (kind.declared c.model.size) := by
    rw [Table.get?_insertNew? hnew, if_pos rfl]
  refine ⟨?_, ?_, ?_⟩
  · intro name' kind' hmem
    rcases List.mem_append.1 hmem with hmem | hmem
    · obtain ⟨v, hget, hc⟩ := h.declared hmem
      exact ⟨v, hs.get?_insertNew? hnew hget, hg.column hc⟩
    · cases List.mem_singleton.1 hmem
      exact ⟨_, hself, hcolumn.2 (.inr ⟨rfl, rfl⟩)⟩
  · intro v name' kind' hc
    rcases hcolumn.1 hc with hc | ⟨rfl, heq⟩
    · obtain ⟨hget, hmem⟩ := h.named hc
      exact ⟨hs.get?_insertNew? hnew hget, List.mem_append_left _ hmem⟩
    · cases heq
      exact ⟨hself, List.mem_append_right _ List.mem_cons_self⟩
  · have hrows : c'.model.rows = c.model.rows := by
      rw [hmodel]
      rfl
    rw [hrows]
    exact h.rows.mono fun v hv => hg.has hv

theorem Reflects.state (h : c.Reflects decls) (hv : c.Valid) {x : Statement} {m : Model}
    {rows : List Constraint} (hx : x.InScope c.scope)
    (henc : x.encode c.model M = .ok (m, rows)) :
    Reflects ⟨c.scope, m.addRows rows⟩ decls := by
  have hplaced := hv.placed hx
  have hasks := Statement.encode_asks henc hplaced
  refine ⟨?_, ?_, ?_⟩
  · intro name kind hmem
    obtain ⟨v, hget, hc⟩ := h.declared hmem
    exact ⟨v, hget, hasks.grows.column hc⟩
  · intro v name kind hc
    rcases hasks.column hc with hc | haux
    · exact h.named hc
    · cases haux
  · have hnew : AllOver m.Has rows :=
      Statement.encode_over henc hplaced fun r hr => hv.over (hx.constraints r hr)
    have hold : AllOver m.Has m.rows := by
      rw [hasks.rows]
      exact h.rows.mono fun v hv => hasks.grows.has hv
    exact allOver_append.2 ⟨hold, hnew⟩

theorem Reflects.addLine (h : c.Reflects decls) (hv : c.Valid) (hs : c.scope.Increasing)
    {line : List Char} (hline : c.addLine M line = .ok c') :
    c'.Reflects (decls ++ (c.clauseOf? line).toList.filterMap Clause.declared?) := by
  rcases addLine_cases hline with ⟨hnone, rfl⟩ | ⟨clause, hclause, happly, hscope⟩
  · rw [hnone, Option.toList_none, List.filterMap_nil, List.append_nil]
    exact h
  · rw [hclause, Option.toList_some]
    cases hd : clause.declared? with
    | some d =>
      rw [List.filterMap_cons_some hd, List.filterMap_nil]
      exact h.declare hs happly hd
    | none =>
      rw [List.filterMap_cons_none hd, List.filterMap_nil, List.append_nil]
      rcases apply_cases happly with ⟨name, scope, rfl, -, rfl⟩ |
        ⟨name, lower, upper, scope, rfl, -, rfl⟩ | ⟨x, m, rows, rfl, henc, rfl⟩
      · cases hd
      · cases hd
      · exact h.state hv (hscope x rfl) henc

theorem Runs.reflects {lines : List String} (h : Runs M c lines c') (hv : c.Valid)
    (hs : c.scope.Increasing) (hr : c.Reflects decls) :
    c'.Reflects (decls ++ c.declarations M lines) := by
  induction h generalizing decls with
  | nil =>
    rw [declarations, clauses, List.filterMap_nil, List.append_nil]
    exact hr
  | cons hline _ ih =>
    have hstep := ih (hv.addLine hline) (increasing_addLine hs hline) (hr.addLine hv hs hline)
    rw [List.append_assoc] at hstep
    simp only [declarations, clauses, hline, List.filterMap_append]
    exact hstep

theorem Accepts.reflects {lines : List String} (h : Accepts M lines c) :
    c.Reflects (declarations M .empty lines) :=
  (accepts_iff.1 h).reflects valid_empty increasing_empty reflects_empty

end Compilation
end Linearize
