import Linearize.Proofs.Names
import Linearize.Proofs.Refusals
import Linearize.Proofs.Registry

/-!
# Linearize.Proofs.ColumnList

The column list of a registry. A search of the list finds what the stored maps find, so the two
answer every operation alike and stay the same model along every history.
-/

namespace Linearize
namespace Registry

variable {s : Registry} {m m' : Model} {k : Key} {kind : Kind} {v : Var}

/-! ## The column list of a registry -/

/-- The model has the columns and rows of the registry, and a search of its columns finds what the
stored maps find. -/
structure Represents (s : Registry) (m : Model) : Prop where
  keys : s.keys.toList = m.columns.map (·.key)
  kinds : s.kinds.toList = m.columns.map (·.kind)
  rows : s.rows.toList = m.rows
  binary : ∀ k : Key, s.binaries[k]? = m.findBinary? k
  integer : ∀ k : Key, s.integers[k]? = m.findInteger? k

theorem kind?_eq (h : s.kinds.toList = m.columns.map (·.kind)) (v : Var) :
    s.kinds[v]? = m.kind? v := by
  rw [← Array.getElem?_toList, h, List.getElem?_map]
  rfl

theorem size_eq (h : s.kinds.toList = m.columns.map (·.kind)) : s.kinds.size = m.size := by
  rw [← Array.length_toList, h, List.length_map]
  rfl

theorem Aligned.represents (h : s.Aligned) (hkeys : s.keys.toList = m.columns.map (·.key))
    (hkinds : s.kinds.toList = m.columns.map (·.kind)) (hrows : s.rows.toList = m.rows) :
    s.Represents m := by
  have hkey : ∀ v : Var, s.keys[v]? = m.key? v := by
    intro v
    rw [← Array.getElem?_toList, hkeys, List.getElem?_map]
    rfl
  have hkind := kind?_eq hkinds
  have hsize := size_eq hkinds
  have hstep := h.inStep
  have hdistinct : m.Distinct := by
    intro v w c d hc hd hcd
    refine hstep.distinct v w c.key c.kind d.kind ?_ ?_ ?_ ?_
    · exact (hkey v).trans (Model.key?_eq_some_iff.2 ⟨c, hc, rfl⟩)
    · exact (hkey w).trans (Model.key?_eq_some_iff.2 ⟨d, hd, hcd.symm⟩)
    · exact (hkind v).trans (Model.kind?_eq_some_iff.2 ⟨c, hc, rfl⟩)
    · exact (hkind w).trans (Model.kind?_eq_some_iff.2 ⟨d, hd, rfl⟩)
  refine ⟨hkeys, hkinds, hrows, ?_, ?_⟩
  · intro k
    refine Option.ext fun v => ?_
    rw [hstep.binary, hdistinct.findBinary?_eq_some_iff, hsize, hkey, hkind]
  · intro k
    refine Option.ext fun v => ?_
    simp only [hstep.integer, hdistinct.findInteger?_eq_some_iff, hsize, hkey, hkind]

namespace Represents

theorem enter (h : s.Represents m) (hs : s.Aligned) (hnew : (s.pool kind.isInteger)[k]? = none) :
    (s.enter k kind).Represents (m.addColumn ⟨k, kind⟩).1 := by
  refine (hs.enter hnew).represents ?_ ?_ h.rows
  · simp [Registry.enter, Model.addColumn, h.keys]
  · simp [Registry.enter, Model.addColumn, h.kinds]

theorem binary_step (h : s.Represents m) (hs : s.Aligned) (k : Key) :
    (s.binary k).2 = (m.binary k).2 ∧ (s.binary k).1.Represents (m.binary k).1 := by
  rw [binary_eq_column, Model.binary, ← h.binary]
  cases hk : s.binaries[k]? with
  | none =>
    rw [column_of_new hk]
    exact ⟨size_eq h.kinds, h.enter hs hk⟩
  | some v =>
    rw [column_of_known hk]
    exact ⟨rfl, h⟩

theorem integer_step (h : s.Represents m) (hs : s.Aligned) (k : Key) (lower upper : Option Int) :
    (s.column k (.integer lower upper)).2 = (m.integerWithin k lower upper).2 ∧
      (s.column k (.integer lower upper)).1.Represents (m.integerWithin k lower upper).1 := by
  rw [Model.integerWithin, ← h.integer]
  cases hk : s.integers[k]? with
  | none =>
    rw [column_of_new hk]
    exact ⟨size_eq h.kinds, h.enter hs hk⟩
  | some v =>
    rw [column_of_known hk]
    exact ⟨rfl, h⟩

theorem setBounds_step (h : s.Represents m) (hs : s.Aligned) {lower upper : Option Int}
    (hset : m.setBounds? v lower upper = some m') :
    ((setBounds v lower upper).after s).Represents m' := by
  have hs' := hs.setBounds v lower upper
  obtain ⟨kinds, hafter, -, hkinds⟩ := setBounds_kinds s v lower upper
  rw [hafter] at hs' ⊢
  simp only [Model.setBounds?] at hset
  split at hset
  · cases hset
    have hcolumn : ∀ w : Var, (m.columns.modify v (Column.setBounds lower upper))[w]? =
        m.columns[w]?.map fun c => if v = w then c.setBounds lower upper else c :=
      fun w => List.getElem?_modify _ _ _ _
    refine hs'.represents (h.keys.trans ?_) ?_ h.rows
    · refine List.ext_getElem? fun w => ?_
      rw [List.getElem?_map, List.getElem?_map, hcolumn]
      cases m.columns[w]? with
      | none => rfl
      | some c => by_cases hvw : v = w <;> simp [hvw]
    · refine List.ext_getElem? fun w => ?_
      rw [Array.getElem?_toList, hkinds, kind?_eq h.kinds, Model.kind?, List.getElem?_map, hcolumn]
      cases m.columns[w]? with
      | none => rfl
      | some c => by_cases hvw : v = w <;> simp [hvw, Column.setBounds_kind]
  · cases hset

end Represents

/-- A registry whose maps are in step, and its column list. -/
def Tied (s : Registry) (m : Model) : Prop := s.Aligned ∧ s.Represents m

theorem poolsAgree_tied : PoolsAgree Tied := by
  rintro k s m ⟨hs, h⟩
  obtain ⟨hanswer, hrep⟩ := h.binary_step hs k
  exact ⟨hanswer, after_aligned hs (.binary k), hrep⟩

end Registry

/-! ## Requests in place -/

/-- What a session does to a model in place is what the encoder answers. -/
inductive Session.Answers (x : Session Model (Option Var × List Constraint)) (m : Model) :
    Except EncodeError (Model × Option Var × List Constraint) → Prop where
  | ok {m' : Model} {i : Option Var} {rows : List Constraint} :
      x m = .ok (i, rows) m' → Answers x m (.ok (m', i, rows))
  | overflow {m' : Model} : x m = .error .overflow m' → Answers x m (.error .overflow)
  | refused {e : EncodeError} : e ≠ .overflow → x m = .error (.refused e) m → Answers x m (.error e)

theorem Session.indicated_answers {m : Model} {x : Session Model (Var × List Constraint)}
    {e : Option Encoded} (h : x.Yields m (e.map Encoded.parts)) :
    (indicated x).Answers m (Request.ofEncoded e) := by
  cases e with
  | none =>
    cases h with
    | overflow h => exact .overflow (bind_of_error h)
  | some e =>
    cases h with
    | ok h => exact .ok (bind_of_ok h)

theorem Session.silent_indicator {x : Session Model (List Constraint)} {m m' : Model}
    {i : Option Var} {rows : List Constraint} (h : silent x m = .ok (i, rows) m') : i = none := by
  cases hx : x m with
  | ok rows' s =>
    cases (bind_of_ok hx).symm.trans h
    rfl
  | error e s => cases (bind_of_error hx).symm.trans h

theorem Request.inPlace_answers (r : Request) (m : Model) :
    r.inPlace.Answers m (r.answer m) := by
  cases r with
  | compare op a b bigM => exact Session.indicated_answers (Session.compare_yields op a b bigM m)
  | and2 a b => exact Session.indicated_answers (Session.indicate_yields _ _ m)
  | or2 a b => exact Session.indicated_answers (Session.indicate_yields _ _ m)
  | conjunction vs => exact Session.indicated_answers (Session.indicate_yields _ _ m)
  | disjunction vs => exact Session.indicated_answers (Session.indicate_yields _ _ m)
  | chain conds bodies otherwise bigM =>
    have htracks := Session.chain_tracks conds bodies otherwise bigM m
    simp only [Request.answer, Request.inPlace]
    generalize m.chain conds bodies otherwise bigM = r at htracks ⊢
    cases htracks with
    | ok h =>
      cases Session.silent_indicator h
      exact .ok h
    | overflow h => exact .overflow h
    | refused he h => exact .refused he h

namespace Registry

variable {s : Registry} {m m' : Model}

/-- A request is answered on a registry as on its column list. -/
theorem Tied.answers (h : s.Tied m) {r : Request} {i : Option Var} {rows : List Constraint}
    (hanswer : r.answer m = .ok (m', i, rows)) :
    ∃ s', r.inPlace s = .ok (i, rows) s' ∧ s'.Tied m' := by
  have hm := r.inPlace_answers m
  rw [hanswer] at hm
  cases hm with
  | ok hm =>
    have hlock := poolsAgree_tied.inPlace r s m h
    rw [hm] at hlock
    generalize r.inPlace s = x at hlock ⊢
    cases hlock with
    | ok hs' => exact ⟨_, rfl, hs'⟩

theorem Tied.request (h : s.Tied m) {r : Request}
    (hm : (Operation.request r).perform m = some m') : (s.after (.request r)).Tied m' := by
  have hlock := (poolsAgree_tied.inPlace r).after h
  have hanswers := r.inPlace_answers m
  simp only [Operation.perform] at hm
  suffices hmodel : (r.inPlace : Session Model _).after m = m' by rwa [← hmodel]
  simp only [Session.after]
  generalize r.answer m = x at hanswers hm
  cases hanswers with
  | ok hx =>
    cases hm
    rw [hx]
  | overflow hx => cases hm
  | refused he hx =>
    rw [hx]
    split at hm
    · cases hm
    · cases hm
      rfl
    · rename_i hok
      cases hok

/-- What an operation does to a column list it does to the registry. -/
theorem Tied.perform (h : s.Tied m) {o : Operation} (hm : o.perform m = some m') :
    (s.after o).Tied m' := by
  have haligned := after_aligned h.1 o
  cases o with
  | binary k =>
    cases hm
    exact ⟨haligned, (h.2.binary_step h.1 k).2⟩
  | integer k =>
    cases hm
    rw [after_integer] at haligned ⊢
    exact ⟨haligned, (h.2.integer_step h.1 k none none).2⟩
  | namedBinary name =>
    cases hm
    exact ⟨haligned, (h.2.binary_step h.1 _).2⟩
  | namedInteger name lower upper =>
    cases hm
    rw [after_namedInteger] at haligned ⊢
    exact ⟨haligned, (h.2.integer_step h.1 (.named name) (some lower) (some upper)).2⟩
  | setBounds v lower upper => exact ⟨haligned, h.2.setBounds_step h.1 hm⟩
  | addRow c =>
    cases hm
    refine ⟨haligned, haligned.represents h.2.keys h.2.kinds ?_⟩
    simp [after, addRow, h.2.rows, Model.addRow]
  | addRows cs =>
    cases hm
    refine ⟨haligned, haligned.represents h.2.keys h.2.kinds ?_⟩
    simp [after, addRows, h.2.rows, Model.addRows]
  | request r => exact h.request hm

theorem Tied.run (h : s.Tied m) {os : List Operation} (hm : m.perform os = some m') :
    (s.run os).Tied m' := by
  induction os generalizing s m with
  | nil =>
    cases hm
    exact h
  | cons o os ih =>
    obtain ⟨m₁, ho, hos⟩ := Model.perform_cons_iff.1 hm
    exact ih (h.perform ho) hos

theorem tied_empty : empty.Tied .empty :=
  ⟨aligned_empty, aligned_empty.represents rfl rfl rfl⟩

theorem exists_tied (h : m.Reachable) : ∃ s : Registry, s.Tied m := by
  induction h with
  | empty => exact ⟨empty, tied_empty⟩
  | step _ _ ho ih =>
    obtain ⟨s, hs⟩ := ih
    exact ⟨_, hs.perform ho⟩

/-- The columns that the map of a pool stores, sorted, are the columns of the pool in order. -/
theorem Tied.sorted_columns (h : s.Tied m) (integers : Bool) :
    (s.stored integers).mergeSort = m.places integers := by
  have hmem : ∀ v, v ∈ s.stored integers ↔ v ∈ m.places integers := by
    intro v
    simp only [h.1.mem_stored_iff, Model.mem_places_iff, Model.InPool, kind?_eq h.2.kinds]
  have hincreasing := m.places_increasing integers
  have hperm : ((s.stored integers).mergeSort).Perm (m.places integers) :=
    (List.mergeSort_perm _ _).trans
      ((List.perm_ext_iff_of_nodup (h.1.nodup_stored integers)
        (hincreasing.imp Nat.ne_of_lt)).2 hmem)
  exact hperm.eq_of_pairwise' (List.pairwise_mergeSort' (· ≤ ·) _) (hincreasing.imp Nat.le_of_lt)

/-- The pools are in step with the columns after every history of a fresh registry, whatever stops
an operation, and no later operation takes back a key, a pool, a row, or bounds other than those
that it sets. Where the history is one of the column list, the registry is the same model. -/
theorem run_inStep (before : List Operation) :
    (empty.run before).InStep ∧
      (∀ later, Persists later (empty.run before) ((empty.run before).run later)) ∧
      ∀ m, Model.empty.perform before = some m → (empty.run before).Represents m :=
  ⟨(run_aligned aligned_empty before).inStep, Persists.run _, fun _ hm => (tied_empty.run hm).2⟩

/-- Two pools with the same name, an indicator that is asked for twice, and bounds that only
`setBounds` replaces. -/
def sharedNames : List Operation := [
  .namedBinary "a",
  .namedInteger "a" 0 3,
  .request (.compare .leq (.ofVar 1) (.const 2) 10),
  .namedInteger "a" (-5) 5,
  .binary (.less (.ofVar 1) (.const 3)),
  .setBounds 1 none (some 7),
  .addRow (.le (.ofVar 1) (.ofVar 0))]

def sharedModel : Model where
  columns := [⟨.named "a", .binary⟩, ⟨.named "a", .integer none (some 7)⟩,
    ⟨.less (.ofVar 1) (.const 3), .binary⟩]
  rows := [.le (.ofVar 1) (.ofVar 0)]

theorem sharedNames_represents :
    (empty.run sharedNames).InStep ∧ (empty.run sharedNames).Represents sharedModel :=
  ⟨(run_inStep sharedNames).1, (run_inStep sharedNames).2.2 sharedModel (by decide +kernel)⟩

end Registry
end Linearize
