import Linearize.Model.History
import Linearize.Proofs.Rows

/-!
# Linearize.Proofs.Growth

How a model grows. The columns that are there stay as they are at their places; a request for an
indicator finds its column or appends it. What a request can do is said once, by `binary_cases`,
and all invariants of columns are derived from that.
-/

namespace Linearize

def Key.WellFormed : Key → Prop
  | .less a b => a.WellFormed ∧ b.WellFormed
  | _ => True

theorem Key.named_or_auxiliary (k : Key) : (∃ name, k = .named name) ∨ k.isNamed = false := by
  cases k with
  | named name => exact .inl ⟨name, rfl⟩
  | less a b => exact .inr rfl
  | and vs => exact .inr rfl
  | or vs => exact .inr rfl
  | selector vs i => exact .inr rfl

namespace Model

/-- The column `v` is the one of the binary pool under `k`. -/
def Indicates (m : Model) (v : Var) (k : Key) : Prop := m.columns[v]? = some ⟨k, .binary⟩

/-- `m'` has the columns and the rows of `m` at their places. -/
structure Grows (m m' : Model) : Prop where
  columns : m.columns <+: m'.columns
  rows : m.rows <+: m'.rows

namespace Grows

theorem refl (m : Model) : m.Grows m := ⟨List.prefix_refl _, List.prefix_refl _⟩

theorem trans {a b c : Model} (h₁ : a.Grows b) (h₂ : b.Grows c) : a.Grows c :=
  ⟨h₁.columns.trans h₂.columns, h₁.rows.trans h₂.rows⟩

theorem size_le {m m' : Model} (h : m.Grows m') : m.size ≤ m'.size := h.columns.length_le

theorem column {m m' : Model} (h : m.Grows m') {v : Var} {c : Column}
    (hc : m.columns[v]? = some c) : m'.columns[v]? = some c := by
  obtain ⟨cs, hcs⟩ := h.columns
  rw [← hcs, List.getElem?_append_left (List.getElem?_eq_some_iff.1 hc).1]
  exact hc

theorem indicates {m m' : Model} (h : m.Grows m') {v : Var} {k : Key} (hi : m.Indicates v k) :
    m'.Indicates v k := h.column hi

end Grows

theorem lt_size_of_column {m : Model} {v : Var} {c : Column} (h : m.columns[v]? = some c) :
    v < m.size := (List.getElem?_eq_some_iff.1 h).1

theorem Indicates.lt_size {m : Model} {v : Var} {k : Key} (h : m.Indicates v k) : v < m.size :=
  lt_size_of_column h

theorem exists_column {m : Model} {v : Var} (h : v < m.size) : ∃ c, m.columns[v]? = some c :=
  ⟨_, List.getElem?_eq_getElem h⟩

theorem key?_eq_some_iff {m : Model} {v : Var} {k : Key} :
    m.key? v = some k ↔ ∃ c, m.columns[v]? = some c ∧ c.key = k := by
  simp [key?]

theorem kind?_eq_some_iff {m : Model} {v : Var} {k : Kind} :
    m.kind? v = some k ↔ ∃ c, m.columns[v]? = some c ∧ c.kind = k := by
  simp [kind?]

theorem Indicates.kind? {m : Model} {v : Var} {k : Key} (h : m.Indicates v k) :
    m.kind? v = some .binary := kind?_eq_some_iff.2 ⟨_, h, rfl⟩

theorem Indicates.key? {m : Model} {v : Var} {k : Key} (h : m.Indicates v k) :
    m.key? v = some k := key?_eq_some_iff.2 ⟨_, h, rfl⟩

/-! ## One more column -/

theorem addColumn_grows (m : Model) (c : Column) : m.Grows (m.addColumn c).1 :=
  ⟨List.prefix_append _ _, List.prefix_refl _⟩

theorem column_addColumn_iff {m : Model} {c d : Column} {v : Var} :
    (m.addColumn c).1.columns[v]? = some d ↔
      m.columns[v]? = some d ∨ v = m.size ∧ d = c := by
  simp only [addColumn, size]
  rcases Nat.lt_trichotomy v m.columns.length with h | h | h
  · rw [List.getElem?_append_left h]
    simp [Nat.ne_of_lt h]
  · rw [h, List.getElem?_append_right (Nat.le_refl _), List.getElem?_eq_none (Nat.le_refl _)]
    simp [eq_comm]
  · rw [List.getElem?_eq_none (by simp; omega), List.getElem?_eq_none (Nat.le_of_lt h)]
    simp [Nat.ne_of_gt h]

theorem binary_cases (m : Model) (k : Key) :
    (∃ v, m.Indicates v k ∧ m.binary k = (m, v)) ∨
      ((∀ v, ¬ m.Indicates v k) ∧ m.binary k = m.addColumn ⟨k, .binary⟩) := by
  have hkind : ∀ c : Column,
      (!c.kind.isInteger && decide (c.key = k)) = true ↔ c = ⟨k, .binary⟩ := by
    rintro ⟨key, kind⟩
    cases kind <;> simp [Kind.isInteger]
  cases hf : m.findBinary? k with
  | some v =>
    refine .inl ⟨v, ?_, by simp [binary, hf]⟩
    obtain ⟨hv, hc, -⟩ := List.findIdx?_eq_some_iff_getElem.1 hf
    rw [Indicates, List.getElem?_eq_getElem hv, (hkind _).1 hc]
  | none =>
    refine .inr ⟨?_, by simp [binary, hf]⟩
    intro v hv
    have := List.findIdx?_eq_none_iff.1 hf _ (List.mem_of_getElem? hv)
    rw [(hkind _).2 rfl] at this
    cases this

theorem integerWithin_cases (m : Model) (k : Key) (lower upper : Option Int) :
    (∃ (v : Var) (c : Column), m.columns[v]? = some c ∧ c.key = k ∧ c.kind.isInteger = true ∧
        m.integerWithin k lower upper = (m, v)) ∨
      ((∀ (v : Var) (c : Column), m.columns[v]? = some c → c.key = k → c.kind.isInteger = false) ∧
        m.integerWithin k lower upper = m.addColumn ⟨k, .integer lower upper⟩) := by
  cases hf : m.findInteger? k with
  | some v =>
    obtain ⟨hv, hc, -⟩ := List.findIdx?_eq_some_iff_getElem.1 hf
    rw [Bool.and_eq_true, decide_eq_true_iff] at hc
    exact .inl ⟨v, _, List.getElem?_eq_getElem hv, hc.2, hc.1, by simp [integerWithin, hf]⟩
  | none =>
    refine .inr ⟨?_, by simp [integerWithin, hf]⟩
    intro v c hv hk
    have := List.findIdx?_eq_none_iff.1 hf _ (List.mem_of_getElem? hv)
    simpa [hk] using this

theorem binary_indicates (m : Model) (k : Key) : (m.binary k).1.Indicates (m.binary k).2 k := by
  rcases m.binary_cases k with ⟨v, hv, h⟩ | ⟨-, h⟩
  · rw [h]; exact hv
  · rw [h]; exact column_addColumn_iff.2 (.inr ⟨rfl, rfl⟩)

theorem binary_grows (m : Model) (k : Key) : m.Grows (m.binary k).1 := by
  rcases m.binary_cases k with ⟨v, -, h⟩ | ⟨-, h⟩
  · rw [h]; exact .refl m
  · rw [h]; exact addColumn_grows m _

theorem binary_rows (m : Model) (k : Key) : (m.binary k).1.rows = m.rows := by
  rcases m.binary_cases k with ⟨v, -, h⟩ | ⟨-, h⟩ <;> rw [h]
  rfl

theorem column_binary {m : Model} {k : Key} {v : Var} {c : Column}
    (h : (m.binary k).1.columns[v]? = some c) :
    m.columns[v]? = some c ∨ v = (m.binary k).2 ∧ c = ⟨k, .binary⟩ := by
  rcases m.binary_cases k with ⟨w, -, hb⟩ | ⟨-, hb⟩
  · rw [hb] at h; exact .inl h
  · rw [hb] at h ⊢; exact column_addColumn_iff.1 h

theorem Grows.findBinary? {m m' : Model} (hg : m.Grows m') {k : Key} {v : Var}
    (h : m.findBinary? k = some v) : m'.findBinary? k = some v := by
  obtain ⟨cs, hcs⟩ := hg.columns
  rw [Model.findBinary?, ← hcs, List.findIdx?_append, ← Model.findBinary?, h]
  rfl

theorem findBinary?_binary (m : Model) (k : Key) :
    (m.binary k).1.findBinary? k = some (m.binary k).2 := by
  cases h : m.findBinary? k with
  | some v => simp only [binary, h]
  | none =>
    have hb : m.binary k = m.addColumn ⟨k, .binary⟩ := by simp only [binary, h]
    rw [hb, addColumn, findBinary?, List.findIdx?_append, ← findBinary?, h]
    simp [Kind.isInteger, size, List.findIdx?_cons]

/-! ## Invariants of the columns -/

/-- No two columns of a pool have the same key. -/
def Distinct (m : Model) : Prop :=
  ∀ (u v : Var) (c d : Column), m.columns[u]? = some c → m.columns[v]? = some d →
    c.key = d.key → c.kind.isInteger = d.kind.isInteger → u = v

def Each (P : Var → Column → Prop) (m : Model) : Prop :=
  ∀ (v : Var) (c : Column), m.columns[v]? = some c → P v c

/-- The columns that a key refers to stand before the column that has the key. -/
def Acyclic (m : Model) : Prop := m.Each fun v c => ∀ u ∈ c.key.operands, u < v

def AuxiliaryBinary (m : Model) : Prop :=
  m.Each fun _ c => c.key.isNamed = false → c.kind = .binary

/-- What holds of the columns of a compiled model. -/
structure Orderly (m : Model) : Prop where
  distinct : m.Distinct
  acyclic : m.Acyclic
  auxiliary : m.AuxiliaryBinary
  wellFormed : m.Each fun _ c => c.key.WellFormed

theorem orderly_empty : Orderly empty where
  distinct := fun _ _ _ _ hd => by cases hd
  acyclic := fun _ _ hc => by cases hc
  auxiliary := fun _ _ hc => by cases hc
  wellFormed := fun _ _ hc => by cases hc

theorem Distinct.addColumn {m : Model} (h : m.Distinct) {c : Column}
    (hnew : ∀ (v : Var) (d : Column), m.columns[v]? = some d → d.key = c.key →
      d.kind.isInteger ≠ c.kind.isInteger) : (m.addColumn c).1.Distinct := by
  intro u v d e hd he hkey hkind
  rcases column_addColumn_iff.1 hd with hd' | ⟨rfl, rfl⟩ <;>
    rcases column_addColumn_iff.1 he with he' | ⟨rfl, rfl⟩
  · exact h u v d e hd' he' hkey hkind
  · exact absurd hkind (hnew u d hd' hkey)
  · exact absurd hkind.symm (hnew v e he' hkey.symm)
  · rfl

theorem Distinct.binary {m : Model} (h : m.Distinct) (k : Key) : (m.binary k).1.Distinct := by
  rcases m.binary_cases k with ⟨v, -, hb⟩ | ⟨hnone, hb⟩
  · rw [hb]; exact h
  · rw [hb]
    refine h.addColumn fun v d hd hk hkind => hnone v ?_
    obtain ⟨key, kind⟩ := d
    cases hk
    cases kind with
    | binary => exact hd
    | integer l u => cases hkind

theorem Distinct.integerWithin {m : Model} (h : m.Distinct) (k : Key) (lower upper : Option Int) :
    (m.integerWithin k lower upper).1.Distinct := by
  rcases m.integerWithin_cases k lower upper with ⟨v, c, -, -, -, hb⟩ | ⟨hnone, hb⟩
  · rw [hb]; exact h
  · rw [hb]
    refine h.addColumn ?_
    intro v d hd hk hkind
    rw [hnone v d hd hk] at hkind
    cases hkind

section Each

variable {P : Var → Column → Prop} {m : Model}

theorem Each.addColumn (h : m.Each P) {c : Column} (hc : P m.size c) :
    (m.addColumn c).1.Each P := by
  intro v d hd
  rcases column_addColumn_iff.1 hd with hd | ⟨rfl, rfl⟩
  · exact h v d hd
  · exact hc

theorem Each.binary (h : m.Each P) {k : Key} (hk : P m.size ⟨k, .binary⟩) :
    (m.binary k).1.Each P := by
  rcases m.binary_cases k with ⟨v, -, hb⟩ | ⟨-, hb⟩
  · rw [hb]; exact h
  · rw [hb]; exact h.addColumn hk

theorem Each.integerWithin (h : m.Each P) {k : Key} {lower upper : Option Int}
    (hk : P m.size ⟨k, .integer lower upper⟩) : (m.integerWithin k lower upper).1.Each P := by
  rcases m.integerWithin_cases k lower upper with ⟨v, c, -, -, -, hb⟩ | ⟨-, hb⟩
  · rw [hb]; exact h
  · rw [hb]; exact h.addColumn hk

end Each

theorem Orderly.binary {m : Model} (h : m.Orderly) {k : Key} (hk : k.WellFormed)
    (hops : ∀ u ∈ k.operands, u < m.size) : (m.binary k).1.Orderly where
  distinct := h.distinct.binary k
  acyclic := Each.binary h.acyclic hops
  auxiliary := Each.binary h.auxiliary fun _ => rfl
  wellFormed := Each.binary h.wellFormed hk

theorem Orderly.namedInteger {m : Model} (h : m.Orderly) (name : String) (lower upper : Int) :
    (m.namedInteger name lower upper).1.Orderly where
  distinct := h.distinct.integerWithin _ _ _
  acyclic := Each.integerWithin h.acyclic (List.forall_mem_nil _)
  auxiliary := Each.integerWithin h.auxiliary fun hnamed => by cases hnamed
  wellFormed := Each.integerWithin h.wellFormed trivial

/-! ## Requests in a row -/

/-- The key is that of a condition, and it speaks of columns that exist. -/
structure Admits (m : Model) (k : Key) : Prop where
  auxiliary : k.isNamed = false
  wellFormed : k.WellFormed
  operands : ∀ u ∈ k.operands, u < m.size

/-- `m'` comes about from `m` by requests whose operands exist. -/
inductive Asks : Model → Model → Prop where
  | refl (m : Model) : Asks m m
  | step {m m' : Model} {k : Key} : Asks m m' → m'.Admits k → Asks m (m'.binary k).1

namespace Asks

theorem single {m : Model} {k : Key} (hk : m.Admits k) : m.Asks (m.binary k).1 :=
  .step (.refl m) hk

theorem trans {a b c : Model} (h₁ : a.Asks b) (h₂ : b.Asks c) : a.Asks c := by
  induction h₂ with
  | refl => exact h₁
  | step _ hk ih => exact .step ih hk

theorem grows {m m' : Model} (h : m.Asks m') : m.Grows m' := by
  induction h with
  | refl => exact .refl m
  | step _ _ ih => exact ih.trans (binary_grows _ _)

theorem rows {m m' : Model} (h : m.Asks m') : m'.rows = m.rows := by
  induction h with
  | refl => rfl
  | step _ _ ih => rw [binary_rows, ih]

theorem orderly {m m' : Model} (h : m.Asks m') (hm : m.Orderly) : m'.Orderly := by
  induction h with
  | refl => exact hm
  | step _ hk ih => exact ih.binary hk.wellFormed hk.operands

theorem column {m m' : Model} (h : m.Asks m') {v : Var} {c : Column}
    (hc : m'.columns[v]? = some c) : m.columns[v]? = some c ∨ c.key.isNamed = false := by
  induction h with
  | refl => exact .inl hc
  | step _ hk ih =>
    rcases column_binary hc with hc | ⟨-, rfl⟩
    · exact ih hc
    · exact .inr hk.auxiliary

end Asks

/-! ## Points of a growing model -/

variable {σ : Var → Int}

theorem Grows.isPoint {m m' : Model} (h : m.Grows m') (hp : m'.IsPoint σ) : m.IsPoint σ := by
  intro v hv
  obtain ⟨c, hc, hk⟩ := kind?_eq_some_iff.1 hv
  exact hp v (kind?_eq_some_iff.2 ⟨c, h.column hc, hk⟩)

theorem Grows.faithful {m m' : Model} (h : m.Grows m') (hf : m'.Faithful σ) : m.Faithful σ := by
  intro v k hv
  obtain ⟨c, hc, hk⟩ := key?_eq_some_iff.1 hv
  exact hf v k (key?_eq_some_iff.2 ⟨c, h.column hc, hk⟩)

theorem Grows.allHold {m m' : Model} (h : m.Grows m') (hr : AllHold σ m'.rows) :
    AllHold σ m.rows := fun c hc => hr c (h.rows.subset hc)

theorem Indicates.isBit {m : Model} {v : Var} {k : Key} (h : m.Indicates v k)
    (hp : m.IsPoint σ) : IsBit (σ v) := hp v h.kind?

/-- A point stays faithful with one more request iff it gives the indicator its truth value. -/
theorem binary_faithful_iff {m : Model} {k : Key} (haux : k.isNamed = false) :
    (m.binary k).1.Faithful σ ↔
      m.Faithful σ ∧ (σ (m.binary k).2 = 1 ↔ k.Condition σ) := by
  constructor
  · exact fun h => ⟨(binary_grows m k).faithful h, h _ _ (binary_indicates m k).key? haux⟩
  · rintro ⟨hf, hr⟩ v k' hv hk'
    obtain ⟨c, hc, rfl⟩ := key?_eq_some_iff.1 hv
    rcases column_binary hc with hc | ⟨rfl, rfl⟩
    · exact hf v _ (key?_eq_some_iff.2 ⟨c, hc, rfl⟩) hk'
    · exact hr

end Model
end Linearize
