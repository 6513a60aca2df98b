import Linearize.Model.Naming
import Linearize.Proofs.History

/-!
# Linearize.Proofs.Pools

What the pools of a model say of its columns. As long as the keys are distinct, a pool has a column
under a key exactly if the column has that key and belongs to the pool.
-/

namespace Linearize

theorem Kind.isInteger_eq_false_iff {k : Kind} : k.isInteger = false ↔ k = .binary := by
  cases k <;> simp [isInteger]

theorem Kind.isInteger_eq_true_iff {k : Kind} : k.isInteger = true ↔ ∃ l u, k = .integer l u := by
  cases k <;> simp [isInteger]

namespace Model

variable {m : Model}

/-! ## Looking up a key -/

/-- In a model with distinct keys the first column of a pool under a key is the only one. -/
theorem Distinct.findIdx?_eq_some_iff (hm : m.Distinct) {p : Column → Bool} {integers : Bool}
    {k : Key} (hp : ∀ c, p c = true ↔ c.kind.isInteger = integers ∧ c.key = k) {v : Var} :
    m.columns.findIdx? p = some v ↔
      ∃ c, m.columns[v]? = some c ∧ c.kind.isInteger = integers ∧ c.key = k := by
  constructor
  · intro h
    obtain ⟨hv, hc, -⟩ := List.findIdx?_eq_some_iff_getElem.1 h
    exact ⟨_, List.getElem?_eq_getElem hv, (hp _).1 hc⟩
  · rintro ⟨c, hc, hkind, hkey⟩
    cases hf : m.columns.findIdx? p with
    | none =>
      have hnot := List.findIdx?_eq_none_iff.1 hf c (List.mem_of_getElem? hc)
      rw [(hp c).2 ⟨hkind, hkey⟩] at hnot
      cases hnot
    | some w =>
      obtain ⟨hw, hd, -⟩ := List.findIdx?_eq_some_iff_getElem.1 hf
      obtain ⟨hdkind, hdkey⟩ := (hp _).1 hd
      rw [hm w v _ c (List.getElem?_eq_getElem hw) hc (hdkey.trans hkey.symm)
        (hdkind.trans hkind.symm)]

theorem exists_column_iff {P : Key → Kind → Prop} {v : Var} :
    (∃ c, m.columns[v]? = some c ∧ P c.key c.kind) ↔
      v < m.size ∧ ∃ k d, m.key? v = some k ∧ m.kind? v = some d ∧ P k d := by
  constructor
  · rintro ⟨c, hc, hP⟩
    exact ⟨lt_size_of_column hc, c.key, c.kind, key?_eq_some_iff.2 ⟨c, hc, rfl⟩,
      kind?_eq_some_iff.2 ⟨c, hc, rfl⟩, hP⟩
  · rintro ⟨-, k, d, hk, hd, hP⟩
    obtain ⟨c, hc, rfl⟩ := key?_eq_some_iff.1 hk
    obtain ⟨c', hc', rfl⟩ := kind?_eq_some_iff.1 hd
    rw [hc] at hc'
    cases hc'
    exact ⟨c, hc, hP⟩

theorem Distinct.findBinary?_eq_some_iff (hm : m.Distinct) {k : Key} {v : Var} :
    m.findBinary? k = some v ↔ v < m.size ∧ m.key? v = some k ∧ m.kind? v = some .binary := by
  have hp : ∀ c : Column, (!c.kind.isInteger && decide (c.key = k)) = true ↔
      c.kind.isInteger = false ∧ c.key = k := by simp
  rw [findBinary?, hm.findIdx?_eq_some_iff hp,
    exists_column_iff (P := fun key kind => kind.isInteger = false ∧ key = k)]
  simp only [Kind.isInteger_eq_false_iff]
  grind

theorem Distinct.findInteger?_eq_some_iff (hm : m.Distinct) {k : Key} {v : Var} :
    m.findInteger? k = some v ↔
      v < m.size ∧ m.key? v = some k ∧ ∃ l u, m.kind? v = some (.integer l u) := by
  have hp : ∀ c : Column, (c.kind.isInteger && decide (c.key = k)) = true ↔
      c.kind.isInteger = true ∧ c.key = k := by simp
  rw [findInteger?, hm.findIdx?_eq_some_iff hp,
    exists_column_iff (P := fun key kind => kind.isInteger = true ∧ key = k)]
  simp only [Kind.isInteger_eq_true_iff]
  grind

theorem exists_kind?_iff {v : Var} : (∃ k, m.kind? v = some k) ↔ v < m.size := by
  constructor
  · rintro ⟨k, hk⟩
    obtain ⟨c, hc, -⟩ := kind?_eq_some_iff.1 hk
    exact lt_size_of_column hc
  · intro hv
    obtain ⟨c, hc⟩ := exists_column hv
    exact ⟨c.kind, kind?_eq_some_iff.2 ⟨c, hc, rfl⟩⟩

theorem mem_pool_iff {integers : Bool} {v : Var} {k : Key} :
    (v, k) ∈ m.pool integers ↔
      ∃ c, m.columns[v]? = some c ∧ c.kind.isInteger = integers ∧ c.key = k := by
  simp only [pool, List.mem_filterMap, Prod.exists, List.mem_zipIdx_iff_getElem?]
  constructor
  · rintro ⟨c, w, hc, h⟩
    split at h
    · rename_i hkind
      cases h
      exact ⟨c, hc, hkind, rfl⟩
    · cases h
  · rintro ⟨c, hc, hkind, rfl⟩
    exact ⟨c, v, hc, if_pos hkind⟩

/-- The column belongs to the integer pool, or to the binary one. -/
def InPool (m : Model) (integers : Bool) (v : Var) : Prop :=
  ∃ k, m.kind? v = some k ∧ k.isInteger = integers

def places (m : Model) (integers : Bool) : List Var := (m.pool integers).map (·.1)

theorem mem_places_iff {integers : Bool} {v : Var} :
    v ∈ m.places integers ↔ m.InPool integers v := by
  simp only [places, InPool, List.mem_map, Prod.exists, exists_and_right, exists_eq_right,
    mem_pool_iff]
  constructor
  · rintro ⟨-, c, hc, hkind, -⟩
    exact ⟨c.kind, kind?_eq_some_iff.2 ⟨c, hc, rfl⟩, hkind⟩
  · rintro ⟨k, hk, hkind⟩
    obtain ⟨c, hc, rfl⟩ := kind?_eq_some_iff.1 hk
    exact ⟨c.key, c, hc, hkind, rfl⟩

end Model
end Linearize
