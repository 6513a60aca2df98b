import Linearize.Proofs.Lockstep
import Linearize.Proofs.Pools
import Std.Data.HashMap.Lemmas

/-!
# Linearize.Proofs.Registry

The vectors and the maps of a registry. Whatever creates columns, be it a request for a variable,
with bounds or without, or a call of an encoder, comes to one step, `enter`: a column appended and
entered in the map of its pool. It is taken only if the pool lacks the key, which is why the maps
stay in step with the vectors.
-/

namespace Linearize

def Kind.setBounds (lower upper : Option Int) : Kind → Kind
  | .binary => .binary
  | .integer _ _ => .integer lower upper

@[simp] theorem Kind.setBounds_isInteger (lower upper : Option Int) (d : Kind) :
    (d.setBounds lower upper).isInteger = d.isInteger := by
  cases d <;> rfl

theorem Column.setBounds_kind (lower upper : Option Int) (c : Column) :
    (c.setBounds lower upper).kind = c.kind.setBounds lower upper := by
  obtain ⟨key, kind⟩ := c
  cases kind <;> rfl

namespace Registry

variable {s s' s'' : Registry} {m m' : Model} {k : Key} {kind : Kind} {v : Var}

/-! ## Creating a column -/

def pool (s : Registry) (integers : Bool) : Std.HashMap Key Var :=
  if integers then s.integers else s.binaries

/-- The columns that the map of a pool stores, in the order of the map. -/
def stored (s : Registry) (integers : Bool) : List Var := (s.pool integers).toList.map (·.2)

/-- A new column that is entered in the map of its pool. -/
def enter (s : Registry) (k : Key) (kind : Kind) : Registry where
  kinds := s.kinds.push kind
  keys := s.keys.push k
  binaries := if kind.isInteger then s.binaries else s.binaries.insert k s.kinds.size
  integers := if kind.isInteger then s.integers.insert k s.kinds.size else s.integers
  rows := s.rows

theorem pool_enter (s : Registry) (k : Key) (kind : Kind) (integers : Bool) :
    (s.enter k kind).pool integers =
      if kind.isInteger = integers then (s.pool integers).insert k s.kinds.size
      else s.pool integers := by
  cases integers <;> cases kind <;> rfl

/-- The column under `k` in the pool of `kind`, which is of this kind if it has to be created. -/
def column (s : Registry) (k : Key) (kind : Kind) : Registry × Var :=
  match (s.pool kind.isInteger)[k]? with
  | some v => (s, v)
  | none => (s.enter k kind, s.kinds.size)

theorem column_of_known (h : (s.pool kind.isInteger)[k]? = some v) : s.column k kind = (s, v) := by
  rw [column, h]

theorem column_of_new (h : (s.pool kind.isInteger)[k]? = none) :
    s.column k kind = (s.enter k kind, s.kinds.size) := by
  rw [column, h]

theorem binary_eq_column (s : Registry) (k : Key) : s.binary k = s.column k .binary := by
  cases h : s.binaries[k]? with
  | none =>
    rw [column_of_new h, binary, h]
    rfl
  | some v => rw [column_of_known h, binary, h]

theorem integer_eq_column (k : Key) (s : Registry) :
    integer k s = .ok (s.column k (.integer none none)).2 (s.column k (.integer none none)).1 := by
  cases h : s.integers[k]? with
  | none =>
    rw [column_of_new h, integer, h]
    rfl
  | some v => rw [column_of_known h, integer, h]

theorem setBounds_enter (s : Registry) (k : Key) (l u lower upper : Option Int) :
    setBounds s.kinds.size lower upper (s.enter k (.integer l u)) =
      .ok () (s.enter k (.integer lower upper)) := by
  have hpush : (s.kinds.push (.integer l u)).setIfInBounds s.kinds.size (.integer lower upper) =
      s.kinds.push (.integer lower upper) := by
    grind
  simp [setBounds, enter, Kind.isInteger, hpush]

/-- To look a variable up, create it and set its bounds comes to one step that never fails. -/
theorem namedInteger_eq_column (name : String) (lower upper : Int) (s : Registry) :
    namedInteger name lower upper s =
      .ok (s.column (.named name) (.integer (some lower) (some upper))).2
        (s.column (.named name) (.integer (some lower) (some upper))).1 := by
  refine (Session.bind_of_ok rfl).trans ?_
  cases h : s.integers[Key.named name]? with
  | none =>
    have hnew := integer_eq_column (.named name) s
    rw [column_of_new h] at hnew ⊢
    have hbounds := setBounds_enter s (.named name) none none (some lower) (some upper)
    exact (Session.bind_of_ok hnew).trans ((Session.bind_of_ok hbounds).trans rfl)
  | some v =>
    rw [column_of_known h]
    rfl

/-- Behind a change of bounds only the kind of the column `v` can be another one, and it is one of
the same pool. -/
theorem setBounds_kinds (s : Registry) (v : Var) (lower upper : Option Int) :
    ∃ kinds, (setBounds v lower upper).after s = { s with kinds := kinds } ∧
      kinds.size = s.kinds.size ∧ ∀ w : Var, kinds[w]? =
        s.kinds[w]?.map fun d => if v = w then d.setBounds lower upper else d := by
  simp only [Session.after, setBounds]
  cases hk : s.kinds[v]? with
  | none =>
    refine ⟨s.kinds, rfl, rfl, ?_⟩
    grind
  | some d =>
    cases d with
    | binary =>
      refine ⟨s.kinds, rfl, rfl, ?_⟩
      grind [Kind.setBounds]
    | integer l u =>
      refine ⟨_, rfl, Array.size_setIfInBounds, ?_⟩
      grind [Kind.setBounds]

/-! ## Pools and columns in step -/

/-- The two vectors and the two maps say the same. -/
structure InStep (s : Registry) : Prop where
  size : s.keys.size = s.kinds.size
  binary : ∀ (k : Key) (v : Var), s.binaries[k]? = some v ↔
    v < s.kinds.size ∧ s.keys[v]? = some k ∧ s.kinds[v]? = some .binary
  integer : ∀ (k : Key) (v : Var), s.integers[k]? = some v ↔
    v < s.kinds.size ∧ s.keys[v]? = some k ∧ ∃ l u, s.kinds[v]? = some (.integer l u)
  /-- Every column is in exactly one pool, under exactly one key. -/
  once : ∀ v < s.kinds.size,
    ((∃! k : Key, s.binaries[k]? = some v) ∧ ∀ k : Key, s.integers[k]? ≠ some v) ∨
      (∃! k : Key, s.integers[k]? = some v) ∧ ∀ k : Key, s.binaries[k]? ≠ some v
  /-- No two columns of a pool have the same key. -/
  distinct : ∀ (v w : Var) (k : Key) (d e : Kind), s.keys[v]? = some k → s.keys[w]? = some k →
    s.kinds[v]? = some d → s.kinds[w]? = some e → d.isInteger = e.isInteger → v = w

/-- The same for both pools at once: a map takes a key to the column of its pool that has the
key. -/
structure Aligned (s : Registry) : Prop where
  size : s.keys.size = s.kinds.size
  pool : ∀ (integers : Bool) (k : Key) (v : Var), (s.pool integers)[k]? = some v ↔
    s.keys[v]? = some k ∧ ∃ d, s.kinds[v]? = some d ∧ d.isInteger = integers

theorem aligned_empty : empty.Aligned := by
  refine ⟨rfl, ?_⟩
  intro integers k v
  cases integers <;> simp [empty, pool]

namespace Aligned

theorem enter (h : s.Aligned) (hnew : (s.pool kind.isInteger)[k]? = none) :
    (s.enter k kind).Aligned := by
  refine ⟨by simp [Registry.enter, h.size], ?_⟩
  intro integers j v
  have hold := h.pool integers j v
  have hlast := h.pool integers j s.kinds.size
  rw [pool_enter]
  simp only [Registry.enter, Array.getElem?_push, h.size]
  -- No entry leads to the new place before, since there is no key at it.
  have hend : s.keys[s.kinds.size]? = none := by simp [← h.size]
  split
  · rename_i hpool
    subst hpool
    rw [Std.HashMap.getElem?_insert]
    grind
  · grind

theorem setBounds (h : s.Aligned) (v : Var) (lower upper : Option Int) :
    ((Registry.setBounds v lower upper).after s).Aligned := by
  obtain ⟨kinds, hset, hsize, hkinds⟩ := setBounds_kinds s v lower upper
  rw [hset]
  refine ⟨h.size.trans hsize.symm, ?_⟩
  intro integers k w
  have hkind : (∃ d, kinds[w]? = some d ∧ d.isInteger = integers) ↔
      ∃ d, s.kinds[w]? = some d ∧ d.isInteger = integers := by
    rw [hkinds]
    split <;> simp
  exact (h.pool integers k w).trans (and_congr_right fun _ => hkind.symm)

theorem finds_iff (h : s.Aligned) {d : Kind} (hk : s.keys[v]? = some k) (hd : s.kinds[v]? = some d)
    (integers : Bool) (j : Key) :
    (s.pool integers)[j]? = some v ↔ k = j ∧ d.isInteger = integers := by
  simp [h.pool, hk, hd]

theorem inStep (h : s.Aligned) : s.InStep where
  size := h.size
  binary := by
    intro k v
    refine (h.pool false k v).trans ?_
    simp only [Kind.isInteger_eq_false_iff, exists_eq_right]
    grind
  integer := by
    intro k v
    refine (h.pool true k v).trans ?_
    simp only [Kind.isInteger_eq_true_iff]
    grind
  once := by
    intro v hv
    obtain ⟨k, hk⟩ : ∃ k, s.keys[v]? = some k :=
      ⟨_, Array.getElem?_eq_getElem (h.size.symm ▸ hv)⟩
    have hd : s.kinds[v]? = some s.kinds[v] := Array.getElem?_eq_getElem hv
    have hbinary : ∀ j : Key, s.binaries[j]? = some v ↔ _ := h.finds_iff hk hd false
    have hinteger : ∀ j : Key, s.integers[j]? = some v ↔ _ := h.finds_iff hk hd true
    simp only [ne_eq, hbinary, hinteger]
    cases s.kinds[v].isInteger with
    | false => exact .inl ⟨⟨_, ⟨rfl, rfl⟩, fun j hj => hj.1.symm⟩, by simp⟩
    | true => exact .inr ⟨⟨_, ⟨rfl, rfl⟩, fun j hj => hj.1.symm⟩, by simp⟩
  distinct := by
    intro v w k d e hv hw hd he hde
    have hfound := (h.finds_iff hv hd d.isInteger k).2 ⟨rfl, rfl⟩
    have hfound' := (h.finds_iff hw he d.isInteger k).2 ⟨rfl, hde.symm⟩
    exact Option.some.inj (hfound.symm.trans hfound')

theorem mem_stored_iff (h : s.Aligned) {integers : Bool} :
    v ∈ s.stored integers ↔ ∃ d, s.kinds[v]? = some d ∧ d.isInteger = integers := by
  simp only [stored, List.mem_map, Prod.exists, Std.HashMap.mem_toList_iff_getElem?_eq_some,
    h.pool]
  constructor
  · rintro ⟨k, v', ⟨-, hkind⟩, rfl⟩
    exact hkind
  · rintro ⟨d, hd, hpool⟩
    have hv : v < s.keys.size := h.size ▸ (Array.getElem?_eq_some_iff.1 hd).1
    exact ⟨s.keys[v], v, ⟨Array.getElem?_eq_getElem hv, d, hd, hpool⟩, rfl⟩

theorem nodup_stored (h : s.Aligned) (integers : Bool) : (s.stored integers).Nodup := by
  have hkey : ∀ x ∈ (s.pool integers).toList, s.keys[x.2]? = some x.1 := fun x hx =>
    ((h.pool integers x.1 x.2).1 (Std.HashMap.mem_toList_iff_getElem?_eq_some.1 hx)).1
  refine List.Nodup.map_on ?_ (Std.HashMap.distinct_keys_toList.imp ?_)
  · intro x hx y hy hxy
    exact Prod.ext (Option.some.inj ((hkey x hx).symm.trans (hxy ▸ hkey y hy))) hxy
  · rintro x y hxy rfl
    simp at hxy

end Aligned

/-! ## Operations -/

theorem after_integer (s : Registry) (k : Key) :
    s.after (.integer k) = (s.column k (.integer none none)).1 := by
  rw [after, Session.after, integer_eq_column]

theorem after_namedInteger (s : Registry) (name : String) (lower upper : Int) :
    s.after (.namedInteger name lower upper) =
      (s.column (.named name) (.integer (some lower) (some upper))).1 := by
  rw [after, Session.after, namedInteger_eq_column]

theorem addRow_eq (s : Registry) (c : Constraint) : s.addRow c = s.addRows [c] := by
  simp [addRow, addRows]

/-- What an operation does to a registry: columns are entered under keys that their pools do not
have, the bounds that it asks for are set, or rows are added. -/
theorem after_induction {P : Registry → Prop} {o : Operation} (hs : P s)
    (henter : ∀ s k kind, P s → (s.pool kind.isInteger)[k]? = none → P (s.enter k kind))
    (hbounds : ∀ v lower upper, o = .setBounds v lower upper →
      P ((setBounds v lower upper).after s))
    (hrows : ∀ cs, P (s.addRows cs)) : P (s.after o) := by
  have hcolumn : ∀ s k kind, P s → P (s.column k kind).1 := by
    intro s k kind hs
    cases h : (s.pool kind.isInteger)[k]? with
    | none =>
      rw [column_of_new h]
      exact henter s k kind hs h
    | some v =>
      rw [column_of_known h]
      exact hs
  have hbinary : ∀ k s, P s → P (s.binary k).1 := by
    intro k s hs
    rw [binary_eq_column]
    exact hcolumn s k .binary hs
  cases o with
  | binary k => exact hbinary k s hs
  | integer k =>
    rw [after_integer]
    exact hcolumn s k _ hs
  | namedBinary name => exact hbinary _ s hs
  | namedInteger name lower upper =>
    rw [after_namedInteger]
    exact hcolumn s _ _ hs
  | setBounds v lower upper => exact hbounds v lower upper rfl
  | addRow c =>
    rw [after, addRow_eq]
    exact hrows [c]
  | addRows cs => exact hrows cs
  | request r => exact r.inPlace_keeps hbinary hs

theorem after_aligned (h : s.Aligned) (o : Operation) : (s.after o).Aligned :=
  after_induction h (fun _ _ _ h hnew => h.enter hnew) (fun v l u _ => h.setBounds v l u)
    fun _ => ⟨h.size, h.pool⟩

theorem run_aligned (h : s.Aligned) (os : List Operation) : (s.run os).Aligned := by
  induction os generalizing s with
  | nil => exact h
  | cons o os ih => exact ih (after_aligned h o)

/-! ## Later operations -/

/-- What the operations `later` leave of a registry as it was. -/
structure Persists (later : List Operation) (s s' : Registry) : Prop where
  key : ∀ (v : Var) (k : Key), s.keys[v]? = some k → s'.keys[v]? = some k
  binary : ∀ v : Var, s.kinds[v]? = some .binary → s'.kinds[v]? = some .binary
  integer : ∀ (v : Var) (l u : Option Int), s.kinds[v]? = some (.integer l u) →
    ∃ l' u', s'.kinds[v]? = some (.integer l' u')
  /-- A column that is not bounded anew keeps its bounds. -/
  bounds : ∀ (v : Var) (d : Kind), (∀ l u, .setBounds v l u ∉ later) → s.kinds[v]? = some d →
    s'.kinds[v]? = some d
  rows : s.rows.toList <+: s'.rows.toList

namespace Persists

variable {later next : List Operation}

theorem of_kinds (hkey : ∀ (v : Var) (k : Key), s.keys[v]? = some k → s'.keys[v]? = some k)
    (hkind : ∀ (v : Var) (d : Kind), s.kinds[v]? = some d → s'.kinds[v]? = some d)
    (hrows : s.rows.toList <+: s'.rows.toList) : Persists later s s' :=
  ⟨hkey, fun v => hkind v _, fun v l u hv => ⟨l, u, hkind v _ hv⟩, fun v d _ => hkind v d, hrows⟩

theorem refl (s : Registry) : Persists later s s :=
  of_kinds (fun _ _ h => h) (fun _ _ h => h) (List.prefix_refl _)

theorem enter (s : Registry) (k : Key) (kind : Kind) : Persists later s (s.enter k kind) := by
  refine of_kinds ?_ ?_ (List.prefix_refl _)
  · intro v j hj
    simp only [Registry.enter]
    grind
  · intro v d hd
    simp only [Registry.enter]
    grind

theorem setBounds (s : Registry) (v : Var) (lower upper : Option Int) :
    Persists [.setBounds v lower upper] s ((Registry.setBounds v lower upper).after s) := by
  obtain ⟨kinds, hset, -, hkinds⟩ := setBounds_kinds s v lower upper
  rw [hset]
  refine ⟨fun _ _ h => h, ?_, ?_, ?_, List.prefix_refl _⟩
  · intro w hw
    simp [hkinds, hw, Kind.setBounds]
  · intro w l u hw
    simp only [hkinds, hw, Kind.setBounds, Option.map_some]
    split
    · exact ⟨lower, upper, rfl⟩
    · exact ⟨l, u, rfl⟩
  · intro w d hnot hw
    have hvw : v ≠ w := by
      rintro rfl
      exact hnot lower upper (List.mem_singleton_self _)
    simp [hkinds, hw, hvw]

theorem trans (h₁ : Persists later s s') (h₂ : Persists next s' s'') :
    Persists (later ++ next) s s'' where
  key := fun v k hk => h₂.key v k (h₁.key v k hk)
  binary := fun v hv => h₂.binary v (h₁.binary v hv)
  integer := by
    intro v l u hv
    obtain ⟨l', u', hv'⟩ := h₁.integer v l u hv
    exact h₂.integer v l' u' hv'
  bounds := by
    intro v d hnot hv
    refine h₂.bounds v d ?_ (h₁.bounds v d ?_ hv)
    · exact fun l u hmem => hnot l u (List.mem_append_right _ hmem)
    · exact fun l u hmem => hnot l u (List.mem_append_left _ hmem)
  rows := h₁.rows.trans h₂.rows

theorem after (s : Registry) (o : Operation) : Persists [o] s (s.after o) := by
  refine after_induction (refl s) ?_ ?_ ?_
  · intro s' k kind hs _
    have hnone : Persists [] s' (s'.enter k kind) := enter s' k kind
    have hboth := hs.trans hnone
    rwa [List.append_nil] at hboth
  · rintro v lower upper rfl
    exact setBounds s v lower upper
  · intro cs
    exact of_kinds (fun _ _ h => h) (fun _ _ h => h) (by simp [addRows])

theorem run (s : Registry) (later : List Operation) : Persists later s (s.run later) := by
  induction later generalizing s with
  | nil => exact refl s
  | cons o later ih => exact (after s o).trans (ih (s.after o))

end Persists

end Registry
end Linearize
