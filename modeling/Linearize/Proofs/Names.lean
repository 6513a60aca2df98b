import Linearize.Proofs.Pools
import Linearize.Proofs.Wording

/-!
# Linearize.Proofs.Names

The names of a pool. A key that refers to earlier columns only has a name, and a name that is put
together has an underscore in it. Of the names that a column can get one is free, so that every pool
of a reachable model can be named, each column once and no two alike.
-/

namespace Linearize
namespace Model

open Text

variable {m : Model}

/-! ## Every column has a name -/

section Named

variable {name : Var → Option String}

theorem exists_termsName {terms : List (Var × Int)} (h : ∀ t ∈ terms, ∃ s, name t.1 = some s)
    (acc : String) : ∃ s, termsName name acc terms = some s := by
  induction terms generalizing acc with
  | nil => exact ⟨acc, rfl⟩
  | cons t terms ih =>
    rw [List.forall_mem_cons] at h
    obtain ⟨⟨s, hs⟩, hrest⟩ := h
    simp only [termsName, hs]
    exact ih hrest _

theorem exists_exprName {e : Expr} (h : ∀ u ∈ e.vars, ∃ s, name u = some s) :
    ∃ s, exprName name e = some s := by
  obtain ⟨s, hs⟩ := exists_termsName (fun t ht => h t.1 (List.mem_map_of_mem ht)) ""
  simp only [exprName, hs]
  split
  · exact ⟨_, rfl⟩
  · split <;> exact ⟨_, rfl⟩

theorem exists_joinNames (separator : String) (vs : List Var)
    (h : ∀ u ∈ vs, ∃ s, name u = some s) : ∃ s, joinNames name separator vs = some s := by
  suffices hnames : ∃ names, vs.mapM name = some names by
    obtain ⟨names, hnames⟩ := hnames
    simp [joinNames, hnames]
  induction vs with
  | nil => exact ⟨[], rfl⟩
  | cons v vs ih =>
    rw [List.forall_mem_cons] at h
    obtain ⟨⟨s, hs⟩, hrest⟩ := h
    obtain ⟨names, hnames⟩ := ih hrest
    exact ⟨s :: names, by simp [List.mapM_cons, hs, hnames]⟩

theorem exists_keyName {k : Key} (h : ∀ u ∈ k.operands, ∃ s, name u = some s) :
    ∃ s, keyName name k = some s := by
  cases k with
  | named s => exact ⟨s, rfl⟩
  | less a b =>
    obtain ⟨s, hs⟩ := exists_exprName fun u hu => h u (List.mem_append_left _ hu)
    obtain ⟨t, ht⟩ := exists_exprName fun u hu => h u (List.mem_append_right _ hu)
    simp [keyName, hs, ht]
  | and vs =>
    obtain ⟨s, hs⟩ := exists_joinNames "_and_" vs h
    simp [keyName, hs]
  | or vs =>
    obtain ⟨s, hs⟩ := exists_joinNames "_or_" vs h
    simp [keyName, hs]
  | selector vs i =>
    obtain ⟨s, hs⟩ := exists_joinNames "_and_" vs h
    simp [keyName, hs]

end Named

/-- A chain of keys goes down in the list of columns, so a column is named within any depth that
exceeds its place. -/
theorem Acyclic.exists_nameWithin (hm : m.Acyclic) {depth : Nat} {v : Var} (hv : v < m.size)
    (hdepth : v < depth) : ∃ s, m.nameWithin depth v = some s := by
  induction depth generalizing v with
  | zero => cases hdepth
  | succ depth ih =>
    obtain ⟨c, hc⟩ := exists_column hv
    have hkey : m.key? v = some c.key := key?_eq_some_iff.2 ⟨c, hc, rfl⟩
    simp only [nameWithin, hkey]
    refine exists_keyName fun u hu => ?_
    have huv := hm v c hc u hu
    exact ih (Nat.lt_trans huv hv) (Nat.lt_of_lt_of_le huv (Nat.le_of_lt_succ hdepth))

theorem Acyclic.exists_name? (hm : m.Acyclic) {v : Var} (hv : v < m.size) :
    ∃ s, m.name? v = some s := hm.exists_nameWithin hv hv

/-- The names of auxiliary columns are put together with underscores. -/
theorem keyName_underscore {name : Var → Option String} {k : Key} {s : String}
    (hk : k.isNamed = false) (h : keyName name k = some s) : ¬ Lacks '_' s := by
  cases k with
  | named t => cases hk
  | less a b =>
    simp only [keyName] at h
    split at h
    · cases h
      simp only [lacks_append, show ¬ Lacks '_' "_less_" by decide, and_false, false_and,
        not_false_eq_true]
    · cases h
  | and vs =>
    obtain ⟨t, -, rfl⟩ := Option.map_eq_some_iff.1 h
    simp only [lacks_append, show ¬ Lacks '_' "_dummy" by decide, and_false, not_false_eq_true]
  | or vs =>
    obtain ⟨t, -, rfl⟩ := Option.map_eq_some_iff.1 h
    simp only [lacks_append, show ¬ Lacks '_' "_dummy" by decide, and_false, not_false_eq_true]
  | selector vs i =>
    obtain ⟨t, -, rfl⟩ := Option.map_eq_some_iff.1 h
    simp only [lacks_append, show ¬ Lacks '_' "_dummy_" by decide, and_false, false_and,
      not_false_eq_true]

theorem name?_underscore {v : Var} {k : Key} {s : String} (hkey : m.key? v = some k)
    (hk : k.isNamed = false) (h : m.name? v = some s) : ¬ Lacks '_' s := by
  rw [name?] at h
  cases hsize : m.size with
  | zero =>
    rw [hsize] at h
    cases h
  | succ depth =>
    rw [hsize] at h
    simp only [nameWithin, hkey] at h
    exact keyName_underscore hk h

/-! ## Free names -/

theorem length_suffixed (s : String) (v : Var) (k : Nat) :
    (suffixed s v k).length = s.length + k * (1 + v.columnName.length) := by
  induction k with
  | zero => simp [suffixed]
  | succ k ih =>
    have hunderscore : "_".length = 1 := by decide
    rw [suffixed, String.length_append, String.length_append, ih, hunderscore, Nat.succ_mul]
    omega

theorem suffixed_injective (s : String) (v : Var) : Function.Injective (suffixed s v) := by
  intro j k h
  have hlength := congrArg String.length h
  rw [length_suffixed, length_suffixed, Nat.add_left_cancel_iff] at hlength
  exact Nat.eq_of_mul_eq_mul_right (by omega) hlength

theorem suffixed_underscore {s : String} (hs : ¬ Lacks '_' s) (v : Var) (k : Nat) :
    ¬ Lacks '_' (suffixed s v k) := by
  induction k with
  | zero => exact hs
  | succ k ih =>
    rw [suffixed, lacks_append, lacks_append]
    exact fun h => ih h.1.1

/-- The name that a column gets has the fewest copies of its position that make it free. -/
theorem freshName_spec (used : List String) (s : String) (v : Var) :
    ∃ k, freshName used s v = suffixed s v k ∧ suffixed s v k ∉ used ∧
      ∀ j < k, suffixed s v j ∈ used := by
  simp only [freshName]
  split
  · rename_i k hfind
    obtain ⟨hfree, -, htaken⟩ := List.find?_range_eq_some.1 hfind
    exact ⟨k, rfl, by simpa using hfree, fun j hj => by simpa using htaken j hj⟩
  · rename_i hfind
    -- more names than there are in `used` cannot all be taken
    have htaken : (List.range (used.length + 1)).map (suffixed s v) ⊆ used := by
      intro t ht
      obtain ⟨j, hj, rfl⟩ := List.mem_map.1 ht
      simpa using List.find?_range_eq_none.1 hfind j (List.mem_range.1 hj)
    have hnodup := List.nodup_range.map (suffixed_injective s v) (l := List.range (used.length + 1))
    have hlength := (hnodup.subperm htaken).length_le
    rw [List.length_map, List.length_range] at hlength
    omega

/-! ## The names of a list of columns -/

theorem distinctNames_named (m : Model) (used : List String) (v : Var) (s : String)
    (rest : List (Var × Key)) :
    m.distinctNames used ((v, .named s) :: rest) =
      (m.distinctNames used rest).map fun names => (s, v) :: names := by
  simp only [distinctNames]
  cases m.distinctNames used rest with
  | none => rfl
  | some names => rfl

theorem distinctNames_auxiliary {v : Var} {k : Key} (hk : k.isNamed = false) (m : Model)
    (used : List String) (rest : List (Var × Key)) :
    m.distinctNames used ((v, k) :: rest) = (m.name? v).bind fun s =>
      (m.distinctNames (freshName used s v :: used) rest).map fun names =>
        (freshName used s v, v) :: names := by
  cases k with
  | named s => cases hk
  | _ =>
    simp only [distinctNames]
    cases m.name? v with
    | none => rfl
    | some s =>
      simp only [Option.bind_some]
      cases m.distinctNames (freshName used s v :: used) rest with
      | none => rfl
      | some names => rfl

/-- A declared column is named as it was declared, another one by a free name, which is taken from
then on. -/
theorem distinctNames_cons_iff {used : List String} {v : Var} {k : Key} {rest : List (Var × Key)}
    {names : List (String × Var)} :
    m.distinctNames used ((v, k) :: rest) = some names ↔
      (∃ s tail, k = .named s ∧ m.distinctNames used rest = some tail ∧ names = (s, v) :: tail) ∨
      ∃ s tail, k.isNamed = false ∧ m.name? v = some s ∧
        m.distinctNames (freshName used s v :: used) rest = some tail ∧
        names = (freshName used s v, v) :: tail := by
  cases hk : k.isNamed with
  | true =>
    obtain ⟨s, rfl⟩ : ∃ s, k = .named s := by
      cases k with
      | named s => exact ⟨s, rfl⟩
      | _ => cases hk
    rw [distinctNames_named, Option.map_eq_some_iff]
    grind
  | false =>
    rw [distinctNames_auxiliary hk, Option.bind_eq_some_iff]
    simp only [Option.map_eq_some_iff]
    grind [Key.isNamed]

theorem exists_distinctNames {entries : List (Var × Key)}
    (h : ∀ e ∈ entries, ∃ s, m.name? e.1 = some s) (used : List String) :
    ∃ names, m.distinctNames used entries = some names := by
  induction entries generalizing used with
  | nil => exact ⟨[], rfl⟩
  | cons e rest ih =>
    obtain ⟨v, k⟩ := e
    rw [List.forall_mem_cons] at h
    obtain ⟨⟨s, hs⟩, hrest⟩ := h
    cases hk : k.isNamed with
    | true =>
      obtain ⟨names, hnames⟩ := ih hrest used
      cases k with
      | named t => exact ⟨_, distinctNames_cons_iff.2 (.inl ⟨t, names, rfl, hnames, rfl⟩)⟩
      | _ => cases hk
    | false =>
      obtain ⟨names, hnames⟩ := ih hrest (freshName used s v :: used)
      exact ⟨_, distinctNames_cons_iff.2 (.inr ⟨s, names, hk, hs, hnames, rfl⟩)⟩

section Distinct

variable {used : List String} {entries : List (Var × Key)} {names : List (String × Var)}

theorem distinctNames_columns (h : m.distinctNames used entries = some names) :
    names.map (·.2) = entries.map (·.1) := by
  induction entries generalizing used names with
  | nil =>
    cases h
    rfl
  | cons e rest ih =>
    obtain ⟨s, tail, -, htail, rfl⟩ | ⟨s, tail, -, -, htail, rfl⟩ := distinctNames_cons_iff.1 h
    · simp [ih htail]
    · simp [ih htail]

theorem mem_declaredNames_iff {s : String} :
    s ∈ declaredNames entries ↔ ∃ v, (v, Key.named s) ∈ entries := by
  simp only [declaredNames, List.mem_filterMap, Prod.exists]
  constructor
  · rintro ⟨v, k, hmem, h⟩
    cases k with
    | named t =>
      cases h
      exact ⟨v, hmem⟩
    | _ => cases h
  · rintro ⟨v, hmem⟩
    exact ⟨v, _, hmem, rfl⟩

theorem named_mem_distinctNames (h : m.distinctNames used entries = some names) {s : String}
    {v : Var} (hmem : (v, Key.named s) ∈ entries) : (s, v) ∈ names := by
  induction entries generalizing used names with
  | nil => cases hmem
  | cons e rest ih =>
    obtain ⟨t, tail, hkey, htail, rfl⟩ | ⟨t, tail, hkey, -, htail, rfl⟩ :=
      distinctNames_cons_iff.1 h
    · rcases List.mem_cons.1 hmem with rfl | hmem
      · cases hkey
        exact List.mem_cons_self
      · exact List.mem_cons_of_mem _ (ih htail hmem)
    · rcases List.mem_cons.1 hmem with rfl | hmem
      · cases hkey
      · exact List.mem_cons_of_mem _ (ih htail hmem)

theorem distinctNames_origin (h : m.distinctNames used entries = some names)
    (hkeys : ∀ e ∈ entries, m.key? e.1 = some e.2) {s : String} {v : Var} (hmem : (s, v) ∈ names) :
    (v, Key.named s) ∈ entries ∨ s ∉ used ∧ ¬ Lacks '_' s := by
  induction entries generalizing used names with
  | nil =>
    cases h
    cases hmem
  | cons e rest ih =>
    rw [List.forall_mem_cons] at hkeys
    obtain ⟨t, tail, hkey, htail, rfl⟩ | ⟨t, tail, hk, ht, htail, rfl⟩ :=
      distinctNames_cons_iff.1 h
    · rcases List.mem_cons.1 hmem with heq | hmem
      · cases heq
        exact .inl (by rw [← hkey]; exact List.mem_cons_self)
      · rcases ih htail hkeys.2 hmem with hdecl | hfree
        · exact .inl (List.mem_cons_of_mem _ hdecl)
        · exact .inr hfree
    · rcases List.mem_cons.1 hmem with heq | hmem
      · obtain ⟨j, hfresh, hfree, -⟩ := freshName_spec used t e.1
        cases heq
        refine .inr ⟨hfresh ▸ hfree, ?_⟩
        rw [hfresh]
        exact suffixed_underscore (name?_underscore hkeys.1 hk ht) _ _
      · rcases ih htail hkeys.2 hmem with hdecl | ⟨hfree, hs⟩
        · exact .inl (List.mem_cons_of_mem _ hdecl)
        · exact .inr ⟨fun hused => hfree (List.mem_cons_of_mem _ hused), hs⟩

/-- No name is given twice if the declared names are distinct and known to be taken. -/
theorem distinctNames_nodup (h : m.distinctNames used entries = some names)
    (hkeys : ∀ e ∈ entries, m.key? e.1 = some e.2) (hdecl : (declaredNames entries).Nodup)
    (hused : declaredNames entries ⊆ used) : (names.map (·.1)).Nodup := by
  induction entries generalizing used names with
  | nil =>
    cases h
    exact List.nodup_nil
  | cons e rest ih =>
    obtain ⟨v, k⟩ := e
    have hkeysRest := (List.forall_mem_cons.1 hkeys).2
    obtain ⟨s, tail, rfl, htail, rfl⟩ | ⟨s, tail, hk, hs, htail, rfl⟩ :=
      distinctNames_cons_iff.1 h
    · rw [show declaredNames ((v, .named s) :: rest) = s :: declaredNames rest from rfl]
        at hdecl hused
      obtain ⟨hnew, hdecl⟩ := List.nodup_cons.1 hdecl
      obtain ⟨hsused, hused⟩ := List.cons_subset.1 hused
      refine List.nodup_cons.2 ⟨?_, ih htail hkeysRest hdecl hused⟩
      intro hmem
      obtain ⟨⟨t, w⟩, htw, rfl⟩ := List.mem_map.1 hmem
      rcases distinctNames_origin htail hkeysRest htw with hw | ⟨hfree, -⟩
      · exact hnew (mem_declaredNames_iff.2 ⟨w, hw⟩)
      · exact hfree hsused
    · have hsame : declaredNames ((v, k) :: rest) = declaredNames rest := by
        cases k with
        | named t => cases hk
        | _ => rfl
      rw [hsame] at hdecl hused
      obtain ⟨j, hfresh, hfree, -⟩ := freshName_spec used s v
      rw [← hfresh] at hfree
      refine List.nodup_cons.2 ⟨?_, ih htail hkeysRest hdecl (List.subset_cons_of_subset _ hused)⟩
      intro hmem
      obtain ⟨⟨t, w⟩, htw, ht⟩ := List.mem_map.1 hmem
      obtain rfl : t = freshName used s v := ht
      rcases distinctNames_origin htail hkeysRest htw with hw | ⟨hnot, -⟩
      · exact hfree (hused (mem_declaredNames_iff.2 ⟨w, hw⟩))
      · exact hnot List.mem_cons_self

end Distinct

/-! ## The names of a pool -/

theorem pool_increasing (m : Model) (integers : Bool) :
    (m.pool integers).Pairwise fun e f => e.1 < f.1 := by
  have hplaces : m.columns.zipIdx.Pairwise fun x y => x.2 < y.2 := by
    rw [← List.pairwise_map (f := Prod.snd) (R := (· < ·)), List.zipIdx_map_snd]
    exact List.pairwise_lt_range'
  refine List.pairwise_filterMap.2 (hplaces.imp ?_)
  rintro ⟨c, v⟩ ⟨d, w⟩ hlt e he f hf
  obtain ⟨-, he⟩ := Option.ite_none_right_eq_some.1 he
  obtain ⟨-, hf⟩ := Option.ite_none_right_eq_some.1 hf
  cases he
  cases hf
  exact hlt

theorem places_increasing (m : Model) (integers : Bool) :
    (m.places integers).Pairwise (· < ·) := List.pairwise_map.2 (m.pool_increasing integers)

theorem places_perm (m : Model) :
    (m.places false ++ m.places true).Perm (List.range m.size) := by
  have hnodup : ∀ integers, (m.places integers).Nodup := fun integers =>
    (m.places_increasing integers).imp Nat.ne_of_lt
  refine (List.perm_ext_iff_of_nodup ?_ List.nodup_range).2 ?_
  · refine List.nodup_append.2 ⟨hnodup false, hnodup true, ?_⟩
    rintro v hv w hw rfl
    obtain ⟨k, hk, hbinary⟩ := mem_places_iff.1 hv
    obtain ⟨k', hk', hinteger⟩ := mem_places_iff.1 hw
    rw [hk] at hk'
    cases hk'
    rw [hbinary] at hinteger
    cases hinteger
  · intro v
    rw [List.mem_append, mem_places_iff, mem_places_iff, List.mem_range, ← exists_kind?_iff]
    constructor
    · rintro (⟨k, hk, -⟩ | ⟨k, hk, -⟩) <;> exact ⟨k, hk⟩
    · rintro ⟨k, hk⟩
      cases hinteger : k.isInteger with
      | false => exact .inl ⟨k, hk, hinteger⟩
      | true => exact .inr ⟨k, hk, hinteger⟩

theorem length_pools (m : Model) : (m.pool false).length + (m.pool true).length = m.size := by
  simpa [places] using m.places_perm.length_eq

theorem key?_of_mem_pool {integers : Bool} {e : Var × Key} (h : e ∈ m.pool integers) :
    m.key? e.1 = some e.2 := by
  obtain ⟨c, hc, -, hkey⟩ := mem_pool_iff.1 h
  exact key?_eq_some_iff.2 ⟨c, hc, hkey⟩

theorem Distinct.nodup_declaredNames (hm : m.Distinct) (integers : Bool) :
    (declaredNames (m.pool integers)).Nodup := by
  refine List.pairwise_filterMap.2 ((m.pool_increasing integers).imp_of_mem ?_)
  rintro ⟨v, k⟩ ⟨w, l⟩ hv hw hlt s hs t ht rfl
  obtain ⟨c, hc, hckind, rfl⟩ := mem_pool_iff.1 hv
  obtain ⟨d, hd, hdkind, rfl⟩ := mem_pool_iff.1 hw
  have hkeys : c.key = d.key := by grind
  exact absurd (hm v w c d hc hd hkeys (hckind.trans hdkind.symm)) (Nat.ne_of_lt hlt)

structure NamesPool (m : Model) (integers : Bool) (names : List (String × Var)) : Prop where
  /-- The columns of the pool, and no others, are named. -/
  column : ∀ v, v ∈ names.map (·.2) ↔ m.InPool integers v
  /-- Each column has one name, and the columns come in their order. -/
  increasing : (names.map (·.2)).Pairwise (· < ·)
  /-- No two columns have the same name. -/
  distinct : (names.map (·.1)).Nodup
  /-- A declared column keeps its name. -/
  declared : ∀ s v, m.InPool integers v → m.key? v = some (.named s) → (s, v) ∈ names
  /-- A name without an underscore is a declared one. -/
  plain : ∀ s v, (s, v) ∈ names → Lacks '_' s → m.key? v = some (.named s)

theorem exists_poolNames (hd : m.Distinct) (ha : m.Acyclic) (integers : Bool) :
    ∃ names, m.poolNames integers = some names ∧ m.NamesPool integers names ∧
      names.length = (m.pool integers).length := by
  have hkeys : ∀ e ∈ m.pool integers, m.key? e.1 = some e.2 := fun _ => key?_of_mem_pool
  have hnamed : ∀ e ∈ m.pool integers, ∃ s, m.name? e.1 = some s := by
    intro e he
    obtain ⟨c, hc, -⟩ := mem_pool_iff.1 he
    exact ha.exists_name? (lt_size_of_column hc)
  obtain ⟨names, hnames⟩ := exists_distinctNames hnamed (declaredNames (m.pool integers))
  have hcolumns : names.map (·.2) = m.places integers := distinctNames_columns hnames
  refine ⟨names, hnames, ⟨?_, ?_, ?_, ?_, ?_⟩, ?_⟩
  · intro v
    rw [hcolumns, mem_places_iff]
  · rw [hcolumns]
    exact m.places_increasing integers
  · exact distinctNames_nodup hnames hkeys (hd.nodup_declaredNames integers)
      (List.Subset.refl _)
  · rintro s v ⟨k, hk, hint⟩ hkey
    obtain ⟨c, hc, rfl⟩ := kind?_eq_some_iff.1 hk
    obtain ⟨d, hd, hdkey⟩ := key?_eq_some_iff.1 hkey
    rw [hc] at hd
    cases hd
    exact named_mem_distinctNames hnames (mem_pool_iff.2 ⟨c, hc, hint, hdkey⟩)
  · intro s v hmem hs
    rcases distinctNames_origin hnames hkeys hmem with hpool | ⟨-, hunderscore⟩
    · exact key?_of_mem_pool hpool
    · exact absurd hs hunderscore
  · simpa [places] using congrArg List.length hcolumns

theorem Reachable.exists_poolNames (h : m.Reachable) (integers : Bool) :
    ∃ names, m.poolNames integers = some names ∧ m.NamesPool integers names ∧
      names.length = (m.pool integers).length :=
  Model.exists_poolNames h.distinct h.acyclic integers

end Model
end Linearize
