import Linearize.Proofs.Names

/-!
# Linearize.Proofs.Suffixes

How the names of a pool are made distinct. An auxiliary column keeps the name that its key gives it
if that one is free; else it gets copies of its position behind it, as few as make it free. Taken
are the declared names of the pool, also those of later columns, and what earlier auxiliary columns
got.
-/

namespace Linearize
namespace Model

variable {m : Model} {used : List String} {names : List (String × Var)} {v : Var}

/-- The name is one of `used` or was given to an auxiliary column before `v`. -/
def TakenBefore (m : Model) (used : List String) (names : List (String × Var)) (v : Var)
    (s : String) : Prop :=
  s ∈ used ∨ ∃ w k, w < v ∧ m.key? w = some k ∧ k.isNamed = false ∧ (s, w) ∈ names

/-- The name is `base` with copies of the position of `v`, as few as make it free. -/
def LeastFree (taken : String → Prop) (base : String) (v : Var) (s : String) : Prop :=
  ∃ k, s = suffixed base v k ∧ ¬ taken (suffixed base v k) ∧ ∀ j < k, taken (suffixed base v j)

theorem LeastFree.congr {taken taken' : String → Prop} {base s : String}
    (htaken : ∀ t, taken t ↔ taken' t) (h : LeastFree taken base v s) :
    LeastFree taken' base v s := by
  obtain ⟨k, hs, hfree, hbefore⟩ := h
  exact ⟨k, hs, mt (htaken _).2 hfree, fun j hj => (htaken _).1 (hbefore j hj)⟩

theorem freshName_leastFree (used : List String) (base : String) (v : Var) :
    LeastFree (· ∈ used) base v (freshName used base v) := by
  obtain ⟨k, hfresh, hfree, hbefore⟩ := freshName_spec used base v
  exact ⟨k, hfresh, hfree, hbefore⟩

theorem takenBefore_cons_named {w : Var} {s t : String} (hkey : m.key? w = some (.named s)) :
    m.TakenBefore used names v t ↔ m.TakenBefore used ((s, w) :: names) v t := by
  refine or_congr_right ⟨?_, ?_⟩
  · rintro ⟨u, k, huv, hk, hnamed, hmem⟩
    exact ⟨u, k, huv, hk, hnamed, List.mem_cons_of_mem _ hmem⟩
  · rintro ⟨u, k, huv, hk, hnamed, hmem⟩
    rcases List.mem_cons.1 hmem with heq | hmem
    · cases heq
      rw [hkey] at hk
      cases hk
      cases hnamed
    · exact ⟨u, k, huv, hk, hnamed, hmem⟩

theorem takenBefore_cons_auxiliary {w : Var} {k : Key} {s t : String} (hwv : w < v)
    (hkey : m.key? w = some k) (hk : k.isNamed = false) :
    m.TakenBefore (s :: used) names v t ↔ m.TakenBefore used ((s, w) :: names) v t := by
  constructor
  · rintro (hused | ⟨u, k', huv, hk', hnamed, hmem⟩)
    · rcases List.mem_cons.1 hused with rfl | hused
      · exact .inr ⟨w, k, hwv, hkey, hk, List.mem_cons_self⟩
      · exact .inl hused
    · exact .inr ⟨u, k', huv, hk', hnamed, List.mem_cons_of_mem _ hmem⟩
  · rintro (hused | ⟨u, k', huv, hk', hnamed, hmem⟩)
    · exact .inl (List.mem_cons_of_mem _ hused)
    · rcases List.mem_cons.1 hmem with heq | hmem
      · cases heq
        exact .inl List.mem_cons_self
      · exact .inr ⟨u, k', huv, hk', hnamed, hmem⟩

theorem takenBefore_first {t : String} (hfirst : ∀ e ∈ names, v ≤ e.2) :
    t ∈ used ↔ m.TakenBefore used names v t := by
  refine ⟨.inl, ?_⟩
  rintro (hused | ⟨u, k, huv, -, -, hmem⟩)
  · exact hused
  · exact absurd (hfirst _ hmem) (Nat.not_le_of_lt huv)

/-- Along a list of columns every auxiliary one gets the first name that is free. -/
theorem distinctNames_leastFree {entries : List (Var × Key)}
    (h : m.distinctNames used entries = some names)
    (hkeys : ∀ e ∈ entries, m.key? e.1 = some e.2)
    (hincreasing : entries.Pairwise fun e f => e.1 < f.1) {s : String} {k : Key}
    (hmem : (s, v) ∈ names) (hkey : m.key? v = some k) (hk : k.isNamed = false) :
    ∃ base, m.name? v = some base ∧ LeastFree (m.TakenBefore used names v) base v s := by
  induction entries generalizing used names with
  | nil =>
    cases h
    cases hmem
  | cons e rest ih =>
    obtain ⟨w, l⟩ := e
    rw [List.forall_mem_cons] at hkeys
    obtain ⟨hwkey, hrestkeys⟩ := hkeys
    obtain ⟨hw, hrest⟩ := List.pairwise_cons.1 hincreasing
    -- the columns behind the first one have greater positions
    have hlater : ∀ {tail : List (String × Var)} {used' : List String},
        m.distinctNames used' rest = some tail → ∀ e ∈ tail, w < e.2 := by
      intro tail used' htail e he
      have hcolumn : e.2 ∈ rest.map (·.1) :=
        distinctNames_columns htail ▸ List.mem_map_of_mem he
      obtain ⟨f, hf, heq⟩ := List.mem_map.1 hcolumn
      exact heq ▸ hw f hf
    obtain ⟨t, tail, rfl, htail, rfl⟩ | ⟨base, tail, hl, hbase, htail, rfl⟩ :=
      distinctNames_cons_iff.1 h
    · rcases List.mem_cons.1 hmem with heq | hmem
      · cases heq
        rw [hwkey] at hkey
        cases hkey
        cases hk
      · obtain ⟨base, hbase, hleast⟩ := ih htail hrestkeys hrest hmem
        exact ⟨base, hbase, hleast.congr fun _ => takenBefore_cons_named hwkey⟩
    · rcases List.mem_cons.1 hmem with heq | hmem
      · cases heq
        refine ⟨base, hbase, (freshName_leastFree used base _).congr fun _ => ?_⟩
        refine takenBefore_first (List.forall_mem_cons.2 ⟨Nat.le_refl _, ?_⟩)
        exact fun e he => Nat.le_of_lt (hlater htail e he)
      · obtain ⟨base', hbase', hleast⟩ := ih htail hrestkeys hrest hmem
        exact ⟨base', hbase', hleast.congr fun _ =>
          takenBefore_cons_auxiliary (hlater htail _ hmem) hwkey hl⟩

/-- The name is declared in the pool, or an auxiliary column before `v` has got it. -/
def Taken (m : Model) (integers : Bool) (names : List (String × Var)) (v : Var) (s : String) :
    Prop :=
  (∃ w, m.InPool integers w ∧ m.key? w = some (.named s)) ∨
    ∃ w k, w < v ∧ m.key? w = some k ∧ k.isNamed = false ∧ (s, w) ∈ names

theorem mem_declaredNames_pool_iff {integers : Bool} {s : String} :
    s ∈ declaredNames (m.pool integers) ↔
      ∃ w, m.InPool integers w ∧ m.key? w = some (.named s) := by
  rw [mem_declaredNames_iff]
  refine exists_congr fun w => ⟨?_, ?_⟩
  · intro hw
    exact ⟨mem_places_iff.1 (List.mem_map_of_mem hw), key?_of_mem_pool hw⟩
  · rintro ⟨hpool, hkey⟩
    obtain ⟨⟨w', k⟩, hmem, rfl⟩ := List.mem_map.1 (mem_places_iff.2 hpool)
    rw [key?_of_mem_pool hmem] at hkey
    cases hkey
    exact hmem

/-- The pools of a reachable model are named in full. Every column of the pool comes once, in its
order and under a name of its own; a declared one under the declared name, and an auxiliary one
under the name of its key with the fewest copies of its position that make it free. -/
theorem Reachable.poolNames_exact (h : m.Reachable) (integers : Bool) :
    ∃ names, m.poolNames integers = some names ∧
      (∀ v, v ∈ names.map (·.2) ↔ m.InPool integers v) ∧
      (names.map (·.2)).Pairwise (· < ·) ∧
      (names.map (·.1)).Nodup ∧
      ∀ s v k, (s, v) ∈ names → m.key? v = some k →
        (∀ t, k = .named t → s = t) ∧
        (k.isNamed = false → ∃ base, m.name? v = some base ∧
          LeastFree (m.Taken integers names v) base v s) := by
  obtain ⟨names, hnames, hpool, -⟩ := h.exists_poolNames integers
  refine ⟨names, hnames, hpool.column, hpool.increasing, hpool.distinct, ?_⟩
  intro s v k hmem hkey
  constructor
  · rintro t rfl
    have hin : m.InPool integers v := (hpool.column v).1 (List.mem_map_of_mem hmem)
    have hdeclared := hpool.declared t v hin hkey
    -- the columns are distinct, so the one of `s` is the one of `t`
    have hnodup : (names.map (·.2)).Nodup := hpool.increasing.imp Nat.ne_of_lt
    exact congrArg Prod.fst (List.inj_on_of_nodup_map hnodup hmem hdeclared rfl)
  · intro hk
    obtain ⟨base, hbase, hleast⟩ := distinctNames_leastFree hnames (fun _ => key?_of_mem_pool)
      (m.pool_increasing integers) hmem hkey hk
    exact ⟨base, hbase, hleast.congr fun _ => or_congr_left mem_declaredNames_pool_iff⟩

/-- The name of the conjunction and its first suffixed form are declared, one of them later. -/
def crowded : Model where
  columns := [⟨.named "a", .binary⟩, ⟨.named "b", .binary⟩, ⟨.named "a_and_b_dummy", .binary⟩,
    ⟨.and [0, 1], .binary⟩, ⟨.named "a_and_b_dummy_x_4", .binary⟩]
  rows := []

theorem crowded_reachable : crowded.Reachable :=
  .step (o := .namedBinary "a_and_b_dummy_x_4")
    (.step (o := .binary (.and [0, 1]))
      (.step (o := .namedBinary "a_and_b_dummy")
        (.step (o := .namedBinary "b")
          (.step (o := .namedBinary "a") .empty (by decide) rfl) (by decide) rfl) (by decide) rfl)
      (by decide) rfl)
    (by decide) rfl

theorem crowded_poolNames_exact :
    ∃ names, crowded.poolNames false = some names ∧
      (∀ v, v ∈ names.map (·.2) ↔ crowded.InPool false v) ∧
      (names.map (·.2)).Pairwise (· < ·) ∧
      (names.map (·.1)).Nodup ∧
      ∀ s v k, (s, v) ∈ names → crowded.key? v = some k →
        (∀ t, k = .named t → s = t) ∧
        (k.isNamed = false → ∃ base, crowded.name? v = some base ∧
          LeastFree (crowded.Taken false names v) base v s) :=
  crowded_reachable.poolNames_exact false

end Model
end Linearize
