import Mathlib.Tactic.Choose
import Linearize.Proofs.Names

/-!
# Linearize.Proofs.Descent

Naming ends. A key refers to columns before its own, so the recursion from a column to those of its
key goes down in the list of columns, and it needs no bound on its depth.
-/

namespace Linearize
namespace Model

variable {m : Model}

/-- The name of a column by recursion on keys, without a bound on the depth. A column is named once
all columns of its key are. -/
inductive Named (m : Model) : Var → String → Prop where
  | intro {v : Var} {k : Key} {name : Var → String} {s : String} : m.key? v = some k →
      (∀ u ∈ k.operands, Named m u (name u)) → keyName (fun u => some (name u)) k = some s →
      Named m v s

/-! ## Names of operands -/

section Congr

variable {name name' : Var → Option String}

theorem termsName_congr {terms : List (Var × Int)} (h : ∀ t ∈ terms, name t.1 = name' t.1)
    (acc : String) : termsName name acc terms = termsName name' acc terms := by
  induction terms generalizing acc with
  | nil => rfl
  | cons t terms ih =>
    obtain ⟨ht, hterms⟩ := List.forall_mem_cons.1 h
    simp only [termsName, ht, ih hterms]

theorem exprName_congr {e : Expr} (h : ∀ u ∈ e.vars, name u = name' u) :
    exprName name e = exprName name' e := by
  rw [exprName, exprName, termsName_congr fun t ht => h t.1 (List.mem_map_of_mem ht)]

theorem joinNames_congr (vs : List Var) (h : ∀ u ∈ vs, name u = name' u) (separator : String) :
    joinNames name separator vs = joinNames name' separator vs := by
  have hnames : vs.mapM name = vs.mapM name' := by
    induction vs with
    | nil => rfl
    | cons v vs ih =>
      obtain ⟨hv, hvs⟩ := List.forall_mem_cons.1 h
      rw [List.mapM_cons, List.mapM_cons, hv, ih hvs]
  rw [joinNames, joinNames, hnames]

theorem keyName_congr {k : Key} (h : ∀ u ∈ k.operands, name u = name' u) :
    keyName name k = keyName name' k := by
  cases k with
  | named s => rfl
  | less a b =>
    rw [keyName, keyName, exprName_congr fun u hu => h u (List.mem_append_left _ hu),
      exprName_congr fun u hu => h u (List.mem_append_right _ hu)]
  | and vs => rw [keyName, keyName, joinNames_congr vs h]
  | or vs => rw [keyName, keyName, joinNames_congr vs h]
  | selector vs i => rw [keyName, keyName, joinNames_congr vs h]

end Congr

theorem Named.unique {v : Var} {s t : String} (hs : m.Named v s) (ht : m.Named v t) : s = t := by
  induction hs generalizing t with
  | intro hkey _ hname ih =>
    cases ht with
    | intro hkey' hops' hname' =>
      rw [hkey] at hkey'
      cases hkey'
      rw [keyName_congr fun u hu => congrArg some (ih u hu (hops' u hu)), hname'] at hname
      exact (Option.some.inj hname).symm

/-! ## Names of columns -/

/-- By induction on the place of the column. -/
theorem Acyclic.named (hm : m.Acyclic) {v : Var} (hv : v < m.size) :
    ∃ s, m.Named v s ∧ ∀ depth, v < depth → m.nameWithin depth v = some s := by
  induction v using Nat.strong_induction_on with
  | _ v ih =>
    obtain ⟨c, hc⟩ := exists_column hv
    have hkey : m.key? v = some c.key := key?_eq_some_iff.2 ⟨c, hc, rfl⟩
    have hops : ∀ u ∈ c.key.operands, ∃ s, m.Named u s ∧
        ∀ depth, u < depth → m.nameWithin depth u = some s := fun u hu =>
      ih u (hm v c hc u hu) ((hm v c hc u hu).trans hv)
    choose! name hname using hops
    obtain ⟨s, hs⟩ : ∃ s, keyName (fun u => some (name u)) c.key = some s :=
      exists_keyName fun u _ => ⟨name u, rfl⟩
    refine ⟨s, .intro hkey (fun u hu => (hname u hu).1) hs, fun depth hdepth => ?_⟩
    obtain ⟨d, rfl⟩ := Nat.exists_eq_succ_of_ne_zero (Nat.ne_zero_of_lt hdepth)
    simp only [nameWithin, hkey]
    rw [keyName_congr fun u hu => (hname u hu).2 d ?_, hs]
    exact Nat.lt_of_lt_of_le (hm v c hc u hu) (Nat.le_of_lt_succ hdepth)

/-- Keys refer to earlier columns, and naming ends on every column of a reachable model, with one
name, which is found to any depth that exceeds the place of the column. -/
theorem Reachable.naming_ends (h : m.Reachable) :
    (∀ v k, m.key? v = some k → ∀ u ∈ k.operands, u < v) ∧
      ∀ v, v < m.size → ∃ s, m.name? v = some s ∧ (∀ t, m.Named v t ↔ t = s) ∧
        ∀ depth, v < depth → m.nameWithin depth v = some s := by
  have hm := h.acyclic
  constructor
  · intro v k hk
    obtain ⟨c, hc, rfl⟩ := key?_eq_some_iff.1 hk
    exact hm v c hc
  · intro v hv
    obtain ⟨s, hs, hdepth⟩ := hm.named hv
    refine ⟨s, hdepth m.size hv, fun t => ⟨fun ht => ht.unique hs, ?_⟩, hdepth⟩
    rintro rfl
    exact hs

/-- The indicator of an equality, over those of its two comparisons, is a condition of a chain. -/
def nestedKeys : Model where
  columns := [⟨.named "x", .integer (some 0) (some 9)⟩, ⟨.named "y", .integer (some 0) (some 9)⟩,
    ⟨.less (.ofVar 0) ⟨[(1, 1)], 1⟩, .binary⟩, ⟨.less (.ofVar 1) ⟨[(0, 1)], 1⟩, .binary⟩,
    ⟨.and [2, 3], .binary⟩, ⟨.selector [4, 2] 0, .binary⟩, ⟨.selector [4, 2] 1, .binary⟩]
  rows := []

theorem nestedKeys_reachable : nestedKeys.Reachable :=
  .step (m := ⟨nestedKeys.columns.take 5, []⟩) (o := .request (.chain [4, 2] [[], []] [] 5))
    (.step (m := ⟨nestedKeys.columns.take 2, []⟩)
      (o := .request (.compare .eq (.ofVar 0) (.ofVar 1) 10))
      (.step (o := .namedInteger "y" 0 9)
        (.step (o := .namedInteger "x" 0 9) .empty (by decide) rfl) (by decide) rfl)
      (by decide) (by decide +kernel)) (by decide) (by decide +kernel)

theorem nestedKeys_naming_ends : (∀ u ∈ [4, 2], u < 6) ∧
    nestedKeys.Named 6
      "x_less_y+1_dummy_and_y_less_x+1_dummy_dummy_and_x_less_y+1_dummy_dummy_1" := by
  obtain ⟨hkeys, hnames⟩ := nestedKeys_reachable.naming_ends
  refine ⟨hkeys 6 (.selector [4, 2] 1) rfl, ?_⟩
  obtain ⟨s, hs, hnamed, -⟩ := hnames 6 (by decide)
  have hname : nestedKeys.name? 6 =
      some "x_less_y+1_dummy_and_y_less_x+1_dummy_dummy_and_x_less_y+1_dummy_dummy_1" := by
    decide +kernel
  rw [hname] at hs
  exact (hnamed _).2 (Option.some.inj hs)

end Model
end Linearize
