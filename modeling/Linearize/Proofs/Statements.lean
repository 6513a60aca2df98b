import Linearize.Proofs.Differences
import Linearize.Proofs.Guards
import Linearize.Proofs.Scoping

/-!
# Linearize.Proofs.Statements

The rows of one statement, whatever its kind. They let through only points at which the statement
holds and its indicators have the truth values of their keys; if the big-M is great enough they let
all of these through.
-/

namespace Linearize
namespace Statement

variable {m m' : Model} {x : Statement} {rows : List Constraint} {bigM : Int} {σ : Var → Int}

/-- The places of a statement are columns of the model, binary ones where it reads truth values. -/
structure Placed (m : Model) (x : Statement) : Prop where
  truths : ∀ v ∈ x.truths, m.kind? v = some .binary
  compared : ∀ e ∈ x.compared, e.WellFormed ∧ ∀ v ∈ e.vars, v < m.size

theorem Placed.isBit (hx : x.Placed m) (hp : m.IsPoint σ) {v : Var} (hv : v ∈ x.truths) :
    IsBit (σ v) := hp v (hx.truths v hv)

theorem Placed.truth_lt (hx : x.Placed m) {v : Var} (hv : v ∈ x.truths) : v < m.size := by
  obtain ⟨c, hc, -⟩ := Model.kind?_eq_some_iff.1 (hx.truths v hv)
  exact Model.lt_size_of_column hc

theorem indicated_eq_ok_iff {e : Option Encoded} :
    indicated e = .ok (m', rows) ↔ ∃ r, e = some r ∧ r.model = m' ∧ r.rows = rows := by
  rw [indicated, orOverflow_eq_ok_iff, Option.map_eq_some_iff]
  simp only [Prod.mk.injEq]

theorem withModel_eq_ok_iff {cs : Option (List Constraint)} :
    withModel m cs = .ok (m', rows) ↔ cs = some rows ∧ m' = m := by
  rw [withModel, orOverflow_eq_ok_iff, Option.map_eq_some_iff]
  constructor
  · rintro ⟨rows', h, heq⟩
    cases heq
    exact ⟨h, rfl⟩
  · rintro ⟨h, rfl⟩
    exact ⟨rows, h, rfl⟩

theorem leavesModel_eq_ok_iff {cs : Except EncodeError (List Constraint)} :
    leavesModel m cs = .ok (m', rows) ↔ cs = .ok rows ∧ m' = m := by
  cases cs with
  | error e => simp [leavesModel]
  | ok rows' =>
    simp only [leavesModel, Except.ok.injEq, Prod.mk.injEq]
    exact ⟨fun ⟨h, h'⟩ => ⟨h', h.symm⟩, fun ⟨h, h'⟩ => ⟨h'.symm, h⟩⟩

/-- A statement asks for indicators and does nothing else to the columns. -/
theorem encode_asks (h : x.encode m bigM = .ok (m', rows)) (hx : x.Placed m) : m.Asks m' := by
  cases x with
  | compare op a b M =>
    obtain ⟨e, he, rfl, -⟩ := indicated_eq_ok_iff.1 h
    obtain ⟨ha, hva⟩ := hx.compared a (by simp [compared])
    obtain ⟨hb, hvb⟩ := hx.compared b (by simp [compared])
    exact Model.compare_asks he ha hb (List.forall_mem_append.2 ⟨hva, hvb⟩)
  | conjunction vs =>
    obtain ⟨e, he, rfl, -⟩ := indicated_eq_ok_iff.1 h
    exact Model.conjunction_asks he fun v hv => hx.truth_lt hv
  | disjunction vs =>
    obtain ⟨e, he, rfl, -⟩ := indicated_eq_ok_iff.1 h
    exact Model.disjunction_asks he fun v hv => hx.truth_lt hv
  | xor inputs output =>
    obtain ⟨-, rfl⟩ := leavesModel_eq_ok_iff.1 h
    exact .refl _
  | truncatedXor vs =>
    obtain ⟨-, rfl⟩ := leavesModel_eq_ok_iff.1 h
    exact .refl _
  | truncatedWordXor vs =>
    obtain ⟨-, rfl⟩ := leavesModel_eq_ok_iff.1 h
    exact .refl _
  | linear row =>
    cases h
    exact .refl _
  | ifThen cond body M =>
    obtain ⟨-, rfl⟩ := withModel_eq_ok_iff.1 h
    exact .refl _
  | ifThenElse cond body otherwise M =>
    obtain ⟨-, rfl⟩ := withModel_eq_ok_iff.1 h
    exact .refl _
  | chain conds bodies otherwise M => exact Model.chain_asks h fun v hv => hx.truth_lt hv

theorem split3_forall {P : Var → Prop} {vs : List Var} (width : Nat) (hvs : ∀ v ∈ vs, P v) :
    ∀ v ∈ (split3 width vs).1 ++ (split3 width vs).2.1 ++ (split3 width vs).2.2, P v := by
  intro v hv
  refine hvs v ?_
  rcases List.mem_append.1 hv with hv | hv
  · rcases List.mem_append.1 hv with hv | hv
    · exact List.mem_of_mem_take hv
    · exact List.mem_of_mem_drop (List.mem_of_mem_take hv)
  · exact List.mem_of_mem_drop hv

/-- The rows of a statement let no wrong point through, whatever its big-M. -/
theorem encode_sound (h : x.encode m bigM = .ok (m', rows)) (hx : x.Placed m)
    (hp : m'.IsPoint σ) (hf : m.Faithful σ) (hr : AllHold σ rows) :
    m'.Faithful σ ∧ x.Holds σ := by
  have hm : m.IsPoint σ := (encode_asks h hx).grows.isPoint hp
  have hbits : ∀ v ∈ x.truths, IsBit (σ v) := fun v hv => hx.isBit hm hv
  cases x with
  | compare op a b M =>
    obtain ⟨e, he, rfl, rfl⟩ := indicated_eq_ok_iff.1 h
    exact ⟨Model.compare_fixes he σ hp hf hr, trivial⟩
  | conjunction vs =>
    obtain ⟨e, he, rfl, rfl⟩ := indicated_eq_ok_iff.1 h
    exact ⟨Model.conjunction_fixes he hx.truths σ hp hf hr, trivial⟩
  | disjunction vs =>
    obtain ⟨e, he, rfl, rfl⟩ := indicated_eq_ok_iff.1 h
    exact ⟨Model.disjunction_fixes he hx.truths σ hp hf hr, trivial⟩
  | xor inputs output =>
    obtain ⟨hrows, rfl⟩ := leavesModel_eq_ok_iff.1 h
    rw [truths, List.forall_mem_append, List.forall_mem_singleton] at hbits
    exact ⟨hf, (exclusiveOrRows_hold hrows hbits.1 hbits.2).1 hr⟩
  | truncatedXor vs =>
    obtain ⟨hrows, rfl⟩ := leavesModel_eq_ok_iff.1 h
    exact ⟨hf, (truncatedRows_hold hrows (split3_forall bitWidth hbits)).1 hr⟩
  | truncatedWordXor vs =>
    obtain ⟨hrows, rfl⟩ := leavesModel_eq_ok_iff.1 h
    exact ⟨hf, (truncatedWordRows_hold hrows (split3_forall wordWidth hbits)).1 hr⟩
  | linear row =>
    cases h
    exact ⟨hf, hr row List.mem_cons_self⟩
  | ifThen cond body M =>
    obtain ⟨hrows, rfl⟩ := withModel_eq_ok_iff.1 h
    exact ⟨hf, ((ifThen_hold_iff hrows (hbits cond List.mem_cons_self)).1 hr).1⟩
  | ifThenElse cond body otherwise M =>
    obtain ⟨hrows, rfl⟩ := withModel_eq_ok_iff.1 h
    exact ⟨hf, ((ifThenElse_hold hrows (hbits cond List.mem_cons_self)).1 hr).1⟩
  | chain conds bodies otherwise M =>
    obtain ⟨hf', hguard⟩ := (Model.chain_hold_iff h hp hbits hf).1 hr
    exact ⟨hf', hguard.1⟩

/-- The rows of a statement let every right point through that its big-M is adequate for. -/
theorem encode_complete (h : x.encode m bigM = .ok (m', rows)) (hx : x.Placed m)
    (hp : m'.IsPoint σ) (hf : m'.Faithful σ) (hs : x.Holds σ) (ha : x.Adequate bigM σ) :
    AllHold σ rows := by
  have hg : m.Grows m' := (encode_asks h hx).grows
  have hbits : ∀ v ∈ x.truths, IsBit (σ v) := fun v hv => hx.isBit (hg.isPoint hp) hv
  cases x with
  | compare op a b M =>
    obtain ⟨e, he, rfl, rfl⟩ := indicated_eq_ok_iff.1 h
    exact Model.compare_complete he hp hf ha.1 ha.2
  | conjunction vs =>
    obtain ⟨e, he, rfl, rfl⟩ := indicated_eq_ok_iff.1 h
    exact (Model.conjunction_hold_iff he hbits hp).2 ((Model.indicate_faithful_iff he rfl).1 hf).2
  | disjunction vs =>
    obtain ⟨e, he, rfl, rfl⟩ := indicated_eq_ok_iff.1 h
    exact (Model.disjunction_hold_iff he hbits hp).2 ((Model.indicate_faithful_iff he rfl).1 hf).2
  | xor inputs output =>
    obtain ⟨hrows, rfl⟩ := leavesModel_eq_ok_iff.1 h
    rw [truths, List.forall_mem_append, List.forall_mem_singleton] at hbits
    exact (exclusiveOrRows_hold hrows hbits.1 hbits.2).2 hs
  | truncatedXor vs =>
    obtain ⟨hrows, rfl⟩ := leavesModel_eq_ok_iff.1 h
    exact (truncatedRows_hold hrows (split3_forall bitWidth hbits)).2 hs
  | truncatedWordXor vs =>
    obtain ⟨hrows, rfl⟩ := leavesModel_eq_ok_iff.1 h
    exact (truncatedWordRows_hold hrows (split3_forall wordWidth hbits)).2 hs
  | linear row =>
    cases h
    exact List.forall_mem_singleton.2 hs
  | ifThen cond body M =>
    obtain ⟨hrows, rfl⟩ := withModel_eq_ok_iff.1 h
    exact (ifThen_hold_iff hrows (hbits cond List.mem_cons_self)).2 ⟨hs, ha⟩
  | ifThenElse cond body otherwise M =>
    obtain ⟨hrows, rfl⟩ := withModel_eq_ok_iff.1 h
    exact (ifThenElse_hold hrows (hbits cond List.mem_cons_self)).2 ⟨hs, ha⟩
  | chain conds bodies otherwise M =>
    exact (Model.chain_hold_iff h hp hbits (hg.faithful hf)).2 ⟨hf, hs, ha⟩

end Statement
end Linearize
