import Linearize.Regex.Backtrack
import Linearize.Regex.Search

/-!
# Linearize.Proofs.Outcomes

What a thread comes to from a place of a program, if it tries its ways one after another. That
depends on the place of the text, but not on the thread.
-/

namespace Linearize
namespace Program

open Regex Regex.Trial

/-- What a thread comes to from a place of the program on. The first number bounds the instructions
that it runs through before it reads. -/
inductive Yields (p : Program) : Nat → Nat → Cursor → Option Ending → Prop where
  | stuck {q : Nat} {c : Cursor} : p.instr? q = none → Yields p 0 q c none
  | accept {q : Nat} {c : Cursor} : p.instr? q = some .accept → Yields p 0 q c (done c)
  | read {n q next : Nat} {s : CharSet} {x : Char} {c d : Cursor} {r : Option Ending} :
      p.instr? q = some (.one s next) → c.next? = some (x, d) → s.contains x = true →
      Yields p n next d r → Yields p 0 q c r
  | blocked {q next : Nat} {s : CharSet} {c : Cursor} : p.instr? q = some (.one s next) →
      (∀ x d, c.next? = some (x, d) → s.contains x = false) → Yields p 0 q c none
  | pass {n q next : Nat} {a : Anchor} {c : Cursor} {r : Option Ending} :
      p.instr? q = some (.anchor a next) → c.isAt a = true → Yields p n next c r →
      Yields p (n + 1) q c r
  | refuse {q next : Nat} {a : Anchor} {c : Cursor} : p.instr? q = some (.anchor a next) →
      c.isAt a = false → Yields p 0 q c none
  | mark {n q slot next : Nat} {c : Cursor} {r : Option Ending} :
      p.instr? q = some (.mark slot next) → Yields p n next c r →
      Yields p (n + 1) q c (record slot c r)
  | fork {n m q first second : Nat} {c : Cursor} {r r' : Option Ending} :
      p.instr? q = some (.fork first second) → Yields p n first c r → Yields p m second c r' →
      Yields p (max n m + 1) q c (r.or r')
  | jump {n q next : Nat} {c : Cursor} {r : Option Ending} : p.instr? q = some (.jump next) →
      Yields p n next c r → Yields p (n + 1) q c r

variable {p : Program} {n q : Nat} {c : Cursor} {r : Option Ending}

theorem Yields.unique (h : p.Yields n q c r) {n' : Nat} {r' : Option Ending}
    (h' : p.Yields n' q c r') : n = n' ∧ r = r' := by
  induction h generalizing n' r' with
  | stuck hi => cases h' <;> simp_all
  | accept hi => cases h' <;> simp_all
  | read hi hnext hs _ ih =>
    cases h' with
    | read hi' hnext' hs' h' =>
      rw [hi] at hi'
      rw [hnext] at hnext'
      cases hi'
      cases hnext'
      exact ⟨rfl, (ih h').2⟩
    | blocked hi' hblocked =>
      rw [hi] at hi'
      cases hi'
      rw [hblocked _ _ hnext] at hs
      cases hs
    | _ => simp_all
  | blocked hi hblocked =>
    cases h' with
    | read hi' hnext' hs' h' =>
      rw [hi] at hi'
      cases hi'
      rw [hblocked _ _ hnext'] at hs'
      cases hs'
    | blocked => exact ⟨rfl, rfl⟩
    | _ => simp_all
  | pass hi hat _ ih =>
    cases h' with
    | pass hi' hat' h' =>
      rw [hi] at hi'
      cases hi'
      obtain ⟨rfl, rfl⟩ := ih h'
      exact ⟨rfl, rfl⟩
    | _ => simp_all
  | refuse hi hat => cases h' <;> simp_all
  | mark hi _ ih =>
    cases h' with
    | mark hi' h' =>
      rw [hi] at hi'
      cases hi'
      obtain ⟨rfl, rfl⟩ := ih h'
      exact ⟨rfl, rfl⟩
    | _ => simp_all
  | fork hi _ _ iha ihb =>
    cases h' with
    | fork hi' ha hb =>
      rw [hi] at hi'
      cases hi'
      obtain ⟨rfl, rfl⟩ := iha ha
      obtain ⟨rfl, rfl⟩ := ihb hb
      exact ⟨rfl, rfl⟩
    | _ => simp_all
  | jump hi _ ih =>
    cases h' with
    | jump hi' h' =>
      rw [hi] at hi'
      cases hi'
      obtain ⟨rfl, rfl⟩ := ih h'
      exact ⟨rfl, rfl⟩
    | _ => simp_all

/-! ## Outcomes -/

def ComesTo (p : Program) (q : Nat) (c : Cursor) (r : Option Ending) : Prop :=
  ∃ n, p.Yields n q c r

def Decides (p : Program) (q : Nat) (c : Cursor) : Prop := ∃ r, p.ComesTo q c r

open Classical in
noncomputable def outcome (p : Program) (q : Nat) (c : Cursor) : Option Ending :=
  if h : p.Decides q c then h.choose else none

open Classical in
/-- How many instructions a thread runs through at most before it reads. -/
noncomputable def rank (p : Program) (q : Nat) (c : Cursor) : Nat :=
  if h : ∃ n r, p.Yields n q c r then h.choose else 0

theorem Yields.outcome_eq (h : p.Yields n q c r) : p.outcome q c = r := by
  have hex : p.Decides q c := ⟨r, n, h⟩
  obtain ⟨m, hm⟩ := hex.choose_spec
  rw [outcome, dif_pos hex]
  exact (hm.unique h).2

theorem Yields.rank_eq (h : p.Yields n q c r) : p.rank q c = n := by
  have hex : ∃ n r, p.Yields n q c r := ⟨n, r, h⟩
  obtain ⟨r', hr'⟩ := hex.choose_spec
  rw [rank, dif_pos hex]
  exact (hr'.unique h).1

/-- The match that a thread comes to. -/
noncomputable def result (p : Program) (c : Cursor) (t : Thread) : Option Match :=
  (p.outcome t.place c).map fun e => ⟨t.start, e.1, e.2 ++ t.captures⟩

noncomputable def firstResult (p : Program) (c : Cursor) (ts : List Thread) : Option Match :=
  ts.findSome? (p.result c)

theorem isSome_result_iff {t : Thread} :
    (p.result c t).isSome ↔ (p.outcome t.place c).isSome := by
  rw [result, Option.isSome_map]

theorem firstResult_append (ts us : List Thread) :
    p.firstResult c (ts ++ us) = (p.firstResult c ts).or (p.firstResult c us) :=
  List.findSome?_append

theorem firstResult_cons (t : Thread) (ts : List Thread) :
    p.firstResult c (t :: ts) = (p.result c t).or (p.firstResult c ts) := by
  rw [firstResult, List.findSome?_cons]
  cases p.result c t <;> rfl

theorem firstResult_singleton (t : Thread) : p.firstResult c [t] = p.result c t := by
  rw [firstResult_cons, firstResult, List.findSome?_nil, Option.or_none]

theorem becomes_one {t u : Thread} {n' : Nat} {r' : Option Ending} (h : p.Yields n t.place c r)
    (h' : p.Yields n' u.place c r') (hlt : n' < n) (hresult : p.result c t = p.result c u) :
    p.result c t = p.firstResult c [u] ∧
      ∀ v ∈ [u], p.Decides v.place c ∧ p.rank v.place c < p.rank t.place c := by
  rw [firstResult_singleton, List.forall_mem_singleton, h.rank_eq, h'.rank_eq]
  exact ⟨hresult, ⟨r', n', h'⟩, hlt⟩

/-- An instruction that reads nothing leaves a thread with what the threads come to that it
becomes, each of which is nearer to its next reading. -/
theorem expand_result {t : Thread} {i : Instr} (ht : p.Decides t.place c)
    (hi : p.instr? t.place = some i) (haccept : i ≠ .accept) (hread : ∀ s next, i ≠ .one s next) :
    p.result c t = p.firstResult c (expand c t i) ∧
      ∀ u ∈ expand c t i, p.Decides u.place c ∧ p.rank u.place c < p.rank t.place c := by
  obtain ⟨r, n, h⟩ := ht
  have h := h
  cases h with
  | stuck hi' =>
    rw [hi] at hi'
    cases hi'
  | accept hi' =>
    rw [hi] at hi'
    cases hi'
    exact absurd rfl haccept
  | read hi' | blocked hi' =>
    rw [hi] at hi'
    cases hi'
    exact absurd rfl (hread _ _)
  | pass hi' hat h' =>
    rw [hi] at hi'
    cases hi'
    rw [expand, if_pos hat]
    refine becomes_one h h' (Nat.lt_succ_self _) ?_
    rw [result, result, h.outcome_eq, ← h'.outcome_eq]
    rfl
  | refuse hi' hat =>
    rw [hi] at hi'
    cases hi'
    rw [expand, if_neg (by simp [hat]), result, h.outcome_eq]
    exact ⟨rfl, List.forall_mem_nil _⟩
  | mark hi' h' =>
    rw [hi] at hi'
    cases hi'
    refine becomes_one h h' (Nat.lt_succ_self _) ?_
    rw [result, result, h.outcome_eq, h'.outcome_eq, record, Option.map_map]
    simp only [Function.comp_def, List.append_assoc, List.singleton_append]
  | fork hi' ha hb =>
    rw [hi] at hi'
    cases hi'
    rw [expand, firstResult_cons, firstResult_singleton, List.forall_mem_cons,
      List.forall_mem_singleton, h.rank_eq]
    refine ⟨?_, ⟨⟨_, _, ha⟩, ?_⟩, ⟨_, _, hb⟩, ?_⟩
    · rw [result, result, result, h.outcome_eq, Option.map_or, ← ha.outcome_eq, ← hb.outcome_eq]
      rfl
    · exact Nat.lt_of_le_of_lt (Nat.le_of_eq ha.rank_eq) (Nat.lt_succ_of_le (Nat.le_max_left _ _))
    · exact Nat.lt_of_le_of_lt (Nat.le_of_eq hb.rank_eq) (Nat.lt_succ_of_le (Nat.le_max_right _ _))
  | jump hi' h' =>
    rw [hi] at hi'
    cases hi'
    refine becomes_one h h' (Nat.lt_succ_self _) ?_
    rw [result, result, h.outcome_eq, ← h'.outcome_eq]
    rfl

/-- A thread that waits comes to what it comes to behind the character, if it may move over it. -/
theorem advance_result {t : Thread} {s : CharSet} {next : Nat} {x : Char} {d : Cursor}
    (ht : p.Decides t.place c) (hi : p.instr? t.place = some (.one s next))
    (hnext : c.next? = some (x, d)) :
    p.result c t = (p.advance? x t).bind (p.result d) ∧
      ∀ u ∈ p.advance? x t, p.Decides u.place d := by
  obtain ⟨r, n, h⟩ := ht
  have h := h
  cases h with
  | read hi' hnext' hs h' =>
    rw [hi] at hi'
    rw [hnext] at hnext'
    cases hi'
    cases hnext'
    rw [advance?, hi]
    simp only [hs, if_true, Option.bind_some, Option.mem_some_iff, forall_eq']
    refine ⟨?_, _, _, h'⟩
    rw [result, result, h.outcome_eq, ← h'.outcome_eq]
    rfl
  | blocked hi' hblocked =>
    rw [hi] at hi'
    cases hi'
    rw [advance?, hi]
    simp only [hblocked x d hnext, Bool.false_eq_true, if_false, Option.bind_none]
    refine ⟨?_, nofun⟩
    rw [result, h.outcome_eq]
    rfl
  | _ => simp_all

theorem result_of_end {t : Thread} {s : CharSet} {next : Nat} (ht : p.Decides t.place c)
    (hi : p.instr? t.place = some (.one s next)) (hnext : c.next? = none) :
    p.result c t = none := by
  obtain ⟨r, n, h⟩ := ht
  have h := h
  cases h with
  | blocked =>
    rw [result, h.outcome_eq]
    rfl
  | _ => simp_all

theorem result_of_accept {t : Thread} (ht : p.Decides t.place c)
    (hi : p.instr? t.place = some .accept) :
    p.result c t = some ⟨t.start, c, t.captures⟩ := by
  obtain ⟨r, n, h⟩ := ht
  have h := h
  cases h with
  | accept =>
    rw [result, h.outcome_eq]
    rfl
  | _ => simp_all

theorem result_of_stuck {t : Thread} (ht : p.Decides t.place c) (hi : p.instr? t.place = none) :
    p.result c t = none := by
  obtain ⟨r, n, h⟩ := ht
  have h := h
  cases h with
  | stuck =>
    rw [result, h.outcome_eq]
    rfl
  | _ => simp_all

end Program
end Linearize
