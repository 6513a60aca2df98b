import Linearize.Proofs.Greedy
import Linearize.Proofs.Programs
import Linearize.Regex.Meaning

/-!
# Linearize.Proofs.Occurrences

A search finds a match iff there is a part of the text that the expression can read. Trying one way
after another misses none: it succeeds iff some reading leads to a place where what follows
succeeds.
-/

namespace Linearize
namespace Regex

open Trial

variable {R S : Reading} {f g : Trial → Trial} {k : Trial} {before xs ys zs : List Char} {n : Nat}

/-! ## Readings -/

namespace Reading

theorem nothing_andThen (R : Reading) : nothing.andThen R = R := by
  funext before xs ys
  simp [andThen, nothing]

theorem andThen_assoc (R S T : Reading) : (R.andThen S).andThen T = R.andThen (S.andThen T) := by
  funext before xs ys
  simp only [andThen, eq_iff_iff]
  constructor
  · rintro ⟨_, ws, rfl, ⟨us, vs, rfl, hR, hS⟩, hT⟩
    exact ⟨us, vs ++ ws, by simp, by simpa using hR, vs, ws, rfl, hS, by simpa using hT⟩
  · rintro ⟨us, _, rfl, hR, vs, ws, rfl, hS, hT⟩
    exact ⟨us ++ vs, ws, by simp, ⟨us, vs, rfl, by simpa using hR, hS⟩, by simpa using hT⟩

theorem rounds_add (R : Reading) (m n : Nat) :
    (R.rounds m).andThen (R.rounds n) = R.rounds (m + n) := by
  induction m with
  | zero => rw [Nat.zero_add, rounds, nothing_andThen]
  | succ m ih => rw [rounds, andThen_assoc, ih, Nat.add_right_comm, rounds]

theorem rounds_andThen_exists (R : Reading) (low : Nat) (P : Nat → Prop) :
    ((R.rounds low).andThen fun before xs ys => ∃ i, P i ∧ R.rounds i before xs ys) =
      fun before xs ys => ∃ i, P i ∧ R.rounds (low + i) before xs ys := by
  funext before xs ys
  simp only [← rounds_add, andThen, eq_iff_iff]
  constructor
  · rintro ⟨us, vs, rfl, hlow, i, hi, hmore⟩
    exact ⟨i, hi, us, vs, rfl, hlow, hmore⟩
  · rintro ⟨i, hi, us, vs, rfl, hlow, hmore⟩
    exact ⟨us, vs, rfl, hlow, i, hi, hmore⟩

end Reading

theorem Reads.ne_nil {r : Regex} (hr : r.consumes = true) (h : r.Reads before xs ys) : xs ≠ [] := by
  induction r generalizing before xs ys with
  | empty => cases hr
  | anchor a => cases hr
  | text cs =>
    cases h
    simpa [consumes] using hr
  | one s =>
    obtain ⟨x, rfl, -⟩ := h
    exact List.cons_ne_nil x []
  | seq a b iha ihb =>
    obtain ⟨us, vs, rfl, ha, hb⟩ := h
    rw [consumes, Bool.or_eq_true] at hr
    rcases hr with hr | hr
    · exact List.append_ne_nil_of_left_ne_nil (iha hr ha) vs
    · exact List.append_ne_nil_of_right_ne_nil us (ihb hr hb)
  | alt a b iha ihb =>
    rw [consumes, Bool.and_eq_true] at hr
    rcases h with h | h
    · exact iha hr.1 h
    · exact ihb hr.2 h
  | times greedy low high r ih =>
    obtain ⟨n, hlow, -, h⟩ := h
    rw [consumes, Bool.and_eq_true, decide_eq_true_eq] at hr
    obtain ⟨n, rfl⟩ := Nat.exists_eq_succ_of_ne_zero (Nat.ne_zero_of_lt (hr.1.trans_le hlow))
    obtain ⟨us, vs, rfl, h, -⟩ := h
    exact List.append_ne_nil_of_left_ne_nil (ih hr.2 h) vs
  | group i r ih => exact ih hr h

theorem reads_loop (greedy : Bool) (low : Nat) (r : Regex) :
    (times greedy low none r).Reads =
      (r.Reads.rounds low).andThen fun before xs ys => ∃ i, r.Reads.rounds i before xs ys := by
  have hsplit := Reading.rounds_andThen_exists r.Reads low fun _ => True
  simp only [true_and] at hsplit
  rw [hsplit]
  funext before xs ys
  simp only [Reads, Option.mem_def, reduceCtorEq, false_implies, implies_true, true_and, eq_iff_iff]
  constructor
  · rintro ⟨n, hlow, h⟩
    exact ⟨n - low, by rwa [Nat.add_sub_cancel' hlow]⟩
  · rintro ⟨i, h⟩
    exact ⟨low + i, Nat.le_add_right low i, h⟩

theorem reads_times (greedy : Bool) (low high : Nat) (r : Regex) :
    (times greedy low (some high) r).Reads =
      (r.Reads.rounds low).andThen fun before xs ys =>
        ∃ i ≤ high - low, r.Reads.rounds i before xs ys := by
  rw [Reading.rounds_andThen_exists]
  funext before xs ys
  simp only [Reads, Option.mem_def, Option.some.injEq, forall_eq', eq_iff_iff]
  constructor
  · rintro ⟨n, hlow, hhigh, h⟩
    exact ⟨n - low, by omega, by rwa [Nat.add_sub_cancel' hlow]⟩
  · rintro ⟨i, hi, h⟩
    exact ⟨low + i, Nat.le_add_right low i, by omega, h⟩

/-! ## Trials -/

/-- Trying the ways of `f` succeeds iff what follows it succeeds behind something that `R` reads. -/
def Explores (f : Trial → Trial) (R : Reading) : Prop :=
  ∀ (k : Trial) (before zs : List Char), (f k (.between before zs)).isSome ↔
    ∃ xs ys, zs = xs ++ ys ∧ R before xs ys ∧ (k (.between (before ++ xs) ys)).isSome

theorem explores_nothing : Explores id .nothing := by
  intro k before zs
  simp [Reading.nothing]

theorem Explores.andThen (hf : Explores f R) (hg : Explores g S) :
    Explores (fun k => f (g k)) (R.andThen S) := by
  intro k before zs
  rw [hf]
  constructor
  · rintro ⟨us, ws, rfl, hR, h⟩
    obtain ⟨vs, ys, rfl, hS, hk⟩ := (hg _ _ _).1 h
    refine ⟨us ++ vs, ys, by simp, ⟨us, vs, rfl, hR, hS⟩, ?_⟩
    rwa [← List.append_assoc]
  · rintro ⟨_, ys, rfl, ⟨us, vs, rfl, hR, hS⟩, hk⟩
    refine ⟨us, vs ++ ys, by simp, hR, (hg _ _ _).2 ⟨vs, ys, rfl, hS, ?_⟩⟩
    rwa [List.append_assoc]

theorem Explores.rounds (hf : Explores f R) (n : Nat) : Explores (rounds f n) (R.rounds n) := by
  induction n with
  | zero => exact explores_nothing
  | succ n ih => exact hf.andThen ih

theorem isSome_pick (greedy : Bool) (body exit : Option Ending) :
    (pick greedy body exit).isSome ↔ body.isSome ∨ exit.isSome := by
  cases greedy with
  | true => rw [pick, if_pos rfl, Option.isSome_or, Bool.or_eq_true]
  | false => rw [pick, if_neg Bool.false_ne_true, Option.isSome_or, Bool.or_eq_true, or_comm]

theorem Explores.roundsAtMost (hf : Explores f R) (greedy : Bool) (n : Nat) :
    Explores (roundsAtMost greedy f n) fun before xs ys => ∃ i ≤ n, R.rounds i before xs ys := by
  induction n with
  | zero =>
    intro k before zs
    have hzero : ∀ xs ys : List Char,
        (∃ i ≤ 0, R.rounds i before xs ys) ↔ Reading.nothing before xs ys := by
      simp [Reading.rounds]
    simp only [hzero]
    exact explores_nothing k before zs
  | succ n ih =>
    intro k before zs
    change (pick greedy _ (k _)).isSome ↔ _
    rw [isSome_pick, (hf.andThen ih) k]
    constructor
    · rintro (⟨xs, ys, rfl, ⟨us, vs, rfl, hR, i, hi, hrounds⟩, hk⟩ | hk)
      · exact ⟨us ++ vs, ys, rfl, ⟨i + 1, Nat.succ_le_succ hi, us, vs, rfl, hR, hrounds⟩, hk⟩
      · exact ⟨[], zs, rfl, ⟨0, Nat.zero_le _, rfl⟩, by rwa [List.append_nil]⟩
    · rintro ⟨xs, ys, rfl, ⟨i, hi, hrounds⟩, hk⟩
      cases i with
      | zero =>
        cases hrounds
        rw [List.append_nil] at hk
        exact .inr hk
      | succ i =>
        obtain ⟨us, vs, rfl, hR, hrounds⟩ := hrounds
        exact .inl ⟨us ++ vs, ys, rfl, ⟨us, vs, rfl, hR, i, Nat.le_of_succ_le_succ hi, hrounds⟩, hk⟩

/-- By induction on the length of the text. -/
theorem Explores.loop (hf : Explores f R) (hR : ∀ before xs ys, R before xs ys → xs ≠ [])
    (greedy : Bool) :
    Explores (loop greedy f) fun before xs ys => ∃ i, R.rounds i before xs ys := by
  intro k before zs
  induction hlength : zs.length using Nat.strong_induction_on generalizing before zs with
  | _ length ih =>
    rw [Trial.loop, isSome_pick, hf]
    constructor
    · rintro (⟨us, ws, rfl, hreads, hloop⟩ | hk)
      · have hlt : ws.length < length := by
          have := List.length_pos_iff.2 (hR _ _ _ hreads)
          rw [← hlength, List.length_append]
          omega
        rw [if_pos (by rw [← hlength] at hlt; exact hlt)] at hloop
        obtain ⟨vs, ys, rfl, ⟨i, hrounds⟩, hk⟩ := (ih _ hlt _ _ rfl).1 hloop
        refine ⟨us ++ vs, ys, by simp, ⟨i + 1, us, vs, rfl, hreads, hrounds⟩, ?_⟩
        rwa [← List.append_assoc]
      · exact ⟨[], zs, rfl, ⟨0, rfl⟩, by rwa [List.append_nil]⟩
    · rintro ⟨xs, ys, rfl, ⟨i, hrounds⟩, hk⟩
      cases i with
      | zero =>
        cases hrounds
        rw [List.append_nil] at hk
        exact .inr hk
      | succ i =>
        obtain ⟨us, vs, rfl, hreads, hrounds⟩ := hrounds
        have hlt : (vs ++ ys).length < length := by
          have := List.length_pos_iff.2 (hR _ _ _ hreads)
          simp only [← hlength, List.length_append]
          omega
        refine .inl ⟨us, vs ++ ys, by simp, hreads, ?_⟩
        rw [if_pos (by rw [← hlength] at hlt; exact hlt)]
        refine (ih _ hlt _ _ rfl).2 ⟨vs, ys, rfl, ⟨i, hrounds⟩, ?_⟩
        rwa [List.append_assoc]

theorem explores_one (s : CharSet) : Explores (Trial.one s) (Regex.one s).Reads := by
  intro k before zs
  cases zs with
  | nil =>
    rw [one_stops (stopsAt_nil s)]
    simp [Reads]
  | cons z zs =>
    cases hz : s.contains z with
    | true =>
      rw [one_between hz]
      constructor
      · intro hk
        exact ⟨[z], zs, rfl, ⟨z, rfl, hz⟩, hk⟩
      · rintro ⟨_, ys, heq, ⟨x, rfl, -⟩, hk⟩
        cases heq
        exact hk
    | false =>
      rw [one_stops (stopsAt_cons hz)]
      simp only [Option.isSome_none, Bool.false_eq_true, false_iff]
      rintro ⟨_, ys, heq, ⟨x, rfl, hx⟩, -⟩
      cases heq
      rw [hz] at hx
      cases hx

theorem explores_text (cs : List Char) : Explores (Trial.text cs) fun _ xs _ => xs = cs := by
  induction cs with
  | nil => exact explores_nothing
  | cons c cs ih =>
    intro k before zs
    refine ((explores_one (.single c)).andThen ih k before zs).trans ?_
    constructor
    · rintro ⟨_, ys, rfl, ⟨_, _, rfl, ⟨x, rfl, hx⟩, rfl⟩, hk⟩
      obtain rfl : x = c := by simpa [CharSet.contains_single, eq_comm] using hx
      exact ⟨_, ys, rfl, rfl, hk⟩
    · rintro ⟨_, ys, rfl, rfl, hk⟩
      exact ⟨_, ys, rfl, ⟨[c], cs, rfl, ⟨c, rfl, by simp [CharSet.contains_single]⟩, rfl⟩, hk⟩

theorem isSome_record (slot : Nat) (c : Cursor) (r : Option Ending) :
    (record slot c r).isSome = r.isSome := Option.isSome_map

/-- An expression tries all that it can read. -/
theorem run_explores (r : Regex) (hr : r.loopsAdvance = true) : Explores r.run r.Reads := by
  induction r with
  | empty => exact explores_nothing
  | text cs => exact explores_text cs
  | one s => exact explores_one s
  | anchor a =>
    intro k before zs
    change (if (Cursor.between before zs).isAt a = true then k _ else none).isSome ↔ _
    constructor
    · intro h
      split at h
      · exact ⟨[], zs, rfl, ⟨rfl, ‹_›⟩, by rwa [List.append_nil]⟩
      · cases h
    · rintro ⟨_, ys, rfl, ⟨rfl, hat⟩, hk⟩
      rw [List.append_nil] at hk
      change (Cursor.between before ys).isAt a = true at hat
      rwa [List.nil_append, if_pos hat]
  | seq a b iha ihb =>
    rw [loopsAdvance, Bool.and_eq_true] at hr
    exact (iha hr.1).andThen (ihb hr.2)
  | alt a b iha ihb =>
    rw [loopsAdvance, Bool.and_eq_true] at hr
    intro k before zs
    change ((a.run k _).or (b.run k _)).isSome ↔ _
    rw [Option.isSome_or, Bool.or_eq_true, iha hr.1, ihb hr.2]
    simp only [Reads, or_and_right, and_or_left, exists_or]
  | times greedy low high r ih =>
    cases high with
    | none =>
      rw [loopsAdvance, Bool.and_eq_true] at hr
      have hadvances : r.consumes = true := by
        have hadvances := hr.1
        rw [advances, Bool.and_eq_true] at hadvances
        exact hadvances.1
      have hloop := (ih hr.2).loop (fun _ _ _ => Reads.ne_nil hadvances) greedy
      exact reads_loop greedy low r ▸ ((ih hr.2).rounds low).andThen hloop
    | some high =>
      have hmore := (ih hr).roundsAtMost greedy (high - low)
      exact reads_times greedy low high r ▸ ((ih hr).rounds low).andThen hmore
  | group i r ih =>
    intro k before zs
    change (record _ _ (r.run _ _)).isSome ↔ _
    rw [isSome_record, ih hr]
    simp only [isSome_record]
    rfl

/-! ## Searches -/

theorem isSome_matchAt?_iff {r : Regex} (hr : r.loopsAdvance = true) :
    (r.matchAt? (.between before zs)).isSome ↔ ∃ xs ys, zs = xs ++ ys ∧ r.Reads before xs ys := by
  rw [matchAt?, Option.isSome_map, run_explores r hr]
  simp [done]

theorem isSome_leftmost?_iff {r : Regex} (hr : r.loopsAdvance = true) (before zs : List Char) :
    (r.leftmost? before.getLast? zs.length zs).isSome ↔
      ∃ us xs ys, zs = us ++ (xs ++ ys) ∧ r.Reads (before ++ us) xs ys := by
  induction zs generalizing before with
  | nil =>
    rw [leftmost?]
    refine (isSome_matchAt?_iff hr).trans ?_
    constructor
    · rintro ⟨xs, ys, heq, h⟩
      exact ⟨[], xs, ys, heq, by rwa [List.append_nil]⟩
    · rintro ⟨us, xs, ys, heq, h⟩
      obtain ⟨rfl, heq'⟩ := List.append_eq_nil_iff.1 heq.symm
      rw [List.append_nil] at h
      exact ⟨xs, ys, heq'.symm, h⟩
  | cons z zs ih =>
    rw [leftmost?, Option.isSome_or, Bool.or_eq_true, ← List.getLast?_concat (l := before),
      List.length_cons, Nat.add_sub_cancel, ih]
    refine (or_congr_left (isSome_matchAt?_iff hr)).trans ?_
    constructor
    · rintro (⟨xs, ys, heq, h⟩ | ⟨us, xs, ys, rfl, h⟩)
      · exact ⟨[], xs, ys, heq, by rwa [List.append_nil]⟩
      · exact ⟨z :: us, xs, ys, rfl, by rwa [List.append_cons]⟩
    · rintro ⟨us, xs, ys, heq, h⟩
      cases us with
      | nil =>
        rw [List.append_nil] at h
        exact .inl ⟨xs, ys, heq, h⟩
      | cons u us =>
        obtain ⟨rfl, rfl⟩ := List.cons_eq_cons.1 heq
        exact .inr ⟨us, xs, ys, rfl, by rwa [List.append_cons] at h⟩

theorem leftmost?_append {r : Regex} (hr : r.loopsAdvance = true) (before zs : List Char)
    {us : List Char}
    (h : ∀ us₁ us₂ xs ys, us = us₁ ++ us₂ → us₂ ≠ [] → us₂ ++ zs = xs ++ ys →
      ¬ r.Reads (before ++ us₁) xs ys) :
    r.leftmost? before.getLast? (us ++ zs).length (us ++ zs) =
      r.leftmost? (before ++ us).getLast? zs.length zs := by
  induction us generalizing before with
  | nil => rw [List.nil_append, List.append_nil]
  | cons u us ih =>
    have hnone : r.matchAt? (.between before (u :: (us ++ zs))) = none := by
      rw [← Option.not_isSome_iff_eq_none, isSome_matchAt?_iff hr]
      rintro ⟨xs, ys, heq, hreads⟩
      refine h [] (u :: us) xs ys rfl (List.cons_ne_nil u us) heq ?_
      rwa [List.append_nil]
    have hrest : r.leftmost? (before ++ [u]).getLast? (us ++ zs).length (us ++ zs) =
        r.leftmost? (before ++ [u] ++ us).getLast? zs.length zs := by
      refine ih (before ++ [u]) fun us₁ us₂ xs ys hus hne heq hreads => ?_
      refine h (u :: us₁) us₂ xs ys (congrArg _ hus) hne heq ?_
      rwa [List.append_cons]
    rw [List.getLast?_concat, ← List.append_cons] at hrest
    rw [List.cons_append, leftmost?]
    exact (congrArg (Option.or · _) hnone).trans hrest

/-- A search finds a match iff the expression can read some part of the text. -/
theorem isSome_search?_iff {r : Regex} (hr : r.loopsAdvance = true) (text : List Char) :
    (r.search? text).isSome ↔ r.Occurs text := by
  rw [search?, Program.ofRegex_searchFrom? r hr]
  exact isSome_leftmost?_iff hr [] text

end Regex
end Linearize
