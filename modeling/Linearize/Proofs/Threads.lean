import Linearize.Proofs.Outcomes
import Mathlib.Data.Finset.Card
import Mathlib.Data.Finset.Range

/-!
# Linearize.Proofs.Threads

Threads that run side by side find what one thread finds that tries its ways one after another. No
way without reading leads from a place of the program back to it. So a visited place that is met
again has failed, or something before it has succeeded.
-/

namespace Linearize
namespace Program

open Regex Regex.Trial

variable {p : Program} {q : Nat} {c : Cursor}

/-! ## One place of the text -/

structure Waits (p : Program) (c : Cursor) (t : Thread) : Prop where
  decides : p.Decides t.place c
  reads : ∃ s next, p.instr? t.place = some (.one s next)

/-- What the threads come to that wait and, if none of them comes to a match, those on a stack. -/
noncomputable def prospect (p : Program) (c : Cursor) (stack : List Thread) (f : Front) :
    Option Match :=
  (p.firstResult c f.waiting.reverse).or (p.firstResult c stack)

/-- What holds while threads on a stack go on. A place that was visited and succeeds has brought a
thread that waits and succeeds, or is still at work with threads on top of the stack, which run
through fewer instructions than the place itself. -/
structure Settling (p : Program) (c : Cursor) (stack : List Thread) (f : Front) : Prop where
  decides : ∀ t ∈ stack, p.Decides t.place c
  waiting : ∀ t ∈ f.waiting, p.Waits c t
  visited : ∀ q, f.isVisited q = true → ∃ top below, stack = top ++ below ∧
    (∀ t ∈ top, p.rank t.place c < p.rank q c) ∧
    ((p.outcome q c).isSome →
      (p.firstResult c f.waiting.reverse).isSome ∨ (p.firstResult c top).isSome)

namespace Settling

variable {t : Thread} {ts rest : List Thread} {f f' : Front}

theorem ofSize {ts : List Thread} (h : ∀ t ∈ ts, p.Decides t.place c) :
    p.Settling c ts (.ofSize p.size) := by
  refine ⟨h, List.forall_mem_nil _, ?_⟩
  intro q hq
  rw [Front.isVisited_ofSize, decide_eq_true_eq] at hq
  have hstuck : p.Yields 0 q c none := .stuck (Array.getElem?_eq_none hq)
  refine ⟨[], ts, rfl, List.forall_mem_nil _, ?_⟩
  rw [hstuck.outcome_eq]
  exact nofun

/-- The thread on top of the stack is replaced by threads that come to the same, if those that wait
now are counted in. -/
theorem replace (ts : List Thread) (h : p.Settling c (t :: rest) f)
    (hts : ∀ u ∈ ts, p.Decides u.place c ∧ p.rank u.place c < p.rank t.place c)
    (hvisited : ∀ q, f'.isVisited q = true → q = t.place ∨ f.isVisited q = true)
    (hwaiting : ∀ u ∈ f'.waiting, p.Waits c u)
    (hgrows : ∃ more, f'.waiting.reverse = f.waiting.reverse ++ more)
    (hresult : p.prospect c ts f' = (p.firstResult c f.waiting.reverse).or (p.result c t)) :
    p.Settling c (ts ++ rest) f' ∧ p.prospect c (ts ++ rest) f' = p.prospect c (t :: rest) f := by
  obtain ⟨more, hmore⟩ := hgrows
  have hkeeps : (p.firstResult c f.waiting.reverse).isSome →
      (p.firstResult c f'.waiting.reverse).isSome := by
    rw [hmore, firstResult_append, Option.isSome_or, Bool.or_eq_true]
    exact .inl
  have hsuccess : (p.firstResult c f.waiting.reverse).isSome ∨ (p.result c t).isSome →
      (p.firstResult c f'.waiting.reverse).isSome ∨ (p.firstResult c ts).isSome := by
    rw [← Bool.or_eq_true, ← Bool.or_eq_true, ← Option.isSome_or, ← Option.isSome_or, ← hresult]
    exact id
  constructor
  · obtain ⟨ht, hrest⟩ := List.forall_mem_cons.1 h.decides
    refine ⟨List.forall_mem_append.2 ⟨fun u hu => (hts u hu).1, hrest⟩, hwaiting, ?_⟩
    intro q hq
    rcases hvisited q hq with rfl | hq
    · refine ⟨ts, rest, rfl, fun u hu => (hts u hu).2, ?_⟩
      intro hsome
      exact hsuccess (.inr (isSome_result_iff.2 hsome))
    · obtain ⟨top, below, hsplit, hrank, hsome⟩ := h.visited q hq
      cases top with
      | nil =>
        refine ⟨[], ts ++ rest, rfl, List.forall_mem_nil _, ?_⟩
        intro hq
        exact (hsome hq).imp_left hkeeps
      | cons t' top =>
        obtain ⟨rfl, rfl⟩ := List.cons.inj hsplit
        obtain ⟨hrank, hrank'⟩ := List.forall_mem_cons.1 hrank
        refine ⟨ts ++ top, below, (List.append_assoc _ _ _).symm,
          List.forall_mem_append.2 ⟨fun u hu => (hts u hu).2.trans hrank, hrank'⟩, ?_⟩
        intro hq
        rw [firstResult_append, Option.isSome_or, Bool.or_eq_true, ← or_assoc]
        have hsome := hsome hq
        rw [firstResult_cons, Option.isSome_or, Bool.or_eq_true, ← or_assoc] at hsome
        exact hsome.imp_left hsuccess
  · rw [prospect] at hresult
    rw [prospect, prospect, firstResult_append, firstResult_cons, ← Option.or_assoc,
      ← Option.or_assoc, hresult]

theorem drop (h : p.Settling c (t :: rest) f)
    (ht : (p.result c t).isSome → (p.firstResult c f.waiting.reverse).isSome) :
    p.Settling c rest f ∧ p.prospect c rest f = p.prospect c (t :: rest) f := by
  refine h.replace [] (List.forall_mem_nil _) (fun q hq => .inr hq) h.waiting
    ⟨[], (List.append_nil _).symm⟩ ?_
  cases hresult : p.result c t with
  | none => rfl
  | some m =>
    obtain ⟨m', hm'⟩ := Option.isSome_iff_exists.1 (ht (by rw [hresult]; rfl))
    rw [prospect, hm']
    rfl

/-- A visited place on top of the stack is not at work, since all threads above those that are at
work run through fewer instructions. -/
theorem skip (h : p.Settling c (t :: rest) f) (ht : f.isVisited t.place = true) :
    p.Settling c rest f ∧ p.prospect c rest f = p.prospect c (t :: rest) f := by
  refine h.drop fun hsome => ?_
  obtain ⟨top, below, hsplit, hrank, hvisited⟩ := h.visited t.place ht
  cases top with
  | nil => exact (hvisited (isSome_result_iff.1 hsome)).resolve_right nofun
  | cons t' top =>
    obtain ⟨rfl, -⟩ := List.cons.inj hsplit
    exact absurd (hrank t List.mem_cons_self) (Nat.lt_irrefl _)

theorem wait (h : p.Settling c (t :: rest) f) (ht : p.Waits c t) :
    p.Settling c rest ((f.visit t.place).wait t) ∧
      p.prospect c rest ((f.visit t.place).wait t) = p.prospect c (t :: rest) f := by
  have hreverse : ((f.visit t.place).wait t).waiting.reverse = f.waiting.reverse ++ [t] :=
    List.reverse_cons
  refine h.replace [] (List.forall_mem_nil _) ?_ (List.forall_mem_cons.2 ⟨ht, h.waiting⟩)
    ⟨[t], hreverse⟩ ?_
  · intro q hq
    have hq : (f.visit t.place).isVisited q = true := hq
    rw [Front.isVisited_visit, Bool.or_eq_true, decide_eq_true_eq] at hq
    exact hq
  · rw [prospect, hreverse, firstResult_append, firstResult_singleton]
    exact Option.or_none

theorem expand {i : Instr} (h : p.Settling c (t :: rest) f) (hi : p.instr? t.place = some i)
    (haccept : i ≠ .accept) (hread : ∀ s next, i ≠ .one s next) :
    p.Settling c (Program.expand c t i ++ rest) (f.visit t.place) ∧
      p.prospect c (Program.expand c t i ++ rest) (f.visit t.place) =
        p.prospect c (t :: rest) f := by
  obtain ⟨hresult, hts⟩ := expand_result (h.decides t List.mem_cons_self) hi haccept hread
  refine h.replace _ hts ?_ h.waiting ⟨[], (List.append_nil _).symm⟩ ?_
  · intro q hq
    rw [Front.isVisited_visit, Bool.or_eq_true, decide_eq_true_eq] at hq
    exact hq
  · rw [hresult]
    rfl

end Settling

def unvisited (p : Program) (f : Front) : Nat :=
  ((Finset.range p.size).filter fun q => f.isVisited q = false).card

theorem unvisited_visit {i : Instr} {f : Front} (hi : p.instr? q = some i)
    (hq : f.isVisited q = false) : p.unvisited (f.visit q) < p.unvisited f := by
  obtain ⟨hlt, -⟩ := Array.getElem?_eq_some_iff.1 hi
  refine Finset.card_lt_card (Finset.ssubset_iff_of_subset ?_ |>.2 ⟨q, ?_, ?_⟩)
  · intro q' hq'
    simp only [Finset.mem_filter, Front.isVisited_visit, Bool.or_eq_false_iff] at hq' ⊢
    exact ⟨hq'.1, hq'.2.2⟩
  · exact Finset.mem_filter.2 ⟨Finset.mem_range.2 hlt, hq⟩
  · simp [Front.isVisited_visit]

theorem length_expand_le (c : Cursor) (t : Thread) (i : Instr) : (expand c t i).length ≤ 2 := by
  cases i with
  | anchor a next =>
    rw [expand]
    split <;> simp
  | _ => simp [expand]

/-- Threads that have gone on until each waits, is dropped or accepts come to what they came to
before, where a match that ends here comes behind those that wait. -/
theorem settle_prospect {limit : Nat} {stack : List Thread} {f : Front} (found : Option Match)
    (hlimit : stack.length + 2 * p.unvisited f < limit) (haccepted : f.accepted = none)
    (h : p.Settling c stack f) :
    (∀ t ∈ (p.settle c limit stack f).waiting, p.Waits c t) ∧
      (p.firstResult c (p.settle c limit stack f).waiting.reverse).or
          ((p.settle c limit stack f).best c found) =
        (p.prospect c stack f).or found := by
  induction limit generalizing stack f with
  | zero => omega
  | succ limit ih =>
    cases stack with
    | nil =>
      rw [settle, prospect, Front.best, haccepted]
      refine ⟨h.waiting, ?_⟩
      rw [show p.firstResult c [] = none from rfl, Option.or_none]
    | cons t rest =>
      rw [List.length_cons] at hlimit
      rw [settle]
      split
      · rename_i hvisited
        obtain ⟨h', hprospect⟩ := h.skip hvisited
        rw [← hprospect]
        exact ih (by omega) haccepted h'
      · rename_i hvisited
        rw [Bool.not_eq_true] at hvisited
        have ht := h.decides t List.mem_cons_self
        split
        · rename_i hi
          have hnone := result_of_stuck ht hi
          obtain ⟨h', hprospect⟩ := h.drop (by rw [hnone]; exact nofun)
          rw [← hprospect]
          exact ih (by omega) haccepted h'
        · rename_i hi
          refine ⟨h.waiting, ?_⟩
          rw [prospect, firstResult_cons, result_of_accept ht hi]
          simp only [Option.or_assoc]
          rfl
        · rename_i s next hi
          have hfewer := unvisited_visit hi hvisited
          obtain ⟨h', hprospect⟩ := h.wait ⟨ht, s, next, hi⟩
          rw [← hprospect]
          exact ih (by change _ + 2 * p.unvisited (f.visit t.place) < _; omega) haccepted h'
        · rename_i i haccept hread hi
          have hfewer := unvisited_visit hi hvisited
          have htwo := length_expand_le c t i
          obtain ⟨h', hprospect⟩ := h.expand hi haccept hread
          rw [← hprospect]
          exact ih (by rw [List.length_append]; omega) haccepted h'

theorem front_prospect {threads : List Thread} (found : Option Match)
    (h : ∀ t ∈ threads, p.Decides t.place c) :
    (∀ t ∈ (p.front c threads).waiting, p.Waits c t) ∧
      (p.firstResult c (p.front c threads).waiting.reverse).or ((p.front c threads).best c found) =
        (p.firstResult c threads).or found := by
  have hfresh : p.unvisited (.ofSize p.size) ≤ p.size := by
    refine (Finset.card_filter_le _ _).trans ?_
    rw [Finset.card_range]
  exact settle_prospect found (by omega) rfl (Settling.ofSize h)

/-! ## All places of the text -/

theorem advance_prospect {x : Char} {d : Cursor} (ts : List Thread)
    (h : ∀ t ∈ ts, p.Waits c t) (hnext : c.next? = some (x, d)) :
    p.firstResult d (ts.filterMap (p.advance? x)) = p.firstResult c ts ∧
      ∀ u ∈ ts.filterMap (p.advance? x), p.Decides u.place d := by
  induction ts with
  | nil => exact ⟨rfl, List.forall_mem_nil _⟩
  | cons t ts ih =>
    obtain ⟨ht, hts⟩ := List.forall_mem_cons.1 h
    obtain ⟨s, next, hi⟩ := ht.reads
    obtain ⟨hresult, hdecides⟩ := advance_result ht.decides hi hnext
    obtain ⟨ih, ihdecides⟩ := ih hts
    rw [firstResult_cons, hresult]
    cases hadvance : p.advance? x t with
    | none =>
      rw [List.filterMap_cons_none hadvance]
      exact ⟨ih, ihdecides⟩
    | some u =>
      rw [List.filterMap_cons_some hadvance, firstResult_cons, ih]
      exact ⟨rfl, List.forall_mem_cons.2 ⟨hdecides u hadvance, ihdecides⟩⟩

theorem firstResult_of_end (ts : List Thread) (h : ∀ t ∈ ts, p.Waits c t)
    (hnext : c.next? = none) : p.firstResult c ts = none := by
  induction ts with
  | nil => rfl
  | cons t ts ih =>
    obtain ⟨ht, hts⟩ := List.forall_mem_cons.1 h
    obtain ⟨s, next, hi⟩ := ht.reads
    rw [firstResult_cons, result_of_end ht.decides hi hnext, ih hts]
    rfl

/-- The first place of the program comes to what the expression comes to. -/
def Realizes (p : Program) (e : Regex) : Prop := ∀ c, p.ComesTo 0 c (e.run done c)

variable {e : Regex} {moved : List Thread} {best : Option Match}

theorem Realizes.threadsAt_decides (h : p.Realizes e) (best : Option Match)
    (hmoved : ∀ t ∈ moved, p.Decides t.place c) :
    ∀ t ∈ threadsAt c moved best, p.Decides t.place c := by
  cases best with
  | some m => exact hmoved
  | none =>
    obtain ⟨n, hn⟩ := h c
    exact List.forall_mem_append.2 ⟨hmoved, List.forall_mem_singleton.2 ⟨_, n, hn⟩⟩

/-- The threads at a place, and then what was found before: the match that starts here comes behind
those of the threads that come from before, and is not looked for if there is a match. -/
theorem Realizes.threadsAt_prospect (h : p.Realizes e) (c : Cursor) (moved : List Thread)
    (best rest : Option Match) :
    ((p.firstResult c (threadsAt c moved best)).or best).or rest =
      (p.firstResult c moved).or (best.or ((e.matchAt? c).or rest)) := by
  cases best with
  | some m => rw [threadsAt, Option.or_assoc, Option.some_or, Option.some_or]
  | none =>
    obtain ⟨n, hn⟩ := h c
    have hstart : p.result c ⟨0, c, []⟩ = e.matchAt? c := by
      simp only [result, hn.outcome_eq, matchAt?, List.append_nil]
    rw [threadsAt, firstResult_append, firstResult_singleton, hstart, Option.or_none,
      Option.or_assoc, Option.none_or]

theorem Realizes.scan_eq (h : p.Realizes e) {before : Option Char} {left : Nat} {rest : List Char}
    (hmoved : ∀ t ∈ moved, p.Decides t.place ⟨before, rest, left⟩) :
    p.scan moved best before left rest =
      (p.firstResult ⟨before, rest, left⟩ moved).or (best.or (e.leftmost? before left rest)) := by
  induction rest generalizing moved best before left with
  | nil =>
    obtain ⟨hwaits, hfront⟩ := front_prospect best (h.threadsAt_decides best hmoved)
    have hthreads := h.threadsAt_prospect ⟨before, [], left⟩ moved best none
    have hend := firstResult_of_end (List.reverse _) (by simpa using hwaits) rfl
    rw [hend, Option.none_or] at hfront
    rw [Option.or_none, Option.or_none, ← hfront] at hthreads
    exact hthreads
  | cons x xs ih =>
    rw [scan]
    split
    · rename_i hempty
      cases best with
      | none => exact absurd hempty (List.append_ne_nil_of_right_ne_nil _ (List.cons_ne_nil _ _))
      | some m =>
        have hempty : moved = [] := hempty
        subst hempty
        rfl
    · obtain ⟨hwaits, hfront⟩ := front_prospect best (h.threadsAt_decides best hmoved)
      obtain ⟨hadvance, hdecides⟩ := advance_prospect (x := x) (d := ⟨some x, xs, left - 1⟩)
        (List.reverse _) (by simpa using hwaits) rfl
      rw [ih hdecides, hadvance, ← Option.or_assoc, hfront, h.threadsAt_prospect]
      rfl

theorem Realizes.searchFrom?_eq (h : p.Realizes e) (c : Cursor) :
    p.searchFrom? c = e.leftmost? c.before c.left c.rest :=
  (h.scan_eq (List.forall_mem_nil _)).trans (Option.none_or.trans Option.none_or)

end Program
end Linearize
