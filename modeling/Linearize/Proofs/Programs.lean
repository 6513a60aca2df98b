import Linearize.Proofs.Threads

/-!
# Linearize.Proofs.Programs

The program of an expression comes to what the expression comes to. What is assumed of the place
where it goes on is assumed behind as many characters as the expression reads at least, so that the
way back to the head of a loop can be taken by induction on the text that is left.
-/

namespace Linearize

open Regex Regex.Trial

namespace Regex

def leastLength (r : Regex) : Nat := if r.consumes then 1 else 0

theorem Cursor.length_next? {c d : Cursor} {x : Char} (h : c.next? = some (x, d)) :
    d.rest.length + 1 = c.rest.length := by
  obtain ⟨before, rest, left⟩ := c
  cases rest with
  | nil => cases h
  | cons y ys =>
    cases h
    rfl

theorem chainCode_succ (piece : Nat → Nat → List Instr) (size count start : Nat) :
    chainCode piece size (count + 1) start =
      piece start (start + size) ++ chainCode piece size count (start + size) := by
  have hplace : ∀ i, start + (i + 1) * size = start + size + i * size := fun i => by
    rw [Nat.succ_mul]
    omega
  rw [chainCode, chainCode, List.range_succ_eq_map, List.flatMap_cons, List.flatMap_map]
  simp only [hplace, Nat.succ_eq_add_one, Nat.zero_mul, Nat.add_zero]

theorem chainCode_last (piece : Nat → Nat → List Instr) (size count start : Nat) :
    chainCode piece size (count + 1) start =
      chainCode piece size count start ++
        piece (start + count * size) (start + (count + 1) * size) := by
  rw [chainCode, chainCode, List.range_succ, List.flatMap_append, List.flatMap_singleton]

end Regex

namespace Program

variable {p : Program} {q next start : Nat} {c : Cursor} {r r' : Option Ending}

/-! ## Instructions -/

theorem ComesTo.one {s : CharSet} {k : Trial} (hi : p.instr? q = some (.one s next))
    (hk : ∀ d, d.rest.length + 1 ≤ c.rest.length → p.ComesTo next d (k d)) :
    p.ComesTo q c (Trial.one s k c) := by
  rw [Trial.one]
  split
  · rename_i x d hnext
    split
    · rename_i hs
      obtain ⟨n, hn⟩ := hk d (Nat.le_of_eq (Cursor.length_next? hnext))
      exact ⟨0, .read hi hnext hs hn⟩
    · rename_i hs
      refine ⟨0, .blocked hi ?_⟩
      intro x' d' hnext'
      rw [hnext] at hnext'
      cases hnext'
      exact Bool.eq_false_of_not_eq_true hs
  · rename_i hnext
    refine ⟨0, .blocked hi ?_⟩
    intro x d hnext'
    rw [hnext] at hnext'
    cases hnext'

theorem ComesTo.anchor {a : Anchor} {k : Trial} (hi : p.instr? q = some (.anchor a next))
    (hk : p.ComesTo next c (k c)) : p.ComesTo q c (if c.isAt a then k c else none) := by
  split
  · rename_i hat
    obtain ⟨n, hn⟩ := hk
    exact ⟨n + 1, .pass hi hat hn⟩
  · rename_i hat
    exact ⟨0, .refuse hi (Bool.eq_false_of_not_eq_true hat)⟩

theorem ComesTo.mark {slot : Nat} (hi : p.instr? q = some (.mark slot next))
    (h : p.ComesTo next c r) : p.ComesTo q c (record slot c r) := by
  obtain ⟨n, hn⟩ := h
  exact ⟨n + 1, .mark hi hn⟩

theorem ComesTo.fork {first second : Nat} (hi : p.instr? q = some (.fork first second))
    (h : p.ComesTo first c r) (h' : p.ComesTo second c r') : p.ComesTo q c (r.or r') := by
  obtain ⟨n, hn⟩ := h
  obtain ⟨m, hm⟩ := h'
  exact ⟨max n m + 1, .fork hi hn hm⟩

theorem ComesTo.jump (hi : p.instr? q = some (.jump next)) (h : p.ComesTo next c r) :
    p.ComesTo q c r := by
  obtain ⟨n, hn⟩ := h
  exact ⟨n + 1, .jump hi hn⟩

theorem ComesTo.choice {greedy : Bool} {body exit : Nat}
    (hi : p.instr? q = some (.choice greedy body exit)) (h : p.ComesTo body c r)
    (h' : p.ComesTo exit c r') : p.ComesTo q c (pick greedy r r') := by
  cases greedy with
  | true => exact .fork hi h h'
  | false => exact .fork hi h' h

/-! ## Pieces of programs -/

/-- The instructions stand in the program from the place `start` on. -/
def Holds (p : Program) (start : Nat) (is : List Instr) : Prop :=
  ∀ j i, is[j]? = some i → p.instr? (start + j) = some i

namespace Holds

variable {is js : List Instr} {i : Instr}

theorem head (h : p.Holds start (i :: is)) : p.instr? start = some i := h 0 i rfl

theorem tail (h : p.Holds start (i :: is)) : p.Holds (start + 1) is := by
  intro j i' hj
  rw [Nat.add_assoc, Nat.add_comm 1 j]
  exact h (j + 1) i' hj

theorem left (h : p.Holds start (is ++ js)) : p.Holds start is := by
  intro j i hj
  exact h j i (List.getElem?_append_left (List.getElem?_eq_some_iff.1 hj).1 ▸ hj)

theorem right {n : Nat} (h : p.Holds start (is ++ js)) (hn : is.length = n) :
    p.Holds (start + n) js := by
  intro j i hj
  rw [Nat.add_assoc, ← hn]
  refine h (is.length + j) i ?_
  rw [List.getElem?_append_right (Nat.le_add_right _ _), Nat.add_sub_cancel_left]
  exact hj

end Holds

theorem text_comesTo {cs : List Char} {k : Trial} (hcode : p.Holds start (textCode cs start next))
    (hk : ∀ d, d.rest.length + cs.length ≤ c.rest.length → p.ComesTo next d (k d)) :
    p.ComesTo start c (Trial.text cs k c) := by
  induction cs generalizing start c with
  | nil => exact .jump hcode.head (hk c (Nat.le_refl _))
  | cons x xs ih =>
    refine .one hcode.head fun d hd => ih hcode.tail fun e he => hk e ?_
    rw [List.length_cons]
    omega

/-! ## Loops -/

/-- The program of `e` from `q` on comes to what `e` comes to, wherever it goes on. -/
def Runs (p : Program) (e : Regex) (q next : Nat) : Prop :=
  ∀ k c, (∀ d, d.rest.length + e.leastLength ≤ c.rest.length → p.ComesTo next d (k d)) →
    p.ComesTo q c (e.run k c)

variable {e : Regex} {greedy : Bool} {k : Trial}

/-- By induction on the text that is left, since a round advances. -/
theorem loop_comesTo {body exit : Nat} (hi : p.instr? q = some (.choice greedy body exit))
    (hbody : p.Runs e body q) (hadvances : e.advances = true)
    (hk : ∀ d, d.rest.length ≤ c.rest.length → p.ComesTo exit d (k d)) :
    p.ComesTo q c (loop greedy e.run k c) := by
  have hleast : e.leastLength = 1 := if_pos (Bool.and_eq_true_iff.1 hadvances).1
  induction hn : c.rest.length using Nat.strong_induction_on generalizing c with
  | h n ih =>
    rw [loop]
    refine .choice hi (hbody _ c fun d hd => ?_) (hk c (Nat.le_refl _))
    have hlt : d.rest.length < c.rest.length := by omega
    rw [if_pos hlt]
    exact ih d.rest.length (hn ▸ hlt) (fun d' hd' => hk d' (by omega)) rfl

theorem rounds_comesTo {count : Nat}
    (hcode : p.Holds start (chainCode e.code e.size count start))
    (hbody : ∀ q next, p.Holds q (e.code q next) → p.Runs e q next)
    (hk : ∀ d, d.rest.length + (if 0 < count then e.leastLength else 0) ≤ c.rest.length →
      p.ComesTo (start + count * e.size) d (k d)) :
    p.ComesTo start c (rounds e.run count k c) := by
  induction count generalizing start c with
  | zero =>
    rw [Nat.zero_mul] at hk
    exact hk c (Nat.le_refl _)
  | succ count ih =>
    rw [chainCode_succ] at hcode
    have hend : start + e.size + count * e.size = start + (count + 1) * e.size := by
      rw [Nat.succ_mul]
      omega
    refine hbody _ _ hcode.left _ c fun d hd => ih (hcode.right (length_code e _ _)) ?_
    intro d' hd'
    rw [hend]
    refine hk d' ?_
    rw [if_pos (Nat.succ_pos count)]
    omega

def optionalPiece (greedy : Bool) (e : Regex) (next here there : Nat) : List Instr :=
  .choice greedy (here + 1) next :: e.code (here + 1) there

theorem length_optionalPiece (here there : Nat) :
    (optionalPiece greedy e next here there).length = e.size + 1 := by
  rw [optionalPiece, List.length_cons, length_code]

theorem roundsAtMost_comesTo {count : Nat}
    (hcode : p.Holds start (chainCode (optionalPiece greedy e next) (e.size + 1) count start))
    (hbody : ∀ q next, p.Holds q (e.code q next) → p.Runs e q next)
    (hk : ∀ d, d.rest.length ≤ c.rest.length →
      p.ComesTo (start + count * (e.size + 1)) d (k d) ∧ p.ComesTo next d (k d)) :
    p.ComesTo start c (roundsAtMost greedy e.run count k c) := by
  induction count generalizing start c with
  | zero =>
    rw [Nat.zero_mul] at hk
    exact (hk c (Nat.le_refl _)).1
  | succ count ih =>
    rw [chainCode_succ] at hcode
    have hend : start + (e.size + 1) + count * (e.size + 1) =
        start + (count + 1) * (e.size + 1) := by
      rw [Nat.succ_mul]
      omega
    rw [← hend] at hk
    have hpiece : p.Holds start (.choice greedy (start + 1) next :: e.code (start + 1) _) :=
      hcode.left
    refine .choice hpiece.head (hbody _ _ hpiece.tail _ c fun d hd => ?_) (hk c (Nat.le_refl _)).2
    exact ih (hcode.right (length_optionalPiece _ _)) fun d' hd' => hk d' (by omega)

/-! ## Expressions -/

/-- Wherever the code of an expression stands, it comes to what the expression comes to. -/
theorem code_runs (e : Regex) (he : e.loopsAdvance = true) {q next : Nat}
    (hcode : p.Holds q (e.code q next)) : p.Runs e q next := by
  induction e generalizing q next with
  | empty =>
    intro k c hk
    exact .jump hcode.head (hk c (Nat.le_refl _))
  | text cs =>
    intro k c hk
    refine text_comesTo hcode fun d hd => hk d ?_
    cases cs with
    | nil => exact hd
    | cons x xs =>
      rw [List.length_cons] at hd
      change d.rest.length + 1 ≤ _
      omega
  | one s =>
    intro k c hk
    exact .one hcode.head hk
  | anchor a =>
    intro k c hk
    exact .anchor hcode.head (hk c (Nat.le_refl _))
  | seq a b iha ihb =>
    intro k c hk
    rw [loopsAdvance, Bool.and_eq_true] at he
    refine iha he.1 hcode.left _ c fun d hd => ?_
    refine ihb he.2 (hcode.right (length_code a _ _)) k d fun d' hd' => hk d' ?_
    simp only [leastLength, consumes, Bool.or_eq_true] at hd hd' ⊢
    split <;> grind
  | alt a b iha ihb =>
    intro k c hk
    rw [loopsAdvance, Bool.and_eq_true] at he
    have hsides : p.Holds (q + 1) (a.code (q + 1) next ++ b.code (q + 1 + a.size) next) :=
      hcode.tail
    refine .fork hcode.head ?_ ?_
    · refine iha he.1 hsides.left k c fun d hd => hk d ?_
      simp only [leastLength, consumes, Bool.and_eq_true] at hd ⊢
      grind
    · refine ihb he.2 (hsides.right (length_code a _ _)) k c fun d hd => hk d ?_
      simp only [leastLength, consumes, Bool.and_eq_true] at hd ⊢
      grind
  | times greedy low high e ih =>
    intro k c hk
    cases high with
    | none =>
      rw [loopsAdvance, Bool.and_eq_true] at he
      cases low with
      | zero =>
        rw [code, if_pos he.1] at hcode
        exact loop_comesTo hcode.head (ih he.2 hcode.tail) he.1 hk
      | succ low =>
        have hlength : ∀ count,
            (chainCode e.code e.size count q).length = count * e.size := fun count =>
          length_chainCode (length_code e) count q
        have hhead : p.instr? (q + (low + 1) * e.size) =
            some (.choice greedy (q + low * e.size) next) := (hcode.right (hlength _)).head
        have hchain : p.Holds q (chainCode e.code e.size (low + 1) q) := hcode.left
        have hlast := hchain
        rw [chainCode_last] at hlast
        refine rounds_comesTo hchain (fun q next => ih he.2) fun d hd => ?_
        refine loop_comesTo hhead (ih he.2 (hlast.right (hlength low))) he.1 fun d' hd' => hk d' ?_
        simp only [leastLength, consumes, Bool.and_eq_true, decide_eq_true_eq] at hd ⊢
        grind
    | some high =>
      rw [loopsAdvance] at he
      have hcode : p.Holds q (chainCode e.code e.size low q ++
          chainCode (optionalPiece greedy e next) (e.size + 1) (high - low) (q + low * e.size) ++
            [.jump next]) := by
        rw [code] at hcode
        exact hcode
      have hlength : (chainCode e.code e.size low q).length = low * e.size :=
        length_chainCode (length_code e) low q
      have hlength' : (chainCode e.code e.size low q ++ chainCode (optionalPiece greedy e next)
          (e.size + 1) (high - low) (q + low * e.size)).length =
            low * e.size + (high - low) * (e.size + 1) := by
        rw [List.length_append, hlength, length_chainCode length_optionalPiece]
      have hjump := (hcode.right hlength').head
      rw [← Nat.add_assoc] at hjump
      refine rounds_comesTo hcode.left.left (fun q next => ih he) fun d hd => ?_
      refine roundsAtMost_comesTo (hcode.left.right hlength) (fun q next => ih he)
        fun d' hd' => ?_
      have hnext : p.ComesTo next d' (k d') := by
        refine hk d' ?_
        simp only [leastLength, consumes, Bool.and_eq_true, decide_eq_true_eq] at hd ⊢
        grind
      exact ⟨.jump hjump hnext, hnext⟩
  | group i e ih =>
    intro k c hk
    rw [loopsAdvance] at he
    have hbody : p.Holds (q + 1) (e.code (q + 1) (q + 1 + e.size) ++ [.mark (2 * i + 1) next]) :=
      hcode.tail
    refine .mark hcode.head (ih he hbody.left _ c fun d hd => ?_)
    exact .mark (hbody.right (length_code e _ _)).head (hk d hd)

theorem ofRegex_realizes (e : Regex) (he : e.loopsAdvance = true) : (ofRegex e).Realizes e := by
  have hcode : (ofRegex e).Holds 0 (e.code 0 e.size) := by
    intro j i hj
    rw [instr?, ofRegex, Nat.zero_add, List.getElem?_toArray,
      List.getElem?_append_left (List.getElem?_eq_some_iff.1 hj).1]
    exact hj
  intro c
  exact code_runs e he hcode _ c fun d _ => ⟨0, .accept (accept_ofRegex e)⟩

/-- A search finds the preferred match at the leftmost place that has one. -/
theorem ofRegex_searchFrom? (e : Regex) (he : e.loopsAdvance = true) (c : Cursor) :
    (ofRegex e).searchFrom? c = e.leftmost? c.before c.left c.rest :=
  (ofRegex_realizes e he).searchFrom?_eq c

end Program
end Linearize
