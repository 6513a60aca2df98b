import Mathlib
import Linearize.Model.Listing

/-!
# Linearize.Proofs.Wording

Texts put together from words. A word does not contain the character that separates it from what
follows, so it can be told from the text. Numerals and names of columns are such words.
-/

namespace Linearize

/-- Two lists are cut at the same place if what is before the cut has a property that what is at
the cut has not. -/
theorem append_cut {α : Type} {p : α → Prop} {xs ys as bs : List α} (hxs : ∀ x ∈ xs, p x)
    (hys : ∀ y ∈ ys, p y) (has : ∀ a ∈ as.head?, ¬ p a) (hbs : ∀ b ∈ bs.head?, ¬ p b)
    (h : xs ++ as = ys ++ bs) : xs = ys ∧ as = bs := by
  induction xs generalizing ys with
  | nil =>
    cases ys with
    | nil => exact ⟨rfl, h⟩
    | cons y ys =>
      rw [List.nil_append] at h
      exact absurd (hys y List.mem_cons_self) (has y (by simp [h]))
  | cons x xs ih =>
    cases ys with
    | nil =>
      rw [List.nil_append] at h
      exact absurd (hxs x List.mem_cons_self) (hbs x (by simp [← h]))
    | cons y ys =>
      rw [List.forall_mem_cons] at hxs hys
      obtain ⟨rfl, htail⟩ := List.cons.inj h
      obtain ⟨rfl, hrest⟩ := ih hxs.2 hys.2 htail
      exact ⟨rfl, hrest⟩

namespace Text

def Lacks (c : Char) (s : String) : Prop := c ∉ s.toList

instance (c : Char) (s : String) : Decidable (Lacks c s) := inferInstanceAs (Decidable (c ∉ _))

@[simp] theorem lacks_append {c : Char} {s t : String} :
    Lacks c (s ++ t) ↔ Lacks c s ∧ Lacks c t := by
  simp [Lacks]

theorem cut {c : Char} {sep a b s t : String} (hsep : sep.toList = [c]) (ha : Lacks c a)
    (hb : Lacks c b) (h : a ++ (sep ++ s) = b ++ (sep ++ t)) : a = b ∧ s = t := by
  have hlists : a.toList ++ c :: s.toList = b.toList ++ c :: t.toList := by
    simpa [hsep] using congrArg String.toList h
  obtain ⟨hab, hst⟩ := append_cut (p := (· ≠ c)) (fun x hx hxc => ha (hxc ▸ hx))
    (fun x hx hxc => hb (hxc ▸ hx)) (by simp) (by simp) hlists
  exact ⟨String.toList_inj.1 hab, String.toList_inj.1 (List.cons.inj hst).2⟩

theorem blank_cut {a b s t : String} (ha : Lacks ' ' a) (hb : Lacks ' ' b)
    (h : a ++ (" " ++ s) = b ++ (" " ++ t)) : a = b ∧ s = t := cut (by decide) ha hb h

/-! ## Words -/

theorem lacks_repr {c : Char} (hc : c.isDigit = false) (n : Nat) : Lacks c n.repr := by
  intro h
  rw [Nat.toList_repr] at h
  rw [Nat.isDigit_of_mem_toDigits (by decide) (by decide) h] at hc
  cases hc

theorem lacks_nat {c : Char} (hc : c.isDigit = false) (n : Nat) : Lacks c (toString n) :=
  lacks_repr hc n

theorem lacks_int {c : Char} (hc : c.isDigit = false) (hminus : c ≠ '-') (n : Int) :
    Lacks c (toString n) := by
  rw [Int.toString_eq_repr, Int.repr_eq_if]
  split
  · exact lacks_repr hc _
  · rw [lacks_append]
    exact ⟨by simpa [Lacks] using hminus, lacks_repr hc _⟩

theorem lacks_columnName {c : Char} (hc : c.isDigit = false) (hx : Lacks c "x_") (v : Var) :
    Lacks c v.columnName := lacks_append.2 ⟨hx, lacks_nat hc _⟩

theorem columnName_inj {v w : Var} : v.columnName = w.columnName ↔ v = w := by
  constructor
  · intro h
    have hrepr := (String.append_right_inj _).1 h
    rw [Nat.toString_eq_repr, Nat.toString_eq_repr, Nat.repr_inj] at hrepr
    exact Nat.succ.inj hrepr
  · exact congrArg _

theorem columnName_ne {s : String} (hs : Lacks 'x' s) (v : Var) : v.columnName ≠ s := by
  rintro rfl
  exact absurd (lacks_append.1 hs).1 (by decide)

structure Plain (s : String) : Prop where
  blank : Lacks ' ' s
  minus : Lacks '-' s

theorem plain_nat (n : Nat) : Plain (toString n) :=
  ⟨lacks_nat (by decide) n, lacks_nat (by decide) n⟩

theorem plain_columnName (v : Var) : Plain v.columnName :=
  ⟨lacks_columnName (by decide) (by decide) v, lacks_columnName (by decide) (by decide) v⟩

theorem signed_cut {p q a b s t : String} (hp : p = "" ∨ p = "-") (hq : q = "" ∨ q = "-")
    (ha : Plain a) (hb : Plain b) (h : p ++ (a ++ (" " ++ s)) = q ++ (b ++ (" " ++ t))) :
    p = q ∧ a = b ∧ s = t := by
  have hblank : ∀ {p : String}, p = "" ∨ p = "-" → Lacks ' ' p := by
    rintro p (rfl | rfl) <;> decide
  have hminus : ∀ {x y : String}, Plain x → x ≠ "-" ++ y := by
    rintro x y hx rfl
    exact absurd (lacks_append.1 hx.minus).1 (by decide)
  rw [← @String.append_assoc p, ← @String.append_assoc q] at h
  obtain ⟨hword, hst⟩ := blank_cut (lacks_append.2 ⟨hblank hp, ha.blank⟩)
    (lacks_append.2 ⟨hblank hq, hb.blank⟩) h
  rcases hp with rfl | rfl <;> rcases hq with rfl | rfl
  · exact ⟨rfl, by simpa using hword, hst⟩
  · exact absurd (by simpa using hword) (hminus ha)
  · exact absurd (by simpa using hword.symm) (hminus hb)
  · exact ⟨rfl, (String.append_right_inj _).1 hword, hst⟩

/-! ## Lines -/

@[simp] theorem unlines_nil : unlines [] = "" := rfl

@[simp] theorem unlines_cons (l : String) (ls : List String) :
    unlines (l :: ls) = l ++ ("\n" ++ unlines ls) := by
  rw [unlines, List.map_cons, String.join_cons, String.append_assoc, unlines]

theorem unlines_append (ls ls' : List String) :
    unlines (ls ++ ls') = unlines ls ++ unlines ls' := by
  induction ls with
  | nil => simp
  | cons l ls ih => simp only [List.cons_append, unlines_cons, ih, String.append_assoc]

theorem unlines_inj {ls ls' : List String} (h : ∀ l ∈ ls, Lacks '\n' l)
    (h' : ∀ l ∈ ls', Lacks '\n' l) (heq : unlines ls = unlines ls') : ls = ls' := by
  induction ls generalizing ls' with
  | nil =>
    cases ls' with
    | nil => rfl
    | cons l ls' => simp [unlines_cons] at heq
  | cons l ls ih =>
    cases ls' with
    | nil => simp [unlines_cons] at heq
    | cons l' ls' =>
      rw [List.forall_mem_cons] at h h'
      rw [unlines_cons, unlines_cons] at heq
      obtain ⟨rfl, hrest⟩ := cut (by decide) h.1 h'.1 heq
      rw [ih h.2 h'.2 hrest]

end Text
end Linearize
