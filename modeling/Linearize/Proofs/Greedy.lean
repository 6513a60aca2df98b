import Linearize.Regex.Backtrack

/-!
# Linearize.Proofs.Greedy

Expressions that succeed with what they prefer. If a text is cut where a greedy expression stops,
and what follows succeeds from there, then the expression succeeds with this cut, whatever else it
could do. The one expression that has to give a character back is a loop before an expression that
asks for one more.
-/

namespace Linearize
namespace Regex

open Trial

def Cursor.between (before behind : List Char) : Cursor :=
  ⟨before.getLast?, behind, behind.length⟩

theorem Cursor.next?_between (before : List Char) (x : Char) (behind : List Char) :
    (between before (x :: behind)).next? = some (x, between (before ++ [x]) behind) := by
  simp [between, next?]

theorem Cursor.upTo_between (before xs behind : List Char) :
    (between before (xs ++ behind)).upTo (between (before ++ xs) behind) = xs := by
  simp [between, upTo]

/-- Behind `before` the expression takes `xs`, records `marks` and leaves `ys`, if what follows it
succeeds there. -/
def Takes (r : Regex) (before xs ys : List Char) (marks : Captures) : Prop :=
  ∀ (k : Trial) (e : Ending), k (.between (before ++ xs) ys) = some e →
    r.run k (.between before (xs ++ ys)) = some (e.1, e.2 ++ marks)

/-- Nothing comes of the expression before `ys`. -/
def Fails (r : Regex) (ys : List Char) : Prop :=
  ∀ (before : List Char) (k : Trial), r.run k (.between before ys) = none

def StopsAt (s : CharSet) (ys : List Char) : Prop := ∀ y ∈ ys.head?, s.contains y = false

def groupMarks (i : Nat) (before xs ys : List Char) : Captures :=
  [(2 * i + 1, .between (before ++ xs) ys), (2 * i, .between before (xs ++ ys))]

variable {r a b : Regex} {s : CharSet} {before xs ys zs : List Char} {x : Char}
  {marks marks' : Captures} {k : Trial}

/-! ## Characters -/

theorem stopsAt_nil (s : CharSet) : StopsAt s [] := nofun

theorem stopsAt_cons (h : s.contains x = false) : StopsAt s (x :: xs) := by
  rintro _ ⟨⟩
  exact h

theorem one_between (hx : s.contains x = true) :
    Trial.one s k (.between before (x :: xs)) = k (.between (before ++ [x]) xs) := by
  rw [Trial.one, Cursor.next?_between]
  exact if_pos hx

theorem one_stops (h : StopsAt s ys) : Trial.one s k (.between before ys) = none := by
  cases ys with
  | nil => rfl
  | cons y ys =>
    rw [Trial.one, Cursor.next?_between]
    exact if_neg (by simp [h y rfl])

theorem takes_one (hx : s.contains x = true) : (Regex.one s).Takes before [x] ys [] := by
  intro k e he
  rw [List.append_nil]
  exact (one_between hx).trans he

theorem takes_text (xs : List Char) : (text xs).Takes before xs ys [] := by
  intro k e he
  rw [List.append_nil]
  induction xs generalizing before with
  | nil =>
    rw [List.append_nil] at he
    exact he
  | cons x xs ih =>
    rw [List.append_cons] at he
    exact (one_between (by simp [CharSet.contains_single])).trans (ih he)

theorem fails_one (h : StopsAt s ys) : (Regex.one s).Fails ys := fun _ _ => one_stops h

theorem fails_text (h : StopsAt (.single x) ys) : (text [x]).Fails ys := fun _ _ => one_stops h

/-! ## Sequences -/

theorem Takes.seq (ha : a.Takes before xs (ys ++ zs) marks)
    (hb : b.Takes (before ++ xs) ys zs marks') :
    (seq a b).Takes before (xs ++ ys) zs (marks' ++ marks) := by
  intro k e he
  rw [← List.append_assoc] at he
  rw [List.append_assoc, ← List.append_assoc e.2]
  exact ha _ _ (hb k e he)

theorem Takes.andThen (ha : a.Takes before xs (ys ++ zs) [])
    (hb : b.Takes (before ++ xs) ys zs marks) :
    (Regex.seq a b).Takes before (xs ++ ys) zs marks := by
  have h := ha.seq hb
  rwa [List.append_nil] at h

theorem Fails.seq (ha : a.Fails ys) : (Regex.seq a b).Fails ys := fun before _ => ha before _

theorem Takes.group (i : Nat) (h : r.Takes before xs ys []) :
    (group i r).Takes before xs ys (groupMarks i before xs ys) := by
  intro k e he
  have hbody := h (fun d => record (2 * i + 1) d (k d))
    (e.1, e.2 ++ [(2 * i + 1, .between (before ++ xs) ys)]) (by rw [he]; rfl)
  change record (2 * i) _ (r.run _ _) = _
  rw [hbody]
  simp [record, groupMarks]

theorem takes_anchor {a : Anchor} (h : (Cursor.between before ys).isAt a = true) :
    (anchor a).Takes before [] ys [] := by
  intro k e he
  rw [List.append_nil] at he
  change (if (Cursor.between before ys).isAt a = true then _ else _) = _
  rw [if_pos h, List.append_nil]
  exact he

theorem Fails.anchor_seq (a : Anchor) (h : r.Fails ys) : (Regex.seq (anchor a) r).Fails ys := by
  intro before k
  change (if (Cursor.between before ys).isAt a = true then r.run k _ else none) = none
  rw [h before k, ite_self]

/-! ## Repetitions -/

theorem Takes.optional (h : r.Takes before xs ys marks) :
    (times true 0 (some 1) r).Takes before xs ys marks := by
  intro k e he
  have hr := h k e he
  change (r.run k _).or _ = _
  rw [hr, Option.some_or]

theorem Fails.optional (h : r.Fails ys) : (times true 0 (some 1) r).Takes before [] ys [] := by
  intro k e he
  rw [List.append_nil] at he
  change (r.run k _).or (k _) = _
  rw [List.nil_append, h before k, he, Option.none_or, List.append_nil]

theorem Fails.optional_seq (ha : a.Fails ys) (hb : b.Fails ys) :
    (Regex.seq (times true 0 (some 1) a) b).Fails ys := by
  intro before k
  change (a.run (b.run k) _).or (b.run k _) = none
  rw [ha before, hb before, Option.none_or]

theorem loop_cons (hx : s.contains x = true) :
    loop true (Trial.one s) k (.between before (x :: xs)) =
      (loop true (Trial.one s) k (.between (before ++ [x]) xs)).or
        (k (.between before (x :: xs))) := by
  rw [loop, pick, if_pos rfl, one_between hx]
  exact congrArg (Option.or · _) (if_pos (Nat.lt_succ_self _))

theorem loop_stops (h : StopsAt s ys) :
    loop true (Trial.one s) k (.between before ys) = k (.between before ys) := by
  rw [loop, pick, if_pos rfl, one_stops h, Option.none_or]

theorem loop_takes {e : Ending} (hxs : ∀ x ∈ xs, s.contains x = true) (hys : StopsAt s ys)
    (he : k (.between (before ++ xs) ys) = some e) :
    loop true (Trial.one s) k (.between before (xs ++ ys)) = some e := by
  induction xs generalizing before with
  | nil =>
    rw [List.append_nil] at he
    exact (loop_stops hys).trans he
  | cons x xs ih =>
    obtain ⟨hx, hxs⟩ := List.forall_mem_cons.1 hxs
    rw [List.append_cons] at he
    rw [List.cons_append, loop_cons hx, ih hxs he, Option.some_or]

theorem takes_star (hxs : ∀ x ∈ xs, s.contains x = true) (hys : StopsAt s ys) :
    (times true 0 none (Regex.one s)).Takes before xs ys [] := by
  intro k e he
  rw [List.append_nil]
  exact loop_takes hxs hys he

theorem takes_plus (hne : xs ≠ []) (hxs : ∀ x ∈ xs, s.contains x = true) (hys : StopsAt s ys) :
    (times true 1 none (Regex.one s)).Takes before xs ys [] := by
  intro k e he
  rw [List.append_nil]
  obtain ⟨x, xs, rfl⟩ := List.exists_cons_of_ne_nil hne
  obtain ⟨hx, hxs⟩ := List.forall_mem_cons.1 hxs
  rw [List.append_cons] at he
  exact (one_between hx).trans (loop_takes hxs hys he)

theorem fails_plus (hys : StopsAt s ys) : (times true 1 none (Regex.one s)).Fails ys :=
  fun _ _ => one_stops hys

/-- A loop that goes to its end, where nothing comes of what follows it, and gives the last
character back. -/
theorem Takes.star_back (hr : r.Fails (zs ++ ys)) (hxs : ∀ x ∈ xs, s.contains x = true)
    (hx : s.contains x = true) (hstops : StopsAt s (zs ++ ys))
    (h : r.Takes (before ++ xs) (x :: zs) ys marks) :
    (Regex.seq (times true 0 none (Regex.one s)) r).Takes before (xs ++ x :: zs) ys marks := by
  intro k e he
  have hlast : r.run k (.between (before ++ xs) (x :: (zs ++ ys))) = some (e.1, e.2 ++ marks) :=
    h k e (by rwa [List.append_assoc])
  change loop true (Trial.one s) (r.run k) _ = _
  rw [List.append_assoc, List.cons_append]
  clear h he
  induction xs generalizing before with
  | nil =>
    rw [List.append_nil] at hlast
    rw [List.nil_append, loop_cons hx, loop_stops hstops, hr, Option.none_or, hlast]
  | cons x' xs ih =>
    obtain ⟨hx', hxs⟩ := List.forall_mem_cons.1 hxs
    rw [List.append_cons] at hlast
    rw [List.cons_append, loop_cons hx', ih hxs hlast, Option.some_or]

/-! ## Searches -/

theorem matchAt?_of_takes (h : r.Takes before xs ys marks) :
    r.matchAt? (.between before (xs ++ ys)) =
      some ⟨.between before (xs ++ ys), .between (before ++ xs) ys, marks⟩ := by
  rw [matchAt?, h done _ rfl]
  rfl

theorem matchAt?_of_fails (h : r.Fails ys) (before : List Char) :
    r.matchAt? (.between before ys) = none := by
  rw [matchAt?, h before done]
  rfl

theorem leftmost?_of_matchAt? {c : Cursor} {m : Match} (h : r.matchAt? c = some m) :
    r.leftmost? c.before c.left c.rest = some m := by
  obtain ⟨b, rest, left⟩ := c
  cases rest with
  | nil => exact h
  | cons x xs =>
    rw [leftmost?, h]
    rfl

theorem leftmost?_cons (h : r.Fails (x :: xs)) :
    r.leftmost? before.getLast? (x :: xs).length (x :: xs) =
      r.leftmost? (before ++ [x]).getLast? xs.length xs := by
  have hnone : r.matchAt? ⟨before.getLast?, x :: xs, (x :: xs).length⟩ = none :=
    matchAt?_of_fails h before
  rw [leftmost?, hnone, Option.none_or, List.getLast?_concat]
  rfl

end Regex
end Linearize
