import Mathlib
import Linearize.Statement.Grammar

/-!
# Linearize.Proofs.Tokens

The reader of leaves and their written forms. Reading takes the longest token and never goes back,
so the argument is about what may follow a token: nothing, space or the end of a list, none of
which goes on with it.
-/

namespace Linearize
namespace Tree

def stoppers : List Char := [' ', '\t', '\r', '\n', ')']

/-- The text cannot go on with a token: it is at its end, or at a character that stops one. -/
def Stops : List Char → Prop
  | [] => True
  | c :: _ => isSpace c = true ∨ c = ')'

theorem isSpace_iff {c : Char} : isSpace c = true ↔ c = ' ' ∨ c = '\t' ∨ c = '\r' ∨ c = '\n' := by
  simp [isSpace, or_assoc]

theorem mem_stoppers {c : Char} (h : isSpace c = true ∨ c = ')') : c ∈ stoppers := by
  rcases h with h | rfl
  · rcases isSpace_iff.1 h with rfl | rfl | rfl | rfl <;> simp [stoppers]
  · simp [stoppers]

theorem not_of_mem_stoppers {p : Char → Bool} (hp : stoppers.any p = false) {c : Char}
    (hc : c ∈ stoppers) : ¬ p c = true := List.any_eq_false.1 hp c hc

theorem Stops.takeWhile {p : Char → Bool} {rest : List Char} (h : Stops rest)
    (hp : stoppers.any p = false) : rest.takeWhile p = [] := by
  cases rest with
  | nil => rfl
  | cons c rest => rw [List.takeWhile_cons, if_neg (not_of_mem_stoppers hp (mem_stoppers h))]

theorem takeWhile_append_stops {p : Char → Bool} {cs rest : List Char} (h : Stops rest)
    (hp : stoppers.any p = false) (hcs : ∀ c ∈ cs, p c = true) :
    (cs ++ rest).takeWhile p = cs := by
  rw [List.takeWhile_append_of_pos hcs, h.takeWhile hp, List.append_nil]

theorem dropWhile_append_stops {p : Char → Bool} {cs rest : List Char} (h : Stops rest)
    (hp : stoppers.any p = false) (hcs : ∀ c ∈ cs, p c = true) :
    (cs ++ rest).dropWhile p = rest := by
  have hsplit := List.takeWhile_append_dropWhile (p := p) (l := cs ++ rest)
  rw [takeWhile_append_stops h hp hcs] at hsplit
  exact List.append_cancel_left hsplit

theorem isIdentChar_stops : stoppers.any isIdentChar = false := by decide

theorem isDigit_stops : stoppers.any Char.isDigit = false := by decide

/-! ## Fixed words -/

theorem stripWord?_eq_some_iff {w cs rest : List Char} :
    stripWord? w cs = some rest ↔ cs = w ++ rest := by
  induction w generalizing cs with
  | nil => simp [stripWord?]
  | cons c w ih =>
    cases cs with
    | nil => simp [stripWord?]
    | cons d cs =>
      by_cases h : c = d
      · simp [stripWord?, h, ih]
      · simp [stripWord?, h, Ne.symm h]

theorem readWord?_sound {ws : List String} {cs rest : List Char} {t : Tree}
    (h : readWord? ws cs = some (t, rest)) :
    ∃ w ∈ ws, t = .ident w ∧ cs = w.toList ++ rest := by
  induction ws with
  | nil => cases h
  | cons w ws ih =>
    simp only [readWord?] at h
    split at h
    · rename_i hs
      cases h
      exact ⟨w, List.mem_cons_self, rfl, stripWord?_eq_some_iff.1 hs⟩
    · obtain ⟨w', hw, hr⟩ := ih h
      exact ⟨w', List.mem_cons_of_mem w hw, hr⟩

theorem readWord?_eq_none {ws : List String} {cs : List Char}
    (h : ∀ w ∈ ws, ∀ rest, cs ≠ w.toList ++ rest) : readWord? ws cs = none := by
  cases hr : readWord? ws cs with
  | none => rfl
  | some r =>
    obtain ⟨w, hw, -, hcs⟩ := readWord?_sound hr
    exact absurd hcs (h w hw r.2)

/-- A word of the list is read if no other word of the list starts the text. -/
theorem readWord?_append {ws : List String} {w : String} {cs : List Char} (hw : w ∈ ws)
    (h : ∀ v ∈ ws, ∀ rest, w.toList ++ cs = v.toList ++ rest → v = w) :
    readWord? ws (w.toList ++ cs) = some (.ident w, cs) := by
  induction ws with
  | nil => cases hw
  | cons v ws ih =>
    rw [List.forall_mem_cons] at h
    simp only [readWord?]
    split
    · rename_i rest hs
      have heq := stripWord?_eq_some_iff.1 hs
      obtain rfl := h.1 rest heq
      rw [List.append_cancel_left heq]
    · rename_i hs
      rcases List.mem_cons.1 hw with rfl | hw
      · rw [stripWord?_eq_some_iff.2 rfl] at hs
        cases hs
      · exact ih hw h.2

theorem wordwise_toList : "xor-truncated-wordwise".toList =
    "xor-truncated".toList ++ ['-', 'w', 'o', 'r', 'd', 'w', 'i', 's', 'e'] := by
  rw [String.toList_ofList, String.toList_ofList]
  rfl

theorem truncated_toList : "xor-truncated".toList =
    ['x', 'o', 'r'] ++ '-' :: ['t', 'r', 'u', 'n', 'c', 'a', 't', 'e', 'd'] := by
  rw [String.toList_ofList]
  rfl

theorem exists_of_mem_hyphenated {w : String} (h : w ∈ hyphenated) :
    ∃ cs, w.toList = ['x', 'o', 'r'] ++ '-' :: cs := by
  simp only [hyphenated, List.mem_cons, List.not_mem_nil, or_false] at h
  rcases h with rfl | rfl
  · rw [wordwise_toList, truncated_toList]
    exact ⟨_, rfl⟩
  · exact ⟨_, truncated_toList⟩

theorem operators_toList : operators.map String.toList =
    [['<', '='], ['>', '='], ['='], ['+'], ['-'], ['*']] := by
  simp only [operators, List.map_cons, List.map_nil]
  iterate 6 rw [String.toList_ofList]

theorem exists_of_mem_operators {w : String} (h : w ∈ operators) :
    ∃ c cs, w.toList = c :: cs ∧ c ≠ 'x' ∧ c ≠ '(' ∧ isSpace c = false ∧ isIdentStart c = false ∧
      c.isDigit = false ∧ (c = '-' → cs = []) := by
  have hmem : w.toList ∈ operators.map String.toList := List.mem_map_of_mem h
  rw [operators_toList] at hmem
  simp only [List.mem_cons, List.not_mem_nil, or_false] at hmem
  rcases hmem with hw | hw | hw | hw | hw | hw <;> exact ⟨_, _, hw, by decide⟩

theorem readWord?_hyphenated_of_ne {c : Char} {cs : List Char} (h : c ≠ 'x') :
    readWord? hyphenated (c :: cs) = none := by
  refine readWord?_eq_none fun w hw rest heq => ?_
  obtain ⟨ds, hds⟩ := exists_of_mem_hyphenated hw
  rw [hds] at heq
  exact h (List.cons.inj heq).1

/-- An identifier is no part of a hyphenated word: where it ends there is no hyphen. -/
theorem readWord?_hyphenated_of_ident {cs rest : List Char} (hcs : ∀ x ∈ cs, isIdentChar x = true)
    (h : Stops rest) : readWord? hyphenated (cs ++ rest) = none := by
  refine readWord?_eq_none fun w hw rest' heq => ?_
  obtain ⟨ds, hds⟩ := exists_of_mem_hyphenated hw
  rw [hds, List.append_assoc] at heq
  have hdrop := congrArg (List.dropWhile isIdentChar) heq
  have hxor : ['x', 'o', 'r'].all isIdentChar = true := by decide
  rw [dropWhile_append_stops h isIdentChar_stops hcs,
    List.dropWhile_append_of_pos (List.all_eq_true.1 hxor), List.cons_append, List.dropWhile_cons_of_neg (by decide)] at hdrop
  rw [hdrop] at h
  exact absurd h (by simp [Stops, isSpace])

/-! ## Leaves -/

theorem isIdentChar_of_isIdentStart {c : Char} (h : isIdentStart c = true) :
    isIdentChar c = true := by
  have hlt : c.toNat < 128 := by
    simp only [isIdentStart, Char.isAlpha, Char.isUpper, Char.isLower, Bool.or_eq_true,
      Bool.and_eq_true, decide_eq_true_eq, UInt32.le_iff_toNat_le, ge_iff_le] at h
    have hval : c.toNat = c.val.toNat := rfl
    have hZ : 'Z'.val.toNat = 90 := rfl
    have hz : 'z'.val.toNat = 122 := rfl
    omega
  simp [isIdentChar, Text.isAlphanumeric, hlt, Char.isAlphanum, show c.isAlpha = true from h]

theorem not_isIdentStart_of_isDigit {c : Char} (h : c.isDigit = true) :
    isIdentStart c = false ∧ c ≠ 'x' ∧ c ≠ '-' := by
  refine ⟨?_, ?_, ?_⟩
  · simp only [isIdentStart, Char.isAlpha, Char.isUpper, Char.isLower, Char.isDigit,
      Bool.and_eq_true, decide_eq_true_eq, Bool.or_eq_false_iff, Bool.and_eq_false_iff,
      decide_eq_false_iff_not, UInt32.le_iff_toNat_le, ge_iff_le] at h ⊢
    have h9 : '9'.val.toNat = 57 := rfl
    have hA : 'A'.val.toNat = 65 := rfl
    have ha : 'a'.val.toNat = 97 := rfl
    omega
  · rintro rfl
    cases h
  · rintro rfl
    cases h

theorem readDigits?_eq_some_iff {negative : Bool} {cs rest : List Char} {t : Tree} :
    readDigits? negative cs = some (t, rest) ↔
      ∃ n, cs.takeWhile Char.isDigit ≠ [] ∧ t = .int n ∧ rest = cs.dropWhile Char.isDigit ∧
        n = (if negative then -(Text.digitsValue 0 (cs.takeWhile Char.isDigit) : Int)
          else Text.digitsValue 0 (cs.takeWhile Char.isDigit)) ∧ Fits n := by
  simp only [readDigits?]
  split
  · rename_i he
    simp [List.isEmpty_iff.1 he]
  · rename_i he
    rw [List.isEmpty_iff] at he
    split
    · rename_i hn
      simp only [Text.readInt?, fit?_eq_none_iff] at hn
      constructor
      · intro h
        cases h
      · rintro ⟨n, -, -, -, rfl, hfit⟩
        exact absurd hfit hn
    · rename_i n hn
      obtain ⟨hfit, rfl⟩ := fit?_eq_some_iff.1 hn
      constructor
      · intro h
        cases h
        exact ⟨_, he, rfl, rfl, rfl, hfit⟩
      · rintro ⟨n, -, rfl, rfl, rfl, -⟩
        rfl

theorem readDigits?_sound {negative : Bool} {cs rest : List Char} {t : Tree}
    (h : readDigits? negative cs = some (t, rest)) :
    ∃ ds, cs = ds ++ rest ∧ WritesLeaf t (if negative then '-' :: ds else ds) := by
  obtain ⟨n, hne, rfl, rfl, hn, hfit⟩ := readDigits?_eq_some_iff.1 h
  have hdigit : ∀ d ∈ cs.takeWhile Char.isDigit, d.isDigit = true := fun d hd =>
    List.mem_takeWhile_imp hd
  refine ⟨_, List.takeWhile_append_dropWhile.symm, ?_⟩
  cases negative with
  | false => exact .natural hne hdigit hn hfit
  | true => exact .negative hne hdigit hn hfit

theorem readDigits?_append (negative : Bool) {ds rest : List Char} {n : Int} (h : Stops rest)
    (hne : ds ≠ []) (hds : ∀ d ∈ ds, d.isDigit = true)
    (hn : n = if negative then -(Text.digitsValue 0 ds : Int) else Text.digitsValue 0 ds)
    (hfit : Fits n) : readDigits? negative (ds ++ rest) = some (.int n, rest) := by
  rw [readDigits?_eq_some_iff, takeWhile_append_stops h isDigit_stops hds,
    dropWhile_append_stops h isDigit_stops hds]
  exact ⟨n, hne, rfl, rfl, hn, hfit⟩

theorem readInt?_of_ne {c : Char} {cs : List Char} (h : c ≠ '-') :
    readInt? (c :: cs) = readDigits? false (c :: cs) := by
  unfold readInt?
  split
  · rename_i heq
    exact absurd (List.cons.inj heq).1 h
  · rfl

theorem readIdent?_sound {cs rest : List Char} {t : Tree} (h : readIdent? cs = some (t, rest)) :
    ∃ w, cs = w ++ rest ∧ WritesLeaf t w := by
  cases cs with
  | nil => cases h
  | cons c cs =>
    simp only [readIdent?] at h
    split at h
    · rename_i hc
      cases h
      refine ⟨c :: cs.takeWhile isIdentChar, ?_, .ident hc fun x hx => List.mem_takeWhile_imp hx⟩
      rw [List.cons_append, List.takeWhile_append_dropWhile]
    · cases h

theorem readInt?_sound {cs rest : List Char} {t : Tree} (h : readInt? cs = some (t, rest)) :
    ∃ w, cs = w ++ rest ∧ WritesLeaf t w := by
  unfold readInt? at h
  split at h
  · obtain ⟨ds, rfl, hw⟩ := readDigits?_sound h
    exact ⟨'-' :: ds, rfl, hw⟩
  · obtain ⟨ds, rfl, hw⟩ := readDigits?_sound h
    exact ⟨ds, rfl, hw⟩

theorem readLeaf?_sound {cs rest : List Char} {t : Tree} (h : readLeaf? cs = some (t, rest)) :
    ∃ w, cs = w ++ rest ∧ WritesLeaf t w := by
  simp only [readLeaf?] at h
  split at h
  · rename_i hr
    cases h
    obtain ⟨w, hw, rfl, rfl⟩ := readWord?_sound hr
    exact ⟨_, rfl, .word (.inl hw)⟩
  · split at h
    · rename_i hr
      cases h
      exact readIdent?_sound hr
    · split at h
      · rename_i hr
        cases h
        exact readInt?_sound hr
      · obtain ⟨w, hw, rfl, rfl⟩ := readWord?_sound h
        exact ⟨_, rfl, .word (.inr hw)⟩

theorem WritesLeaf.starts {t : Tree} {cs : List Char} (h : WritesLeaf t cs) :
    ∃ c rest, cs = c :: rest ∧ c ≠ '(' ∧ isSpace c = false := by
  have hclass : ∀ {p : Char → Bool} {c : Char}, p c = true → p '(' = false →
      stoppers.any p = false → c ≠ '(' ∧ isSpace c = false := by
    intro p c hc hopen hstops
    constructor
    · intro h
      rw [h, hopen] at hc
      cases hc
    · rw [← Bool.not_eq_true]
      exact fun hsp => not_of_mem_stoppers hstops (mem_stoppers (.inl hsp)) hc
  cases h with
  | ident hc _ => exact ⟨_, _, rfl, hclass hc (by decide) (by decide)⟩
  | word hw =>
    rcases hw with hw | hw
    · obtain ⟨ds, hds⟩ := exists_of_mem_hyphenated hw
      exact ⟨_, _, hds, by decide⟩
    · obtain ⟨c, ds, hds, -, hopen, hsp, -⟩ := exists_of_mem_operators hw
      exact ⟨_, _, hds, hopen, hsp⟩
  | natural hne hds _ _ =>
    obtain ⟨d, ds, rfl⟩ := List.exists_cons_of_ne_nil hne
    exact ⟨_, _, rfl, hclass (hds d List.mem_cons_self) (by decide) isDigit_stops⟩
  | negative _ _ _ _ => exact ⟨_, _, rfl, by decide⟩

theorem readLeaf?_of_ident {c : Char} {cs rest : List Char} (hc : isIdentStart c = true)
    (hcs : ∀ x ∈ cs, isIdentChar x = true) (hr : Stops rest) :
    readLeaf? (c :: cs ++ rest) = some (.ident (String.ofList (c :: cs)), rest) := by
  have hword : readWord? hyphenated (c :: cs ++ rest) = none :=
    readWord?_hyphenated_of_ident
      (List.forall_mem_cons.2 ⟨isIdentChar_of_isIdentStart hc, hcs⟩) hr
  have hident : readIdent? (c :: cs ++ rest) = some (.ident (String.ofList (c :: cs)), rest) := by
    rw [List.cons_append, readIdent?, if_pos hc, takeWhile_append_stops hr isIdentChar_stops hcs,
      dropWhile_append_stops hr isIdentChar_stops hcs]
  simp only [readLeaf?, hword, hident]

theorem readLeaf?_of_hyphenated {w : String} {rest : List Char} (hw : w ∈ hyphenated)
    (hr : Stops rest) : readLeaf? (w.toList ++ rest) = some (.ident w, rest) := by
  have hword : readWord? hyphenated (w.toList ++ rest) = some (.ident w, rest) := by
    have hmem := hw
    simp only [hyphenated, List.mem_cons, List.not_mem_nil, or_false] at hw
    rcases hw with rfl | rfl
    · -- the longer word stands first, so that the shorter one does not hide it
      rw [hyphenated, readWord?, stripWord?_eq_some_iff.2 rfl]
    · refine readWord?_append hmem fun v hv rest' heq => ?_
      simp only [hyphenated, List.mem_cons, List.not_mem_nil, or_false] at hv
      rcases hv with rfl | rfl
      · rw [wordwise_toList, List.append_assoc] at heq
        rw [List.append_cancel_left heq] at hr
        exact absurd hr (by simp [Stops, isSpace])
      · rfl
  simp only [readLeaf?, hword]

theorem readIdent?_of_not {c : Char} {cs : List Char} (hc : isIdentStart c = false) :
    readIdent? (c :: cs) = none := by
  rw [readIdent?, if_neg (by rw [hc]; decide)]

theorem readDigits?_of_not {negative : Bool} {cs : List Char}
    (h : cs.takeWhile Char.isDigit = []) : readDigits? negative cs = none := by
  simp [readDigits?, h]

theorem operators_head : ∀ v ∈ operators, ∀ w ∈ operators,
    v.toList.head? = w.toList.head? → v = w := by
  decide

theorem readLeaf?_of_operator {w : String} {rest : List Char} (hw : w ∈ operators)
    (hr : Stops rest) : readLeaf? (w.toList ++ rest) = some (.ident w, rest) := by
  have hop : readWord? operators (w.toList ++ rest) = some (.ident w, rest) := by
    refine readWord?_append hw fun v hv rest' heq => operators_head v hv w hw ?_
    obtain ⟨c, cs, hc, -⟩ := exists_of_mem_operators hw
    obtain ⟨d, ds, hd, -⟩ := exists_of_mem_operators hv
    rw [hc, hd] at heq ⊢
    exact congrArg some (List.cons.inj heq).1.symm
  obtain ⟨c, cs, hcs, hx, -, -, hident, hdigit, hminus⟩ := exists_of_mem_operators hw
  have hint : readInt? (c :: cs ++ rest) = none := by
    by_cases hc : c = '-'
    · -- a minus sign alone: what follows it is no digit
      subst hc
      rw [hminus rfl]
      exact readDigits?_of_not (hr.takeWhile isDigit_stops)
    · rw [List.cons_append, readInt?_of_ne hc]
      exact readDigits?_of_not (by rw [List.takeWhile_cons, if_neg (by rw [hdigit]; decide)])
  rw [hcs] at hop ⊢
  have hword : readWord? hyphenated (c :: cs ++ rest) = none := readWord?_hyphenated_of_ne hx
  have hident' : readIdent? (c :: cs ++ rest) = none := readIdent?_of_not hident
  simp only [readLeaf?, hword, hident', hint, hop]

theorem readLeaf?_of_int {c : Char} {cs rest : List Char} {n : Int} (hx : c ≠ 'x')
    (hident : isIdentStart c = false) (h : readInt? (c :: cs) = some (.int n, rest)) :
    readLeaf? (c :: cs) = some (.int n, rest) := by
  simp only [readLeaf?, readWord?_hyphenated_of_ne hx, readIdent?_of_not hident, h]

/-- Reading is the longest match: a leaf is read off any text that cannot go on with it. -/
theorem readLeaf?_append {t : Tree} {cs rest : List Char} (h : WritesLeaf t cs)
    (hr : Stops rest) : readLeaf? (cs ++ rest) = some (t, rest) := by
  cases h with
  | ident hc hcs => exact readLeaf?_of_ident hc hcs hr
  | word hw =>
    rcases hw with hw | hw
    · exact readLeaf?_of_hyphenated hw hr
    · exact readLeaf?_of_operator hw hr
  | natural hne hds hn hfit =>
    have hread := readDigits?_append false hr hne hds hn hfit
    obtain ⟨d, ds, rfl⟩ := List.exists_cons_of_ne_nil hne
    obtain ⟨hident, hx, hminus⟩ := not_isIdentStart_of_isDigit (hds d List.mem_cons_self)
    rw [List.cons_append, ← readInt?_of_ne hminus] at hread
    exact readLeaf?_of_int hx hident hread
  | negative hne hds hn hfit =>
    exact readLeaf?_of_int (by decide) (by decide)
      (readDigits?_append true hr hne hds hn hfit)

end Tree
end Linearize
