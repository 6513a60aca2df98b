import Linearize.Proofs.Tokens

/-!
# Linearize.Proofs.Parsing

The reader of trees and their written forms. The depth that reading starts with is enough for any
text, since a list deeper by one is longer by two characters.
-/

namespace Linearize
namespace Tree

/-! ## Space -/

theorem skipSpace_append {gap cs : List Char} (hg : IsGap gap) :
    skipSpace (gap ++ cs) = skipSpace cs := List.dropWhile_append_of_pos hg

theorem skipSpace_cons {c : Char} {cs : List Char} (h : isSpace c = false) :
    skipSpace (c :: cs) = c :: cs := by
  rw [skipSpace, List.dropWhile_cons_of_neg (by rw [h]; decide)]

theorem exists_gap (cs : List Char) : ∃ gap, IsGap gap ∧ cs = gap ++ skipSpace cs :=
  ⟨cs.takeWhile isSpace, fun _ hc => List.mem_takeWhile_imp hc,
    List.takeWhile_append_dropWhile.symm⟩

theorem Stops.gap {gap rest : List Char} (hg : IsGap gap) (hr : Stops rest) :
    Stops (gap ++ rest) := by
  cases gap with
  | nil => exact hr
  | cons c gap => exact .inl (hg c List.mem_cons_self)

/-! ## Trees -/

theorem readItem?_open (depth : Nat) (cs : List Char) :
    readItem? (depth + 1) ('(' :: cs) =
      match skipSpace (readElements depth (skipSpace cs)).2 with
      | ')' :: rest => some (.node (readElements depth (skipSpace cs)).1, rest)
      | _ => none := rfl

theorem readItem?_zero (cs : List Char) : readItem? 0 cs = readLeaf? cs := by
  unfold readItem?
  rfl

theorem readItem?_of_ne (depth : Nat) {cs : List Char} (h : ∀ ds, cs ≠ '(' :: ds) :
    readItem? depth cs = readLeaf? cs := by
  unfold readItem?
  split
  · rename_i ds
    exact absurd rfl (h ds)
  · rfl

/-- What is read at any depth is written where it was read. -/
theorem read_sound (depth : Nat) :
    (∀ {cs rest t}, readItem? depth cs = some (t, rest) → ∃ w, cs = w ++ rest ∧ Writes t w) ∧
    (∀ cs, ∃ w, cs = w ++ (readElements depth cs).2 ∧ WritesAll (readElements depth cs).1 w) ∧
    ∀ cs, readMore depth cs = ([], cs) ∨
      ∃ gap w, IsGap gap ∧ gap ≠ [] ∧ cs = gap ++ w ++ (readMore depth cs).2 ∧
        (readMore depth cs).1 ≠ [] ∧ WritesAll (readMore depth cs).1 w := by
  induction depth with
  | zero =>
    refine ⟨fun h => ?_, fun cs => ⟨[], rfl, .nil⟩, fun cs => .inl rfl⟩
    rw [readItem?_zero] at h
    obtain ⟨w, hcs, hw⟩ := readLeaf?_sound h
    exact ⟨w, hcs, .leaf hw⟩
  | succ depth ih =>
    obtain ⟨ihItem, ihElements, ihMore⟩ := ih
    refine ⟨?_, ?_, ?_⟩
    · intro cs rest t h
      by_cases hopen : ∃ ds, cs = '(' :: ds
      · obtain ⟨ds, rfl⟩ := hopen
        rw [readItem?_open] at h
        split at h
        · rename_i hclose
          cases h
          obtain ⟨gap, hgap, hds⟩ := exists_gap ds
          obtain ⟨w, hw, hwrites⟩ := ihElements (skipSpace ds)
          obtain ⟨gap', hgap', hrest⟩ := exists_gap (readElements depth (skipSpace ds)).2
          refine ⟨_, ?_, .node hgap hwrites hgap'⟩
          rw [hclose] at hrest
          rw [hrest] at hw
          rw [hw] at hds
          rw [hds]
          simp
        · cases h
      · rw [readItem?_of_ne _ fun ds heq => hopen ⟨ds, heq⟩] at h
        obtain ⟨w, hcs, hw⟩ := readLeaf?_sound h
        exact ⟨w, hcs, .leaf hw⟩
    · intro cs
      simp only [readElements]
      cases hitem : readItem? depth cs with
      | none => exact ⟨[], rfl, .nil⟩
      | some r =>
        obtain ⟨t, rest⟩ := r
        obtain ⟨w, rfl, hw⟩ := ihItem hitem
        rcases ihMore rest with hmore | ⟨gap, w', hgap, hne, hcs, hts, hw'⟩
        · simp only [hmore]
          exact ⟨w, rfl, .single hw⟩
        · refine ⟨w ++ gap ++ w', ?_, .cons hw hgap hne hts hw'⟩
          rw [List.append_assoc, List.append_assoc, ← List.append_assoc gap, ← hcs]
    · intro cs
      cases cs with
      | nil => exact .inl rfl
      | cons c cs =>
        simp only [readMore]
        by_cases hc : isSpace c = true
        · rw [if_pos hc]
          cases hitem : readItem? depth (skipSpace (c :: cs)) with
          | none => exact .inl rfl
          | some r =>
            obtain ⟨t, rest⟩ := r
            obtain ⟨gap, hgap, hcs⟩ := exists_gap (c :: cs)
            obtain ⟨w, hw, hwrites⟩ := ihItem hitem
            have hne : gap ≠ [] := by
              rintro rfl
              rw [skipSpace, List.dropWhile_cons_of_pos hc] at hcs
              have hlen := congrArg List.length hcs
              have hle := (List.dropWhile_sublist isSpace (l := cs)).length_le
              simp at hlen
              omega
            rw [hw] at hcs
            refine .inr ?_
            rcases ihMore rest with hmore | ⟨gap', w', hgap', hne', hcs', hts, hw'⟩
            · simp only [hmore]
              exact ⟨gap, w, hgap, hne, by rw [List.append_assoc]; exact hcs, by simp,
                .single hwrites⟩
            · refine ⟨gap, w ++ gap' ++ w', hgap, hne, ?_, by simp,
                .cons hwrites hgap' hne' hts hw'⟩
              rw [hcs', ← List.append_assoc, ← List.append_assoc] at hcs
              simpa using hcs
        · rw [if_neg hc]
          exact .inl rfl

theorem Writes.starts {t : Tree} {cs : List Char} (h : Writes t cs) :
    ∃ c rest, cs = c :: rest ∧ isSpace c = false := by
  cases h with
  | leaf h =>
    obtain ⟨c, rest, hcs, -, hsp⟩ := h.starts
    exact ⟨c, rest, hcs, hsp⟩
  | node => exact ⟨_, _, rfl, by decide⟩

theorem Writes.skipSpace {t : Tree} {cs : List Char} (h : Writes t cs) (rest : List Char) :
    skipSpace (cs ++ rest) = cs ++ rest := by
  obtain ⟨c, ds, rfl, hsp⟩ := h.starts
  exact skipSpace_cons hsp

theorem WritesAll.skipSpace {ts : List Tree} {cs : List Char} (h : WritesAll ts cs) (hts : ts ≠ [])
    (rest : List Char) : Tree.skipSpace (cs ++ rest) = cs ++ rest := by
  cases h with
  | nil => exact absurd rfl hts
  | single h => exact h.skipSpace rest
  | cons h _ _ _ _ =>
    rw [List.append_assoc, List.append_assoc]
    exact h.skipSpace _

theorem readItem?_close (depth : Nat) (rest : List Char) :
    readItem? depth (')' :: rest) = none := by
  rw [readItem?_of_ne _ fun ds h => by cases h]
  have hword : readWord? hyphenated (')' :: rest) = none := readWord?_hyphenated_of_ne (by decide)
  have hident : readIdent? (')' :: rest) = none := readIdent?_of_not (by decide)
  have hint : readInt? (')' :: rest) = none := by
    rw [readInt?_of_ne (by decide)]
    exact readDigits?_of_not rfl
  have hop : readWord? operators (')' :: rest) = none := by
    refine readWord?_eq_none fun w hw r heq => ?_
    have hmem : w.toList ∈ operators.map String.toList := List.mem_map_of_mem hw
    rw [operators_toList] at hmem
    simp only [List.mem_cons, List.not_mem_nil, or_false] at hmem
    rcases hmem with hw | hw | hw | hw | hw | hw <;> rw [hw] at heq <;> cases heq
  simp only [readLeaf?, hword, hident, hint, hop]

/-- Behind the last element of a list there is space that no element follows. -/
theorem readMore_close (depth : Nat) {gap : List Char} (hg : IsGap gap) (rest : List Char) :
    readMore depth (gap ++ ')' :: rest) = ([], gap ++ ')' :: rest) := by
  cases depth with
  | zero => rfl
  | succ depth =>
    cases gap with
    | nil => rfl
    | cons c gap =>
      have hskip : skipSpace (c :: gap ++ ')' :: rest) = ')' :: rest := by
        rw [skipSpace_append hg, skipSpace_cons (by decide)]
      simp only [List.cons_append] at hskip ⊢
      simp only [readMore, if_pos (hg c List.mem_cons_self), hskip, readItem?_close]

/-- A written tree is read at every depth that its length allows for. In a list the depth falls by
one with each element, which takes at least two characters. -/
theorem read_complete (depth : Nat) :
    (∀ {t cs rest}, Writes t cs → Stops rest → 2 * cs.length ≤ depth →
      readItem? depth (cs ++ rest) = some (t, rest)) ∧
    (∀ {ts cs gap} (rest : List Char), WritesAll ts cs → IsGap gap → 2 * cs.length < depth →
      ∃ gap', IsGap gap' ∧ readElements depth (skipSpace (cs ++ (gap ++ ')' :: rest))) =
        (ts, gap' ++ ')' :: rest)) ∧
    ∀ {ts cs before gap rest}, WritesAll ts cs → ts ≠ [] → IsGap before → before ≠ [] →
      IsGap gap → 2 * cs.length < depth →
      readMore depth (before ++ (cs ++ (gap ++ ')' :: rest))) = (ts, gap ++ ')' :: rest) := by
  have hclose : ∀ {gap rest : List Char}, IsGap gap → Stops (gap ++ ')' :: rest) :=
    fun hg => .gap hg (.inr rfl)
  induction depth with
  | zero =>
    refine ⟨fun h _ hlen => ?_, fun _ _ _ hlen => by omega, fun _ _ _ _ _ hlen => by omega⟩
    obtain ⟨c, ds, rfl, -⟩ := h.starts
    simp at hlen
  | succ depth ih =>
    obtain ⟨ihItem, ihElements, ihMore⟩ := ih
    have hfirst : ∀ {t ts cs gap} (rest : List Char), WritesAll (t :: ts) cs → IsGap gap →
        2 * cs.length ≤ depth → ∃ rest', readItem? depth (cs ++ (gap ++ ')' :: rest)) =
          some (t, rest') ∧ readMore depth rest' = (ts, gap ++ ')' :: rest) := by
      intro t ts cs gap rest h hg hlen
      cases h with
      | single h => exact ⟨_, ihItem h (hclose hg) hlen, readMore_close depth hg rest⟩
      | @cons _ _ w before cs' h hb hbne hts hall =>
        obtain ⟨c, ds, hw, -⟩ := h.starts
        have hpos : 0 < w.length := by rw [hw]; exact Nat.succ_pos _
        simp only [List.length_append] at hlen
        refine ⟨before ++ (cs' ++ (gap ++ ')' :: rest)), ?_,
          ihMore hall hts hb hbne hg (by omega)⟩
        have hstops : Stops (before ++ (cs' ++ (gap ++ ')' :: rest))) := by
          obtain ⟨d, before, rfl⟩ := List.exists_cons_of_ne_nil hbne
          exact .inl (hb d List.mem_cons_self)
        rw [List.append_assoc, List.append_assoc]
        exact ihItem h hstops (by omega)
    refine ⟨?_, ?_, ?_⟩
    · intro t cs rest h hr hlen
      cases h with
      | leaf h =>
        rw [readItem?_of_ne]
        · exact readLeaf?_append h hr
        · obtain ⟨c, ds, rfl, hc, -⟩ := h.starts
          exact fun ds' heq => hc (List.cons.inj heq).1
      | @node ts gap cs gap' hg hts hg' =>
        obtain ⟨gap'', hg'', hread⟩ := ihElements rest hts hg' (by simp at hlen; omega)
        have hskip : skipSpace (gap ++ (cs ++ (gap' ++ ')' :: rest))) =
            skipSpace (cs ++ (gap' ++ ')' :: rest)) := skipSpace_append hg
        have hend : skipSpace (gap'' ++ ')' :: rest) = ')' :: rest := by
          rw [skipSpace_append hg'', skipSpace_cons (by decide)]
        simp only [List.cons_append, List.append_assoc, List.nil_append]
        rw [readItem?_open, hskip]
        simp only [hread, hend]
    · intro ts cs gap rest hts hg hlen
      cases ts with
      | nil =>
        cases hts
        refine ⟨[], List.forall_mem_nil _, ?_⟩
        rw [List.nil_append, skipSpace_append hg, skipSpace_cons (by decide)]
        simp only [readElements, readItem?_close, List.nil_append]
      | cons t ts =>
        obtain ⟨rest', hitem, hmore⟩ := hfirst rest hts hg (by omega)
        refine ⟨gap, hg, ?_⟩
        rw [hts.skipSpace (List.cons_ne_nil t ts)]
        simp only [readElements, hitem, hmore]
    · intro ts cs before gap rest hts hne hb hbne hg hlen
      obtain ⟨t, ts, rfl⟩ := List.exists_cons_of_ne_nil hne
      obtain ⟨c, before, rfl⟩ := List.exists_cons_of_ne_nil hbne
      obtain ⟨rest', hitem, hmore⟩ := hfirst rest hts hg (by omega)
      have hskip : skipSpace (c :: before ++ (cs ++ (gap ++ ')' :: rest))) =
          cs ++ (gap ++ ')' :: rest) := by
        rw [skipSpace_append hb, hts.skipSpace hne]
      simp only [List.cons_append] at hskip ⊢
      simp only [readMore, if_pos (hb c List.mem_cons_self), hskip, hitem, hmore]

/-! ## Whole texts -/

theorem renders_of_parse {text : List Char} {t : Tree} (h : parse text = .ok t) :
    t.Renders text := by
  simp only [parse] at h
  split at h
  · cases h
  · rename_i t' rest hitem
    split at h
    · rename_i hend
      cases h
      obtain ⟨w, hw, hwrites⟩ := (read_sound _).1 hitem
      obtain ⟨gap, hgap, htext⟩ := exists_gap text
      obtain ⟨gap', hgap', hrest⟩ := exists_gap rest
      rw [hend, List.append_nil] at hrest
      rw [hw, hrest, ← List.append_assoc] at htext
      exact ⟨gap, w, gap', hgap, hwrites, hgap', htext⟩
    · cases h

theorem parse_of_renders {text : List Char} {t : Tree} (h : t.Renders text) :
    parse text = .ok t := by
  obtain ⟨gap, cs, gap', hgap, hwrites, hgap', rfl⟩ := h
  have hstart : skipSpace (gap ++ cs ++ gap') = cs ++ gap' := by
    rw [List.append_assoc, skipSpace_append hgap, hwrites.skipSpace]
  have hstops : Stops gap' := by
    rw [← List.append_nil gap']
    exact .gap hgap' trivial
  have hend : skipSpace gap' = [] := by
    rw [← List.append_nil gap', skipSpace_append hgap']
    rfl
  have hitem := (read_complete (2 * (cs ++ gap').length + 1)).1 hwrites hstops
    (by simp only [List.length_append]; omega)
  simp only [parse, hstart, hitem, hend]

/-- The reader accepts exactly the written forms of trees, and tells the tree from each. -/
theorem parse_iff_renders (text : List Char) (t : Tree) :
    parse text = .ok t ↔ t.Renders text :=
  ⟨renders_of_parse, parse_of_renders⟩

end Tree
end Linearize
