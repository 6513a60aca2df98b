import Linearize.Proofs.Pools
import Linearize.Proofs.Wording

/-!
# Linearize.Proofs.Listing

The LP text of a model can be told back from its words: every row gives away its terms, its sense
and its constant, every line of bounds its column and its bounds. So two models have the same text
exactly if they have the same kinds of columns and the same normalized rows.
-/

namespace Linearize

open Text

/-! ## Terms -/

theorem termText_cut {p q s t : String} {v w : Var} {c d : Int} (hp : p = "" ∨ p = "-")
    (hq : q = "" ∨ q = "-")
    (h : p ++ (termText v c ++ (" " ++ s)) = q ++ (termText w d ++ (" " ++ t))) :
    p = q ∧ v = w ∧ c.natAbs = d.natAbs ∧ s = t := by
  have hword : ∀ (v : Var) (n : Nat), v.columnName ≠ toString n :=
    fun v n => columnName_ne (lacks_nat (by decide) n) v
  by_cases hc : c.natAbs = 1 <;> by_cases hd : d.natAbs = 1 <;>
    simp only [termText, hc, hd, if_true, if_false, String.append_assoc] at h
  · obtain ⟨hpq, hvw, hst⟩ := signed_cut hp hq (plain_columnName v) (plain_columnName w) h
    exact ⟨hpq, columnName_inj.1 hvw, hc.trans hd.symm, hst⟩
  · obtain ⟨-, hvd, -⟩ := signed_cut hp hq (plain_columnName v) (plain_nat _) h
    exact absurd hvd (hword v _)
  · obtain ⟨-, hcw, -⟩ := signed_cut hp hq (plain_nat _) (plain_columnName w) h
    exact absurd hcw.symm (hword w _)
  · obtain ⟨hpq, hcd, hrest⟩ := signed_cut hp hq (plain_nat _) (plain_nat _) h
    obtain ⟨hvw, hst⟩ := blank_cut (plain_columnName v).blank (plain_columnName w).blank hrest
    exact ⟨hpq, columnName_inj.1 hvw, Nat.repr_inj.1 hcd, hst⟩

theorem eq_of_sign {c d : Int} {p : String} (hp : p ≠ "-") (habs : c.natAbs = d.natAbs)
    (h : (if c < 0 then "-" else p) = if d < 0 then "-" else p) : c = d := by
  by_cases hc : c < 0 <;> by_cases hd : d < 0
  · omega
  · rw [if_pos hc, if_neg hd] at h
    exact absurd h.symm hp
  · rw [if_neg hc, if_pos hd] at h
    exact absurd h hp
  · omega

/-! ## Rows -/

theorem symbol_inj {s s' : Sense} : s.symbol = s'.symbol ↔ s = s' := by
  cases s <;> cases s' <;> decide

/-- What follows the first term of a row, without the blank in front. -/
def rowEnd (s : Sense) (n : Int) : List (Var × Int) → String
  | [] => s.symbol ++ (" " ++ toString n)
  | (v, c) :: rest =>
    (if c < 0 then "-" else "+") ++ (" " ++ (termText v c ++ (" " ++ rowEnd s n rest)))

theorem laterTermsText_append (s : Sense) (n : Int) (ts : List (Var × Int)) :
    laterTermsText ts ++ (" " ++ (s.symbol ++ (" " ++ toString n))) = " " ++ rowEnd s n ts := by
  induction ts with
  | nil => simp [laterTermsText, rowEnd]
  | cons t ts ih =>
    obtain ⟨v, c⟩ := t
    have hsign : (if c < 0 then " - " else " + ") = " " ++ ((if c < 0 then "-" else "+") ++ " ") := by
      split <;> decide
    rw [laterTermsText, rowEnd, hsign]
    simp only [String.append_assoc, ih]

theorem rowEnd_inj {s s' : Sense} {n n' : Int} {ts us : List (Var × Int)}
    (h : rowEnd s n ts = rowEnd s' n' us) : ts = us ∧ s = s' ∧ n = n' := by
  have hsense : ∀ s : Sense, Lacks ' ' s.symbol := by
    intro s
    cases s <;> decide
  have hsign : ∀ c : Int, Lacks ' ' (if c < 0 then "-" else "+") := by
    intro c
    split <;> decide
  -- a sense is no sign, so the rows have the same number of terms
  have hne : ∀ (s : Sense) (c : Int), s.symbol ≠ if c < 0 then "-" else "+" := by
    intro s c
    split <;> cases s <;> decide
  induction ts generalizing us with
  | nil =>
    cases us with
    | nil =>
      obtain ⟨hs, hn⟩ := blank_cut (hsense s) (hsense s') h
      exact ⟨rfl, symbol_inj.1 hs, Int.repr_inj.1 hn⟩
    | cons u us =>
      obtain ⟨hs, -⟩ := blank_cut (hsense s) (hsign u.2) h
      exact absurd hs (hne s u.2)
  | cons t ts ih =>
    cases us with
    | nil =>
      obtain ⟨hs, -⟩ := blank_cut (hsign t.2) (hsense s') h
      exact absurd hs.symm (hne s' t.2)
    | cons u us =>
      obtain ⟨v, c⟩ := t
      obtain ⟨w, d⟩ := u
      obtain ⟨hs, hrest⟩ := blank_cut (hsign c) (hsign d) h
      obtain ⟨-, rfl, habs, htail⟩ := termText_cut (.inl rfl) (.inl rfl) (by simpa using hrest)
      obtain ⟨rfl, hss, hnn⟩ := ih htail
      obtain rfl := eq_of_sign (by decide) habs hs
      exact ⟨rfl, hss, hnn⟩

theorem termsText_cons (s : Sense) (n : Int) (v : Var) (c : Int) (ts : List (Var × Int)) :
    termsText ((v, c) :: ts) ++ (" " ++ (s.symbol ++ (" " ++ toString n))) =
      (if c < 0 then "-" else "") ++ (termText v c ++ (" " ++ rowEnd s n ts)) := by
  rw [termsText, ← laterTermsText_append]
  simp only [String.append_assoc]

theorem zero_ne_termText {p r : String} {s : Sense} {n : Int} {v : Var} {c : Int}
    (hp : p = "" ∨ p = "-") :
    "0" ++ (" " ++ (s.symbol ++ (" " ++ toString n))) ≠ p ++ (termText v c ++ (" " ++ r)) := by
  have hzero : Plain "0" := ⟨by decide, by decide⟩
  have hsymbol : Lacks ' ' s.symbol ∧ Lacks 'x' s.symbol := by cases s <;> decide
  intro h
  have h' : "" ++ ("0" ++ (" " ++ (s.symbol ++ (" " ++ toString n)))) =
      p ++ (termText v c ++ (" " ++ r)) := by simpa using h
  by_cases hc : c.natAbs = 1 <;>
    simp only [termText, hc, if_true, if_false, String.append_assoc] at h'
  · obtain ⟨-, hword, -⟩ := signed_cut (.inl rfl) hp hzero (plain_columnName v) h'
    exact absurd hword.symm (columnName_ne (by decide) v)
  · obtain ⟨-, -, hrest⟩ := signed_cut (.inl rfl) hp hzero (plain_nat _) h'
    obtain ⟨hword, -⟩ := blank_cut hsymbol.1 (plain_columnName v).blank hrest
    exact absurd hword.symm (columnName_ne hsymbol.2 v)

theorem rowText_inj {s s' : Sense} {n n' : Int} {ts us : List (Var × Int)}
    (h : termsText ts ++ (" " ++ (s.symbol ++ (" " ++ toString n))) =
      termsText us ++ (" " ++ (s'.symbol ++ (" " ++ toString n')))) :
    ts = us ∧ s = s' ∧ n = n' := by
  have hsign : ∀ c : Int, (if c < 0 then "-" else "") = "" ∨ (if c < 0 then "-" else "") = "-" := by
    intro c
    split <;> simp
  cases ts with
  | nil =>
    cases us with
    | nil =>
      have hend : rowEnd s n [] = rowEnd s' n' [] :=
        (String.append_right_inj _).1 ((String.append_right_inj _).1 h)
      exact rowEnd_inj hend
    | cons u us =>
      rw [termsText_cons] at h
      exact absurd h (zero_ne_termText (hsign u.2))
  | cons t ts =>
    cases us with
    | nil =>
      rw [termsText_cons] at h
      exact absurd h.symm (zero_ne_termText (hsign t.2))
    | cons u us =>
      obtain ⟨v, c⟩ := t
      obtain ⟨w, d⟩ := u
      rw [termsText_cons, termsText_cons] at h
      obtain ⟨hs, rfl, habs, htail⟩ := termText_cut (hsign c) (hsign d) h
      obtain ⟨rfl, hss, hnn⟩ := rowEnd_inj htail
      obtain rfl := eq_of_sign (by decide) habs hs
      exact ⟨rfl, hss, hnn⟩

theorem Constraint.text_eq_some_iff {c : Constraint} {t : String} :
    c.text = some t ↔ ∃ d s, c.normalized = some (d, s) ∧
      (∀ u ∈ d.terms, Fits u.2.natAbs) ∧ Fits (-d.constant) ∧
      t = termsText d.terms ++ (" " ++ (s.symbol ++ (" " ++ toString (-d.constant)))) := by
  have hterms : ∀ d : Expr, (d.terms.any fun u => (fit? u.2.natAbs).isNone) = false ↔
      ∀ u ∈ d.terms, Fits u.2.natAbs := by
    intro d
    simp [List.any_eq_false, fit?_eq_none_iff]
  simp only [text]
  constructor
  · intro h
    split at h
    · cases h
    · rename_i d s hds
      split at h
      · cases h
      · rename_i hfits
        split at h
        · cases h
        · rename_i n hn
          obtain ⟨hfit, rfl⟩ := fit?_eq_some_iff.1 hn
          cases h
          refine ⟨d, s, hds, (hterms d).1 ?_, hfit, by simp only [String.append_assoc]⟩
          rwa [Bool.not_eq_true] at hfits
  · rintro ⟨d, s, hds, hfits, hfit, rfl⟩
    simp only [hds, (hterms d).2 hfits, Bool.false_eq_true, if_false,
      fit?_eq_some_iff.2 ⟨hfit, rfl⟩, String.append_assoc]

/-- Rows with the same text are the same when they are normalized. -/
theorem Constraint.normalized_eq_of_text {c c' : Constraint} {t : String} (h : c.text = some t)
    (h' : c'.text = some t) : c.normalized = c'.normalized := by
  obtain ⟨d, s, hds, -, -, ht⟩ := text_eq_some_iff.1 h
  obtain ⟨d', s', hds', -, -, ht'⟩ := text_eq_some_iff.1 h'
  obtain ⟨hterms, rfl, hconst⟩ := rowText_inj (ht.symm.trans ht')
  have hdd : d = d' := by
    obtain ⟨ts, n⟩ := d
    obtain ⟨us, k⟩ := d'
    cases hterms
    have : n = k := Int.neg_inj.1 hconst
    rw [this]
  rw [hds, hds', hdd]

namespace Model

theorem rowLines_cons_iff {i : Nat} {c : Constraint} {rest : List Constraint} {ls : List String} :
    rowLines i (c :: rest) = some ls ↔ ∃ t ls', c.text = some t ∧
      rowLines (i + 1) rest = some ls' ∧ ls = (" c" ++ toString (i + 1) ++ ": " ++ t) :: ls' := by
  simp only [rowLines]
  cases c.text with
  | none => simp
  | some t =>
    cases rowLines (i + 1) rest with
    | none => simp
    | some ls' => simp [eq_comm]

theorem normalized_eq_of_rowLines {i : Nat} {cs ds : List Constraint} {ls : List String}
    (hc : rowLines i cs = some ls) (hd : rowLines i ds = some ls) :
    cs.map Constraint.normalized = ds.map Constraint.normalized := by
  induction cs generalizing ds i ls with
  | nil =>
    cases hc
    cases ds with
    | nil => rfl
    | cons d ds =>
      obtain ⟨t, ls', -, -, hls⟩ := rowLines_cons_iff.1 hd
      cases hls
  | cons c cs ih =>
    obtain ⟨t, ls', ht, hcs, rfl⟩ := rowLines_cons_iff.1 hc
    cases ds with
    | nil => cases hd
    | cons d ds =>
      obtain ⟨t', ls'', ht', hds, heq⟩ := rowLines_cons_iff.1 hd
      obtain ⟨hline, rfl⟩ := List.cons.inj heq
      obtain rfl := (String.append_right_inj _).1 hline
      rw [List.map_cons, List.map_cons, Constraint.normalized_eq_of_text ht ht', ih hcs hds]

/-! ## Bounds -/

def lowerWord : Option Int → String
  | some l => toString l
  | none => "-inf"

def lowerEnd : Option Int → String
  | some l => ">=" ++ (" " ++ toString l)
  | none => "free"

theorem boundsLine_upper (v : Var) (l : Option Int) (u : Int) :
    boundsLine v l (some u) = " " ++ (lowerWord l ++ (" " ++ ("<=" ++ (" " ++
      (v.columnName ++ (" " ++ ("<=" ++ (" " ++ toString u)))))))) := by
  have hle : " <= " = " " ++ ("<=" ++ " ") := by decide
  have hinf : " -inf <= " = " " ++ ("-inf" ++ (" " ++ ("<=" ++ " "))) := by decide
  cases l <;> simp only [boundsLine, lowerWord, hle, hinf, String.append_assoc]

theorem boundsLine_open (v : Var) (l : Option Int) :
    boundsLine v l none = " " ++ (v.columnName ++ (" " ++ lowerEnd l)) := by
  have hge : " >= " = " " ++ (">=" ++ " ") := by decide
  have hfree : " free" = " " ++ "free" := by decide
  cases l <;> simp only [boundsLine, lowerEnd, hge, hfree, String.append_assoc]

theorem lacks_lowerWord {c : Char} (hc : c.isDigit = false) (hinf : Lacks c "-inf")
    (l : Option Int) : Lacks c (lowerWord l) := by
  cases l with
  | none => exact hinf
  | some l =>
    refine lacks_int hc ?_ l
    rintro rfl
    exact absurd hinf (by decide)

theorem lowerWord_inj {l l' : Option Int} (h : lowerWord l = lowerWord l') : l = l' := by
  have hword : ∀ n : Int, toString n ≠ "-inf" := by
    intro n hn
    have hlacks : Lacks 'i' (toString n) := lacks_int (by decide) (by decide) n
    rw [hn] at hlacks
    exact absurd hlacks (by decide)
  cases l with
  | none =>
    cases l' with
    | none => rfl
    | some n => exact absurd h.symm (hword n)
  | some n =>
    cases l' with
    | none => exact absurd h (hword n)
    | some n' => rw [Int.repr_inj.1 h]

theorem lowerEnd_inj {l l' : Option Int} (h : lowerEnd l = lowerEnd l') : l = l' := by
  have hfree : ∀ n : Int, lowerEnd (some n) ≠ "free" := by
    intro n hn
    have hlacks : Lacks ' ' (lowerEnd (some n)) := hn ▸ (by decide : Lacks ' ' "free")
    rw [lowerEnd, lacks_append, lacks_append] at hlacks
    exact absurd hlacks.2.1 (by decide)
  cases l with
  | none =>
    cases l' with
    | none => rfl
    | some n => exact absurd h.symm (hfree n)
  | some n =>
    cases l' with
    | none => exact absurd h (hfree n)
    | some n' =>
      have hn := (String.append_right_inj _).1 ((String.append_right_inj _).1 h)
      rw [Int.repr_inj.1 hn]

theorem boundsLine_inj {v w : Var} {l l' u u' : Option Int}
    (h : boundsLine v l u = boundsLine w l' u') : v = w ∧ l = l' ∧ u = u' := by
  have hblank : ∀ l, Lacks ' ' (lowerWord l) := lacks_lowerWord (by decide) (by decide)
  have hcolumn : ∀ (v : Var) (l : Option Int), v.columnName ≠ lowerWord l :=
    fun v l => columnName_ne (lacks_lowerWord (by decide) (by decide) l) v
  cases u with
  | none =>
    cases u' with
    | none =>
      rw [boundsLine_open, boundsLine_open] at h
      obtain ⟨hvw, hend⟩ := blank_cut (plain_columnName v).blank (plain_columnName w).blank
        ((String.append_right_inj _).1 h)
      exact ⟨columnName_inj.1 hvw, lowerEnd_inj hend, rfl⟩
    | some u' =>
      rw [boundsLine_open, boundsLine_upper] at h
      obtain ⟨hword, -⟩ := blank_cut (plain_columnName v).blank (hblank l')
        ((String.append_right_inj _).1 h)
      exact absurd hword (hcolumn v l')
  | some u =>
    cases u' with
    | none =>
      rw [boundsLine_open, boundsLine_upper] at h
      obtain ⟨hword, -⟩ := blank_cut (hblank l) (plain_columnName w).blank
        ((String.append_right_inj _).1 h)
      exact absurd hword.symm (hcolumn w l)
    | some u' =>
      rw [boundsLine_upper, boundsLine_upper] at h
      obtain ⟨hl, hrest⟩ := blank_cut (hblank l) (hblank l') ((String.append_right_inj _).1 h)
      rw [String.append_right_inj, String.append_right_inj] at hrest
      obtain ⟨hvw, hupper⟩ :=
        blank_cut (plain_columnName v).blank (plain_columnName w).blank hrest
      rw [String.append_right_inj, String.append_right_inj] at hupper
      exact ⟨columnName_inj.1 hvw, lowerWord_inj hl, by rw [Int.repr_inj.1 hupper]⟩

/-! ## Sections -/

variable {m n : Model}

theorem mem_boundsLines_iff {line : String} :
    line ∈ m.boundsLines ↔
      ∃ v l u, m.kind? v = some (.integer l u) ∧ line = boundsLine v l u := by
  simp only [boundsLines, List.mem_filterMap, Prod.exists, List.mem_zipIdx_iff_getElem?]
  constructor
  · rintro ⟨c, v, hc, h⟩
    cases hkind : c.kind with
    | binary => simp [hkind] at h
    | integer l u =>
      simp only [hkind, Option.some.injEq] at h
      exact ⟨v, l, u, kind?_eq_some_iff.2 ⟨c, hc, hkind⟩, h.symm⟩
  · rintro ⟨v, l, u, hkind, rfl⟩
    obtain ⟨c, hc, hk⟩ := kind?_eq_some_iff.1 hkind
    exact ⟨c, v, hc, by simp [hk]⟩

def placeLine (v : Var) : String := " " ++ v.columnName

def sectionLines (title : String) : List Var → List String
  | [] => []
  | v :: vs => title :: (v :: vs).map placeLine

theorem poolLines_eq (m : Model) (title : String) (integers : Bool) :
    m.poolLines title integers = sectionLines title (m.places integers) := by
  simp only [poolLines, places]
  split
  · rename_i hnil
    rw [hnil]
    rfl
  · rename_i hne
    obtain ⟨e, es, hpool⟩ := List.exists_cons_of_ne_nil hne
    simp [hpool, sectionLines, placeLine]

/-- The kinds of columns are told from the lines of bounds and the positions of binary columns. -/
theorem kinds_eq (hbounds : m.boundsLines = n.boundsLines)
    (hplaces : m.places false = n.places false) :
    m.columns.map (·.kind) = n.columns.map (·.kind) := by
  have hbinary : ∀ {m n : Model} {v : Var}, m.places false = n.places false →
      m.kind? v = some .binary → n.kind? v = some .binary := by
    intro m n v hplaces hv
    have hmem : v ∈ n.places false := hplaces ▸ mem_places_iff.2 ⟨.binary, hv, rfl⟩
    obtain ⟨k, hk, hkind⟩ := mem_places_iff.1 hmem
    rwa [Kind.isInteger_eq_false_iff.1 hkind] at hk
  have hinteger : ∀ {m n : Model} {v : Var} {l u : Option Int}, m.boundsLines = n.boundsLines →
      m.kind? v = some (.integer l u) → n.kind? v = some (.integer l u) := by
    intro m n v l u hbounds hv
    have hmem : boundsLine v l u ∈ n.boundsLines :=
      hbounds ▸ mem_boundsLines_iff.2 ⟨v, l, u, hv, rfl⟩
    obtain ⟨w, l', u', hw, heq⟩ := mem_boundsLines_iff.1 hmem
    obtain ⟨rfl, rfl, rfl⟩ := boundsLine_inj heq
    exact hw
  have hkind : ∀ v, m.kind? v = n.kind? v := by
    intro v
    refine Option.ext fun k => ?_
    cases k with
    | binary => exact ⟨hbinary hplaces, hbinary hplaces.symm⟩
    | integer l u => exact ⟨hinteger hbounds, hinteger hbounds.symm⟩
  refine List.ext_getElem? fun v => ?_
  simpa [kind?] using hkind v

/-! ## Lines -/

/-- A line without a line feed in it. -/
abbrev Single (l : String) : Prop := Lacks '\n' l

theorem single_columnName (v : Var) : Single v.columnName :=
  lacks_columnName (by decide) (by decide) v

theorem single_int (n : Int) : Single (toString n) := lacks_int (by decide) (by decide) n

theorem single_termText (v : Var) (c : Int) : Single (termText v c) := by
  rw [termText]
  split
  · exact single_columnName v
  · simp only [Single, lacks_append]
    exact ⟨⟨lacks_nat (by decide) _, by decide⟩, single_columnName v⟩

theorem single_rowEnd (s : Sense) (n : Int) (ts : List (Var × Int)) : Single (rowEnd s n ts) := by
  have hsymbol : Single s.symbol := by cases s <;> decide
  have hsign : ∀ c : Int, Single (if c < 0 then "-" else "+") := by
    intro c
    split <;> decide
  induction ts with
  | nil =>
    simp only [rowEnd, Single, lacks_append]
    exact ⟨hsymbol, by decide, single_int n⟩
  | cons t ts ih =>
    simp only [rowEnd, Single, lacks_append]
    exact ⟨hsign t.2, by decide, single_termText _ _, by decide, ih⟩

theorem single_text {c : Constraint} {t : String} (h : c.text = some t) : Single t := by
  obtain ⟨d, s, -, -, -, rfl⟩ := Constraint.text_eq_some_iff.1 h
  have hsign : ∀ c : Int, Single (if c < 0 then "-" else "") := by
    intro c
    split <;> decide
  cases hts : d.terms with
  | nil =>
    have hend := single_rowEnd s (-d.constant) []
    simp only [termsText, Single, lacks_append]
    exact ⟨by decide, by decide, by simpa only [rowEnd, Single, lacks_append] using hend⟩
  | cons u us =>
    rw [termsText_cons]
    simp only [Single, lacks_append]
    exact ⟨hsign u.2, single_termText _ _, by decide, single_rowEnd _ _ _⟩

theorem rowLines_forall {i : Nat} {cs : List Constraint} {ls : List String}
    (h : rowLines i cs = some ls) : ∀ l ∈ ls, Single l ∧ ¬ Lacks ' ' l := by
  induction cs generalizing i ls with
  | nil =>
    cases h
    exact List.forall_mem_nil _
  | cons c cs ih =>
    obtain ⟨t, ls', ht, hcs, rfl⟩ := rowLines_cons_iff.1 h
    refine List.forall_mem_cons.2 ⟨⟨?_, ?_⟩, ih hcs⟩
    · simp only [Single, lacks_append]
      exact ⟨⟨⟨by decide, lacks_nat (by decide) _⟩, by decide⟩, single_text ht⟩
    · simp only [lacks_append]
      exact fun hl => absurd hl.1.1.1 (by decide)

theorem boundsLines_forall (m : Model) : ∀ l ∈ m.boundsLines, Single l ∧ ¬ Lacks ' ' l := by
  intro line hline
  obtain ⟨v, l, u, -, rfl⟩ := mem_boundsLines_iff.1 hline
  have hlower : Single (lowerWord l) := lacks_lowerWord (by decide) (by decide) l
  cases u with
  | some u =>
    rw [boundsLine_upper]
    simp only [Single, lacks_append]
    refine ⟨⟨by decide, hlower, by decide, by decide, by decide, single_columnName v, by decide,
      by decide, by decide, single_int u⟩, fun hl => absurd hl.1 (by decide)⟩
  | none =>
    have hend : Single (lowerEnd l) := by
      cases l with
      | none => decide
      | some l =>
        simp only [lowerEnd, Single, lacks_append]
        exact ⟨by decide, by decide, single_int l⟩
    rw [boundsLine_open]
    simp only [Single, lacks_append]
    exact ⟨⟨by decide, single_columnName v, by decide, hend⟩, fun hl => absurd hl.1 (by decide)⟩

theorem placeLine_forall (vs : List Var) :
    ∀ l ∈ vs.map placeLine, Single l ∧ ¬ Lacks ' ' l := by
  refine List.forall_mem_map.2 fun v _ => ?_
  simp only [placeLine, Single, lacks_append]
  exact ⟨⟨by decide, single_columnName v⟩, fun hl => absurd hl.1 (by decide)⟩

theorem sectionLines_single {title : String} (htitle : Single title) (vs : List Var) :
    ∀ l ∈ sectionLines title vs, Single l := by
  cases vs with
  | nil => exact List.forall_mem_nil _
  | cons v vs => exact List.forall_mem_cons.2 ⟨htitle, fun l hl => (placeLine_forall _ l hl).1⟩

theorem placeLine_injective : Function.Injective placeLine := fun _ _ h =>
  columnName_inj.1 ((String.append_right_inj _).1 h)

/-- The positions under a title are told from the lines that start with the title, if what follows
starts with another one. -/
theorem sectionLines_cut {title : String} {vs ws : List Var} {as bs : List String}
    (has : ∀ a ∈ as.head?, Lacks ' ' a ∧ a ≠ title) (hbs : ∀ b ∈ bs.head?, Lacks ' ' b ∧ b ≠ title)
    (h : sectionLines title vs ++ as = sectionLines title ws ++ bs) : vs = ws := by
  cases vs with
  | nil =>
    cases ws with
    | nil => rfl
    | cons w ws =>
      rw [sectionLines, List.nil_append] at h
      exact absurd rfl (has title (by simp [h, sectionLines])).2
  | cons v vs =>
    cases ws with
    | nil =>
      rw [sectionLines.eq_1, List.nil_append] at h
      exact absurd rfl (hbs title (by simp [← h, sectionLines])).2
    | cons w ws =>
      simp only [sectionLines, List.cons_append] at h
      obtain ⟨hlines, -⟩ := append_cut (fun l hl => (placeLine_forall _ l hl).2)
        (fun l hl => (placeLine_forall _ l hl).2) (fun a ha => not_not.2 (has a ha).1)
        (fun b hb => not_not.2 (hbs b hb).1) (List.cons.inj h).2
      exact List.map_injective_iff.2 placeLine_injective hlines

/-! ## The whole text -/

def closing (m : Model) : List String :=
  sectionLines "Binary" (m.places false) ++ (sectionLines "General" (m.places true) ++ ["End"])

theorem listing_eq_some_iff {t : String} :
    m.listing = some t ↔ ∃ rows, rowLines 0 m.rows = some rows ∧
      t = unlines ("Subject To" :: (rows ++ ("Bounds" :: (m.boundsLines ++ m.closing)))) := by
  simp only [listing, listingLines, closing, ← poolLines_eq]
  cases rowLines 0 m.rows with
  | none => simp
  | some rows => simp [eq_comm]

theorem closing_single (m : Model) : ∀ l ∈ m.closing, Single l := by
  simp only [closing, List.forall_mem_append]
  exact ⟨sectionLines_single (by decide) _, sectionLines_single (by decide) _,
    List.forall_mem_singleton.2 (by decide)⟩

theorem listing_single {rows : List String} (hrows : rowLines 0 m.rows = some rows) :
    ∀ l ∈ "Subject To" :: (rows ++ ("Bounds" :: (m.boundsLines ++ m.closing))), Single l := by
  simp only [List.forall_mem_cons, List.forall_mem_append]
  exact ⟨by decide, fun l hl => (rowLines_forall hrows l hl).1, by decide,
    fun l hl => (boundsLines_forall m l hl).1, closing_single m⟩

theorem general_head (vs : List Var) :
    ∀ a ∈ (sectionLines "General" vs ++ ["End"]).head?, Lacks ' ' a ∧ a ≠ "Binary" := by
  cases vs <;> simp [sectionLines] <;> decide

theorem closing_head (m : Model) : ∀ a ∈ m.closing.head?, ¬ ¬ Lacks ' ' a := by
  intro a ha
  rw [not_not]
  rw [closing] at ha
  cases hplaces : m.places false with
  | nil =>
    rw [hplaces, sectionLines, List.nil_append] at ha
    exact (general_head _ a ha).1
  | cons v vs =>
    simp only [hplaces, sectionLines, List.cons_append, List.head?_cons, Option.mem_some] at ha
    subst ha
    decide

theorem parts_eq_of_listing {rows rows' : List String}
    (hrows : rowLines 0 m.rows = some rows) (hrows' : rowLines 0 n.rows = some rows')
    (h : unlines ("Subject To" :: (rows ++ ("Bounds" :: (m.boundsLines ++ m.closing)))) =
      unlines ("Subject To" :: (rows' ++ ("Bounds" :: (n.boundsLines ++ n.closing))))) :
    rows = rows' ∧ m.boundsLines = n.boundsLines ∧ m.places false = n.places false := by
  have hlines := (List.cons.inj (unlines_inj (listing_single hrows) (listing_single hrows') h)).2
  -- lines of rows and of bounds have blanks, titles have none
  have htitle : ∀ {ls : List String}, ∀ a ∈ ("Bounds" :: ls).head?, ¬ ¬ Lacks ' ' a := by
    intro ls a ha
    obtain rfl := Option.some.inj ha
    exact not_not.2 (by decide)
  obtain ⟨hrr, hbounds⟩ := append_cut (fun l hl => (rowLines_forall hrows l hl).2)
    (fun l hl => (rowLines_forall hrows' l hl).2) htitle htitle hlines
  obtain ⟨hbb, hclosing⟩ := append_cut (fun l hl => (boundsLines_forall m l hl).2)
    (fun l hl => (boundsLines_forall n l hl).2) (closing_head m) (closing_head n)
    (List.cons.inj hbounds).2
  exact ⟨hrr, hbb, sectionLines_cut (general_head _) (general_head _) hclosing⟩

/-! ## What the text depends on -/

theorem rowLines_congr {i : Nat} {cs ds : List Constraint}
    (h : cs.map Constraint.normalized = ds.map Constraint.normalized) :
    rowLines i cs = rowLines i ds := by
  induction cs generalizing i ds with
  | nil => rw [List.map_eq_nil_iff.1 h.symm]
  | cons c cs ih =>
    cases ds with
    | nil => cases h
    | cons d ds =>
      obtain ⟨hcd, hrest⟩ := List.cons.inj h
      have htext : c.text = d.text := by simp only [Constraint.text, hcd]
      simp only [rowLines, htext, ih hrest]

theorem filterMap_zipIdx_congr {α : Type} {f : Column × Nat → Option α} {g : Kind × Nat → Option α}
    (hfg : ∀ x, f x = g (x.1.kind, x.2)) (h : m.columns.map (·.kind) = n.columns.map (·.kind)) :
    m.columns.zipIdx.filterMap f = n.columns.zipIdx.filterMap f := by
  have hkinds : ∀ m : Model,
      m.columns.zipIdx.filterMap f = (m.columns.map (·.kind)).zipIdx.filterMap g := by
    intro m
    rw [List.zipIdx_map, List.filterMap_map]
    exact List.filterMap_congr fun x _ => hfg x
  rw [hkinds, hkinds, h]

def placeOf (integers : Bool) (x : Kind × Nat) : Option Var :=
  if x.1.isInteger = integers then some x.2 else none

def boundsOf (x : Kind × Nat) : Option String :=
  match x.1 with
  | .binary => none
  | .integer lower upper => some (boundsLine x.2 lower upper)

theorem places_congr (h : m.columns.map (·.kind) = n.columns.map (·.kind)) (integers : Bool) :
    m.places integers = n.places integers := by
  simp only [places, pool, List.map_filterMap]
  refine filterMap_zipIdx_congr (g := placeOf integers) ?_ h
  rintro ⟨c, v⟩
  simp only [placeOf]
  split <;> rfl

theorem boundsLines_congr (h : m.columns.map (·.kind) = n.columns.map (·.kind)) :
    m.boundsLines = n.boundsLines := by
  refine filterMap_zipIdx_congr (g := boundsOf) ?_ h
  rintro ⟨⟨key, kind⟩, v⟩
  cases kind <;> rfl

/-- The LP text loses nothing: two models that have one have the same exactly if they have the same
kinds of columns, bounds included, and the same normalized rows in the same order. -/
theorem listing_eq_iff (m n : Model) (hm : m.listing.isSome) (hn : n.listing.isSome) :
    m.listing = n.listing ↔ m.columns.map (·.kind) = n.columns.map (·.kind) ∧
      m.rows.map Constraint.normalized = n.rows.map Constraint.normalized := by
  obtain ⟨s, hs⟩ := Option.isSome_iff_exists.1 hm
  obtain ⟨t, ht⟩ := Option.isSome_iff_exists.1 hn
  obtain ⟨rows, hrows, hstext⟩ := listing_eq_some_iff.1 hs
  obtain ⟨rows', hrows', httext⟩ := listing_eq_some_iff.1 ht
  rw [hs, ht, Option.some.injEq, hstext, httext]
  constructor
  · intro h
    obtain ⟨rfl, hbounds, hplaces⟩ := parts_eq_of_listing hrows hrows' h
    exact ⟨kinds_eq hbounds hplaces, normalized_eq_of_rowLines hrows hrows'⟩
  · rintro ⟨hkinds, hnormalized⟩
    rw [rowLines_congr hnormalized, hrows'] at hrows
    cases hrows
    rw [boundsLines_congr hkinds, closing, closing, places_congr hkinds, places_congr hkinds]

/-- A model with a row `2 x - a + 3 ≤ 5`. -/
def gathered : Model where
  columns := [⟨.named "a", .binary⟩, ⟨.named "x", .integer (some 0) (some 7)⟩]
  rows := [.le ⟨[(0, -1), (1, 2)], 3⟩ (.const 5), .eq (.ofVar 1) (.ofVar 0)]

/-- The same rows under other names and with the terms on other sides. -/
def scattered : Model where
  columns := [⟨.and [], .binary⟩, ⟨.named "y", .integer (some 0) (some 7)⟩]
  rows := [.le ⟨[(1, 2)], 3⟩ ⟨[(0, 1)], 5⟩, .eq ⟨[(1, 1)], -4⟩ ⟨[(0, 1)], -4⟩]

theorem gathered_listing_eq_iff :
    gathered.listing = scattered.listing ↔
      gathered.columns.map (·.kind) = scattered.columns.map (·.kind) ∧
        gathered.rows.map Constraint.normalized = scattered.rows.map Constraint.normalized :=
  listing_eq_iff gathered scattered (by decide +kernel) (by decide +kernel)

example :
    listing ⟨[⟨.named "a", .binary⟩, ⟨.named "x", .integer (some 0) (some 7)⟩],
      [.le ⟨[(0, -1), (1, 2)], 3⟩ (.const 5)]⟩ =
    some ("Subject To\n c1: -x_1 + 2 x_2 <= 2\nBounds\n 0 <= x_2 <= 7\n" ++
      "Binary\n x_1\nGeneral\n x_2\nEnd\n") := by decide +kernel

end Model

end Linearize
