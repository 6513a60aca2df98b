import Linearize.Compile.Legend
import Linearize.Proofs.Closure
import Linearize.Proofs.Spelling

/-!
# Linearize.Proofs.Legend

What the legend of a listing says. The names in it are words, so that every label is read back from
its line, and no line of the model is a label. A name leads to one column of its pool. The pools
share names: an integer column can be declared under a name that an auxiliary column gets.
-/

namespace Linearize

open Text

/-! ## Labels read back -/

@[simp] theorem Mark.ofWord?_word (k : Mark) : ofWord? k.word.toList = some k := by
  cases k <;> decide

theorem Mark.word_word (k : Mark) : Word k.word := by cases k <;> decide

namespace Label

structure Spelled (l : Label) : Prop where
  name : Word l.name
  column : Word l.column

variable {l : Label}

theorem Spelled.words (h : l.Spelled) : ∀ s ∈ l.words, Word s := by
  simp only [Label.words, List.forall_mem_cons]
  exact ⟨by decide, l.mark.word_word, h.name, by decide, h.column, List.forall_mem_nil _⟩

theorem Spelled.single (h : l.Spelled) : Model.Single l.line := by
  have hblank : Lacks '\n' " " := by decide
  have hwords := h.words
  simp only [Label.words, List.forall_mem_cons] at hwords
  obtain ⟨h₁, h₂, h₃, h₄, h₅, -⟩ := hwords
  simp only [Model.Single, line, Label.words, String.intercalate_cons_cons,
    String.intercalate_singleton, lacks_append]
  exact ⟨⟨h₁.2, hblank⟩, ⟨h₂.2, hblank⟩, ⟨h₃.2, hblank⟩, ⟨h₄.2, hblank⟩, h₅.2⟩

theorem ofLine?_line (h : l.Spelled) : ofLine? l.line.toList = some l := by
  have hsplit : l.line.toList.splitOn ' ' = l.words.map String.toList := by
    rw [line, String.toList_intercalate]
    exact List.splitOn_intercalate _ (List.forall_mem_map.2 fun s hs => (h.words s hs).1)
      (by simp [Label.words])
  obtain ⟨mark, name, column⟩ := l
  simp only [Label.words, List.map_cons, List.map_nil] at hsplit
  simp [ofLine?, hsplit]

theorem ofLine?_eq_none {line : List Char} (h : line.head? ≠ some '\\') : ofLine? line = none := by
  unfold ofLine?
  split
  · rename_i word name column hsplit
    have hline : [' '].intercalate (line.splitOn ' ') = line := List.intercalate_splitOn ' '
    rw [hsplit] at hline
    exact absurd (by rw [← hline]; rfl) h
  · rfl

end Label

theorem legend_unlines {ls : List String} (h : ∀ l ∈ ls, Model.Single l) :
    legend (unlines ls) = ls.filterMap fun l => Label.ofLine? l.toList := by
  -- nothing stands behind the line feed of the last line
  have hlines : (unlines ls).toList.splitOn '\n' = ls.map String.toList ++ [[]] := by
    induction ls with
    | nil => rfl
    | cons l ls ih =>
      obtain ⟨hl, hls⟩ := List.forall_mem_cons.1 h
      rw [unlines_cons, String.toList_append, String.toList_append, List.map_cons, List.cons_append,
        ← ih hls]
      exact List.splitOn_append_cons_self_of_not_mem hl _
  rw [legend, hlines, List.filterMap_append, List.filterMap_map]
  exact List.append_nil _

/-! ## Lines of the model -/

namespace Model

variable {m : Model}

theorem ofLine?_append {s : String} (hs : s.toList.head?.any (· ≠ '\\') = true) (t : String) :
    Label.ofLine? (s ++ t).toList = none := by
  obtain ⟨c, hc, hne⟩ := (Option.any_eq_true _ _).1 hs
  refine Label.ofLine?_eq_none ?_
  rw [String.toList_append, List.head?_append, hc]
  simpa using hne

theorem ofLine?_rowLines {i : Nat} {cs : List Constraint} {ls : List String}
    (h : rowLines i cs = some ls) : ∀ l ∈ ls, Label.ofLine? l.toList = none := by
  induction cs generalizing i ls with
  | nil =>
    cases h
    exact List.forall_mem_nil _
  | cons c cs ih =>
    obtain ⟨t, ls', -, hcs, rfl⟩ := rowLines_cons_iff.1 h
    refine List.forall_mem_cons.2 ⟨?_, ih hcs⟩
    rw [String.append_assoc, String.append_assoc]
    exact ofLine?_append (by decide) _

theorem ofLine?_boundsLines (m : Model) : ∀ l ∈ m.boundsLines, Label.ofLine? l.toList = none := by
  intro line hline
  obtain ⟨v, l, u, -, rfl⟩ := mem_boundsLines_iff.1 hline
  cases u with
  | some u =>
    rw [boundsLine_upper]
    exact ofLine?_append (by decide) _
  | none =>
    rw [boundsLine_open]
    exact ofLine?_append (by decide) _

theorem ofLine?_sectionLines {title : String} (htitle : Label.ofLine? title.toList = none)
    (vs : List Var) : ∀ l ∈ sectionLines title vs, Label.ofLine? l.toList = none := by
  cases vs with
  | nil => exact List.forall_mem_nil _
  | cons v vs =>
    refine List.forall_mem_cons.2 ⟨htitle, List.forall_mem_map.2 fun w _ => ?_⟩
    exact ofLine?_append (by decide) _

theorem exists_listing_lines {t : String} (h : m.listing = some t) :
    ∃ ls, t = unlines ls ∧ (∀ l ∈ ls, Single l) ∧ ∀ l ∈ ls, Label.ofLine? l.toList = none := by
  obtain ⟨rows, hrows, rfl⟩ := listing_eq_some_iff.1 h
  refine ⟨_, rfl, listing_single hrows, ?_⟩
  simp only [closing, List.forall_mem_cons, List.forall_mem_append]
  exact ⟨by decide, ofLine?_rowLines hrows, by decide, m.ofLine?_boundsLines,
    ofLine?_sectionLines (by decide) _, ofLine?_sectionLines (by decide) _, by decide,
    List.forall_mem_nil _⟩

end Model

/-! ## The labels of a compilation -/

def Declared.mark : Declared → Mark
  | .binary _ => .binary
  | .integer _ => .integer

def Mark.isInteger : Mark → Bool
  | .integer => true
  | _ => false

namespace Compilation

variable {c : Compilation} {M : Int} {lines : List String} {names : List (String × Var)}

def declaredLabel (e : String × Declared) : Label := ⟨e.2.mark, e.1, e.2.var.columnName⟩

def auxiliaryLabel (e : String × Var) : Label := ⟨.auxiliary, e.1, e.2.columnName⟩

def auxiliaryNames (c : Compilation) (names : List (String × Var)) : List (String × Var) :=
  names.filter fun e => !(c.model.key? e.2).any Key.isNamed

/-- The labels that are written when the columns of the binary pool have these names. -/
def labels (c : Compilation) (names : List (String × Var)) : List Label :=
  c.scope.map declaredLabel ++ (c.auxiliaryNames names).map auxiliaryLabel

theorem variableLine_eq_line (e : String × Declared) :
    variableLine e.1 e.2 = (declaredLabel e).line := by
  have hmark : "\\ " = "\\" ++ " " := by decide
  have hcolumn : " = " = " " ++ ("=" ++ " ") := by decide
  obtain ⟨name, d⟩ := e
  cases d <;> simp only [variableLine, declaredLabel, Declared.mark, Label.line, Label.words,
    Mark.word, String.intercalate_cons_cons, String.intercalate_singleton, hmark, hcolumn,
    String.append_assoc]

theorem indicatorLines_eq (hnames : c.model.binaryNames = some names) :
    indicatorLines c.model =
      some ((c.auxiliaryNames names).map fun e => (auxiliaryLabel e).line) := by
  have hmark : "\\ aux " = "\\" ++ (" " ++ ("aux" ++ " ")) := by decide
  have hcolumn : " = " = " " ++ ("=" ++ " ") := by decide
  simp only [indicatorLines, hnames, auxiliaryNames, auxiliaryLabel, Label.line, Label.words,
    Mark.word, String.intercalate_cons_cons, String.intercalate_singleton, hmark, hcolumn,
    String.append_assoc]

theorem legend_listing {s : Settings} {text : String} (hdeclared : s.showVariables = true)
    (hauxiliary : s.showIndicators = true) (hnames : c.model.binaryNames = some names)
    (hspelled : ∀ l ∈ c.labels names, l.Spelled) (h : c.listing s = some text) :
    legend text = c.labels names := by
  obtain ⟨indicators, t, hindicators, ht, rfl⟩ := listing_eq_some_iff.1 h
  rw [if_pos hauxiliary, indicatorLines_eq hnames] at hindicators
  cases hindicators
  obtain ⟨ls, rfl, hsingle, hnone⟩ := Model.exists_listing_lines ht
  have hheader : c.scope.map (fun e => variableLine e.1 e.2) ++
      (c.auxiliaryNames names).map (fun e => (auxiliaryLabel e).line) =
        (c.labels names).map Label.line := by
    simp [labels, variableLine_eq_line, Function.comp_def]
  have hread : ((c.labels names).map Label.line).filterMap (fun l => Label.ofLine? l.toList) =
      c.labels names := by
    rw [List.filterMap_map]
    exact (List.filterMap_congr fun l hl => Label.ofLine?_line (hspelled l hl)).trans
      List.filterMap_some
  have hlines : ∀ l ∈ (c.labels names).map Label.line ++ ls, Model.Single l :=
    List.forall_mem_append.2 ⟨List.forall_mem_map.2 fun l hl => (hspelled l hl).single, hsingle⟩
  rw [if_pos hdeclared, hheader, ← unlines_append, legend_unlines hlines, List.filterMap_append,
    hread, List.filterMap_eq_nil_iff.2 hnone, List.append_nil]

/-! ## The columns of the labels -/

theorem Accepts.mem_scope_iff (h : Accepts M lines c) {name : String} {d : Declared} :
    (name, d) ∈ c.scope ↔ ∃ kind, c.model.columns[d.var]? = some ⟨.named name, kind⟩ ∧
      d = kind.declared d.var := by
  rw [← h.increasing.get?_eq_some_iff]
  constructor
  · intro hd
    cases d with
    | binary v => exact ⟨.binary, h.valid.binary hd, rfl⟩
    | integer v =>
      obtain ⟨l, u, hc⟩ := h.valid.integer hd
      exact ⟨.integer l u, hc, rfl⟩
  · rintro ⟨kind, hc, hd⟩
    rw [hd]
    exact (h.reflects.named hc).1

theorem mem_auxiliaryNames_iff (hpool : c.model.NamesPool false names) {s : String} {v : Var} :
    (s, v) ∈ c.auxiliaryNames names ↔ (s, v) ∈ names ∧
      ∃ k, c.model.columns[v]? = some ⟨k, .binary⟩ ∧ k.isNamed = false := by
  rw [auxiliaryNames, List.mem_filter, and_congr_right_iff]
  intro hmem
  obtain ⟨kind, hkind, hbinary⟩ := (hpool.column v).1 (List.mem_map_of_mem hmem)
  obtain ⟨⟨key, kind⟩, hc, rfl⟩ := Model.kind?_eq_some_iff.1 hkind
  obtain rfl := Kind.isInteger_eq_false_iff.1 hbinary
  rw [Model.key?_eq_some_iff.2 ⟨_, hc, rfl⟩, hc]
  simp

section Pool

variable (h : Accepts M lines c) (hpool : c.model.NamesPool false names)
include h hpool

theorem exists_auxiliaryName {v : Var} {column : Column} (hc : c.model.columns[v]? = some column)
    (hkey : column.key.isNamed = false) : ∃ s, (s, v) ∈ c.auxiliaryNames names := by
  have hkind : column.kind = .binary := h.valid.orderly.auxiliary v column hc hkey
  obtain ⟨⟨s, w⟩, hmem, rfl⟩ := List.mem_map.1
    ((hpool.column v).2 ⟨_, Model.kind?_eq_some_iff.2 ⟨column, hc, hkind⟩, rfl⟩)
  refine ⟨s, (mem_auxiliaryNames_iff hpool).2 ⟨hmem, column.key, ?_, hkey⟩⟩
  rw [hc, ← hkind]

theorem labels_columns :
    ((c.labels names).map Label.column).Perm ((List.range c.model.size).map Var.columnName) := by
  have hvars : (c.labels names).map Label.column =
      (c.scope.map (fun e => e.2.var) ++ (c.auxiliaryNames names).map (·.2)).map
        Var.columnName := by
    simp [labels, declaredLabel, auxiliaryLabel, Function.comp_def]
  rw [hvars]
  refine .map _ ((List.perm_ext_iff_of_nodup ?_ List.nodup_range).2 fun v => ?_)
  · refine List.nodup_append.2 ⟨?_, ?_, ?_⟩
    · refine List.pairwise_map.2 (List.Pairwise.imp_of_mem ?_ h.increasing)
      rintro ⟨name, d⟩ ⟨name', d'⟩ hd hd' hlt hvar
      obtain ⟨kind, hc, -⟩ := h.mem_scope_iff.1 hd
      obtain ⟨kind', hc', -⟩ := h.mem_scope_iff.1 hd'
      rw [hvar, hc'] at hc
      cases hc
      exact Std.lt_irrefl hlt
    · exact (hpool.increasing.sublist (List.filter_sublist.map _)).imp Nat.ne_of_lt
    · intro v hv w hw
      obtain ⟨⟨name, d⟩, hd, rfl⟩ := List.mem_map.1 hv
      obtain ⟨⟨s, w⟩, hs, rfl⟩ := List.mem_map.1 hw
      obtain ⟨kind, hc, -⟩ := h.mem_scope_iff.1 hd
      obtain ⟨-, k, hk, haux⟩ := (mem_auxiliaryNames_iff hpool).1 hs
      rintro rfl
      rw [hc] at hk
      cases hk
      cases haux
  · rw [List.mem_append, List.mem_range]
    constructor
    · rintro (hv | hv)
      · obtain ⟨⟨name, d⟩, hd, rfl⟩ := List.mem_map.1 hv
        obtain ⟨kind, hc, -⟩ := h.mem_scope_iff.1 hd
        exact Model.lt_size_of_column hc
      · obtain ⟨⟨s, w⟩, hs, rfl⟩ := List.mem_map.1 hv
        obtain ⟨-, k, hk, -⟩ := (mem_auxiliaryNames_iff hpool).1 hs
        exact Model.lt_size_of_column hk
    · intro hv
      -- a declared column is in the scope, every other one has a name in the binary pool
      obtain ⟨⟨key, kind⟩, hc⟩ := Model.exists_column hv
      rcases key.named_or_auxiliary with ⟨name, rfl⟩ | haux
      · have hd : (name, kind.declared v) ∈ c.scope :=
          h.mem_scope_iff.2 ⟨kind, by rw [Kind.declared_var, hc], by rw [Kind.declared_var]⟩
        exact .inl (List.mem_map.2 ⟨_, hd, Kind.declared_var v kind⟩)
      · obtain ⟨s, hs⟩ := exists_auxiliaryName h hpool hc haux
        exact .inr (List.mem_map.2 ⟨_, hs, rfl⟩)

/-- Two labels with one name are those of an integer column and of an auxiliary one. -/
theorem labels_shared : (c.labels names).Pairwise fun a b =>
    a.name = b.name → a.mark = .integer ∧ b.mark = .auxiliary := by
  refine List.pairwise_append.2 ⟨?_, ?_, ?_⟩
  · exact List.pairwise_map.2 (h.increasing.imp fun hlt heq => absurd heq (Std.ne_of_lt hlt))
  · have hdistinct : (c.auxiliaryNames names).Pairwise fun e f => e.1 ≠ f.1 :=
      (List.pairwise_map.1 hpool.distinct).filter _
    exact List.pairwise_map.2 (hdistinct.imp fun hne heq => absurd heq hne)
  · intro a ha b hb
    obtain ⟨⟨name, d⟩, hd, rfl⟩ := List.mem_map.1 ha
    obtain ⟨⟨s, v⟩, hs, rfl⟩ := List.mem_map.1 hb
    rintro (rfl : name = s)
    refine ⟨?_, rfl⟩
    cases d with
    | integer w => rfl
    | binary w =>
      -- both columns would have the name in the binary pool
      obtain ⟨kind, hc, hkind⟩ := h.mem_scope_iff.1 hd
      obtain ⟨hv, k, hk, haux⟩ := (mem_auxiliaryNames_iff hpool).1 hs
      cases kind with
      | integer l u => cases hkind
      | binary =>
        have hw : (name, w) ∈ names := hpool.declared name w
          ⟨.binary, Model.kind?_eq_some_iff.2 ⟨_, hc, rfl⟩, rfl⟩
          (Model.key?_eq_some_iff.2 ⟨_, hc, rfl⟩)
        cases List.inj_on_of_nodup_map hpool.distinct hv hw rfl
        rw [Declared.var, hk] at hc
        cases hc
        cases haux

end Pool

end Compilation

/-! ## Names and columns -/

/-- The label says what the column `v` is, under the name that it has. -/
def Label.Describes (l : Label) (m : Model) (v : Var) : Prop :=
  l.column = v.columnName ∧
    match l.mark with
    | .binary => m.columns[v]? = some ⟨.named l.name, .binary⟩
    | .integer => ∃ lower upper, m.columns[v]? = some ⟨.named l.name, .integer lower upper⟩
    | .auxiliary => ∃ k names, m.columns[v]? = some ⟨k, .binary⟩ ∧ k.isNamed = false ∧
      m.binaryNames = some names ∧ (l.name, v) ∈ names

structure Identifies (ls : List Label) (m : Model) : Prop where
  /-- A label describes a column, and every description of a column is a label. -/
  describes : ∀ l, l ∈ ls ↔ ∃ v, l.Describes m v
  /-- Every column has exactly one label. -/
  columns : (ls.map Label.column).Perm ((List.range m.size).map Var.columnName)
  /-- Two labels with one name are those of an integer column and, behind it, of an auxiliary
  one. -/
  shared : ls.Pairwise fun a b => a.name = b.name → a.mark = .integer ∧ b.mark = .auxiliary
  /-- A name leads to exactly one column of its pool. -/
  unique : ∀ l ∈ ls, ∃! v : Var, ∃ l' ∈ ls, l'.name = l.name ∧
    l'.mark.isInteger = l.mark.isInteger ∧ l'.Describes m v

/-- The labels do not have one name in one pool. -/
def Label.Apart (a b : Label) : Prop := a.name = b.name → a.mark.isInteger ≠ b.mark.isInteger

instance : Std.Symm Label.Apart := ⟨fun _ _ h heq => (h heq.symm).symm⟩

/-- Labels that share names only across the pools lead to one column each. -/
theorem existsUnique_column {m : Model} {ls : List Label}
    (hdescribes : ∀ l, l ∈ ls ↔ ∃ v, l.Describes m v)
    (hshared : ls.Pairwise fun a b => a.name = b.name → a.mark = .integer ∧ b.mark = .auxiliary) :
    ∀ l ∈ ls, ∃! v : Var, ∃ l' ∈ ls, l'.name = l.name ∧ l'.mark.isInteger = l.mark.isInteger ∧
      l'.Describes m v := by
  have hapart : ls.Pairwise Label.Apart := by
    refine hshared.imp fun hab hname => ?_
    obtain ⟨ha, hb⟩ := hab hname
    rw [ha, hb]
    decide
  have hsame : ∀ a ∈ ls, ∀ b ∈ ls, a.name = b.name → a.mark.isInteger = b.mark.isInteger →
      a = b := by
    intro a ha b hb hname hmark
    by_contra hne
    exact hapart.forall ha hb hne hname hmark
  intro l hl
  obtain ⟨v, hv⟩ := (hdescribes l).1 hl
  refine ⟨v, ⟨l, hl, rfl, rfl, hv⟩, ?_⟩
  rintro w ⟨l', hl', hname, hmark, hw⟩
  obtain rfl := hsame l' hl' l hl hname hmark
  exact columnName_inj.1 (hw.1.symm.trans hv.1)

namespace Compilation

variable {c : Compilation} {M : Int} {lines : List String} {names : List (String × Var)}

theorem mem_labels_iff (h : Accepts M lines c) (hnames : c.model.binaryNames = some names)
    (hpool : c.model.NamesPool false names) (l : Label) :
    l ∈ c.labels names ↔ ∃ v, l.Describes c.model v := by
  rw [labels, List.mem_append, List.mem_map, List.mem_map]
  constructor
  · rintro (⟨⟨name, d⟩, hd, rfl⟩ | ⟨⟨s, v⟩, hs, rfl⟩)
    · obtain ⟨kind, hc, hkind⟩ := h.mem_scope_iff.1 hd
      refine ⟨d.var, rfl, ?_⟩
      cases kind with
      | binary =>
        rw [hkind]
        exact hc
      | integer lower upper =>
        rw [hkind]
        exact ⟨lower, upper, hc⟩
    · obtain ⟨hmem, k, hk, haux⟩ := (mem_auxiliaryNames_iff hpool).1 hs
      exact ⟨v, rfl, k, names, hk, haux, hnames, hmem⟩
  · obtain ⟨mark, name, column⟩ := l
    rintro ⟨v, hcolumn, hc⟩
    obtain rfl : column = v.columnName := hcolumn
    cases mark with
    | binary => exact .inl ⟨(name, .binary v), h.mem_scope_iff.2 ⟨.binary, hc, rfl⟩, rfl⟩
    | integer =>
      obtain ⟨lower, upper, hc⟩ := hc
      exact .inl ⟨(name, .integer v), h.mem_scope_iff.2 ⟨.integer lower upper, hc, rfl⟩, rfl⟩
    | auxiliary =>
      obtain ⟨k, names', hk, haux, hnames', hmem⟩ := hc
      obtain rfl := Option.some.inj (hnames.symm.trans hnames')
      exact .inr ⟨(name, v), (mem_auxiliaryNames_iff hpool).2 ⟨hmem, k, hk, haux⟩, rfl⟩

theorem spelled_labels (h : Accepts M lines c) (hnames : c.model.binaryNames = some names) :
    ∀ l ∈ c.labels names, l.Spelled := by
  refine List.forall_mem_append.2 ⟨List.forall_mem_map.2 ?_, List.forall_mem_map.2 ?_⟩
  · rintro ⟨name, d⟩ hd
    obtain ⟨kind, hc, -⟩ := h.mem_scope_iff.1 hd
    exact ⟨h.namedByWords d.var name (Model.key?_eq_some_iff.2 ⟨_, hc, rfl⟩),
      word_columnName d.var⟩
  · intro e he
    exact ⟨h.namedByWords.poolNames hnames e (List.mem_of_mem_filter he), word_columnName e.2⟩

/-- The legend of every listing identifies the columns of its model. -/
theorem compile_legend (s : Settings) (input : List UInt8) (text : String)
    (hdeclared : s.showVariables = true) (hauxiliary : s.showIndicators = true)
    (h : compile s input = .ok text) :
    ∃ (lines : List String) (c : Compilation), textLines input = lines.map some ∧
      Accepts s.defaultBigM lines c ∧ Identifies (legend text) c.model := by
  obtain ⟨lines, c, hlines, haccepts, hlisting⟩ := compile_eq_ok h
  have horderly : c.model.Orderly := haccepts.valid.orderly
  obtain ⟨names, hnames, hpool, -⟩ :=
    Model.exists_poolNames horderly.distinct horderly.acyclic false
  have hlegend := legend_listing hdeclared hauxiliary hnames (spelled_labels haccepts hnames)
    hlisting
  have hmem := mem_labels_iff haccepts hnames hpool
  have hshared := labels_shared haccepts hpool
  refine ⟨lines, c, hlines, haccepts, ?_⟩
  rw [hlegend]
  exact ⟨hmem, labels_columns haccepts hpool, hshared, existsUnique_column hmem hshared⟩

/-- An integer column is declared under the name that the conjunction of two binary ones gets. -/
def sharedInput : List UInt8 :=
  "(bin a)\n(bin b)\n(int a_and_b_dummy 0 3)\n(and a b)\n".toUTF8.data.toList

def sharedListing : List String := [
  "\\ bin a = x_1", "\\ int a_and_b_dummy = x_3", "\\ bin b = x_2", "\\ aux a_and_b_dummy = x_4",
  "Subject To", " c1: x_1 + x_2 - x_4 <= 1", " c2: -x_1 + x_4 <= 0", " c3: -x_2 + x_4 <= 0",
  "Bounds", " 0 <= x_3 <= 3",
  "Binary", " x_1", " x_2", " x_4",
  "General", " x_3", "End"]

theorem sharedInput_legend :
    ∃ (lines : List String) (c : Compilation), textLines sharedInput = lines.map some ∧
      Accepts 1000 lines c ∧ Identifies (legend (unlines sharedListing)) c.model :=
  compile_legend ⟨1000, true, true, false⟩ sharedInput (unlines sharedListing) rfl rfl
    (by decide +kernel)

/-- Across the pools a name can stand for two columns. -/
theorem sharedInput_legend_repeats :
    compile ⟨1000, true, true, false⟩ sharedInput = .ok (unlines sharedListing) ∧
      ¬ ((legend (unlines sharedListing)).map Label.name).Nodup := by
  refine ⟨by decide +kernel, ?_⟩
  rw [legend_unlines (by decide +kernel)]
  decide +kernel

end Compilation
end Linearize
