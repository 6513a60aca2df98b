import Mathlib.Data.List.Forall2
import Linearize.Proofs.Declarations
import Linearize.Proofs.Listing
import Linearize.Proofs.Names

/-!
# Linearize.Proofs.Closure

Listings are closed. The sections of a listing share the columns of the model between them, the
lines of bounds repeat the declarations, and the rows mention nothing else.
-/

namespace Linearize

namespace Model

/-! ## Sections -/

theorem boundsLines_forall₂ (m : Model) :
    List.Forall₂ (fun v line => ∃ l u, m.kind? v = some (.integer l u) ∧ line = boundsLine v l u)
      (m.places true) m.boundsLines := by
  have hcolumns : List.Forall₂ (fun x y => x = y ∧ m.columns[x.2]? = some x.1)
      m.columns.zipIdx m.columns.zipIdx :=
    List.forall₂_same.2 fun x hx => ⟨rfl, List.mem_zipIdx_iff_getElem?.1 hx⟩
  rw [places, pool, List.map_filterMap]
  refine List.rel_filterMap ?_ hcolumns
  rintro ⟨⟨key, kind⟩, v⟩ _ ⟨rfl, hc⟩
  cases kind with
  | binary => exact .none
  | integer l u => exact .some ⟨l, u, kind?_eq_some_iff.2 ⟨_, hc, rfl⟩, rfl⟩

end Model

/-- A column is named in exactly one of the lines of bounds of increasing columns. -/
theorem existsUnique_boundsLine {vs : List Var} {lines : List String} (hvs : vs.Pairwise (· < ·))
    (h : List.Forall₂ (fun v line => ∃ l u, line = Model.boundsLine v l u) vs lines) {v : Var}
    (hv : v ∈ vs) : ∃! i : Nat, ∃ l u, lines[i]? = some (Model.boundsLine v l u) := by
  obtain ⟨hlen, hget⟩ := List.forall₂_iff_get.1 h
  obtain ⟨i, hi, rfl⟩ := List.getElem_of_mem hv
  obtain ⟨l, u, hline⟩ := hget i hi (hlen ▸ hi)
  refine ⟨i, ⟨l, u, List.getElem?_eq_some_iff.2 ⟨hlen ▸ hi, hline⟩⟩, ?_⟩
  rintro j ⟨l', u', hj⟩
  obtain ⟨hjlen, hline'⟩ := List.getElem?_eq_some_iff.1 hj
  obtain ⟨l'', u'', hline''⟩ := hget j (hlen ▸ hjlen) hjlen
  have hsame : vs.get ⟨j, hlen ▸ hjlen⟩ = vs.get ⟨i, hi⟩ :=
    (Model.boundsLine_inj (hline''.symm.trans hline')).1
  have hnodup : vs.Nodup := hvs.imp Nat.ne_of_lt
  exact hnodup.getElem_inj_iff.1 hsame

namespace Compilation

variable {c : Compilation} {M : Int}

/-! ## The text of accepted lines -/

theorem exists_lines {n : Nat} {c' : Compilation} {input : List (Option String)}
    (h : addLines M n c input = .ok c') : ∃ lines : List String, input = lines.map some := by
  induction input generalizing n c with
  | nil => exact ⟨[], rfl⟩
  | cons line rest ih =>
    cases line with
    | none => cases h
    | some line =>
      simp only [addLines] at h
      split at h
      · cases h
      · obtain ⟨lines, rfl⟩ := ih h
        exact ⟨line :: lines, rfl⟩

theorem compile_eq_ok {s : Settings} {input : List UInt8} {text : String}
    (h : compile s input = .ok text) : ∃ (lines : List String) (c : Compilation),
      textLines input = lines.map some ∧ Accepts s.defaultBigM lines c ∧
        c.listing s = some text := by
  simp only [compile, compileLines] at h
  split at h
  · cases h
  · rename_i c hc
    split at h
    · cases h
    · rename_i t ht
      cases h
      obtain ⟨lines, hlines⟩ := exists_lines hc
      rw [hlines] at hc
      exact ⟨lines, c, hlines, hc, ht⟩

theorem variableLine_comment (name : String) (d : Declared) :
    ∃ note, variableLine name d = "\\ " ++ note := by
  simp only [variableLine, String.append_assoc]
  exact ⟨_, rfl⟩

theorem listing_eq_some_iff {s : Settings} {text : String} :
    c.listing s = some text ↔ ∃ indicators t,
      (if s.showIndicators then indicatorLines c.model else some []) = some indicators ∧
      c.model.listing = some t ∧
      text = unlines ((if s.showVariables then c.scope.map fun e => variableLine e.1 e.2 else []) ++
        indicators) ++ t := by
  simp only [listing]
  cases if s.showIndicators then indicatorLines c.model else some [] with
  | none => simp
  | some indicators =>
    cases c.model.listing with
    | none => simp
    | some t =>
      constructor
      · intro h
        exact ⟨indicators, t, rfl, rfl, (Option.some.inj h).symm⟩
      · rintro ⟨_, _, hindicators, ht, rfl⟩
        cases hindicators
        cases ht
        rfl

theorem indicatorLines_comment {m : Model} {ls : List String} (h : indicatorLines m = some ls) :
    ∀ line ∈ ls, ∃ note, line = "\\ " ++ note := by
  simp only [indicatorLines] at h
  split at h
  · cases h
  · cases h
    refine List.forall_mem_map.2 fun e _ => ⟨"aux " ++ e.1 ++ " = " ++ e.2.columnName, ?_⟩
    simp only [← String.append_assoc]
    rfl

theorem listing_eq_some {s : Settings} {text : String} (h : c.listing s = some text) :
    ∃ header t, (∀ line ∈ header, ∃ note, line = "\\ " ++ note) ∧ c.model.listing = some t ∧
      text = unlines header ++ t := by
  obtain ⟨indicators, t, hindicators, ht, rfl⟩ := listing_eq_some_iff.1 h
  refine ⟨_, t, List.forall_mem_append.2 ⟨?_, ?_⟩, ht, rfl⟩
  · split
    · exact List.forall_mem_map.2 fun e _ => variableLine_comment e.1 e.2
    · exact List.forall_mem_nil _
  · split at hindicators
    · exact indicatorLines_comment hindicators
    · cases hindicators
      exact List.forall_mem_nil _

theorem integer_mem_declarations {lines : List String} {name : String} {l u : Option Int}
    (h : (name, .integer l u) ∈ c.declarations M lines) :
    ∃ lower upper, l = some lower ∧ u = some upper := by
  obtain ⟨clause, -, hclause⟩ := List.mem_filterMap.1 h
  cases clause with
  | declareBinary name => cases hclause
  | declareInteger name lower upper =>
    cases hclause
    exact ⟨lower, upper, rfl, rfl⟩
  | state x => cases hclause

/-! ## Closed listings -/

/-- The sections of a listing, the scope and the declarations agree. -/
structure Closed (c : Compilation) (decls : List (String × Kind)) (bounds : List String)
    (binary general : List Var) : Prop where
  /-- Rows mention columns of the model. -/
  rows : ∀ r ∈ c.model.rows, ∀ v ∈ r.vars, v < c.model.size
  /-- Every column stands in exactly one of the two sections, once. -/
  columns : (binary ++ general).Perm (List.range c.model.size)
  binary_increasing : binary.Pairwise (· < ·)
  general_increasing : general.Pairwise (· < ·)
  /-- The lines of bounds are those of the declarations of the general columns, in their order. -/
  bounds_declared : List.Forall₂ (fun v line => ∃ name lower upper,
    (name, .integer (some lower) (some upper)) ∈ decls ∧
      c.scope.get? name = some (.integer v) ∧
      line = Model.boundsLine v (some lower) (some upper)) general bounds
  bounded : ∀ v ∈ general, ∃! i : Nat, ∃ l u, bounds[i]? = some (Model.boundsLine v l u)
  auxiliary : ∀ v k, c.model.key? v = some k → k.isNamed = false → v ∈ binary
  /-- A declared name is in the scope, with the one column that has it as its key. -/
  declared : ∀ name kind, (name, kind) ∈ decls → ∃ v, c.scope.get? name = some (kind.declared v) ∧
    c.model.kind? v = some kind ∧ ∀ w, c.model.key? w = some (.named name) ↔ w = v
  /-- The scope has no other names. -/
  scope : ∀ name d, c.scope.get? name = some d → ∃ kind, (name, kind) ∈ decls ∧
    d = kind.declared d.var
  binary_iff : ∀ v, v ∈ binary ↔ c.model.kind? v = some .binary
  general_iff : ∀ v, v ∈ general ↔ ∃ l u, c.model.kind? v = some (.integer l u)

theorem Accepts.closed {lines : List String} (h : Accepts M lines c) :
    c.Closed (declarations M .empty lines) c.model.boundsLines (c.model.places false)
      (c.model.places true) := by
  have hv : c.Valid := h.valid
  have hr := h.reflects
  have hbounds := c.model.boundsLines_forall₂
  refine ⟨fun r hrow => Constraint.over_iff.1 (hr.rows r hrow), c.model.places_perm,
    c.model.places_increasing false, c.model.places_increasing true, hbounds.imp ?_,
    fun v => existsUnique_boundsLine (c.model.places_increasing true) (hbounds.imp ?_), ?_, ?_, ?_,
    ?_, ?_⟩
  · rintro v line ⟨l, u, hkind, rfl⟩
    obtain ⟨⟨key, kind⟩, hc, rfl⟩ := Model.kind?_eq_some_iff.1 hkind
    -- an integer column stands for no condition, so it has a name
    rcases key.named_or_auxiliary with ⟨name, rfl⟩ | haux
    · obtain ⟨hget, hmem⟩ := hr.named hc
      obtain ⟨lower, upper, rfl, rfl⟩ := integer_mem_declarations hmem
      exact ⟨name, lower, upper, hmem, hget, rfl⟩
    · cases hv.orderly.auxiliary v _ hc haux
  · rintro v line ⟨l, u, -, hline⟩
    exact ⟨l, u, hline⟩
  · intro v k hk haux
    obtain ⟨d, hd, rfl⟩ := Model.key?_eq_some_iff.1 hk
    have hkind := hv.orderly.auxiliary v d hd haux
    exact Model.mem_places_iff.2 ⟨.binary, Model.kind?_eq_some_iff.2 ⟨d, hd, hkind⟩, rfl⟩
  · intro name kind hmem
    obtain ⟨v, hget, hc⟩ := hr.declared hmem
    refine ⟨v, hget, Model.kind?_eq_some_iff.2 ⟨_, hc, rfl⟩, fun w => ⟨fun hw => ?_, ?_⟩⟩
    · obtain ⟨⟨key, kind'⟩, hd, rfl⟩ := Model.key?_eq_some_iff.1 hw
      have hvar := congrArg (Option.map Declared.var) ((hr.named hd).1.symm.trans hget)
      simpa using hvar
    · rintro rfl
      exact Model.key?_eq_some_iff.2 ⟨_, hc, rfl⟩
  · intro name d hd
    cases d with
    | binary v => exact ⟨.binary, (hr.named (hv.binary hd)).2, rfl⟩
    | integer v =>
      obtain ⟨l, u, hc⟩ := hv.integer hd
      exact ⟨.integer l u, (hr.named hc).2, rfl⟩
  · intro v
    simp [Model.mem_places_iff, Model.InPool, Kind.isInteger_eq_false_iff]
  · intro v
    simp [Model.mem_places_iff, Model.InPool, Kind.isInteger_eq_true_iff]

/-- Every listing is closed: whatever input is compiled, the text is the rows of the model between
comments and three sections, in which the columns, the bounds and the declared names agree. -/
theorem compile_closed (s : Settings) (input : List UInt8) (text : String)
    (h : compile s input = .ok text) :
    ∃ (lines : List String) (c : Compilation) (header rows bounds : List String)
      (binary general : List Var),
      textLines input = lines.map some ∧ Accepts s.defaultBigM lines c ∧
      (∀ line ∈ header, ∃ note, line = "\\ " ++ note) ∧
      Model.rowLines 0 c.model.rows = some rows ∧
      text = unlines header ++ unlines ("Subject To" :: (rows ++ ("Bounds" :: (bounds ++
        (Model.sectionLines "Binary" binary ++
          (Model.sectionLines "General" general ++ ["End"])))))) ∧
      c.Closed (declarations s.defaultBigM .empty lines) bounds binary general := by
  obtain ⟨lines, c, hlines, haccepts, hlisting⟩ := compile_eq_ok h
  obtain ⟨header, t, hheader, ht, rfl⟩ := listing_eq_some hlisting
  obtain ⟨rows, hrows, rfl⟩ := Model.listing_eq_some_iff.1 ht
  exact ⟨lines, c, header, rows, c.model.boundsLines, c.model.places false, c.model.places true,
    hlines, haccepts, hheader, hrows, rfl, haccepts.closed⟩

/-- An integer column before the binary ones, the last of which stands for a comparison. -/
def mixedInput : List UInt8 := "(int x 0 9)\n(bin a)\n(less x 3)\n".toUTF8.data.toList

def mixedText : String :=
  "\\ bin a = x_2\n\\ int x = x_1\n\\ aux x_less_3_dummy = x_3\n" ++
    "Subject To\n c1: x_1 + 1000 x_3 <= 1002\n c2: -x_1 - 1000 x_3 <= -3\n" ++
    "Bounds\n 0 <= x_1 <= 9\nBinary\n x_2\n x_3\nGeneral\n x_1\nEnd\n"

theorem mixedInput_closed :
    ∃ (lines : List String) (c : Compilation) (header rows bounds : List String)
      (binary general : List Var),
      textLines mixedInput = lines.map some ∧ Accepts 1000 lines c ∧
      (∀ line ∈ header, ∃ note, line = "\\ " ++ note) ∧
      Model.rowLines 0 c.model.rows = some rows ∧
      mixedText = unlines header ++ unlines ("Subject To" :: (rows ++ ("Bounds" :: (bounds ++
        (Model.sectionLines "Binary" binary ++
          (Model.sectionLines "General" general ++ ["End"])))))) ∧
      c.Closed (declarations 1000 .empty lines) bounds binary general :=
  compile_closed ⟨1000, true, true, false⟩ mixedInput mixedText (by decide +kernel)

end Compilation
end Linearize
