import Linearize.Proofs.Declarations
import Linearize.Proofs.Names

/-!
# Linearize.Proofs.Spelling

Names are words: there is no blank and no line feed in them. A declared name is an identifier of its
line, and every other name is put together from declared names, numerals and words.
-/

namespace Linearize

namespace Text

/-- A text without blanks and line feeds. -/
def Word (s : String) : Prop := Lacks ' ' s ∧ Lacks '\n' s

instance (s : String) : Decidable (Word s) := inferInstanceAs (Decidable (_ ∧ _))

@[simp] theorem word_append {s t : String} : Word (s ++ t) ↔ Word s ∧ Word t := by
  simp only [Word, lacks_append]
  exact and_and_and_comm

theorem word_nat (n : Nat) : Word (toString n) :=
  ⟨lacks_nat (by decide) n, lacks_nat (by decide) n⟩

theorem word_int (n : Int) : Word (toString n) :=
  ⟨lacks_int (by decide) (by decide) n, lacks_int (by decide) (by decide) n⟩

theorem word_columnName (v : Var) : Word v.columnName :=
  ⟨lacks_columnName (by decide) (by decide) v, lacks_columnName (by decide) (by decide) v⟩

theorem word_intercalate {separator : String} (hsep : Word separator) {words : List String}
    (h : ∀ s ∈ words, Word s) : Word (separator.intercalate words) := by
  induction words with
  | nil =>
    rw [String.intercalate_nil]
    decide
  | cons s words ih =>
    obtain ⟨hs, hwords⟩ := List.forall_mem_cons.1 h
    cases words with
    | nil => simpa using hs
    | cons t words =>
      rw [String.intercalate_cons_cons, word_append, word_append]
      exact ⟨⟨hs, hsep⟩, ih hwords⟩

end Text

open Text

/-! ## Declared names -/

namespace Tree

theorem word_of_writesLeaf {name : String} {cs : List Char} (h : WritesLeaf (.ident name) cs) :
    Word name := by
  cases h with
  | @ident c cs hc hcs =>
    have hchars : ∀ x ∈ c :: cs, isIdentChar x = true :=
      List.forall_mem_cons.2 ⟨isIdentChar_of_isIdentStart hc, hcs⟩
    constructor
    · intro hblank
      exact absurd (hchars _ (by simpa using hblank)) (by decide)
    · intro hfeed
      exact absurd (hchars _ (by simpa using hfeed)) (by decide)
  | word hw =>
    have hwords : ∀ w ∈ hyphenated ++ operators, Word w := by decide
    exact hwords name (List.mem_append.2 hw)

theorem WritesAll.exists_writes {ts : List Tree} {cs : List Char} (h : WritesAll ts cs) :
    ∀ t ∈ ts, ∃ cs', Writes t cs' := by
  induction ts generalizing cs with
  | nil => exact List.forall_mem_nil _
  | cons t ts ih =>
    cases h with
    | single ht => exact List.forall_mem_singleton.2 ⟨_, ht⟩
    | cons ht _ _ _ hts => exact List.forall_mem_cons.2 ⟨⟨_, ht⟩, ih hts⟩

theorem word_of_parse {text : List Char} {ts : List Tree} {name : String}
    (h : parse text = .ok (.node ts)) (hname : .ident name ∈ ts) : Word name := by
  obtain ⟨_, _, _, -, hwrites, -⟩ := renders_of_parse h
  cases hwrites with
  | leaf hleaf => cases hleaf
  | node _ hall _ =>
    obtain ⟨cs, hident⟩ := hall.exists_writes _ hname
    cases hident with
    | leaf hleaf => exact word_of_writesLeaf hleaf

end Tree

theorem Scope.word_of_readClause {s : Scope} {line : List Char} {clause : Clause} {name : String}
    {kind : Kind} (h : s.readClause line = .ok clause) (hd : clause.declared? = some (name, kind)) :
    Word name := by
  obtain ⟨op, args, ht, ⟨_, rfl, rfl⟩ | ⟨_, _, _, rfl, rfl⟩ | ⟨_, -, rfl⟩⟩ := readClause_cases h
  · cases hd
    exact Tree.word_of_parse ht (by simp)
  · cases hd
    exact Tree.word_of_parse ht (by simp)
  · cases hd

namespace Compilation

variable {c : Compilation} {M : Int}

/-- Every clause is what a line says in some scope. -/
theorem exists_readClause {lines : List String} {clause : Clause} (h : clause ∈ c.clauses M lines) :
    ∃ (s : Scope) (line : List Char), s.readClause line = .ok clause := by
  induction lines generalizing c with
  | nil => cases h
  | cons line rest ih =>
    simp only [clauses] at h
    split at h
    · cases h
    · rcases List.mem_append.1 h with h | h
      · exact ⟨_, _, (clauseOf?_eq_some_iff.1 (Option.mem_toList.1 h)).2⟩
      · exact ih h

theorem word_of_declarations {lines : List String} {name : String} {kind : Kind}
    (h : (name, kind) ∈ c.declarations M lines) : Word name := by
  obtain ⟨clause, hclause, hd⟩ := List.mem_filterMap.1 h
  obtain ⟨s, line, hread⟩ := exists_readClause hclause
  exact Scope.word_of_readClause hread hd

end Compilation

/-! ## Names that are put together -/

theorem exists_of_mapM {α β : Type} {f : α → Option β} {xs : List α} {ys : List β}
    (h : xs.mapM f = some ys) : ∀ y ∈ ys, ∃ x ∈ xs, f x = some y := by
  induction xs generalizing ys with
  | nil =>
    cases h
    exact List.forall_mem_nil _
  | cons x xs ih =>
    rw [List.mapM_cons] at h
    obtain ⟨y, hy, h⟩ := Option.bind_eq_some_iff.1 h
    obtain ⟨tail, htail, h⟩ := Option.bind_eq_some_iff.1 h
    cases h
    refine List.forall_mem_cons.2 ⟨⟨x, List.mem_cons_self, hy⟩, fun z hz => ?_⟩
    obtain ⟨w, hw, hwz⟩ := ih htail z hz
    exact ⟨w, List.mem_cons_of_mem _ hw, hwz⟩

namespace Model

variable {m : Model} {name : Var → Option String}

section Rendered

variable (hname : ∀ v s, name v = some s → Word s)
include hname

theorem word_termsName {terms : List (Var × Int)} {acc s : String} (hacc : Word acc)
    (h : termsName name acc terms = some s) : Word s := by
  induction terms generalizing acc with
  | nil =>
    cases h
    exact hacc
  | cons t terms ih =>
    obtain ⟨v, c⟩ := t
    simp only [termsName] at h
    split at h
    · cases h
    · rename_i u hu
      refine ih (word_append.2 ⟨?_, hname v u hu⟩) h
      have hjoined : Word (if acc.isEmpty then acc else acc ++ "+") := by
        split
        · exact hacc
        · exact word_append.2 ⟨hacc, by decide⟩
      split
      · exact hjoined
      · exact word_append.2 ⟨word_append.2 ⟨hjoined, word_int c⟩, by decide⟩

theorem word_exprName {e : Expr} {s : String} (h : exprName name e = some s) : Word s := by
  have hsigned : Word (signed e.constant) := by
    rw [signed]
    split
    · exact word_append.2 ⟨by decide, word_int _⟩
    · exact word_int _
  simp only [exprName] at h
  split at h
  · cases h
  · rename_i t ht
    have hterms : Word t := word_termsName hname (by decide) ht
    split at h
    · cases h
      exact word_int _
    · split at h
      · cases h
        exact hterms
      · cases h
        exact word_append.2 ⟨hterms, hsigned⟩

theorem word_joinNames {separator : String} (hsep : Word separator) {vs : List Var} {s : String}
    (h : joinNames name separator vs = some s) : Word s := by
  simp only [joinNames] at h
  split at h
  · cases h
  · rename_i names hnames
    cases h
    refine word_intercalate hsep fun t ht => ?_
    obtain ⟨v, -, hv⟩ := exists_of_mapM hnames t ht
    exact hname v t hv

theorem word_keyName {k : Key} (hk : ∀ s, k = .named s → Word s) {s : String}
    (h : keyName name k = some s) : Word s := by
  cases k with
  | named t =>
    cases h
    exact hk s rfl
  | less a b =>
    simp only [keyName] at h
    split at h
    · rename_i t u ht hu
      cases h
      simp only [word_append]
      exact ⟨⟨⟨word_exprName hname ht, by decide⟩, word_exprName hname hu⟩, by decide⟩
    · cases h
  | and vs =>
    obtain ⟨t, ht, rfl⟩ := Option.map_eq_some_iff.1 h
    exact word_append.2 ⟨word_joinNames hname (by decide) ht, by decide⟩
  | or vs =>
    obtain ⟨t, ht, rfl⟩ := Option.map_eq_some_iff.1 h
    exact word_append.2 ⟨word_joinNames hname (by decide) ht, by decide⟩
  | selector vs i =>
    obtain ⟨t, ht, rfl⟩ := Option.map_eq_some_iff.1 h
    simp only [word_append]
    exact ⟨⟨word_joinNames hname (by decide) ht, by decide⟩, word_nat i⟩

end Rendered

/-- The columns of names have words for names. -/
def NamedByWords (m : Model) : Prop := ∀ v s, m.key? v = some (.named s) → Word s

theorem NamedByWords.name? (hm : m.NamedByWords) {v : Var} {s : String} (h : m.name? v = some s) :
    Word s := by
  suffices hwithin : ∀ depth v s, m.nameWithin depth v = some s → Word s from hwithin _ _ _ h
  -- the names that a key refers to are looked up one level deeper
  intro depth
  induction depth with
  | zero => exact fun v s h => nomatch h
  | succ depth ih =>
    intro v s h
    simp only [nameWithin] at h
    split at h
    · cases h
    · rename_i k hk
      exact word_keyName ih (fun t ht => hm v t (ht ▸ hk)) h

theorem word_suffixed {s : String} (hs : Word s) (v : Var) (k : Nat) : Word (suffixed s v k) := by
  induction k with
  | zero => exact hs
  | succ k ih =>
    rw [suffixed, word_append, word_append]
    exact ⟨⟨ih, by decide⟩, word_columnName v⟩

theorem NamedByWords.distinctNames (hm : m.NamedByWords) {used : List String}
    {entries : List (Var × Key)} {names : List (String × Var)}
    (h : m.distinctNames used entries = some names) (hkeys : ∀ e ∈ entries, m.key? e.1 = some e.2) :
    ∀ e ∈ names, Word e.1 := by
  induction entries generalizing used names with
  | nil =>
    cases h
    exact List.forall_mem_nil _
  | cons e rest ih =>
    obtain ⟨hkey, hrest⟩ := List.forall_mem_cons.1 hkeys
    obtain ⟨s, tail, hnamed, htail, rfl⟩ | ⟨s, tail, -, hs, htail, rfl⟩ :=
      distinctNames_cons_iff.1 h
    · exact List.forall_mem_cons.2 ⟨hm _ s (hnamed ▸ hkey), ih htail hrest⟩
    · obtain ⟨k, hfresh, -⟩ := freshName_spec used s e.1
      refine List.forall_mem_cons.2 ⟨?_, ih htail hrest⟩
      rw [hfresh]
      exact word_suffixed (hm.name? hs) _ k

theorem NamedByWords.poolNames (hm : m.NamedByWords) {integers : Bool}
    {names : List (String × Var)} (h : m.poolNames integers = some names) :
    ∀ e ∈ names, Word e.1 := hm.distinctNames h fun _ => key?_of_mem_pool

end Model

theorem Compilation.Accepts.namedByWords {c : Compilation} {M : Int} {lines : List String}
    (h : Accepts M lines c) : c.model.NamedByWords := by
  intro v name hkey
  obtain ⟨⟨key, kind⟩, hc, rfl⟩ := Model.key?_eq_some_iff.1 hkey
  exact word_of_declarations (h.reflects.named hc).2

end Linearize
