/-!
# Linearize.Table

Entries under names, in increasing order of the names, each name once.
-/

namespace Linearize

abbrev Table (α : Type) := List (String × α)

namespace Table

variable {α : Type}

def get? (t : Table α) (name : String) : Option α := t.lookup name

def names (t : Table α) : List String := t.map (·.1)

/-- Adds an entry at its place, over the one that is there. -/
def put (name : String) (x : α) : Table α → Table α
  | [] => [(name, x)]
  | (n, y) :: rest =>
    if name < n then (name, x) :: (n, y) :: rest
    else if name = n then (name, x) :: rest
    else (n, y) :: put name x rest

/-- Adds an entry at its place; `none` if the name is taken. -/
def insertNew? (name : String) (x : α) : Table α → Option (Table α)
  | [] => some [(name, x)]
  | (n, y) :: rest =>
    if name < n then some ((name, x) :: (n, y) :: rest)
    else if name = n then none
    else
      match insertNew? name x rest with
      | none => none
      | some rest' => some ((n, y) :: rest')

/-! ## Entries after a change -/

theorem get?_cons (s : String) (y : α) (t : Table α) (n : String) :
    Table.get? ((s, y) :: t) n = if n = s then some y else t.get? n := by
  rw [get?, List.lookup_cons]
  by_cases hn : n = s
  · simp [hn]
  · rw [if_neg hn, beq_false_of_ne hn]
    rfl

theorem get?_eq_none_iff {t : Table α} {n : String} : t.get? n = none ↔ n ∉ t.names := by
  induction t with
  | nil => simp [get?, names]
  | cons e t ih =>
    obtain ⟨s, y⟩ := e
    rw [get?_cons]
    by_cases hn : n = s
    · simp [names, hn]
    · simpa [names, hn] using ih

theorem get?_put (t : Table α) (name : String) (x : α) (n : String) :
    (t.put name x).get? n = if n = name then some x else t.get? n := by
  induction t with
  | nil => exact get?_cons name x [] n
  | cons e t ih =>
    obtain ⟨s, y⟩ := e
    simp only [put]
    split
    · exact get?_cons name x _ n
    · split
      · rename_i hname
        subst hname
        rw [get?_cons, get?_cons]
        split <;> rfl
      · rename_i hname
        rw [get?_cons, get?_cons, ih]
        by_cases hn : n = s
        · rw [if_pos hn, if_neg (hn ▸ Ne.symm hname), if_pos hn]
        · rw [if_neg hn, if_neg hn]

theorem names_put {t : Table α} {name : String} (h : name ∉ t.names) (x : α) :
    (t.put name x).names.Perm (name :: t.names) := by
  induction t with
  | nil => exact .refl _
  | cons e t ih =>
    obtain ⟨s, y⟩ := e
    obtain ⟨hne, htail⟩ : name ≠ s ∧ name ∉ Table.names t := by simpa [names] using h
    simp only [put, if_neg hne]
    split
    · exact .refl _
    · exact ((ih htail).cons s).trans (.swap name s _)

/-- A new entry is found under its name, and every other name as before. -/
theorem get?_insertNew? {t t' : Table α} {name : String} {x : α}
    (h : t.insertNew? name x = some t') (n : String) :
    t'.get? n = if n = name then some x else t.get? n := by
  induction t generalizing t' with
  | nil =>
    cases h
    exact get?_cons name x [] n
  | cons e t ih =>
    obtain ⟨k, y⟩ := e
    simp only [insertNew?] at h
    split at h
    · cases h
      exact get?_cons name x _ n
    · split at h
      · cases h
      · rename_i hne
        split at h
        · cases h
        · rename_i rest' hr
          cases h
          rw [get?_cons, get?_cons, ih hr]
          by_cases hk : n = k
          · rw [if_pos hk, if_neg (hk ▸ Ne.symm hne), if_pos hk]
          · rw [if_neg hk, if_neg hk]

theorem perm_insertNew? {t t' : Table α} {name : String} {x : α}
    (h : t.insertNew? name x = some t') : t'.Perm ((name, x) :: t) := by
  induction t generalizing t' with
  | nil =>
    cases h
    exact .refl _
  | cons e t ih =>
    obtain ⟨k, y⟩ := e
    simp only [insertNew?] at h
    split at h
    · cases h
      exact .refl _
    · split at h
      · cases h
      · split at h
        · cases h
        · rename_i rest' hr
          cases h
          exact ((ih hr).cons (k, y)).trans (.swap (name, x) (k, y) t)

def Increasing (t : Table α) : Prop := t.Pairwise fun e f => e.1 < f.1

theorem Increasing.get?_eq_some_iff {t : Table α} (ht : t.Increasing) {n : String} {x : α} :
    t.get? n = some x ↔ (n, x) ∈ t := by
  induction t with
  | nil => simp [get?]
  | cons e t ih =>
    obtain ⟨k, y⟩ := e
    obtain ⟨hk, htail⟩ := List.pairwise_cons.1 ht
    rw [get?_cons, List.mem_cons]
    split
    · rename_i heq
      subst heq
      have hnot : (n, x) ∉ t := fun hmem => absurd (hk (n, x) hmem) Std.lt_irrefl
      simp [hnot, eq_comm]
    · rename_i hne
      rw [ih htail]
      simp [hne]

theorem Increasing.insertNew? {t t' : Table α} {name : String} {x : α} (ht : t.Increasing)
    (h : t.insertNew? name x = some t') : t'.Increasing := by
  induction t generalizing t' with
  | nil =>
    cases h
    exact List.pairwise_singleton _ _
  | cons e t ih =>
    obtain ⟨k, y⟩ := e
    obtain ⟨hk, htail⟩ := List.pairwise_cons.1 ht
    simp only [Table.insertNew?] at h
    split at h
    · rename_i hlt
      cases h
      refine List.pairwise_cons.2 ⟨?_, ht⟩
      intro f hf
      rcases List.mem_cons.1 hf with rfl | hf
      · exact hlt
      · exact String.lt_trans hlt (hk f hf)
    · rename_i hlt
      split at h
      · cases h
      · rename_i hne
        split at h
        · cases h
        · rename_i rest' hr
          cases h
          refine List.pairwise_cons.2 ⟨?_, ih htail hr⟩
          intro f hf
          rcases List.mem_cons.1 ((perm_insertNew? hr).mem_iff.1 hf) with rfl | hf
          · exact Std.lt_of_le_of_ne (Std.not_lt.1 hlt) (Ne.symm hne)
          · exact hk f hf

theorem Increasing.get?_eq_none {t t' : Table α} {name : String} {x : α} (ht : t.Increasing)
    (h : t.insertNew? name x = some t') : t.get? name = none := by
  have hnames : t'.Pairwise fun e f => e.1 ≠ f.1 := (ht.insertNew? h).imp Std.ne_of_lt
  have hnew := List.pairwise_cons.1
    (((perm_insertNew? h).pairwise_iff fun hne => hne.symm).1 hnames)
  refine get?_eq_none_iff.2 fun hmem => ?_
  obtain ⟨f, hf, hname⟩ := List.mem_map.1 hmem
  exact hnew.1 f hf hname.symm

theorem Increasing.get?_insertNew? {t t' : Table α} {name : String} {x : α} (ht : t.Increasing)
    (h : t.insertNew? name x = some t') {n : String} {y : α} (hn : t.get? n = some y) :
    t'.get? n = some y := by
  rw [Table.get?_insertNew? h]
  split
  · rename_i heq
    rw [heq, ht.get?_eq_none h] at hn
    cases hn
  · exact hn

end Table

end Linearize
