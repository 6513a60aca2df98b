import Linearize.Proofs.Positions

/-!
# Linearize.Proofs.Blame

A reading that overflows has an operation to blame: somewhere in the tree a sum, a difference, a
negation or a product was applied to terms that had been read, and its result does not fit. No other
part of a reading overflows.
-/

namespace Linearize

namespace Tree

/-- The tree `u` is the whole or lies in one of its children. -/
inductive Within (u : Tree) : Tree → Prop where
  | self : Within u u
  | child {t : Tree} {ts : List Tree} : t ∈ ts → Within u t → Within u (.node ts)

/-- The operation of a tree meets terms that were read, and its result does not fit. -/
inductive Breaks (s : Scope) : Tree → Prop where
  | sum {before after : List Tree} {t : Tree} {acc x : Expr} : s.readSum .zero before = .ok acc →
      s.readExpr t = .ok x → acc.add x = none →
      Breaks s (.node (.ident "+" :: (before ++ t :: after)))
  | negation {t : Tree} {x : Expr} : s.readExpr t = .ok x → x.neg = none →
      Breaks s (.node [.ident "-", t])
  | difference {t u : Tree} {x y : Expr} : s.readExpr t = .ok x → s.readExpr u = .ok y →
      x.sub y = none → Breaks s (.node [.ident "-", t, u])
  | leftProduct {n : Int} {t : Tree} {x : Expr} : s.readExpr t = .ok x → x.scale n = none →
      Breaks s (.node [.ident "*", .int n, t])
  | rightProduct {n : Int} {t : Tree} {x : Expr} : s.readExpr t = .ok x → x.scale n = none →
      Breaks s (.node [.ident "*", t, .int n])

/-- Some operation in the tree breaks. -/
def Overflows (s : Scope) (t : Tree) : Prop := ∃ u : Tree, u.Within t ∧ u.Breaks s

variable {s : Scope} {t : Tree} {ts : List Tree}

theorem Breaks.overflows (h : t.Breaks s) : t.Overflows s := ⟨t, .self, h⟩

theorem Overflows.child (ht : t ∈ ts) (h : t.Overflows s) : (node ts).Overflows s := by
  obtain ⟨u, hu, hbreaks⟩ := h
  exact ⟨u, .child ht hu, hbreaks⟩

end Tree

theorem overflow_of_error {α β : Type} {r : Except ReadError α} {e : ReadError}
    (hr : r = .error e) (h : (.error e : Except ReadError β) = .error .overflow) :
    r = .error .overflow :=
  hr.trans (congrArg _ (Except.error.inj h))

/-- If the reading overflows, an operation in the tree is to blame. -/
def Blames {α : Type} (s : Scope) (t : Tree) (r : Except ReadError α) : Prop :=
  r = .error .overflow → t.Overflows s

namespace Blames

variable {α β : Type} {s : Scope} {t : Tree} {ts : List Tree}

theorem ok (x : α) : Blames s t (.ok x) := by
  rintro ⟨⟩

theorem error {e : ReadError} (he : e ≠ .overflow) : Blames s t (.error e : Except ReadError α) :=
  fun h => absurd (Except.error.inj h) he

/-- The second reading may rely on what the first one has read. -/
theorem bind_of_ok {r : Except ReadError α} {f : α → Except ReadError β} (hr : Blames s t r)
    (hf : ∀ x, r = .ok x → Blames s t (f x)) : Blames s t (r >>= f) := by
  cases r with
  | error e => exact fun h => hr (congrArg _ (Except.error.inj h))
  | ok x => exact hf x rfl

theorem bind {r : Except ReadError α} {f : α → Except ReadError β} (hr : Blames s t r)
    (hf : ∀ x, Blames s t (f x)) : Blames s t (r >>= f) := hr.bind_of_ok fun x _ => hf x

theorem computed {o : Option α} (h : o = none → t.Breaks s) :
    Blames s t (Linearize.computed o) := by
  cases o with
  | none => exact fun _ => (h rfl).overflows
  | some x => exact ok x

theorem ite {p : Prop} [Decidable p] {r r' : Except ReadError α} (hr : Blames s t r)
    (hr' : Blames s t r') : Blames s t (if p then r else r') := by
  split
  · exact hr
  · exact hr'

theorem guarded {p : Prop} [Decidable p] {e : ReadError} {f : Unit → Except ReadError α}
    (he : e ≠ .overflow) (h : Blames s t (f ())) :
    Blames s t (if p then (Except.error e >>= f) else f ()) :=
  ite (error he) h

theorem child {r : Except ReadError α} (ht : t ∈ ts) (h : Blames s t r) :
    Blames s (.node ts) r := fun hr => (h hr).child ht

theorem readAll {read : Tree → Except ReadError α} {us : List Tree}
    (h : ∀ u ∈ us, Blames s t (read u)) : Blames s t (Linearize.readAll read us) := by
  induction us with
  | nil => exact ok []
  | cons u us ih =>
    rw [List.forall_mem_cons] at h
    simp only [Linearize.readAll]
    split
    · rename_i hread
      intro he
      exact h.1 (overflow_of_error hread he)
    · split
      · rename_i hrest
        intro he
        exact ih h.2 (overflow_of_error hrest he)
      · exact ok _

end Blames

namespace Scope

variable {s : Scope} {t : Tree}

/-! ## Leaves -/

theorem asIdent_blames (u : Tree) : Blames s t u.asIdent := by
  cases u with
  | ident name => exact .ok name
  | _ => exact .error (by decide)

theorem asInt_blames (u : Tree) : Blames s t u.asInt := by
  cases u with
  | int n => exact .ok n
  | _ => exact .error (by decide)

theorem require_blames (name : String) : Blames s t (s.require name) := by
  rw [require]
  cases s.get? name with
  | some d => exact .ok d
  | none => exact .error (by simp)

theorem readBinary_blames (u : Tree) : Blames s t (s.readBinary u) := by
  unfold readBinary
  split
  · split
    · rename_i hd
      intro he
      exact require_blames _ (overflow_of_error hd he)
    · exact .ok _
    · exact .error nofun
  · exact .error nofun

theorem readSense_blames (op : String) : Blames s t (readSense op) :=
  .ite (.ok _) (.ite (.ok _) (.ite (.ok _) (.error nofun)))

theorem readBigM_blames (op : String) (us : List Tree) : Blames s t (readBigM op us) := by
  unfold readBigM
  split
  · exact .ok _
  · exact .bind (asInt_blames _) fun _ => .ite (.error nofun) (.ok _)
  · exact .error nofun

/-! ## Terms -/

theorem readSum_overflow {acc : Expr} {ts : List Tree} (h : s.readSum acc ts = .error .overflow) :
    (∃ t ∈ ts, s.readExpr t = .error .overflow) ∨
      ∃ before t after acc' x, ts = before ++ t :: after ∧ s.readSum acc before = .ok acc' ∧
        s.readExpr t = .ok x ∧ acc'.add x = none := by
  induction ts generalizing acc with
  | nil =>
    simp only [readSum] at h
    cases h
  | cons t ts ih =>
    simp only [readSum] at h
    split at h
    · rename_i hx
      exact .inl ⟨t, List.mem_cons_self, overflow_of_error hx h⟩
    · rename_i x hx
      split at h
      · rename_i hadd
        exact .inr ⟨[], t, ts, acc, x, rfl, by simp only [readSum], hx, hadd⟩
      · rename_i acc' hadd
        obtain ⟨u, hu, hread⟩ | ⟨before, u, after, acc'', y, rfl, hbefore, hy, hnone⟩ := ih h
        · exact .inl ⟨u, List.mem_cons_of_mem t hu, hread⟩
        · refine .inr ⟨t :: before, u, after, acc'', y, rfl, ?_, hy, hnone⟩
          simp only [readSum, hx, hadd, hbefore]

theorem readExpr_blames (s : Scope) (t : Tree) : Blames s t (s.readExpr t) := by
  induction t using Tree.induction with
  | ident name =>
    rw [readExpr]
    intro h
    split at h
    · rename_i hd
      exact require_blames name (overflow_of_error hd h)
    · cases h
  | int n =>
    rw [readExpr]
    exact .ok _
  | node ts ih =>
    by_cases hform : (Tree.node ts).IsOperation
    · cases hform with
      | sum ts =>
        rw [readExpr_sum]
        intro h
        obtain ⟨t, ht, hread⟩ | ⟨before, t, after, acc, x, rfl, hbefore, hx, hadd⟩ :=
          readSum_overflow h
        · have hmem := List.mem_cons_of_mem (Tree.ident "+") ht
          exact (ih t hmem hread).child hmem
        · exact (Tree.Breaks.sum hbefore hx hadd).overflows
      | negation t =>
        rw [readExpr_negation]
        refine .bind_of_ok (.child (by simp) (ih t (by simp))) fun x hx => ?_
        exact .computed fun hnone => .negation hx hnone
      | difference t u =>
        rw [readExpr_difference]
        refine .bind_of_ok (.child (by simp) (ih t (by simp))) fun x hx => ?_
        refine .bind_of_ok (.child (by simp) (ih u (by simp))) fun y hy => ?_
        exact .computed fun hnone => .difference hx hy hnone
      | leftProduct n t =>
        rw [readExpr_leftProduct]
        refine .bind_of_ok (.child (by simp) (ih t (by simp))) fun x hx => ?_
        exact .computed fun hnone => .leftProduct hx hnone
      | rightProduct n t =>
        rw [readExpr_rightProduct]
        refine .bind_of_ok (.child (by simp) (ih t (by simp))) fun x hx => ?_
        exact .computed fun hnone => .rightProduct hx hnone
    · obtain ⟨e, he, hne⟩ := readExpr_refuses (s := s) hform
      rw [he]
      exact .error hne

/-! ## Statements -/

theorem readConstraint_blames (s : Scope) (t : Tree) : Blames s t (s.readConstraint t) := by
  unfold readConstraint
  split
  · rename_i head a b
    exact .bind (asIdent_blames head) fun op => .bind (readSense_blames op) fun _ =>
      .bind (.child (by simp) (readExpr_blames s a)) fun _ =>
        .bind (.child (by simp) (readExpr_blames s b)) fun _ => .ok _
  · exact .error nofun
  · exact .error nofun

theorem asNode_bind_blames {α : Type} {f : List Tree → Except ReadError α}
    (h : ∀ ts, Blames s (.node ts) (f ts)) : Blames s t (t.asNode >>= f) := by
  cases t with
  | node ts => exact h ts
  | _ => exact .error nofun

theorem readConstraints_blames (s : Scope) (t : Tree) : Blames s t (s.readConstraints t) :=
  asNode_bind_blames fun _ => .readAll fun u hu => .child hu (readConstraint_blames s u)

theorem readBranch_blames (s : Scope) (t : Tree) : Blames s t (s.readBranch t) := by
  refine asNode_bind_blames fun ts => ?_
  cases ts with
  | nil => exact .error nofun
  | cons head rest =>
    refine .bind (readBinary_blames head) fun _ => .bind (.readAll fun u hu => ?_) fun _ => .ok _
    exact .child (List.mem_cons_of_mem head hu) (readConstraint_blames s u)

section

variable {ts args : List Tree}

theorem readAllBinary_blames (us : List Tree) : Blames s t (readAll s.readBinary us) :=
  .readAll fun u _ => readBinary_blames u

theorem readCompare_blames (op : String) (comparison : Comparison) (hargs : args ⊆ ts) :
    Blames s (.node ts) (s.readCompare op comparison args) := by
  unfold readCompare
  split
  · rename_i a b rest
    have ha := readExpr_blames s a
    have hb := readExpr_blames s b
    refine .guarded nofun (.bind (ha.child (hargs (by simp))) fun _ => ?_)
    exact .bind (hb.child (hargs (by simp))) fun _ => .bind (readBigM_blames op rest) fun _ => .ok _
  · exact .error nofun

theorem readXor_blames (op : String) (args : List Tree) :
    Blames s t (s.readXor op args) := by
  unfold readXor
  refine .guarded nofun (.bind (readAllBinary_blames args) fun vs => ?_)
  cases vs.getLast? with
  | none => exact .error nofun
  | some output => exact .ok _

theorem readIfThen_blames (op : String) (hargs : args ⊆ ts) :
    Blames s (.node ts) (s.readIfThen op args) := by
  unfold readIfThen
  split
  · rename_i c body rest
    have hbody := readConstraints_blames s body
    refine .guarded nofun (.bind (readBinary_blames c) fun _ => ?_)
    exact .bind (hbody.child (hargs (by simp))) fun _ =>
      .bind (readBigM_blames op rest) fun _ => .ok _
  · exact .error nofun

theorem readIfThenElse_blames (op : String) (hargs : args ⊆ ts) :
    Blames s (.node ts) (s.readIfThenElse op args) := by
  unfold readIfThenElse
  split
  · rename_i c body otherwise rest
    have hbody := readConstraints_blames s body
    have hothers := readConstraints_blames s otherwise
    refine .guarded nofun (.bind (readBinary_blames c) fun _ => ?_)
    exact .bind (hbody.child (hargs (by simp))) fun _ =>
      .bind (hothers.child (hargs (by simp))) fun _ =>
        .bind (readBigM_blames op rest) fun _ => .ok _
  · exact .error nofun

theorem readChain_blames (op : String) (hargs : args ⊆ ts) :
    Blames s (.node ts) (s.readChain op args) := by
  unfold readChain
  split
  · rename_i branches otherwise rest
    have hothers := readConstraints_blames s otherwise
    have hbranches : Blames s branches (branches.asNode >>= readAll s.readBranch) :=
      asNode_bind_blames fun _ => .readAll fun u hu => .child hu (readBranch_blames s u)
    refine .guarded nofun ?_
    rw [← bind_assoc]
    exact .bind (hbranches.child (hargs (by simp))) fun _ =>
      .bind (hothers.child (hargs (by simp))) fun _ =>
        .bind (readBigM_blames op rest) fun _ => .ok _
  · exact .error nofun

theorem readStatement_blames (op : String) (hargs : args ⊆ ts) :
    Blames s (.node ts) (s.readStatement (.node ts) op args) := by
  have hnames : ∀ f : List Var → Statement,
      Blames s (.node ts) (do return f (← readAll s.readBinary args)) :=
    fun f => .bind (readAllBinary_blames args) fun _ => .ok _
  unfold readStatement
  split
  · exact readCompare_blames op _ hargs
  · exact .ite (hnames _) <| .ite (hnames _) <| .ite (readXor_blames op args) <|
      .ite (hnames _) <| .ite (hnames _) <|
      .ite (.bind (readConstraint_blames s (.node ts)) fun _ => .ok _) <|
      .ite (readIfThen_blames op hargs) <| .ite (readIfThenElse_blames op hargs) <|
      .ite (readChain_blames op hargs) (.error nofun)

end

theorem readDeclareBinary_blames (op : String) (args : List Tree) :
    Blames s t (readDeclareBinary op args) := by
  unfold readDeclareBinary
  split
  · exact .bind (asIdent_blames _) fun _ => .ok _
  · exact .error nofun

theorem readDeclareInteger_blames (op : String) (args : List Tree) :
    Blames s t (readDeclareInteger op args) := by
  unfold readDeclareInteger
  split
  · exact .bind (asIdent_blames _) fun _ => .bind (asInt_blames _) fun _ =>
      .bind (asInt_blames _) fun _ => .ok _
  · exact .error nofun

theorem readClauseTree_blames (s : Scope) (t : Tree) : Blames s t (s.readClauseTree t) := by
  cases t with
  | node ts =>
    cases ts with
    | nil => exact .error (by simp)
    | cons head args =>
      change Blames s (.node (head :: args)) (head.asIdent >>= _)
      refine .bind (asIdent_blames head) fun op => ?_
      exact .ite (readDeclareBinary_blames op args) <| .ite (readDeclareInteger_blames op args) <|
        .bind (readStatement_blames op (List.subset_cons_self head args)) fun _ => .ok _
  | _ => exact .error (by simp)

/-- A line that overflows is a tree in which an operation breaks. -/
theorem readClause_overflow {line : List Char} (h : s.readClause line = .error .overflow) :
    ∃ t, Tree.parse line = .ok t ∧ t.Overflows s := by
  unfold readClause at h
  split at h
  · cases h
  · rename_i t ht
    exact ⟨t, ht, readClauseTree_blames s t h⟩

end Scope
end Linearize
