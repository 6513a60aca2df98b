import Linearize.Proofs.Blame
import Linearize.Proofs.Overflow
import Linearize.Statement.Term

/-!
# Linearize.Proofs.Terms

Reading of terms against arithmetic on trees. What is read is a term and has its value at every
point. A term that is not read has an operation whose exact result leaves the range.
-/

namespace Linearize
namespace Scope

variable {s : Scope} {t : Tree} {ts : List Tree} {acc e : Expr}

/-! ## Values -/

theorem readSum_value
    (hts : ∀ t ∈ ts, ∀ {x}, s.readExpr t = .ok x → t.IsTerm s ∧ ∀ σ, x.value σ = t.value s σ)
    (h : s.readSum acc ts = .ok e) :
    (∀ t ∈ ts, t.IsTerm s) ∧ ∀ σ, e.value σ = acc.value σ + (Tree.values s σ ts).sum := by
  induction ts generalizing acc with
  | nil =>
    simp only [readSum] at h
    cases h
    exact ⟨List.forall_mem_nil _, fun σ => (Int.add_zero _).symm⟩
  | cons t ts ih =>
    rw [List.forall_mem_cons] at hts
    obtain ⟨x, acc', hx, hadd, hrest⟩ := readSum_cons_eq_ok_iff.1 h
    obtain ⟨hterm, hvalue⟩ := hts.1 hx
    obtain ⟨hterms, hvalues⟩ := ih hts.2 hrest
    refine ⟨List.forall_mem_cons.2 ⟨hterm, hterms⟩, ?_⟩
    intro σ
    rw [hvalues σ, Expr.value_add σ hadd, hvalue σ, Tree.values, List.sum_cons, Int.add_assoc]

theorem readExpr_value (h : s.readExpr t = .ok e) :
    t.IsTerm s ∧ ∀ σ, e.value σ = t.value s σ := by
  induction t using Tree.induction generalizing e with
  | ident name =>
    cases readsTerm_of_readExpr h with
    | name hd => exact ⟨.name hd, fun σ => by simp [Tree.value, hd]⟩
  | int n =>
    cases readsTerm_of_readExpr h with
    | int => exact ⟨.int n, fun σ => by simp [Tree.value]⟩
  | node ts ih =>
    cases readsTerm_of_readExpr h with
    | sum hsum =>
      rw [List.forall_mem_cons] at ih
      obtain ⟨hterms, hvalues⟩ := readSum_value ih.2 hsum
      refine ⟨.sum hterms, ?_⟩
      intro σ
      rw [hvalues σ, Expr.value_zero, Int.zero_add]
      simp [Tree.value, Tree.arithmetic]
    | @negation t x _ hx hneg =>
      obtain ⟨hterm, hvalue⟩ := ih t (by simp) hx
      refine ⟨.negation hterm, ?_⟩
      intro σ
      rw [Expr.value_neg σ hneg, hvalue σ]
      simp [Tree.value, Tree.values, Tree.arithmetic]
    | @difference t u x y _ hx hy hsub =>
      obtain ⟨hterm, hvalue⟩ := ih t (by simp) hx
      obtain ⟨hterm', hvalue'⟩ := ih u (by simp) hy
      refine ⟨.difference hterm hterm', ?_⟩
      intro σ
      rw [Expr.value_sub σ hsub, hvalue σ, hvalue' σ]
      simp [Tree.value, Tree.values, Tree.arithmetic]
    | @leftProduct n t x _ hx hscale =>
      obtain ⟨hterm, hvalue⟩ := ih t (by simp) hx
      refine ⟨.leftProduct hterm, ?_⟩
      intro σ
      rw [Expr.value_scale σ hscale, hvalue σ, Int.mul_comm]
      simp [Tree.value, Tree.values, Tree.arithmetic]
    | @rightProduct n t x _ hx hscale =>
      obtain ⟨hterm, hvalue⟩ := ih t (by simp) hx
      refine ⟨.rightProduct hterm, ?_⟩
      intro σ
      rw [Expr.value_scale σ hscale, hvalue σ]
      simp [Tree.value, Tree.values, Tree.arithmetic]

/-! ## What stops the reading of a term -/

/-- There is a result, or else an operation overflows. -/
def Admits {α : Type} (r : Except ReadError α) : Prop := r = .error .overflow ∨ ∃ x, r = .ok x

theorem admits_ok {α : Type} (x : α) : Admits (.ok x) := .inr ⟨x, rfl⟩

theorem admits_computed {α : Type} (o : Option α) : Admits (computed o) := by
  cases o with
  | none => exact .inl rfl
  | some x => exact admits_ok x

theorem Admits.bind {α β : Type} {r : Except ReadError α} {f : α → Except ReadError β}
    (hr : Admits r) (hf : ∀ x, Admits (f x)) : Admits (r >>= f) := by
  obtain rfl | ⟨x, rfl⟩ := hr
  · exact .inl rfl
  · exact hf x

theorem admits_readSum (hts : ∀ t ∈ ts, Admits (s.readExpr t)) (acc : Expr) :
    Admits (s.readSum acc ts) := by
  induction ts generalizing acc with
  | nil =>
    rw [readSum]
    exact admits_ok acc
  | cons t ts ih =>
    rw [List.forall_mem_cons] at hts
    rw [readSum]
    obtain hx | ⟨x, hx⟩ := hts.1
    · exact .inl (by rw [hx])
    · rw [hx]
      cases hadd : acc.add x with
      | none => exact .inl (by simp only [hadd])
      | some acc' =>
        simp only [hadd]
        exact ih hts.2 acc'

/-- Terms are read unless arithmetic fails. -/
theorem admits_readExpr (h : t.IsTerm s) : Admits (s.readExpr t) := by
  induction h with
  | name hd =>
    rw [readExpr, require_eq_ok_iff.2 hd]
    exact admits_ok _
  | int n =>
    rw [readExpr]
    exact admits_ok _
  | sum _ ih =>
    rw [readExpr_sum]
    exact admits_readSum ih .zero
  | negation _ ih =>
    rw [readExpr_negation]
    exact ih.bind fun x => admits_computed x.neg
  | difference _ _ ih ih' =>
    rw [readExpr_difference]
    exact ih.bind fun x => ih'.bind fun y => admits_computed (x.sub y)
  | leftProduct _ ih =>
    rw [readExpr_leftProduct]
    exact ih.bind fun x => admits_computed (x.scale _)
  | rightProduct _ ih =>
    rw [readExpr_rightProduct]
    exact ih.bind fun x => admits_computed (x.scale _)

theorem readSum_append (acc : Expr) (ts us : List Tree) :
    s.readSum acc (ts ++ us) = s.readSum acc ts >>= fun acc' => s.readSum acc' us := by
  induction ts generalizing acc with
  | nil =>
    rw [readSum]
    rfl
  | cons t ts ih =>
    rw [List.cons_append, readSum, readSum]
    cases s.readExpr t with
    | error e => rfl
    | ok x =>
      cases h : acc.add x with
      | none => simp only [h]; rfl
      | some acc' => simp only [h]; exact ih acc'

theorem readExpr_of_breaks (h : t.Breaks s) : s.readExpr t = .error .overflow := by
  cases h with
  | @sum before after t acc x hbefore hx hadd =>
    rw [readExpr_sum, readSum_append, hbefore]
    change s.readSum acc (t :: after) = _
    simp only [readSum, hx, hadd]
  | negation hx hneg =>
    rw [readExpr_negation, hx]
    exact congrArg computed hneg
  | difference hx hy hsub =>
    rw [readExpr_difference, hx, hy]
    exact congrArg computed hsub
  | leftProduct hx hscale =>
    rw [readExpr_leftProduct, hx]
    exact congrArg computed hscale
  | rightProduct hx hscale =>
    rw [readExpr_rightProduct, hx]
    exact congrArg computed hscale

theorem readSum_arguments (h : s.readSum acc ts = .ok e) : ∀ t ∈ ts, ∃ x, s.readExpr t = .ok x := by
  induction ts generalizing acc with
  | nil => exact List.forall_mem_nil _
  | cons t ts ih =>
    obtain ⟨x, acc', hx, -, hrest⟩ := readSum_cons_eq_ok_iff.1 h
    exact List.forall_mem_cons.2 ⟨⟨x, hx⟩, ih hrest⟩

theorem readExpr_arguments (h : s.readExpr (.node ts) = .ok e) :
    ∃ op args, ts = .ident op :: args ∧ ∀ t ∈ args, ∃ x, s.readExpr t = .ok x := by
  have hint : ∀ n, ∃ x, s.readExpr (.int n) = .ok x := fun n => ⟨.const n, by rw [readExpr]⟩
  cases readsTerm_of_readExpr h with
  | sum hsum => exact ⟨_, _, rfl, readSum_arguments hsum⟩
  | negation hx _ => exact ⟨_, _, rfl, by simp [hx]⟩
  | difference hx hy _ => exact ⟨_, _, rfl, by simp [hx, hy]⟩
  | leftProduct hx _ => exact ⟨_, _, rfl, by simp [hint, hx]⟩
  | rightProduct hx _ => exact ⟨_, _, rfl, by simp [hint, hx]⟩

theorem not_overflows_of_readExpr (h : s.readExpr t = .ok e) : ¬ t.Overflows s := by
  rintro ⟨u, hu, hbreaks⟩
  induction hu generalizing e with
  | self =>
    rw [readExpr_of_breaks hbreaks] at h
    cases h
  | @child t ts ht hu ih =>
    obtain ⟨op, args, rfl, hargs⟩ := readExpr_arguments h
    obtain rfl | ht := List.mem_cons.1 ht
    · cases hu
      cases hbreaks
    · obtain ⟨x, hx⟩ := hargs t ht
      exact ih hx

theorem readExpr_overflow_iff (h : t.IsTerm s) :
    s.readExpr t = .error .overflow ↔ t.Overflows s := by
  refine ⟨readExpr_blames s t, ?_⟩
  intro hover
  obtain hread | ⟨e, hread⟩ := admits_readExpr h
  · exact hread
  · exact absurd hover (not_overflows_of_readExpr hread)

end Scope

/-! ## Operations out of range -/

namespace Tree

/-- The operation of a tree has to compute a number out of the range from terms that were read. -/
inductive OutOfRange (s : Scope) : Tree → Prop where
  | sum {before after : List Tree} {t : Tree} {acc x : Expr} : s.readSum .zero before = .ok acc →
      s.readExpr t = .ok x → Expr.SumOverflows acc x →
      OutOfRange s (.node (.ident "+" :: (before ++ t :: after)))
  | negation {t : Tree} {x : Expr} : s.readExpr t = .ok x → x.NegationOverflows →
      OutOfRange s (.node [.ident "-", t])
  | difference {t u : Tree} {x y : Expr} : s.readExpr t = .ok x → s.readExpr u = .ok y →
      Expr.DifferenceOverflows x y → OutOfRange s (.node [.ident "-", t, u])
  | leftProduct {n : Int} {t : Tree} {x : Expr} : s.readExpr t = .ok x → x.MultipleOverflows n →
      OutOfRange s (.node [.ident "*", .int n, t])
  | rightProduct {n : Int} {t : Tree} {x : Expr} : s.readExpr t = .ok x → x.MultipleOverflows n →
      OutOfRange s (.node [.ident "*", t, .int n])

/-- Some operation in the tree leaves the range. -/
def LeavesRange (s : Scope) (t : Tree) : Prop := ∃ u : Tree, u.Within t ∧ u.OutOfRange s

variable {s : Scope} {t u : Tree} {ts : List Tree}

theorem inRange_node_iff : (node ts).InRange ↔ ∀ t ∈ ts, t.InRange := by
  refine ⟨?_, .node⟩
  rintro ⟨⟩
  assumption

theorem Within.inRange (h : u.Within t) (ht : t.InRange) : u.InRange := by
  induction h with
  | self => exact ht
  | child hmem _ ih => exact ih (inRange_node_iff.1 ht _ hmem)

/-- An operation breaks for no other reason than the range. -/
theorem breaks_iff_outOfRange (hu : u.InRange) : u.Breaks s ↔ u.OutOfRange s := by
  have hread : ∀ {t x}, t.InRange → s.readExpr t = .ok x → x.WellFormed :=
    fun ht h => (Scope.readExpr_covers ht h).wellFormed
  have hsum : ∀ {ts acc}, (∀ t ∈ ts, t.InRange) → s.readSum .zero ts = .ok acc → acc.WellFormed :=
    fun hts h => (Scope.readSum_covers (fun t ht _ => Scope.readExpr_covers (hts t ht))
      Scope.covers_zero h).wellFormed
  -- what was read is well-formed, and the operations on well-formed expressions fail exactly there
  constructor
  · rintro (⟨hbefore, hx, h⟩ | ⟨hx, h⟩ | ⟨hx, hy, h⟩ | ⟨hx, h⟩ | ⟨hx, h⟩) <;>
      simp only [inRange_node_iff, List.forall_mem_cons, List.forall_mem_append] at hu
    · exact .sum hbefore hx ((Expr.add_eq_none_iff (hsum hu.2.1 hbefore) (hread hu.2.2.1 hx)).1 h)
    · exact .negation hx ((Expr.neg_eq_none_iff (hread hu.2.1 hx)).1 h)
    · exact .difference hx hy
        ((Expr.sub_eq_none_iff (hread hu.2.1 hx) (hread hu.2.2.1 hy)).1 h)
    · exact .leftProduct hx ((Expr.scale_eq_none_iff (hread hu.2.2.1 hx)).1 h)
    · exact .rightProduct hx ((Expr.scale_eq_none_iff (hread hu.2.1 hx)).1 h)
  · rintro (⟨hbefore, hx, h⟩ | ⟨hx, h⟩ | ⟨hx, hy, h⟩ | ⟨hx, h⟩ | ⟨hx, h⟩) <;>
      simp only [inRange_node_iff, List.forall_mem_cons, List.forall_mem_append] at hu
    · exact .sum hbefore hx ((Expr.add_eq_none_iff (hsum hu.2.1 hbefore) (hread hu.2.2.1 hx)).2 h)
    · exact .negation hx ((Expr.neg_eq_none_iff (hread hu.2.1 hx)).2 h)
    · exact .difference hx hy
        ((Expr.sub_eq_none_iff (hread hu.2.1 hx) (hread hu.2.2.1 hy)).2 h)
    · exact .leftProduct hx ((Expr.scale_eq_none_iff (hread hu.2.2.1 hx)).2 h)
    · exact .rightProduct hx ((Expr.scale_eq_none_iff (hread hu.2.1 hx)).2 h)

theorem overflows_iff_leavesRange (ht : t.InRange) : t.Overflows s ↔ t.LeavesRange s :=
  exists_congr fun _ => and_congr_right fun hu => breaks_iff_outOfRange (hu.inRange ht)

end Tree

namespace Scope

variable {s : Scope}

theorem readSense_eq_ok_iff {op : String} {sense : Sense} :
    readSense op = .ok sense ↔ op = sense.symbol := by
  unfold readSense
  cases sense <;> grind [Sense.symbol]

theorem readConstraint_holds {t : Tree} {c : Constraint} (h : s.readConstraint t = .ok c) :
    ∃ (sense : Sense) (a b : Tree), t = .node [.ident sense.symbol, a, b] ∧ a.IsTerm s ∧
      b.IsTerm s ∧ ∀ σ, c.Holds σ ↔ sense.compare (a.value s σ) (b.value s σ) = true := by
  unfold readConstraint at h
  split at h
  · rename_i head a b
    obtain ⟨op, hop, h⟩ := bind_eq_ok_iff.1 h
    obtain ⟨sense, hsense, h⟩ := bind_eq_ok_iff.1 h
    obtain ⟨x, hx, h⟩ := bind_eq_ok_iff.1 h
    obtain ⟨y, hy, h⟩ := bind_eq_ok_iff.1 h
    cases h
    obtain ⟨ha, hvalue⟩ := readExpr_value hx
    obtain ⟨hb, hvalue'⟩ := readExpr_value hy
    have hhead : head = .ident sense.symbol := by
      cases head with
      | ident name =>
        cases hop
        rw [readSense_eq_ok_iff.1 hsense]
      | _ => cases hop
    refine ⟨sense, a, b, by rw [hhead], ha, hb, ?_⟩
    intro σ
    rw [← hvalue σ, ← hvalue' σ]
    cases sense <;> simp [Constraint.ofSense, Constraint.Holds, Sense.compare]
  · cases h
  · cases h

theorem readConstraint_relation (s : Scope) (sense : Sense) (a b : Tree) :
    s.readConstraint (.node [.ident sense.symbol, a, b]) =
      s.readExpr a >>= fun x => s.readExpr b >>= fun y => .ok (.ofSense x sense y) := by
  change readSense sense.symbol >>= _ = _
  rw [readSense_eq_ok_iff.2 rfl]
  rfl

/-- Terms mean what they say. An expression is read from a term only, and it has the term's value at
every point; a term of integers in the range is read unless one of its operations leaves the range.
A constraint is read from a relation between two terms, and it holds where their values are so
related. -/
theorem terms_exact (s : Scope) :
    (∀ t e, s.readExpr t = .ok e → t.IsTerm s ∧ ∀ σ, e.value σ = t.value s σ) ∧
    (∀ t : Tree, t.IsTerm s → t.InRange →
      (s.readExpr t = .error .overflow ↔ t.LeavesRange s) ∧ Admits (s.readExpr t)) ∧
    (∀ t c, s.readConstraint t = .ok c → ∃ (sense : Sense) (a b : Tree),
      t = .node [.ident sense.symbol, a, b] ∧ a.IsTerm s ∧ b.IsTerm s ∧
        ∀ σ, c.Holds σ ↔ sense.compare (a.value s σ) (b.value s σ) = true) ∧
    (∀ (sense : Sense) (a b : Tree), a.IsTerm s → b.IsTerm s → a.InRange → b.InRange →
      (s.readConstraint (.node [.ident sense.symbol, a, b]) = .error .overflow ↔
        a.LeavesRange s ∨ b.LeavesRange s) ∧
      Admits (s.readConstraint (.node [.ident sense.symbol, a, b]))) := by
  refine ⟨fun t e h => readExpr_value h, ?_, fun t c h => readConstraint_holds h, ?_⟩
  · intro t ht hrange
    rw [← Tree.overflows_iff_leavesRange hrange]
    exact ⟨readExpr_overflow_iff ht, admits_readExpr ht⟩
  · intro sense a b ha hb hrange hrange'
    rw [readConstraint_relation, ← Tree.overflows_iff_leavesRange hrange,
      ← Tree.overflows_iff_leavesRange hrange', ← readExpr_overflow_iff ha,
      ← readExpr_overflow_iff hb]
    obtain hx | ⟨x, hx⟩ := admits_readExpr ha
    · rw [hx]
      exact ⟨⟨fun _ => .inl rfl, fun _ => rfl⟩, .inl rfl⟩
    · obtain hy | ⟨y, hy⟩ := admits_readExpr hb
      · rw [hx, hy]
        exact ⟨⟨fun _ => .inr rfl, fun _ => rfl⟩, .inl rfl⟩
      · rw [hx, hy]
        exact ⟨⟨nofun, by rintro (⟨⟨⟩⟩ | ⟨⟨⟩⟩)⟩, admits_ok _⟩

def single : Scope := [("x", .integer 0)]

/-- `(* (- x 1) 2)`, twice the predecessor. -/
def doubled : Tree := .node [.ident "*", .node [.ident "-", .ident "x", .int 1], .int 2]

/-- `(- -2^63)`, which has no 64 bits. -/
def opposite : Tree := .node [.ident "-", .int (-9223372036854775808)]

theorem doubled_isTerm : doubled.IsTerm single :=
  .rightProduct (.difference (.name rfl) (.int 1))

theorem doubled_inRange : doubled.InRange := by
  simp only [doubled, Tree.inRange_node_iff, List.forall_mem_cons]
  exact ⟨.ident _, ⟨.ident _, .ident _, .int (by decide), nofun⟩, .int (by decide), nofun⟩

/-- Twice the predecessor of 5 is 8, which is at least 3, and the relation with the opposite of
`-2^63` has no reading. -/
theorem single_terms_exact :
    doubled.value single (fun _ => 5) = 8 ∧
    (opposite.LeavesRange single ∧ single.readExpr opposite = .error .overflow) ∧
    (Constraint.le (.const 3) ⟨[(0, 2)], -2⟩).Holds (fun _ => 5) ∧
    single.readConstraint (.node [.ident Sense.le.symbol, doubled, opposite]) =
      .error .overflow := by
  obtain ⟨hvalues, hterms, hholds, hrelations⟩ := terms_exact single
  have hterm : opposite.IsTerm single := .negation (.int _)
  have hrange : opposite.InRange := by
    simp only [opposite, Tree.inRange_node_iff, List.forall_mem_cons]
    exact ⟨.ident _, .int (by decide), nofun⟩
  have hleaves : opposite.LeavesRange single := (hterms _ hterm hrange).1.1 rfl
  have hvalue := (hvalues doubled ⟨[(0, 2)], -2⟩ rfl).2 fun _ => 5
  obtain ⟨sense, a, b, htree, -, -, hiff⟩ :=
    hholds (.node [.ident ">=", doubled, .int 3]) (.le (.const 3) ⟨[(0, 2)], -2⟩) rfl
  refine ⟨hvalue.symm.trans (by decide), ⟨hleaves, (hterms _ hterm hrange).1.2 hleaves⟩, ?_, ?_⟩
  · cases sense with
    | ge =>
      cases htree
      exact (hiff _).2 (by decide)
    | _ => simp [Sense.symbol] at htree
  · exact (hrelations .le doubled opposite doubled_isTerm hterm doubled_inRange hrange).1.2
      (.inr hleaves)

end Scope
end Linearize
