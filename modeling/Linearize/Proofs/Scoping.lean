import Linearize.Compile.Clauses
import Linearize.Proofs.Canonical
import Linearize.Proofs.Parsing

/-!
# Linearize.Proofs.Scoping

What reading promises about a statement: truth values are binary names of the scope, and every
expression is well-formed and mentions declared names only.
-/

namespace Linearize

/-! ## Trees from texts -/

inductive Tree.InRange : Tree → Prop where
  | ident (name : String) : InRange (.ident name)
  | int {n : Int} : Fits n → InRange (.int n)
  | node {ts : List Tree} : (∀ t ∈ ts, t.InRange) → InRange (.node ts)

/-- A list with an operator of terms in front and with as many arguments as the operator takes. -/
inductive Tree.IsOperation : Tree → Prop where
  | sum (ts : List Tree) : IsOperation (.node (.ident "+" :: ts))
  | negation (t : Tree) : IsOperation (.node [.ident "-", t])
  | difference (t u : Tree) : IsOperation (.node [.ident "-", t, u])
  | leftProduct (n : Int) (t : Tree) : IsOperation (.node [.ident "*", .int n, t])
  | rightProduct (n : Int) (t : Tree) : IsOperation (.node [.ident "*", t, .int n])

theorem Tree.WritesLeaf.inRange {t : Tree} {cs : List Char} (h : t.WritesLeaf cs) : t.InRange := by
  cases h with
  | ident => exact .ident _
  | word => exact .ident _
  | natural _ _ _ hfit => exact .int hfit
  | negative _ _ _ hfit => exact .int hfit

mutual

theorem Tree.Writes.inRange {t : Tree} {cs : List Char} : t.Writes cs → t.InRange
  | .leaf h => h.inRange
  | .node _ h _ => .node h.inRange

theorem Tree.WritesAll.inRange {ts : List Tree} {cs : List Char} :
    Tree.WritesAll ts cs → ∀ t ∈ ts, t.InRange
  | .nil => List.forall_mem_nil _
  | .single h => List.forall_mem_singleton.2 h.inRange
  | .cons h _ _ _ hs => List.forall_mem_cons.2 ⟨h.inRange, hs.inRange⟩

end

theorem Tree.inRange_of_parse {text : List Char} {t : Tree} (h : Tree.parse text = .ok t) :
    t.InRange := by
  obtain ⟨_, _, _, -, hw, -⟩ := Tree.renders_of_parse h
  exact hw.inRange

theorem bind_eq_ok_iff {ε α β : Type} {x : Except ε α} {f : α → Except ε β} {y : β} :
    x >>= f = .ok y ↔ ∃ a, x = .ok a ∧ f a = .ok y := by
  cases x with
  | error e =>
    constructor
    · intro h
      cases h
    · rintro ⟨a, ha, -⟩
      cases ha
  | ok a =>
    constructor
    · intro h
      exact ⟨a, rfl, h⟩
    · rintro ⟨b, hb, h⟩
      cases hb
      exact h

theorem readAll_eq_ok {α : Type} {read : Tree → Except ReadError α} {ts : List Tree} {xs : List α}
    (h : readAll read ts = .ok xs) : ∀ x ∈ xs, ∃ t ∈ ts, read t = .ok x := by
  induction ts generalizing xs with
  | nil =>
    cases h
    exact List.forall_mem_nil _
  | cons t ts ih =>
    simp only [readAll] at h
    split at h
    · cases h
    · rename_i y hy
      split at h
      · cases h
      · rename_i ys hys
        cases h
        refine List.forall_mem_cons.2 ⟨⟨t, List.mem_cons_self, hy⟩, ?_⟩
        intro x hx
        obtain ⟨u, hu, hread⟩ := ih hys x hx
        exact ⟨u, List.mem_cons_of_mem t hu, hread⟩

namespace Scope

variable {s : Scope}

def Declares (s : Scope) (v : Var) : Prop := ∃ name d, s.get? name = some d ∧ d.var = v

def DeclaresBinary (s : Scope) (v : Var) : Prop := ∃ name, s.get? name = some (.binary v)

theorem DeclaresBinary.declares {v : Var} (h : s.DeclaresBinary v) : s.Declares v := by
  obtain ⟨name, hname⟩ := h
  exact ⟨name, _, hname, rfl⟩

/-- The expression is well-formed and mentions declared names only. -/
structure Covers (s : Scope) (e : Expr) : Prop where
  wellFormed : e.WellFormed
  vars : ∀ v ∈ e.vars, s.Declares v

theorem covers_zero : s.Covers .zero :=
  ⟨Expr.wellFormed_zero, List.forall_mem_nil _⟩

theorem Covers.add {a b e : Expr} (ha : s.Covers a) (hb : s.Covers b) (h : a.add b = some e) :
    s.Covers e :=
  ⟨ha.wellFormed.add hb.wellFormed h, Expr.add_forall h ha.vars hb.vars⟩

theorem Covers.scale {a e : Expr} {k : Int} (ha : s.Covers a) (h : a.scale k = some e) :
    s.Covers e :=
  ⟨ha.wellFormed.scale h, Expr.scale_forall h ha.vars⟩

theorem require_eq_ok_iff {name : String} {d : Declared} :
    s.require name = .ok d ↔ s.get? name = some d := by
  simp only [require]
  cases s.get? name <;> simp

theorem computed_eq_ok_iff {α : Type} {o : Option α} {x : α} :
    computed o = .ok x ↔ o = some x := by
  cases o <;> simp [computed]

theorem readBinary_eq_ok {t : Tree} {v : Var} (h : s.readBinary t = .ok v) :
    s.DeclaresBinary v := by
  unfold readBinary at h
  split at h
  · rename_i name
    split at h
    · cases h
    · rename_i hd
      cases h
      exact ⟨name, require_eq_ok_iff.1 hd⟩
    · cases h
  · cases h

/-! ## One reading for each form of a term -/

theorem readExpr_sum (s : Scope) (ts : List Tree) :
    s.readExpr (.node (.ident "+" :: ts)) = s.readSum .zero ts := by
  unfold readExpr
  exact if_pos rfl

theorem readExpr_negation (s : Scope) (t : Tree) :
    s.readExpr (.node [.ident "-", t]) = s.readExpr t >>= fun x => computed x.neg := by
  rw [readExpr, if_neg (by decide), if_pos rfl]
  cases s.readExpr t <;> rfl

theorem readExpr_difference (s : Scope) (t u : Tree) :
    s.readExpr (.node [.ident "-", t, u]) =
      s.readExpr t >>= fun x => s.readExpr u >>= fun y => computed (x.sub y) := by
  rw [readExpr, if_neg (by decide), if_pos rfl]
  cases s.readExpr t with
  | error e => rfl
  | ok x => cases s.readExpr u <;> rfl

theorem readExpr_leftProduct (s : Scope) (n : Int) (t : Tree) :
    s.readExpr (.node [.ident "*", .int n, t]) =
      s.readExpr t >>= fun x => computed (x.scale n) := by
  rw [readExpr, if_neg (by decide), if_neg (by decide), if_pos rfl]
  dsimp only
  cases s.readExpr t <;> rfl

theorem scale_const (k n : Int) :
    (Expr.const k).scale n = (fit? (k * n)).map Expr.const := by
  rw [Expr.scale]
  split
  · rename_i hn
    rw [hn, Int.mul_zero]
    rfl
  · cases h : fit? (k * n) <;> simp [Expr.const, Expr.scaleTerms, h]

theorem readExpr_rightProduct (s : Scope) (n : Int) (t : Tree) :
    s.readExpr (.node [.ident "*", t, .int n]) =
      s.readExpr t >>= fun x => computed (x.scale n) := by
  by_cases ht : ∃ k, t = .int k
  · obtain ⟨k, rfl⟩ := ht
    rw [readExpr_leftProduct]
    simp only [readExpr]
    change computed ((Expr.const n).scale k) = computed ((Expr.const k).scale n)
    rw [scale_const, scale_const, Int.mul_comm]
  · generalize hr : s.readExpr t = r
    unfold readExpr
    rw [if_neg (by decide), if_neg (by decide), if_pos rfl]
    cases t with
    | int k => exact absurd ⟨k, rfl⟩ ht
    | _ => cases r <;> simp only [hr] <;> rfl

theorem readExpr_refuses {ts : List Tree} (h : ¬ (Tree.node ts).IsOperation) :
    ∃ e, s.readExpr (.node ts) = .error e ∧ e ≠ .overflow := by
  unfold readExpr
  split
  · rename_i heq
    cases heq
  · rename_i heq
    cases heq
  · exact ⟨_, rfl, nofun⟩
  · rename_i op args heq
    cases heq
    split
    · rename_i hop
      subst hop
      exact absurd (.sum args) h
    · split
      · rename_i hop
        subst hop
        split
        · exact absurd (.negation _) h
        · exact absurd (.difference _ _) h
        · exact ⟨_, rfl, nofun⟩
      · split
        · rename_i hop
          subst hop
          split
          · exact absurd (.leftProduct _ _) h
          · exact absurd (.rightProduct _ _) h
          · exact ⟨_, rfl, nofun⟩
          · exact ⟨_, rfl, nofun⟩
        · exact ⟨_, rfl, nofun⟩
  · exact ⟨_, rfl, nofun⟩

/-- What reading makes of a term, by the form of the term. -/
inductive ReadsTerm (s : Scope) : Tree → Expr → Prop where
  | name {name : String} {d : Declared} :
      s.get? name = some d → ReadsTerm s (.ident name) (.ofVar d.var)
  | int (n : Int) : ReadsTerm s (.int n) (.const n)
  | sum {ts : List Tree} {e : Expr} :
      s.readSum .zero ts = .ok e → ReadsTerm s (.node (.ident "+" :: ts)) e
  | negation {t : Tree} {x e : Expr} :
      s.readExpr t = .ok x → x.neg = some e → ReadsTerm s (.node [.ident "-", t]) e
  | difference {t u : Tree} {x y e : Expr} :
      s.readExpr t = .ok x → s.readExpr u = .ok y → x.sub y = some e →
      ReadsTerm s (.node [.ident "-", t, u]) e
  | leftProduct {n : Int} {t : Tree} {x e : Expr} :
      s.readExpr t = .ok x → x.scale n = some e → ReadsTerm s (.node [.ident "*", .int n, t]) e
  | rightProduct {n : Int} {t : Tree} {x e : Expr} :
      s.readExpr t = .ok x → x.scale n = some e → ReadsTerm s (.node [.ident "*", t, .int n]) e

theorem readsTerm_of_readExpr {t : Tree} {e : Expr} (h : s.readExpr t = .ok e) :
    s.ReadsTerm t e := by
  cases t with
  | ident name =>
    rw [readExpr] at h
    split at h
    · cases h
    · rename_i hd
      cases h
      exact .name (require_eq_ok_iff.1 hd)
  | int n =>
    rw [readExpr] at h
    cases h
    exact .int n
  | node ts =>
    by_cases hform : (Tree.node ts).IsOperation
    · cases hform with
      | sum ts => exact .sum (readExpr_sum s ts ▸ h)
      | negation t =>
        obtain ⟨x, hx, he⟩ := bind_eq_ok_iff.1 (readExpr_negation s t ▸ h)
        exact .negation hx (computed_eq_ok_iff.1 he)
      | difference t u =>
        obtain ⟨x, hx, h⟩ := bind_eq_ok_iff.1 (readExpr_difference s t u ▸ h)
        obtain ⟨y, hy, he⟩ := bind_eq_ok_iff.1 h
        exact .difference hx hy (computed_eq_ok_iff.1 he)
      | leftProduct n t =>
        obtain ⟨x, hx, he⟩ := bind_eq_ok_iff.1 (readExpr_leftProduct s n t ▸ h)
        exact .leftProduct hx (computed_eq_ok_iff.1 he)
      | rightProduct n t =>
        obtain ⟨x, hx, he⟩ := bind_eq_ok_iff.1 (readExpr_rightProduct s n t ▸ h)
        exact .rightProduct hx (computed_eq_ok_iff.1 he)
    · obtain ⟨e', he, -⟩ := readExpr_refuses (s := s) hform
      rw [he] at h
      cases h

theorem readSum_cons_eq_ok_iff {acc e : Expr} {t : Tree} {ts : List Tree} :
    s.readSum acc (t :: ts) = .ok e ↔
      ∃ x acc', s.readExpr t = .ok x ∧ acc.add x = some acc' ∧ s.readSum acc' ts = .ok e := by
  simp only [readSum]
  cases s.readExpr t with
  | error e => simp
  | ok x =>
    simp only [Except.ok.injEq, exists_and_left, exists_eq_left']
    cases acc.add x with
    | none => simp
    | some acc' => simp

theorem readSum_covers {acc e : Expr} {ts : List Tree}
    (hts : ∀ t ∈ ts, ∀ {x}, s.readExpr t = .ok x → s.Covers x) (hacc : s.Covers acc)
    (h : s.readSum acc ts = .ok e) : s.Covers e := by
  induction ts generalizing acc with
  | nil =>
    simp only [readSum] at h
    cases h
    exact hacc
  | cons t ts ih =>
    rw [List.forall_mem_cons] at hts
    obtain ⟨x, acc', hx, hadd, hrest⟩ := readSum_cons_eq_ok_iff.1 h
    exact ih hts.2 (hacc.add (hts.1 hx) hadd) hrest

theorem readExpr_covers {t : Tree} {e : Expr} (ht : t.InRange) (h : s.readExpr t = .ok e) :
    s.Covers e := by
  induction ht generalizing e with
  | ident name =>
    cases readsTerm_of_readExpr h with
    | @name _ d hd =>
      refine ⟨Expr.wellFormed_ofVar _, ?_⟩
      intro v hv
      rw [List.mem_singleton.1 hv]
      exact ⟨name, d, hd, rfl⟩
  | int hfit =>
    cases readsTerm_of_readExpr h with
    | int => exact ⟨Expr.wellFormed_const hfit, List.forall_mem_nil _⟩
  | @node ts hts ih =>
    cases readsTerm_of_readExpr h with
    | sum hsum =>
      rw [List.forall_mem_cons] at ih
      exact readSum_covers ih.2 covers_zero hsum
    | @negation t x _ hx hneg => exact (ih t (by simp) hx).scale hneg
    | @difference t u x y _ hx hy hsub =>
      obtain ⟨y', hy', he⟩ := Expr.sub_eq_some_iff.1 hsub
      exact (ih t (by simp) hx).add ((ih u (by simp) hy).scale hy') he
    | @leftProduct n t x _ hx hscale => exact (ih t (by simp) hx).scale hscale
    | @rightProduct n t x _ hx hscale => exact (ih t (by simp) hx).scale hscale

/-- Both sides of the constraint are covered. -/
def CoversRow (s : Scope) (c : Constraint) : Prop := s.Covers c.lhs ∧ s.Covers c.rhs

theorem readConstraint_covers {t : Tree} {c : Constraint} (ht : t.InRange)
    (h : s.readConstraint t = .ok c) : s.CoversRow c := by
  unfold readConstraint at h
  split at h
  · rename_i head a b
    cases ht with
    | node hts =>
      obtain ⟨op, -, h⟩ := bind_eq_ok_iff.1 h
      obtain ⟨sense, -, h⟩ := bind_eq_ok_iff.1 h
      obtain ⟨x, hx, h⟩ := bind_eq_ok_iff.1 h
      obtain ⟨y, hy, h⟩ := bind_eq_ok_iff.1 h
      cases h
      have hx' := readExpr_covers (hts a (by simp)) hx
      have hy' := readExpr_covers (hts b (by simp)) hy
      cases sense with
      | le => exact ⟨hx', hy'⟩
      | ge => exact ⟨hy', hx'⟩
      | eq => exact ⟨hx', hy'⟩
  · cases h
  · cases h

theorem asIdent_eq_ok_iff {t : Tree} {name : String} : t.asIdent = .ok name ↔ t = .ident name := by
  cases t <;> simp [Tree.asIdent]

theorem asInt_eq_ok_iff {t : Tree} {n : Int} : t.asInt = .ok n ↔ t = .int n := by
  cases t <;> simp [Tree.asInt]

theorem asNode_eq_ok_iff {t : Tree} {ts : List Tree} : t.asNode = .ok ts ↔ t = .node ts := by
  cases t <;> simp [Tree.asNode]

theorem asNode_eq_ok {t : Tree} {ts : List Tree} (ht : t.InRange) (h : t.asNode = .ok ts) :
    ∀ u ∈ ts, u.InRange := by
  cases ht with
  | ident => cases h
  | int => cases h
  | node hts =>
    cases h
    exact hts

theorem readAllConstraints_covers {ts : List Tree} {cs : List Constraint}
    (hts : ∀ t ∈ ts, t.InRange) (h : readAll s.readConstraint ts = .ok cs) :
    ∀ c ∈ cs, s.CoversRow c := by
  intro c hc
  obtain ⟨t, ht, hread⟩ := readAll_eq_ok h c hc
  exact readConstraint_covers (hts t ht) hread

theorem readConstraints_covers {t : Tree} {cs : List Constraint} (ht : t.InRange)
    (h : s.readConstraints t = .ok cs) : ∀ c ∈ cs, s.CoversRow c := by
  obtain ⟨ts, hts, h⟩ := bind_eq_ok_iff.1 h
  exact readAllConstraints_covers (asNode_eq_ok ht hts) h

theorem readAllBinary_declares {ts : List Tree} {vs : List Var}
    (h : readAll s.readBinary ts = .ok vs) : ∀ v ∈ vs, s.DeclaresBinary v := by
  intro v hv
  obtain ⟨t, -, hread⟩ := readAll_eq_ok h v hv
  exact readBinary_eq_ok hread

theorem readBranch_covers {t : Tree} {b : Var × List Constraint} (ht : t.InRange)
    (h : s.readBranch t = .ok b) : s.DeclaresBinary b.1 ∧ ∀ c ∈ b.2, s.CoversRow c := by
  obtain ⟨ts, hts, h⟩ := bind_eq_ok_iff.1 h
  have hin := asNode_eq_ok ht hts
  split at h
  · cases h
  · rename_i head rest
    rw [List.forall_mem_cons] at hin
    obtain ⟨cond, hcond, h⟩ := bind_eq_ok_iff.1 h
    obtain ⟨body, hbody, h⟩ := bind_eq_ok_iff.1 h
    cases h
    exact ⟨readBinary_eq_ok hcond, readAllConstraints_covers hin.2 hbody⟩

end Scope

/-! ## Statements -/

namespace Statement

/-- The variables that the statement reads as truth values. -/
def truths : Statement → List Var
  | .compare _ _ _ _ => []
  | .conjunction vs => vs
  | .disjunction vs => vs
  | .xor inputs output => inputs ++ [output]
  | .truncatedXor vs => vs
  | .truncatedWordXor vs => vs
  | .linear _ => []
  | .ifThen cond _ _ => [cond]
  | .ifThenElse cond _ _ _ => [cond]
  | .chain conds _ _ _ => conds

def constraints : Statement → List Constraint
  | .linear c => [c]
  | .ifThen _ body _ => body
  | .ifThenElse _ body otherwise _ => body ++ otherwise
  | .chain _ bodies otherwise _ => bodies.flatten ++ otherwise
  | _ => []

def compared : Statement → List Expr
  | .compare _ a b _ => [a, b]
  | _ => []

/-- Every place of the statement is filled from the scope. -/
structure InScope (s : Scope) (x : Statement) : Prop where
  truths : ∀ v ∈ x.truths, s.DeclaresBinary v
  compared : ∀ e ∈ x.compared, s.Covers e
  constraints : ∀ c ∈ x.constraints, s.CoversRow c

end Statement

namespace Scope

variable {s : Scope} {op : String} {ts : List Tree} {x : Statement}

theorem readCompare_inScope {comparison : Comparison} (hts : ∀ t ∈ ts, t.InRange)
    (h : s.readCompare op comparison ts = .ok x) : x.InScope s := by
  unfold readCompare at h
  split at h
  · rename_i a b rest
    split at h
    · cases h
    · obtain ⟨y, hy, h⟩ := bind_eq_ok_iff.1 h
      obtain ⟨z, hz, h⟩ := bind_eq_ok_iff.1 h
      obtain ⟨m, -, h⟩ := bind_eq_ok_iff.1 h
      cases h
      have hy' := readExpr_covers (hts a (by simp)) hy
      have hz' := readExpr_covers (hts b (by simp)) hz
      refine ⟨List.forall_mem_nil _, ?_,
        List.forall_mem_nil _⟩
      intro e he
      rcases List.mem_cons.1 he with rfl | he
      · exact hy'
      · rw [List.mem_singleton.1 he]
        exact hz'
  · cases h

theorem truths_inScope {vs : List Var} (hvs : ∀ v ∈ vs, s.DeclaresBinary v) (hx : x.truths = vs)
    (hcompared : x.compared = []) (hconstraints : x.constraints = []) : x.InScope s := by
  refine ⟨?_, ?_, ?_⟩
  · rw [hx]
    exact hvs
  · rw [hcompared]
    exact List.forall_mem_nil _
  · rw [hconstraints]
    exact List.forall_mem_nil _

theorem readXor_inScope (h : s.readXor op ts = .ok x) : x.InScope s := by
  unfold readXor at h
  split at h
  · cases h
  · obtain ⟨vs, hvs, h⟩ := bind_eq_ok_iff.1 h
    split at h
    · cases h
    · rename_i output hlast
      cases h
      obtain ⟨inputs, rfl⟩ := List.getLast?_eq_some_iff.1 hlast
      rw [List.dropLast_concat]
      exact truths_inScope (readAllBinary_declares hvs) rfl rfl rfl

theorem readIfThen_inScope (hts : ∀ t ∈ ts, t.InRange) (h : s.readIfThen op ts = .ok x) :
    x.InScope s := by
  unfold readIfThen at h
  split at h
  · rename_i c body rest
    split at h
    · cases h
    · obtain ⟨cond, hcond, h⟩ := bind_eq_ok_iff.1 h
      obtain ⟨rows, hrows, h⟩ := bind_eq_ok_iff.1 h
      obtain ⟨m, -, h⟩ := bind_eq_ok_iff.1 h
      cases h
      exact ⟨List.forall_mem_singleton.2 (readBinary_eq_ok hcond),
        List.forall_mem_nil _,
        readConstraints_covers (hts body (by simp)) hrows⟩
  · cases h

theorem readIfThenElse_inScope (hts : ∀ t ∈ ts, t.InRange) (h : s.readIfThenElse op ts = .ok x) :
    x.InScope s := by
  unfold readIfThenElse at h
  split at h
  · rename_i c body otherwise rest
    split at h
    · cases h
    · obtain ⟨cond, hcond, h⟩ := bind_eq_ok_iff.1 h
      obtain ⟨rows, hrows, h⟩ := bind_eq_ok_iff.1 h
      obtain ⟨others, hothers, h⟩ := bind_eq_ok_iff.1 h
      obtain ⟨m, -, h⟩ := bind_eq_ok_iff.1 h
      cases h
      have hrows' := readConstraints_covers (hts body (by simp)) hrows
      have hothers' := readConstraints_covers (hts otherwise (by simp)) hothers
      exact ⟨List.forall_mem_singleton.2 (readBinary_eq_ok hcond),
        List.forall_mem_nil _, List.forall_mem_append.2 ⟨hrows', hothers'⟩⟩
  · cases h

theorem readChain_inScope (hts : ∀ t ∈ ts, t.InRange) (h : s.readChain op ts = .ok x) :
    x.InScope s := by
  unfold readChain at h
  split at h
  · rename_i branches otherwise rest
    split at h
    · cases h
    · obtain ⟨us, hus, h⟩ := bind_eq_ok_iff.1 h
      obtain ⟨bs, hbs, h⟩ := bind_eq_ok_iff.1 h
      obtain ⟨others, hothers, h⟩ := bind_eq_ok_iff.1 h
      obtain ⟨m, -, h⟩ := bind_eq_ok_iff.1 h
      cases h
      have hin := asNode_eq_ok (hts branches (by simp)) hus
      have hothers' := readConstraints_covers (hts otherwise (by simp)) hothers
      have hbranch : ∀ b ∈ bs, s.DeclaresBinary b.1 ∧ ∀ c ∈ b.2, s.CoversRow c := by
        intro b hb
        obtain ⟨t, ht, hread⟩ := readAll_eq_ok hbs b hb
        exact readBranch_covers (hin t ht) hread
      refine ⟨List.forall_mem_map.2 fun b hb => (hbranch b hb).1,
        List.forall_mem_nil _, List.forall_mem_append.2 ⟨?_, hothers'⟩⟩
      intro c hc
      obtain ⟨body, hbody, hc⟩ := List.mem_flatten.1 hc
      obtain ⟨b, hb, rfl⟩ := List.mem_map.1 hbody
      exact (hbranch b hb).2 c hc
  · cases h

theorem readStatement_inScope {whole : Tree} (hwhole : whole.InRange)
    (hts : ∀ t ∈ ts, t.InRange) (h : s.readStatement whole op ts = .ok x) : x.InScope s := by
  have htruths : ∀ {vs : List Var}, readAll s.readBinary ts = .ok vs →
      ∀ v ∈ vs, s.DeclaresBinary v := readAllBinary_declares
  unfold readStatement at h
  split at h
  · exact readCompare_inScope hts h
  · split at h
    · obtain ⟨vs, hvs, h⟩ := bind_eq_ok_iff.1 h
      cases h
      exact truths_inScope (htruths hvs) rfl rfl rfl
    · split at h
      · obtain ⟨vs, hvs, h⟩ := bind_eq_ok_iff.1 h
        cases h
        exact truths_inScope (htruths hvs) rfl rfl rfl
      · split at h
        · exact readXor_inScope h
        · split at h
          · obtain ⟨vs, hvs, h⟩ := bind_eq_ok_iff.1 h
            cases h
            exact truths_inScope (htruths hvs) rfl rfl rfl
          · split at h
            · obtain ⟨vs, hvs, h⟩ := bind_eq_ok_iff.1 h
              cases h
              exact truths_inScope (htruths hvs) rfl rfl rfl
            · split at h
              · obtain ⟨c, hc, h⟩ := bind_eq_ok_iff.1 h
                cases h
                exact ⟨List.forall_mem_nil _,
                  List.forall_mem_nil _,
                  List.forall_mem_singleton.2 (readConstraint_covers hwhole hc)⟩
              · split at h
                · exact readIfThen_inScope hts h
                · split at h
                  · exact readIfThenElse_inScope hts h
                  · split at h
                    · exact readChain_inScope hts h
                    · cases h

/-- What a line can be read as: a declaration of the name that stands in it, or a statement. -/
theorem readClause_cases {line : List Char} {clause : Clause} (h : s.readClause line = .ok clause) :
    ∃ op args, Tree.parse line = .ok (.node (.ident op :: args)) ∧
      ((∃ name, args = [.ident name] ∧ clause = .declareBinary name) ∨
        (∃ name lower upper, args = [.ident name, .int lower, .int upper] ∧
          clause = .declareInteger name lower upper) ∨
        ∃ x, s.readStatement (.node (.ident op :: args)) op args = .ok x ∧ clause = .state x) := by
  unfold readClause at h
  split at h
  · cases h
  · rename_i t ht
    obtain ⟨us, hus, h⟩ := bind_eq_ok_iff.1 h
    obtain rfl := asNode_eq_ok_iff.1 hus
    split at h
    · cases h
    · rename_i head args _
      obtain ⟨op, hop, h⟩ := bind_eq_ok_iff.1 h
      obtain rfl := asIdent_eq_ok_iff.1 hop
      refine ⟨op, args, ht, ?_⟩
      split at h
      · unfold readDeclareBinary at h
        split at h
        · obtain ⟨n, hn, h⟩ := bind_eq_ok_iff.1 h
          cases h
          exact .inl ⟨n, by rw [asIdent_eq_ok_iff.1 hn], rfl⟩
        · cases h
      · split at h
        · unfold readDeclareInteger at h
          split at h
          · obtain ⟨n, hn, h⟩ := bind_eq_ok_iff.1 h
            obtain ⟨l, hl, h⟩ := bind_eq_ok_iff.1 h
            obtain ⟨u, hu, h⟩ := bind_eq_ok_iff.1 h
            cases h
            refine .inr (.inl ⟨n, l, u, ?_, rfl⟩)
            rw [asIdent_eq_ok_iff.1 hn, asInt_eq_ok_iff.1 hl, asInt_eq_ok_iff.1 hu]
          · cases h
        · obtain ⟨x, hx, h⟩ := bind_eq_ok_iff.1 h
          cases h
          exact .inr (.inr ⟨x, hx, rfl⟩)

/-- Whatever text is read as a statement, the statement is in scope. -/
theorem readClause_inScope {line : List Char} (h : s.readClause line = .ok (.state x)) :
    x.InScope s := by
  obtain ⟨op, args, ht, ⟨_, -, hclause⟩ | ⟨_, _, _, -, hclause⟩ | ⟨y, hy, hclause⟩⟩ :=
    readClause_cases h
  · cases hclause
  · cases hclause
  · cases hclause
    have hin := Tree.inRange_of_parse ht
    exact readStatement_inScope hin (List.forall_mem_cons.1 (asNode_eq_ok hin rfl)).2 hy

end Scope
end Linearize
