import Linearize.Proofs.Scoping
import Linearize.Statement.Positions

/-!
# Linearize.Proofs.Positions

Reading by positions is reading: no part is looked up that is not there.
-/

namespace Linearize

/-- Induction over trees, where a list of trees has the property of its members. -/
theorem Tree.induction {P : Tree → Prop} (ident : ∀ name, P (.ident name)) (int : ∀ n, P (.int n))
    (node : ∀ ts, (∀ t ∈ ts, P t) → P (.node ts)) (t : Tree) : P t := by
  refine Tree.rec (motive_1 := P) (motive_2 := fun ts => ∀ t ∈ ts, P t) ident int node ?_ ?_ t
  · exact List.forall_mem_nil _
  · exact fun t ts ht hts => List.forall_mem_cons.2 ⟨ht, hts⟩

namespace Positions

variable {α β : Type} {s : Scope} {ts : List Tree}

@[simp] theorem answered_ok (x : α) : answered (.ok x : Except ReadError α) = .ok x := rfl

@[simp] theorem ok_bind (x : α) (f : α → Except Halt β) : (Except.ok x >>= f) = f x := rfl

theorem answered_bind (x : Except ReadError α) (f : α → Except ReadError β) :
    answered (x >>= f) = answered x >>= fun a => answered (f a) := by
  cases x <;> rfl

theorem answered_computed (o : Option α) : answered (computed o) = checked o := by
  cases o <;> rfl

/-! ## Parts -/

theorem exists_part {i : Nat} {t : Tree} (h : ts[i]? = some t) :
    ∃ p, part ts i = .ok p ∧ p.1 = t := by
  obtain ⟨hi, rfl⟩ := List.getElem?_eq_some_iff.1 h
  exact ⟨_, dif_pos hi, rfl⟩

theorem exists_partsFrom (ts : List Tree) {i : Nat} (h : i ≤ ts.length) :
    ∃ parts, partsFrom ts i = .ok parts ∧ parts.map (·.1) = ts.drop i := by
  refine ⟨_, if_pos h, ?_⟩
  rw [List.map_drop, List.attach_map_subtype_val]

theorem mapM_answered (read : Tree → Except ReadError α) (ts : List Tree) :
    ts.mapM (fun t => answered (read t)) = answered (readAll read ts) := by
  induction ts with
  | nil => rfl
  | cons t ts ih =>
    rw [List.mapM_cons, ih, readAll]
    cases read t with
    | error e => rfl
    | ok x =>
      cases readAll read ts with
      | error e => rfl
      | ok xs => rfl

theorem mapM_parts (ts : List Tree) {i : Nat} (h : i ≤ ts.length) {read : Tree → Except Halt α}
    {read' : Tree → Except ReadError α} (hread : ∀ t, read t = answered (read' t)) :
    (do (← partsFrom ts i).mapM fun t => read t.1) = answered (readAll read' (ts.drop i)) := by
  obtain ⟨parts, hparts, hmap⟩ := exists_partsFrom ts h
  rw [hparts, ok_bind, ← mapM_answered, ← hmap, List.mapM_map]
  simp only [hread, Function.comp_def]

/-! ## Terms -/

theorem readSum_parts {parts : List (Part ts)}
    (hparts : ∀ t ∈ parts, expr s t.1 = answered (s.readExpr t.1)) (acc : Expr) :
    parts.foldlM (fun acc t => do checked (acc.add (← expr s t.1))) acc =
      answered (s.readSum acc (parts.map (·.1))) := by
  induction parts generalizing acc with
  | nil => simp only [List.foldlM_nil, List.map_nil, Scope.readSum]; rfl
  | cons t parts ih =>
    rw [List.forall_mem_cons] at hparts
    rw [List.foldlM_cons, List.map_cons, Scope.readSum, hparts.1]
    cases s.readExpr t.1 with
    | error e => rfl
    | ok x =>
      simp only [answered_ok, ok_bind]
      cases acc.add x with
      | none => rfl
      | some acc' => exact ih hparts.2 acc'

theorem answered_unary (r : Except ReadError Expr) (f : Expr → Option Expr) :
    answered (match r with
      | .error e => .error e
      | .ok x => computed (f x)) = (answered r >>= fun x => checked (f x)) := by
  cases r with
  | error e => rfl
  | ok x => exact answered_computed (f x)

theorem answered_binary (r r' : Except ReadError Expr) (f : Expr → Expr → Option Expr) :
    answered (match r with
      | .error e => .error e
      | .ok x =>
        match r' with
        | .error e => .error e
        | .ok y => computed (f x y)) =
      (answered r >>= fun x => answered r' >>= fun y => checked (f x y)) := by
  cases r with
  | error e => rfl
  | ok x => exact answered_unary r' (f x)

theorem expr_eq (s : Scope) (t : Tree) : expr s t = answered (s.readExpr t) := by
  induction t using Tree.induction with
  | ident name =>
    rw [expr, Scope.readExpr]
    cases s.require name <;> rfl
  | int n =>
    rw [expr, Scope.readExpr]
    rfl
  | node ts ih =>
    cases ts with
    | nil =>
      rw [expr, Scope.readExpr]
      rfl
    | cons head args =>
      have hpart : ∀ t : Part (head :: args), expr s t.1 = answered (s.readExpr t.1) :=
        fun t => ih t.1 t.2
      rw [List.forall_mem_cons] at ih
      rw [expr]
      cases head with
      | int n =>
        unfold Scope.readExpr
        rfl
      | node us =>
        unfold Scope.readExpr
        rfl
      | ident op =>
        unfold Scope.readExpr
        simp only [List.isEmpty_cons, Bool.false_eq_true, if_false]
        have hop : ∀ f : String → Except Halt Expr,
            (do let head ← part (.ident op :: args) 0; let op ← ident head.1; f op) = f op :=
          fun f => rfl
        rw [hop]
        split
        · obtain ⟨parts, hparts, hmap⟩ :=
            exists_partsFrom (.ident op :: args) (i := 1) (by simp)
          have hmap : parts.map (·.1) = args := hmap
          rw [hparts, ok_bind, readSum_parts (fun t _ => hpart t) .zero, hmap]
        · replace ih := ih.2
          split
          · rcases args with _ | ⟨a, _ | ⟨b, _ | ⟨c, rest⟩⟩⟩
            · rfl
            · rw [List.forall_mem_singleton] at ih
              change (expr s a >>= fun x => checked x.neg) = _
              rw [ih]
              exact (answered_unary _ _).symm
            · rw [List.forall_mem_cons, List.forall_mem_singleton] at ih
              change (expr s a >>= fun x => expr s b >>= fun y => checked (x.sub y)) = _
              rw [ih.1, ih.2]
              exact (answered_binary _ _ _).symm
            · simp
              rfl
          · split
            · rcases args with _ | ⟨a, _ | ⟨b, _ | ⟨c, rest⟩⟩⟩
              · rfl
              · cases a <;> rfl
              · rw [List.forall_mem_cons, List.forall_mem_singleton] at ih
                cases a with
                | int n =>
                  change (expr s b >>= fun y => checked (y.scale n)) = _
                  rw [ih.2]
                  exact (answered_unary _ _).symm
                | ident _ | node _ =>
                  cases b with
                  | int n =>
                    have hread := congrArg (· >>= fun x => checked (x.scale n)) ih.1
                    exact hread.trans (answered_unary _ _).symm
                  | _ => rfl
              · have hlength : expectLength (.ident op :: a :: b :: c :: rest) 3 3 op =
                    refuse (.wrongArgumentCount op) := if_neg (by simp)
                rw [hlength]
                cases a <;> cases b <;> rfl
            · rfl

/-! ## Constraints -/

theorem constraint_eq (s : Scope) (t : Tree) :
    constraint s t = answered (s.readConstraint t) := by
  cases t with
  | ident name => rfl
  | int n => rfl
  | node ts =>
    match ts with
    | [head, a, b] =>
      rw [Scope.readConstraint]
      simp only [answered_bind, ← expr_eq]
      rfl
    | [] => rfl
    | [_] => rfl
    | [_, _] => rfl
    | _ :: _ :: _ :: _ :: _ => rfl

theorem constraints_eq (s : Scope) (t : Tree) :
    constraints s t = answered (s.readConstraints t) := by
  rw [Scope.readConstraints, answered_bind]
  simp only [← mapM_answered, ← constraint_eq]
  rfl

theorem branch_eq (s : Scope) (t : Tree) : branch s t = answered (s.readBranch t) := by
  cases t with
  | ident name => rfl
  | int n => rfl
  | node ts =>
    match ts with
    | [] => rfl
    | head :: rest =>
      have hrest := mapM_parts (head :: rest) (i := 1) (by simp) (constraint_eq s)
      change _ = answered (do
        let cond ← s.readBinary head
        let body ← readAll s.readConstraint rest
        return (cond, body))
      simp only [answered_bind]
      rw [← show _ = answered (readAll s.readConstraint rest) from hrest]
      simp only [bind_assoc]
      rfl

/-! ## Statements -/

theorem bigM_eq (ts rest : List Tree) {i : Nat} (op : String) (hi : i ≤ ts.length)
    (h : ts.drop i = rest) : bigM ts i op = answered (Scope.readBigM op rest) := by
  have hcount : countFrom ts i = .ok rest.length := by
    rw [countFrom, if_pos hi, ← h, List.length_drop]
  rw [bigM, hcount]
  match rest with
  | [] => rfl
  | [t] =>
    have ht : ts[i]? = some t := by rw [← List.head?_drop, h]; rfl
    obtain ⟨p, hp, rfl⟩ := exists_part ht
    rw [hp, Scope.readBigM, answered_bind]
    change (answered p.1.asInt >>= _) = _
    refine congrArg _ (funext fun n => ?_)
    split <;> rfl
  | _ :: _ :: _ => rfl

theorem expectLength_bind (ts rest : List Tree) {i : Nat} (op : String) (hi : i ≤ ts.length)
    (h : ts.drop i = rest) {f : Unit → Except Halt α} {g : Unit → Except ReadError α}
    (hfg : f () = answered (g ())) :
    (expectLength ts i (i + 1) op >>= f) =
      answered (if 1 < rest.length then (Except.error (.wrongArgumentCount op) >>= g)
        else g ()) := by
  have hlength : rest.length = ts.length - i := by rw [← h, List.length_drop]
  rw [expectLength]
  by_cases hmore : 1 < rest.length
  · rw [if_pos hmore, if_neg (by omega)]
    rfl
  · rw [if_neg hmore, if_pos (by omega)]
    exact hfg

variable {op : String} {head : Tree}

theorem compare_eq (s : Scope) (op : String) (comparison : Comparison) (head : Tree)
    (args : List Tree) :
    compare s op comparison (head :: args) = answered (s.readCompare op comparison args) := by
  match args with
  | [] => rfl
  | [_] => rfl
  | a :: b :: rest =>
    rw [Scope.readCompare]
    refine expectLength_bind (head :: a :: b :: rest) rest (i := 3) op (by simp) rfl ?_
    simp only [answered_bind, ← expr_eq]
    rw [← bigM_eq (head :: a :: b :: rest) rest (i := 3) op (by simp) rfl]
    rfl

theorem ifThen_eq (s : Scope) (op : String) (head : Tree) (args : List Tree) :
    ifThen s op (head :: args) = answered (s.readIfThen op args) := by
  match args with
  | [] => rfl
  | [_] => rfl
  | c :: body :: rest =>
    rw [Scope.readIfThen]
    refine expectLength_bind (head :: c :: body :: rest) rest (i := 3) op (by simp) rfl ?_
    simp only [answered_bind, ← constraints_eq]
    rw [← bigM_eq (head :: c :: body :: rest) rest (i := 3) op (by simp) rfl]
    rfl

theorem ifThenElse_eq (s : Scope) (op : String) (head : Tree) (args : List Tree) :
    ifThenElse s op (head :: args) = answered (s.readIfThenElse op args) := by
  match args with
  | [] => rfl
  | [_] => rfl
  | [_, _] => rfl
  | c :: body :: otherwise :: rest =>
    rw [Scope.readIfThenElse]
    refine expectLength_bind (head :: c :: body :: otherwise :: rest) rest (i := 4) op (by simp)
      rfl ?_
    simp only [answered_bind, ← constraints_eq]
    rw [← bigM_eq (head :: c :: body :: otherwise :: rest) rest (i := 4) op (by simp) rfl]
    rfl

theorem chain_eq (s : Scope) (op : String) (head : Tree) (args : List Tree) :
    chain s op (head :: args) = answered (s.readChain op args) := by
  match args with
  | [] => rfl
  | [_] => rfl
  | branches :: otherwise :: rest =>
    rw [Scope.readChain]
    refine expectLength_bind (head :: branches :: otherwise :: rest) rest (i := 3) op (by simp)
      rfl ?_
    simp only [answered_bind, ← constraints_eq, ← mapM_answered, ← branch_eq]
    rw [← bigM_eq (head :: branches :: otherwise :: rest) rest (i := 3) op (by simp) rfl]
    rfl

theorem binaries_bind (s : Scope) (head : Tree) (args : List Tree)
    (f : List Var → Except Halt α) :
    (do let vs ← binaries s (← partsFrom (head :: args) 1); f vs) =
      answered (readAll s.readBinary args) >>= f := by
  have hread := mapM_parts (head :: args) (i := 1) (by simp) fun t => (rfl : binary s t = _)
  rw [← show _ = answered (readAll s.readBinary args) from hread, bind_assoc]
  rfl

theorem length_of_readAll {read : Tree → Except ReadError α} {xs : List α}
    (h : readAll read ts = .ok xs) : xs.length = ts.length := by
  induction ts generalizing xs with
  | nil =>
    cases h
    rfl
  | cons t ts ih =>
    simp only [readAll] at h
    split at h
    · cases h
    · split at h
      · cases h
      · rename_i ys hys
        cases h
        rw [List.length_cons, List.length_cons, ih hys]

/-- The list that the output is taken off is not empty. -/
theorem xor_eq (s : Scope) (op : String) (head : Tree) (args : List Tree) :
    xor s op (head :: args) = answered (s.readXor op args) := by
  by_cases hfew : args.length < 2
  · have hfew' : (head :: args).length < 3 := by rw [List.length_cons]; omega
    simp only [xor, Scope.readXor, if_pos hfew, if_pos hfew']
    rfl
  · have hfew' : ¬ (head :: args).length < 3 := by rw [List.length_cons]; omega
    simp only [xor, Scope.readXor, if_neg hfew, if_neg hfew']
    rw [binaries_bind]
    cases hread : readAll s.readBinary args with
    | error e => rfl
    | ok vs =>
      have hlength := length_of_readAll hread
      rcases List.eq_nil_or_concat vs with rfl | ⟨inputs, output, rfl⟩
      · exact absurd (hlength ▸ by decide) hfew
      · simp only [List.concat_eq_append, answered_bind, answered_ok, ok_bind,
          List.getLast?_concat]
        rfl

theorem statement_eq (s : Scope) (op : String) (args : List Tree) :
    statement s op (.ident op :: args) =
      answered (s.readStatement (.node (.ident op :: args)) op args) := by
  rw [statement, Scope.readStatement]
  cases hop : Scope.comparison? op with
  | some comparison => exact compare_eq s op comparison (.ident op) args
  | none =>
    simp only [apply_ite answered, answered_bind, binaries_bind, ← constraint_eq,
      ← xor_eq s op (.ident op) args, ← ifThen_eq s op (.ident op),
      ← ifThenElse_eq s op (.ident op), ← chain_eq s op (.ident op)]
    rfl

theorem declareBinary_eq (op : String) (head : Tree) (args : List Tree) :
    declareBinary op (head :: args) = answered (Scope.readDeclareBinary op args) := by
  match args with
  | [] => rfl
  | [name] =>
    rw [Scope.readDeclareBinary, answered_bind]
    rfl
  | _ :: _ :: _ => rfl

theorem declareInteger_eq (op : String) (head : Tree) (args : List Tree) :
    declareInteger op (head :: args) = answered (Scope.readDeclareInteger op args) := by
  match args with
  | [] => rfl
  | [_] => rfl
  | [_, _] => rfl
  | [name, lower, upper] =>
    rw [Scope.readDeclareInteger]
    simp only [answered_bind]
    rfl
  | _ :: _ :: _ :: _ :: _ => rfl

theorem clauseTree_eq (s : Scope) (t : Tree) : clauseTree s t = answered (s.readClauseTree t) := by
  match t with
  | .ident _ => rfl
  | .int _ => rfl
  | .node [] => rfl
  | .node (.int _ :: _) => rfl
  | .node (.node _ :: _) => rfl
  | .node (.ident op :: args) =>
    change (if op = "bin" then declareBinary op (.ident op :: args)
      else if op = "int" then declareInteger op (.ident op :: args)
      else do return .state (← statement s op (.ident op :: args))) =
      answered (if op = "bin" then Scope.readDeclareBinary op args
        else if op = "int" then Scope.readDeclareInteger op args
        else do return .state (← s.readStatement (.node (.ident op :: args)) op args))
    rw [apply_ite answered, apply_ite answered, answered_bind, declareBinary_eq,
      declareInteger_eq, statement_eq]
    rfl

/-- Reading by positions is reading. -/
theorem clause_eq (s : Scope) (line : List Char) :
    clause s line = answered (s.readClause line) := by
  rw [clause, Scope.readClause]
  cases Tree.parse line with
  | error near => rfl
  | ok t => exact clauseTree_eq s t

end Positions
end Linearize
