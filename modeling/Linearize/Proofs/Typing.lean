import Linearize.Proofs.Blame

/-!
# Linearize.Proofs.Typing

What reading returns is well typed, whatever the scope and the line, and where it returns nothing,
an operation of the line overflows.
-/

namespace Linearize

namespace Statement

def bigM? : Statement → Option Int
  | .compare _ _ _ m => m
  | .ifThen _ _ m => m
  | .ifThenElse _ _ _ m => m
  | .chain _ _ _ m => m
  | _ => none

/-- An exclusive or has an input, and every condition of a chain has its constraints. -/
def Filled : Statement → Prop
  | .xor inputs _ => inputs ≠ []
  | .chain conds bodies _ _ => conds.length = bodies.length
  | _ => True

structure Shaped (x : Statement) : Prop where
  bigM : ∀ m ∈ x.bigM?, 1 ≤ m
  filled : x.Filled

/-- The statement is what its encoder takes it for: truth values are binary names, expressions
mention declared names only, and its parts fit together. -/
structure WellTyped (s : Scope) (x : Statement) : Prop extends x.InScope s, x.Shaped

end Statement

namespace Scope

variable {s : Scope} {op : String} {ts : List Tree} {x : Statement}

theorem readBigM_pos {m : Option Int} (h : readBigM op ts = .ok m) : ∀ n ∈ m, 1 ≤ n := by
  unfold readBigM at h
  split at h
  · cases h
    exact nofun
  · obtain ⟨n, -, h⟩ := bind_eq_ok_iff.1 h
    split at h
    · cases h
    · rename_i hn
      cases h
      rintro _ ⟨⟩
      omega
  · cases h

theorem readCompare_shaped {comparison : Comparison}
    (h : s.readCompare op comparison ts = .ok x) : x.Shaped := by
  unfold readCompare at h
  split at h
  · split at h
    · cases h
    · obtain ⟨y, -, h⟩ := bind_eq_ok_iff.1 h
      obtain ⟨z, -, h⟩ := bind_eq_ok_iff.1 h
      obtain ⟨m, hm, h⟩ := bind_eq_ok_iff.1 h
      cases h
      exact ⟨readBigM_pos hm, trivial⟩
  · cases h

theorem readXor_shaped (h : s.readXor op ts = .ok x) : x.Shaped := by
  unfold readXor at h
  split at h
  · cases h
  · rename_i hfew
    obtain ⟨vs, hvs, h⟩ := bind_eq_ok_iff.1 h
    split at h
    · cases h
    · cases h
      have hlength := Positions.length_of_readAll hvs
      refine ⟨nofun, ?_⟩
      intro hnil
      have hdrop := congrArg List.length hnil
      rw [List.length_dropLast, List.length_nil] at hdrop
      omega

theorem readIfThen_shaped (h : s.readIfThen op ts = .ok x) : x.Shaped := by
  unfold readIfThen at h
  split at h
  · split at h
    · cases h
    · obtain ⟨cond, -, h⟩ := bind_eq_ok_iff.1 h
      obtain ⟨rows, -, h⟩ := bind_eq_ok_iff.1 h
      obtain ⟨m, hm, h⟩ := bind_eq_ok_iff.1 h
      cases h
      exact ⟨readBigM_pos hm, trivial⟩
  · cases h

theorem readIfThenElse_shaped (h : s.readIfThenElse op ts = .ok x) : x.Shaped := by
  unfold readIfThenElse at h
  split at h
  · split at h
    · cases h
    · obtain ⟨cond, -, h⟩ := bind_eq_ok_iff.1 h
      obtain ⟨rows, -, h⟩ := bind_eq_ok_iff.1 h
      obtain ⟨others, -, h⟩ := bind_eq_ok_iff.1 h
      obtain ⟨m, hm, h⟩ := bind_eq_ok_iff.1 h
      cases h
      exact ⟨readBigM_pos hm, trivial⟩
  · cases h

theorem readChain_shaped (h : s.readChain op ts = .ok x) : x.Shaped := by
  unfold readChain at h
  split at h
  · split at h
    · cases h
    · obtain ⟨us, -, h⟩ := bind_eq_ok_iff.1 h
      obtain ⟨bs, -, h⟩ := bind_eq_ok_iff.1 h
      obtain ⟨others, -, h⟩ := bind_eq_ok_iff.1 h
      obtain ⟨m, hm, h⟩ := bind_eq_ok_iff.1 h
      cases h
      exact ⟨readBigM_pos hm, (List.length_map _).trans (List.length_map _).symm⟩
  · cases h

theorem readStatement_shaped {whole : Tree} (h : s.readStatement whole op ts = .ok x) :
    x.Shaped := by
  have hnames : ∀ f : List Var → Statement, (∀ vs, (f vs).Shaped) →
      (readAll s.readBinary ts >>= fun vs => .ok (f vs)) = .ok x → x.Shaped := by
    intro f hf h
    obtain ⟨vs, -, h⟩ := bind_eq_ok_iff.1 h
    cases h
    exact hf vs
  unfold readStatement at h
  split at h
  · exact readCompare_shaped h
  · split at h
    · exact hnames .conjunction (fun _ => ⟨nofun, trivial⟩) h
    · split at h
      · exact hnames .disjunction (fun _ => ⟨nofun, trivial⟩) h
      · split at h
        · exact readXor_shaped h
        · split at h
          · exact hnames .truncatedXor (fun _ => ⟨nofun, trivial⟩) h
          · split at h
            · exact hnames .truncatedWordXor (fun _ => ⟨nofun, trivial⟩) h
            · split at h
              · obtain ⟨c, -, h⟩ := bind_eq_ok_iff.1 h
                cases h
                exact ⟨nofun, trivial⟩
              · split at h
                · exact readIfThen_shaped h
                · split at h
                  · exact readIfThenElse_shaped h
                  · split at h
                    · exact readChain_shaped h
                    · cases h

theorem exists_readStatement {line : List Char} (h : s.readClause line = .ok (.state x)) :
    ∃ t op args, Tree.parse line = .ok t ∧ s.readStatement t op args = .ok x := by
  obtain ⟨op, args, ht, ⟨_, -, hclause⟩ | ⟨_, _, _, -, hclause⟩ | ⟨y, hy, hclause⟩⟩ :=
    readClause_cases h
  · cases hclause
  · cases hclause
  · cases hclause
    exact ⟨_, op, args, ht, hy⟩

theorem wellTyped_of_readClause {line : List Char} (h : s.readClause line = .ok (.state x)) :
    x.WellTyped s := by
  obtain ⟨t, op, args, -, hread⟩ := exists_readStatement h
  exact { readClause_inScope h, readStatement_shaped hread with }

/-- In every scope every line is read by positions without leaving its lists: it overflows at an
operation that is written in it, or it is refused, or it is a clause, and then its statement is
well typed. -/
theorem readClause_total (s : Scope) (line : List Char) :
    (Positions.clause s line = .error .overflow ∧ s.readClause line = .error .overflow ∧
        ∃ t, Tree.parse line = .ok t ∧ t.Overflows s) ∨
      (∃ e, Positions.clause s line = .error (.refused e) ∧ s.readClause line = .error e ∧
        e ≠ .overflow) ∨
      ∃ c, Positions.clause s line = .ok c ∧ s.readClause line = .ok c ∧
        ∀ x, c = .state x → x.WellTyped s := by
  rw [Positions.clause_eq]
  cases hread : s.readClause line with
  | ok c =>
    refine .inr (.inr ⟨c, rfl, rfl, ?_⟩)
    rintro x rfl
    exact wellTyped_of_readClause hread
  | error e =>
    by_cases he : e = .overflow
    · subst he
      exact .inl ⟨rfl, rfl, readClause_overflow hread⟩
    · refine .inr (.inl ⟨e, ?_, rfl, he⟩)
      cases e <;> first | rfl | exact absurd rfl he

example : readClause [("a", .binary 0), ("n", .integer 1)] "(cond ((a (<= n 3))) () 5)".toList =
    .ok (.state (.chain [0] [[.ofSense (.ofVar 1) .le (.const 3)]] [] (some 5))) := by
  decide +kernel

example : readClause [("n", .integer 0)] "(<= (* 3 (* n 4611686018427387904)) 0)".toList =
    .error .overflow := by
  decide +kernel

end Scope
end Linearize
