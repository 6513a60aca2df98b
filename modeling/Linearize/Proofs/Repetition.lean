import Linearize.Proofs.Pools
import Linearize.Proofs.Priority
import Linearize.Proofs.Stability

/-!
# Linearize.Proofs.Repetition

Requests for indicators that are made again after other operations. No operation takes an indicator
back, so a request that has been answered has the same answer ever after, and it changes nothing any
more. Another big-M changes its rows only.
-/

namespace Linearize

namespace Model

variable {m m' : Model}

theorem retains_of_setBounds? {v : Var} {lower upper : Option Int}
    (h : m.setBounds? v lower upper = some m') : m.Retains m' := by
  intro w k hi
  refine (column_setBounds?_iff h).2 ⟨_, hi, ?_⟩
  split <;> rfl

theorem retains_of_operation {o : Operation} (h : o.perform m = some m') : m.Retains m' := by
  obtain ⟨k, l, u, -, rfl⟩ | hasks | ⟨v, l, u, -, hset⟩ | ⟨cs, rfl⟩ := Operation.perform_cases h
  · exact (integerWithin_grows m k l u).retains
  · exact hasks.grows.retains
  · exact retains_of_setBounds? hset
  · exact (addRows_grows m cs).retains

theorem retains_of_perform {os : List Operation} (h : m.perform os = some m') : m.Retains m' := by
  induction os generalizing m with
  | nil =>
    cases h
    exact (Grows.refl _).retains
  | cons o os ih =>
    obtain ⟨m₁, ho, hos⟩ := perform_cons_iff.1 h
    exact (retains_of_operation ho).trans (ih hos)

end Model

namespace Request

/-- The same request with another big-M, if it has one at all. -/
def withBigM (bigM : Int) : Request → Request
  | .compare op a b _ => .compare op a b bigM
  | .chain conds bodies otherwise _ => .chain conds bodies otherwise bigM
  | r => r

variable {m m₁ m₂ m₃ : Model} {r : Request} {i i' : Option Var} {rows rows' : List Constraint}

/-- A request has its answer in every model that retains the indicators. -/
theorem answer_again (h : r.answer m = .ok (m₁, i, rows)) (hr : m₁.Retains m₂)
    (hd : m₂.Distinct) : r.answer m₂ = .ok (m₂, i, rows) := by
  cases r with
  | compare op a b bigM =>
    obtain ⟨v, rfl, he⟩ := ofEncoded_eq_ok_iff.1 h
    exact ofEncoded_eq_ok_iff.2 ⟨v, rfl, Model.compare_again he hr hd⟩
  | and2 a b =>
    obtain ⟨v, rfl, he⟩ := ofEncoded_eq_ok_iff.1 h
    exact ofEncoded_eq_ok_iff.2 ⟨v, rfl, Model.indicate_again he hr hd⟩
  | or2 a b =>
    obtain ⟨v, rfl, he⟩ := ofEncoded_eq_ok_iff.1 h
    exact ofEncoded_eq_ok_iff.2 ⟨v, rfl, Model.indicate_again he hr hd⟩
  | conjunction vs =>
    obtain ⟨v, rfl, he⟩ := ofEncoded_eq_ok_iff.1 h
    exact ofEncoded_eq_ok_iff.2 ⟨v, rfl, Model.indicate_again he hr hd⟩
  | disjunction vs =>
    obtain ⟨v, rfl, he⟩ := ofEncoded_eq_ok_iff.1 h
    exact ofEncoded_eq_ok_iff.2 ⟨v, rfl, Model.indicate_again he hr hd⟩
  | chain conds bodies otherwise bigM =>
    obtain ⟨rfl, he⟩ := answer_chain_eq_ok_iff.1 h
    exact answer_chain_eq_ok_iff.2 ⟨rfl, Model.chain_again he hr hd⟩

/-- With another big-M there is an overflow, or the same indicator in the same model. -/
theorem answer_unchanged (h : r.answer m = .ok (m₁, i, rows)) (hr : m₁.Retains m₂)
    (hd : m₂.Distinct) (bigM : Int) :
    (r.withBigM bigM).answer m₂ = .error .overflow ∨
      ∃ rows', (r.withBigM bigM).answer m₂ = .ok (m₂, i, rows') := by
  cases r with
  | compare op a b bigM' =>
    obtain ⟨v, rfl, he⟩ := ofEncoded_eq_ok_iff.1 h
    cases h₂ : m₂.compare op a b bigM with
    | none =>
      refine .inl ?_
      simp only [withBigM, answer, h₂]
      rfl
    | some e =>
      obtain ⟨rfl, hindicator⟩ := Model.compare_unchanged he hr hd h₂
      refine .inr ⟨e.rows, ofEncoded_eq_ok_iff.2 ⟨e.indicator, ?_, h₂⟩⟩
      rw [hindicator]
  | chain conds bodies otherwise bigM' =>
    obtain ⟨rfl, he⟩ := answer_chain_eq_ok_iff.1 h
    cases h₂ : m₂.chain conds bodies otherwise bigM with
    | error e =>
      obtain rfl := Model.chain_eq_error h₂ (Model.chain_eq_ok_iff.1 he).1.symm
      refine .inl ?_
      simp only [withBigM, answer, h₂]
    | ok p =>
      obtain ⟨n, rows'⟩ := p
      obtain rfl := Model.chain_unchanged he hr hd h₂
      exact .inr ⟨rows', answer_chain_eq_ok_iff.2 ⟨rfl, h₂⟩⟩
  | and2 a b => exact .inr ⟨rows, answer_again h hr hd⟩
  | or2 a b => exact .inr ⟨rows, answer_again h hr hd⟩
  | conjunction vs => exact .inr ⟨rows, answer_again h hr hd⟩
  | disjunction vs => exact .inr ⟨rows, answer_again h hr hd⟩

end Request

namespace Model

/-- A request can be made again at any time. Whatever has been done to the model since its answer,
the answer is the same and the model stays as it is. With another big-M the model stays as it is too
and, unless there is an overflow, the indicator is the same. -/
theorem answer_stable (r : Request) (before between : List Operation) (m m₁ m₂ : Model)
    (i : Option Var) (rows : List Constraint) (hm : Model.empty.perform before = some m)
    (h : r.answer m = .ok (m₁, i, rows)) (hm₂ : m₁.perform between = some m₂) :
    r.answer m₂ = .ok (m₂, i, rows) ∧
      ∀ bigM, (r.withBigM bigM).answer m₂ = .error .overflow ∨
        ∃ rows', (r.withBigM bigM).answer m₂ = .ok (m₂, i, rows') := by
  have hd : m₁.Distinct :=
    (Request.answer_asksFrom h).distinct (perform_distinct hm orderly_empty.distinct)
  have hr : m₁.Retains m₂ := retains_of_perform hm₂
  have hd₂ : m₂.Distinct := perform_distinct hm₂ hd
  exact ⟨Request.answer_again h hr hd₂, Request.answer_unchanged h hr hd₂⟩

def numbers : Model where
  columns := [⟨.named "x", .integer (some 0) (some 9)⟩, ⟨.named "y", .integer (some 0) (some 9)⟩]
  rows := []

def sameNumber (bigM : Int) : Request := .compare .eq (.ofVar 0) (.ofVar 1) bigM

def numbersCompared : Model where
  columns := numbers.columns ++ [⟨.less (.ofVar 0) ⟨[(1, 1)], 1⟩, .binary⟩,
    ⟨.less (.ofVar 1) ⟨[(0, 1)], 1⟩, .binary⟩, ⟨.and [2, 3], .binary⟩]
  rows := []

def sameNumberRows : List Constraint := [
  .le (.ofVar 0) ⟨[(1, 1), (2, -10)], 10⟩, .le ⟨[(1, 1), (2, -10)], 1⟩ (.ofVar 0),
  .le (.ofVar 1) ⟨[(0, 1), (3, -10)], 10⟩, .le ⟨[(0, 1), (3, -10)], 1⟩ (.ofVar 1),
  .le ⟨[(2, 1), (3, 1)], -1⟩ (.ofVar 4), .le (.ofVar 4) (.ofVar 2), .le (.ofVar 4) (.ofVar 3)]

/-- New bounds, the opposite question, a chain over the indicators of both, a row, and an integer
variable with the key of an indicator. -/
def otherWork : List Operation := [
  .setBounds 0 none (some 20),
  .request (.compare .neq (.ofVar 0) (.ofVar 1) 30),
  .request (.chain [4, 7] [[.le (.ofVar 0) (.const 3)], []] [.eq (.ofVar 1) (.const 2)] 40),
  .addRow (.le (.ofVar 0) (.ofVar 1)),
  .integer (.and [2, 3])]

theorem sameNumber_answer_stable :
    ∃ m₂, numbersCompared.perform otherWork = some m₂ ∧
      (sameNumber 10).answer m₂ = .ok (m₂, some 4, sameNumberRows) ∧
      ((sameNumber 21).answer m₂ = .error .overflow ∨
        ∃ rows, (sameNumber 21).answer m₂ = .ok (m₂, some 4, rows)) := by
  have hm : Model.empty.perform [.namedInteger "x" 0 9, .namedInteger "y" 0 9] = some numbers := by
    decide +kernel
  have h : (sameNumber 10).answer numbers = .ok (numbersCompared, some 4, sameNumberRows) := by
    decide +kernel
  obtain ⟨m₂, hm₂⟩ : ∃ m₂, numbersCompared.perform otherWork = some m₂ :=
    Option.isSome_iff_exists.1 (by decide +kernel)
  obtain ⟨hagain, hother⟩ := answer_stable _ _ otherWork numbers _ m₂ _ _ hm h hm₂
  exact ⟨m₂, hm₂, hagain, hother 21⟩

end Model
end Linearize
