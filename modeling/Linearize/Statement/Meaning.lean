import Linearize.Encode.Truncated
import Linearize.Statement.Basic

/-!
# Linearize.Statement.Meaning

What statements assert of a point, over exact integers and without a look at the rows that encode
them. Comparisons and connectives assert nothing; they name a condition, which the indicator under
their key stands for.
-/

namespace Linearize

def bitAt (σ : Var → Int) (v : Var) : Bool := decide (σ v = 1)

def bitsAt (σ : Var → Int) (vs : List Var) : List Bool := vs.map (bitAt σ)

/-- Every column of the binary pool has the value 0 or 1. -/
def Model.IsPoint (m : Model) (σ : Var → Int) : Prop :=
  ∀ v, m.kind? v = some .binary → σ v = 0 ∨ σ v = 1

def AllHold (σ : Var → Int) (cs : List Constraint) : Prop := ∀ c ∈ cs, c.Holds σ

namespace Key

/-- The condition that an auxiliary key stands for. A name may stand for anything. -/
def Condition (σ : Var → Int) : Key → Prop
  | .named _ => True
  | .less a b => a.value σ < b.value σ
  | .and vs => ∀ v ∈ vs, σ v = 1
  | .or vs => ∃ v ∈ vs, σ v = 1
  | .selector vs i => (bitsAt σ vs).findIdx? id = some i

end Key

/-- Every auxiliary column has the truth value of its key. -/
def Model.Faithful (m : Model) (σ : Var → Int) : Prop :=
  ∀ v k, m.key? v = some k → k.isNamed = false → (σ v = 1 ↔ k.Condition σ)

/-- The constraints of the first branch whose condition is 1, or those of no branch. -/
def selected (σ : Var → Int) : List Var → List (List Constraint) → List Constraint → List Constraint
  | c :: conds, body :: bodies, otherwise =>
    if σ c = 1 then body else selected σ conds bodies otherwise
  | _, _, otherwise => otherwise

/-- The constraints of all other branches. -/
def unselected (σ : Var → Int) : List Var → List (List Constraint) → List Constraint →
    List Constraint
  | c :: conds, body :: bodies, otherwise =>
    if σ c = 1 then bodies.flatten ++ otherwise else body ++ unselected σ conds bodies otherwise
  | _, _, _ => []

/-- No pair of a constraint is violated by more than `bigM`. -/
def Constraint.Within (c : Constraint) (bigM : Int) (σ : Var → Int) : Prop :=
  ∀ p ∈ c.inequalities, p.1.value σ - p.2.value σ ≤ bigM

def parity : List Bool → Bool
  | [] => false
  | b :: bs => b != parity bs

namespace Statement

/-- Three operands hold related differences of bits. -/
def BitsRelated (a b c : List Bool) : Prop :=
  ∃ x y, BitDifference.ofBits? a = some x ∧ BitDifference.ofBits? b = some y ∧
    BitDifference.ofBits? c = some (x.xor y)

/-- Three operands hold related differences of words. -/
def WordsRelated (a b c : List Bool) : Prop :=
  ∃ x y z, WordDifference.ofBits? a = some x ∧ WordDifference.ofBits? b = some y ∧
    WordDifference.ofBits? c = some z ∧ WordDifference.IsXor x y z

/-- What a statement asserts of a point. -/
def Holds (σ : Var → Int) : Statement → Prop
  | .compare _ _ _ _ => True
  | .conjunction _ => True
  | .disjunction _ => True
  | .xor inputs output => bitAt σ output = parity (bitsAt σ inputs)
  | .truncatedXor vs =>
    BitsRelated (bitsAt σ (vs.take 2)) (bitsAt σ ((vs.drop 2).take 2)) (bitsAt σ (vs.drop 4))
  | .truncatedWordXor vs =>
    WordsRelated (bitsAt σ (vs.take 10)) (bitsAt σ ((vs.drop 10).take 10)) (bitsAt σ (vs.drop 20))
  | .linear c => c.Holds σ
  | .ifThen cond body _ => AllHold σ (selected σ [cond] [body] [])
  | .ifThenElse cond body otherwise _ => AllHold σ (selected σ [cond] [body] otherwise)
  | .chain conds bodies otherwise _ => AllHold σ (selected σ conds bodies otherwise)

/-- The big-M of the statement is great enough at a point: it exceeds the distance of compared
values, and no constraint that is switched off is violated by more. -/
def Adequate (defaultBigM : Int) (σ : Var → Int) : Statement → Prop
  | .compare _ a b bigM =>
    a.value σ - b.value σ < bigM.getD defaultBigM ∧ b.value σ - a.value σ < bigM.getD defaultBigM
  | .ifThen cond body bigM =>
    ∀ c ∈ unselected σ [cond] [body] [], c.Within (bigM.getD defaultBigM) σ
  | .ifThenElse cond body otherwise bigM =>
    ∀ c ∈ unselected σ [cond] [body] otherwise, c.Within (bigM.getD defaultBigM) σ
  | .chain conds bodies otherwise bigM =>
    ∀ c ∈ unselected σ conds bodies otherwise, c.Within (bigM.getD defaultBigM) σ
  | _ => True

end Statement

end Linearize
