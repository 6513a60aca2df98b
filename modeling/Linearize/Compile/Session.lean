import Linearize.Compile
import Linearize.Encode.Session

/-!
# Linearize.Compile.Session

Statements applied to a model in place. Ranges of positions are looked up in lists that may lack
them.
-/

namespace Linearize
namespace Session

section Steps

variable {σ α : Type}

/-- An encoding that does not ask for columns. -/
def answered : Except EncodeError α → Session σ α
  | .ok x => return x
  | .error .overflow => throw .overflow
  | .error e => refuse e

/-- The elements of the positions from `i` up to `j`. -/
def slice (xs : List α) (i j : Nat) : Session σ (List α) :=
  if i ≤ j ∧ j ≤ xs.length then return (xs.take j).drop i else throw .outOfRange

def split3 (width : Nat) (xs : List α) : Session σ (List α × List α × List α) := do
  let n := xs.length
  let first := min width n
  let second := min (2 * width) n
  let a ← slice xs 0 first
  let b ← slice xs first second
  let c ← slice xs second n
  return (a, b, c)

def exclusiveOr (inputs : List Var) (output : Var) : Session σ (List Constraint) :=
  if inputs.length = 2 then do
    let a ← part inputs 0
    let b ← part inputs 1
    computed (xorRows a b output)
  else answered (parityRows inputs output)

end Steps

def encode (defaultBigM : Int) : Statement → Session Model (Option Var × List Constraint)
  | .compare op a b bigM => indicated (compare op a b (bigM.getD defaultBigM))
  | .conjunction vs => indicated (conjunction vs)
  | .disjunction vs => indicated (disjunction vs)
  | .xor inputs output => silent (exclusiveOr inputs output)
  | .truncatedXor vs => silent do
    let (a, b, c) ← split3 bitWidth vs
    answered (truncatedRows a b c)
  | .truncatedWordXor vs => silent do
    let (a, b, c) ← split3 wordWidth vs
    answered (truncatedWordRows a b c)
  | .linear row => silent (return [row])
  | .ifThen cond body bigM => silent (computed (ifThen cond body (bigM.getD defaultBigM)))
  | .ifThenElse cond body otherwise bigM =>
    silent (computed (ifThenElse cond body otherwise (bigM.getD defaultBigM)))
  | .chain conds bodies otherwise bigM =>
    silent (chain conds bodies otherwise (bigM.getD defaultBigM))

/-- Applies a statement and gives its indicator, if it has one. -/
def apply (defaultBigM : Int) (s : Statement) : Session Model (Option Var) := do
  let (i, rows) ← encode defaultBigM s
  modify (·.addRows rows)
  return i

end Session
end Linearize
