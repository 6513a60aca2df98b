import Linearize.Encode.Comparison
import Linearize.Encode.Guard

/-!
# Linearize.Encode.Session

Encoders that work in place. A session creates columns as soon as it needs them, so what stops it
finds the state as the steps before have left it. All that an encoder asks of the state is a pool of
binary variables: the column list of a model has one, and so has the registry that stores the
columns of each pool under their keys.
-/

namespace Linearize

inductive Fault where
  /-- The statement is not encoded, which is an answer. -/
  | refused (e : EncodeError)
  | overflow
  | outOfRange
  deriving DecidableEq, Repr

/-- A state with a pool of binary variables. -/
class BinaryPool (σ : Type) where
  /-- The binary variable under a key, created on first request. -/
  request : σ → Key → σ × Var

instance : BinaryPool Model := ⟨Model.binary⟩

/-- Steps on one state, which keeps what was done to it before a fault. -/
abbrev Session (σ α : Type) := EStateM Fault σ α

namespace Session

variable {σ α β : Type}

theorem bind_of_ok {x : Session σ α} {f : α → Session σ β} {a : α} {s s' : σ}
    (h : x s = .ok a s') : (x >>= f) s = f a s' := by
  simp only [bind, EStateM.bind, h]

theorem bind_of_error {x : Session σ α} {f : α → Session σ β} {e : Fault} {s s' : σ}
    (h : x s = .error e s') : (x >>= f) s = .error e s' := by
  simp only [bind, EStateM.bind, h]

/-- The state that a session leaves, however it ends. -/
def after (x : Session σ α) (s : σ) : σ :=
  match x s with
  | .ok _ s' => s'
  | .error _ s' => s'

def refuse (e : EncodeError) : Session σ α := throw (.refused e)

def computed : Option α → Session σ α
  | some x => return x
  | none => throw .overflow

def part (xs : List α) (i : Nat) : Session σ α :=
  match xs[i]? with
  | some x => return x
  | none => throw .outOfRange

def joined (first second : Session σ (Var × List Constraint))
    (join : Var → Var → Session σ (Var × List Constraint)) :
    Session σ (Var × List Constraint) := do
  let p ← first
  let q ← second
  let r ← join p.1 q.1
  return (r.1, p.2 ++ q.2 ++ r.2)

def indicated (x : Session σ (Var × List Constraint)) :
    Session σ (Option Var × List Constraint) := do
  let r ← x
  return (some r.1, r.2)

def silent (x : Session σ (List Constraint)) : Session σ (Option Var × List Constraint) := do
  return (none, ← x)

variable [BinaryPool σ]

def binary (k : Key) : Session σ Var :=
  fun s => .ok (BinaryPool.request s k).2 (BinaryPool.request s k).1

def indicate (k : Key) (rows : Var → Option (List Constraint)) :
    Session σ (Var × List Constraint) := do
  let r ← binary k
  let cs ← computed (rows r)
  return (r, cs)

def and2 (a b : Var) : Session σ (Var × List Constraint) := indicate (.and [a, b]) (and2Rows a b)

def or2 (a b : Var) : Session σ (Var × List Constraint) := indicate (.or [a, b]) (or2Rows a b)

def conjunction (vs : List Var) : Session σ (Var × List Constraint) :=
  indicate (.and vs) (andRows vs)

def disjunction (vs : List Var) : Session σ (Var × List Constraint) := indicate (.or vs) (orRows vs)

def less (a b : Expr) (bigM : Int) : Session σ (Var × List Constraint) :=
  indicate (.less a b) (lessRows a b bigM)

def leq (a b : Expr) (bigM : Int) : Session σ (Var × List Constraint) := do
  less a (← computed (b.addConst 1)) bigM

def greater (a b : Expr) (bigM : Int) : Session σ (Var × List Constraint) := less b a bigM

def geq (a b : Expr) (bigM : Int) : Session σ (Var × List Constraint) := do
  less b (← computed (a.addConst 1)) bigM

def compare (op : Comparison) (a b : Expr) (bigM : Int) : Session σ (Var × List Constraint) :=
  match op with
  | .less => less a b bigM
  | .leq => leq a b bigM
  | .greater => greater a b bigM
  | .geq => geq a b bigM
  | .eq => joined (leq a b bigM) (geq a b bigM) and2
  | .neq => joined (less a b bigM) (greater a b bigM) or2

/-- The branches of a chain from position `i` on: each asks for its selector and writes its rows
before the next one does. -/
def branches (conds : List Var) (bodies : List (List Constraint)) (bigM : Int) (reach : Expr)
    (i : Nat) : List Var → Session σ (List Constraint × List Var)
  | [] => return ([], [])
  | cond :: rest => do
    let s ← binary (.selector conds i)
    let body ← part bodies i
    let rows ← computed (branchRows reach i cond s body bigM)
    let reach' ← computed (reach.add (.complement cond))
    let later ← branches conds bodies bigM reach' (i + 1) rest
    return (rows ++ later.1, s :: later.2)

def chain (conds : List Var) (bodies : List (List Constraint)) (otherwise : List Constraint)
    (bigM : Int) : Session σ (List Constraint) :=
  if conds.length ≠ bodies.length then refuse (.arityMismatch conds.length bodies.length)
  else
    match conds.length with
    | 0 => return otherwise
    | 1 => do
      let cond ← part conds 0
      let body ← part bodies 0
      computed (ifThenElse cond body otherwise bigM)
    | _ => do
      let all ← branches conds bodies bigM .zero 0 conds
      let total ← computed (Expr.sum all.2)
      let slack ← computed (total.scale bigM)
      let last ← computed (relax otherwise slack)
      return all.1 ++ last

end Session
end Linearize
