import Linearize.Encode.Comparison
import Linearize.Encode.Guard

/-!
# Linearize.Model.History

Histories of a model: what can be done to it, one operation after the other, and which models come
about when every operation speaks of columns that exist.
-/

namespace Linearize

/-- The calls that ask for indicators. -/
inductive Request where
  | compare (op : Comparison) (a b : Expr) (bigM : Int)
  | and2 (a b : Var)
  | or2 (a b : Var)
  | conjunction (vs : List Var)
  | disjunction (vs : List Var)
  | chain (conds : List Var) (bodies : List (List Constraint)) (otherwise : List Constraint)
      (bigM : Int)
  deriving DecidableEq, Repr

namespace Request

def ofEncoded (e : Option Encoded) : Except EncodeError (Model × Option Var × List Constraint) :=
  orOverflow (e.map fun r => (r.model, some r.indicator, r.rows))

/-- The model with the indicators, the indicator of the request if it has one, and its rows. -/
def answer (m : Model) : Request → Except EncodeError (Model × Option Var × List Constraint)
  | .compare op a b bigM => ofEncoded (m.compare op a b bigM)
  | .and2 a b => ofEncoded (m.and2 a b)
  | .or2 a b => ofEncoded (m.or2 a b)
  | .conjunction vs => ofEncoded (m.conjunction vs)
  | .disjunction vs => ofEncoded (m.disjunction vs)
  | .chain conds bodies otherwise bigM =>
    match m.chain conds bodies otherwise bigM with
    | .error e => .error e
    | .ok (m', rows) => .ok (m', none, rows)

/-- The columns that end up in the keys of indicators. -/
def operands : Request → List Var
  | .compare _ a b _ => a.vars ++ b.vars
  | .and2 a b => [a, b]
  | .or2 a b => [a, b]
  | .conjunction vs => vs
  | .disjunction vs => vs
  | .chain conds _ _ _ => conds

end Request

namespace Key

/-- The columns that a key refers to. -/
def operands : Key → List Var
  | .named _ => []
  | .less a b => a.vars ++ b.vars
  | .and vs => vs
  | .or vs => vs
  | .selector vs _ => vs

end Key

inductive Operation where
  | binary (k : Key)
  | integer (k : Key)
  | namedBinary (name : String)
  | namedInteger (name : String) (lower upper : Int)
  | setBounds (v : Var) (lower upper : Option Int)
  | addRow (c : Constraint)
  | addRows (cs : List Constraint)
  | request (r : Request)
  deriving DecidableEq, Repr

namespace Operation

/-- The model behind an operation. A request that is refused leaves the model as it is; `none` is an
overflow or a column that does not exist. -/
def perform (m : Model) : Operation → Option Model
  | .binary k => some (m.binary k).1
  | .integer k => some (m.integer k).1
  | .namedBinary name => some (m.namedBinary name).1
  | .namedInteger name lower upper => some (m.namedInteger name lower upper).1
  | .setBounds v lower upper => m.setBounds? v lower upper
  | .addRow c => some (m.addRow c)
  | .addRows cs => some (m.addRows cs)
  | .request r =>
    match r.answer m with
    | .error .overflow => none
    | .error _ => some m
    | .ok (m', _, _) => some m'

def operands : Operation → List Var
  | .binary k => k.operands
  | .integer k => k.operands
  | .setBounds v _ _ => [v]
  | .request r => r.operands
  | _ => []

end Operation

namespace Model

/-- Performs operations in order; `none` as soon as one of them fails. -/
def perform (m : Model) : List Operation → Option Model
  | [] => some m
  | o :: os =>
    match o.perform m with
    | none => none
    | some m' => m'.perform os

/-- The models that come about when every operand is a column that exists. -/
inductive Reachable : Model → Prop where
  | empty : Reachable .empty
  | step {m m' : Model} {o : Operation} :
      Reachable m → (∀ v ∈ o.operands, v < m.size) → o.perform m = some m' → Reachable m'

end Model

end Linearize
