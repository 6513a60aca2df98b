import Linearize.Cover.Store

/-!
# Linearize.Encode.Parity

Exclusive or of binary variables: four rows for two inputs, a cover of parity for any number.
-/

namespace Linearize

/-- `c = a xor b`, as the four cuts of odd weight over `a`, `b` and `c`. -/
def xorRows (a b c : Var) : Option (List Constraint) := do
  let ab ← (Expr.ofVar a).add (.ofVar b)
  let ac ← (Expr.ofVar a).add (.ofVar c)
  let bc ← (Expr.ofVar b).add (.ofVar c)
  let abc ← ab.add (.ofVar c)
  return [.le (.ofVar c) ab, .le (.ofVar b) ac, .le (.ofVar a) bc, .le abc (.const 2)]

def parityRows (inputs : List Var) (output : Var) : Except EncodeError (List Constraint) :=
  if maxArity < inputs.length then .error (.unsupportedArity inputs.length maxArity)
  else orOverflow (coverRows (inputs ++ [output]) (parityCover inputs.length))

def CoverStore.xorRows (s : CoverStore) (inputs : List Var) (output : Var) :
    Except EncodeError (CoverStore × List Constraint) :=
  match s.getOrCompute inputs.length with
  | .error e => .error e
  | .ok (s', cover) =>
    match coverRows (inputs ++ [output]) cover with
    | none => .error .overflow
    | some cs => .ok (s', cs)

end Linearize
