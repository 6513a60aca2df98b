import Linearize.Encode.Parity

/-!
# Linearize.Cover.History

Histories of a store of covers: which calls it answers, and what it is after some of them.
-/

namespace Linearize

inductive CoverCall where
  | get (arity : Nat)
  | compute (arity : Nat)
  | xor (inputs : List Var) (output : Var)
  deriving DecidableEq, Repr

namespace CoverCall

/-- The arity whose cover has to be there for the answer. A look-up takes what is there. -/
def arity? : CoverCall → Option Nat
  | .get _ => none
  | .compute arity => some arity
  | .xor inputs _ => some inputs.length

/-- One of the calls has the cover of the arity computed, if it has not been before. -/
def Computes (calls : List CoverCall) (arity : Nat) : Prop :=
  arity ≤ maxArity ∧ ∃ call ∈ calls, call.arity? = some arity

end CoverCall

namespace CoverStore

/-- The store after a call. One that is refused leaves the store as it is. -/
def after (s : CoverStore) : CoverCall → CoverStore
  | .get _ => s
  | .compute arity =>
    match s.getOrCompute arity with
    | .error _ => s
    | .ok (s', _) => s'
  | .xor inputs output =>
    match s.xorRows inputs output with
    | .error _ => s
    | .ok (s', _) => s'

def run (s : CoverStore) : List CoverCall → CoverStore
  | [] => s
  | call :: rest => (s.after call).run rest

end CoverStore

end Linearize
