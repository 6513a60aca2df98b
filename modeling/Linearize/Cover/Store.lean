import Linearize.Cover.Parity
import Linearize.Encode.Error

/-!
# Linearize.Cover.Store

A store of covers that asks its generator for each arity at most once. It keeps the arities it
has asked for, in order.
-/

namespace Linearize

structure CoverStore where
  generator : Nat → List Pattern
  covers : List (Nat × List Pattern)
  /-- The arities the generator was asked for, latest first. -/
  calls : List Nat

namespace CoverStore

def fresh (generator : Nat → List Pattern) : CoverStore := ⟨generator, [], []⟩

/-- The cover of an arity if it has been computed already. -/
def get? (s : CoverStore) (arity : Nat) : Option (List Pattern) := s.covers.lookup arity

def getOrCompute (s : CoverStore) (arity : Nat) : Except EncodeError (CoverStore × List Pattern) :=
  if maxArity < arity then .error (.unsupportedArity arity maxArity)
  else
    match s.get? arity with
    | some cover => .ok (s, cover)
    | none =>
      let cover := s.generator arity
      .ok ({ s with covers := (arity, cover) :: s.covers, calls := arity :: s.calls }, cover)

end CoverStore

end Linearize
