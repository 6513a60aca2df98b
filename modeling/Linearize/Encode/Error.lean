/-!
# Linearize.Encode.Error

What keeps a statement from being encoded, apart from an overflow.
-/

namespace Linearize

/-- The operands of a truncated difference relation. -/
inductive Operand where
  | firstInput
  | secondInput
  | output
  deriving DecidableEq, Repr

def Operand.name : Operand → String
  | .firstInput => "input_1"
  | .secondInput => "input_2"
  | .output => "output"

inductive EncodeError where
  | arityMismatch (conditions branches : Nat)
  | widthMismatch (operand : Operand) (expected actual : Nat)
  | unsupportedArity (arity max : Nat)
  | overflow
  deriving DecidableEq, Repr

def EncodeError.message : EncodeError → String
  | .arityMismatch c b => toString c ++ " conditions given for " ++ toString b ++ " branches"
  | .widthMismatch o e a =>
    o.name ++ " has " ++ toString a ++ " variables, expected " ++ toString e
  | .unsupportedArity a m =>
    "xor arity " ++ toString a ++ " exceeds the supported maximum " ++ toString m
  | .overflow => "overflow"

def orOverflow {α : Type} : Option α → Except EncodeError α
  | some x => .ok x
  | none => .error .overflow

end Linearize
