import Linearize.Cover.Pattern
import Linearize.Encode.Difference
import Linearize.Encode.Error

/-!
# Linearize.Encode.Truncated

Rows for the exclusive or of truncated differences. The relation of two inputs and an output is
given by a fixed minimized cover over the bits of the three.
-/

namespace Linearize

/-- `0 0 0`, `0 1 1`, `1 0 1`, `1 1 0`, and 2 as soon as one input is 2. -/
def bitCover : List Pattern :=
  ["-1-000", "-0-100", "----11", "0-0-1-", "-0-0-1", "-1-1-1", "11----",
   "--1-0-", "1---0-", "--11--"].map Pattern.ofText

/-- With an input of class 0 the other input, value included. `1 1` gives the exclusive or of the
values, of class 0 if they are equal and of class 1 else; `0 2` and `2 0` give 2, all other pairs
3. Words with a value outside class 1, or without one in it, are cut off. -/
def wordCover : List Pattern :=
  ["0-00000000-0---------1--------", "-0--------0-00000000-1--------",
   "-1----------00000000-0--------", "--00000000-1---------0--------",
   "---------------------01-------", "--------------------0100000000",
   "---------------------0-1------", "--------------------1-1-------",
   "---------------------0--1-----", "--------------------1--1------",
   "---------------------0---1----", "--------------------1---1-----",
   "---------------------0----1---", "--------------------1----1----",
   "---------------------0-----1--", "--1---------0-------0-0-------",
   "--0---------1-------0-0-------", "---------------------0------1-",
   "---1---------0------0--0------", "---0---------1------0--0------",
   "----1---------0-----0---0-----", "----0---------1-----0---0-----",
   "--------------------1-----1---", "-----1---------0----0----0----",
   "-----0---------1----0----0----", "------1---------0---0-----0---",
   "------0---------1---0-----0---", "-------1---------0--0------0--",
   "-------0---------1--0------0--", "--------1---------0-0-------0-",
   "--------0---------1-0-------0-", "---------1---------00--------0",
   "---------0---------10--------0", "---------------------0-------1",
   "--------------------1------1--", "--------------------1-------1-",
   "--------------------1--------1", "0100000000--------------------",
   "----------0100000000----------", "---------0---------0---------1",
   "---------1---------1---------1", "1---------1----------0--------",
   "0---------0---------1---------", "-------0---------0---------1--",
   "------0---------0---------1---", "-----0---------0---------1----",
   "----0---------0---------1-----", "---0---------0---------1------",
   "--0---------0---------1-------", "--------0---------0---------1-",
   "--------1---------1---------1-", "--1---------1---------1-------",
   "------1---------1---------1---", "-----1---------1---------1----",
   "----1---------1---------1-----", "---1---------1---------1------",
   "-------1---------1---------1--", "----------1---------0---------",
   "1-------------------0---------", "-----------0------1-----------",
   "----------1-------1-----------", "-----------01-----------------",
   "----------1-1-----------------", "-----------0----1-------------",
   "----------1-----1-------------", "-----------0---1--------------",
   "----------1----1--------------", "-----------0--1---------------",
   "----------1---1---------------", "-----------0-1----------------",
   "----------1--1----------------", "-0------1---------------------",
   "-0-----1----------------------", "-0----1-----------------------",
   "-0---1------------------------", "-0--1-------------------------",
   "-0-1--------------------------", "-01---------------------------",
   "-----------0-----1------------", "----------1------1------------",
   "1-------1---------------------", "1------1----------------------",
   "1-----1-----------------------", "1----1------------------------",
   "1---1-------------------------", "1--1--------------------------",
   "1-1---------------------------", "-----------0-------1----------",
   "----------1--------1----------", "-0-------1--------------------",
   "1--------1--------------------"].map Pattern.ofText

def checkWidth (operand : Operand) (vs : List Var) (expected : Nat) : Except EncodeError Unit :=
  if vs.length = expected then .ok ()
  else .error (.widthMismatch operand expected vs.length)

/-- The rows of a cover over three operands of the same width. -/
def relationRows (width : Nat) (cover : List Pattern) (a b c : List Var) :
    Except EncodeError (List Constraint) :=
  match checkWidth .firstInput a width with
  | .error e => .error e
  | .ok () =>
    match checkWidth .secondInput b width with
    | .error e => .error e
    | .ok () =>
      match checkWidth .output c width with
      | .error e => .error e
      | .ok () => orOverflow (coverRows (a ++ b ++ c) cover)

def truncatedRows (a b c : List Var) : Except EncodeError (List Constraint) :=
  relationRows bitWidth bitCover a b c

def truncatedWordRows (a b c : List Var) : Except EncodeError (List Constraint) :=
  relationRows wordWidth wordCover a b c

end Linearize
