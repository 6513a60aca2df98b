import Linearize.Bits

/-!
# Linearize.Encode.Difference

Truncated differences. A truncated difference tells the class of a difference, and its value where
it is known.

Bits have the classes 0 (zero), 1 (one) and 2 (unknown). Words have the classes 0 (zero), 1 (a known
nonzero value), 2 (unknown but nonzero) and 3 (unknown); only class 1 carries a value.
-/

namespace Linearize

def bitWidth : Nat := 2

/-- Variables of an operand of the relation of words: two for the class, eight for the value. -/
def wordWidth : Nat := 10

/-- The bits of a class below 4, most significant first. -/
def classBits (k : Nat) : List Bool := [k.testBit 1, k.testBit 0]

inductive BitDifference where
  | zero
  | one
  | unknown
  deriving DecidableEq, Repr

namespace BitDifference

def classOf : BitDifference → Nat
  | .zero => 0
  | .one => 1
  | .unknown => 2

def bits (d : BitDifference) : List Bool := classBits d.classOf

def ofBits? : List Bool → Option BitDifference
  | [false, false] => some .zero
  | [false, true] => some .one
  | [true, false] => some .unknown
  | _ => none

/-- The exclusive or; it is unknown as soon as one input is. -/
def xor : BitDifference → BitDifference → BitDifference
  | .zero, d => d
  | d, .zero => d
  | .one, .one => .zero
  | _, _ => .unknown

end BitDifference

inductive WordDifference where
  | zero
  | fixed (value : UInt8)
  | active
  | unknown
  deriving DecidableEq, Repr

namespace WordDifference

def classOf : WordDifference → Nat
  | .zero => 0
  | .fixed _ => 1
  | .active => 2
  | .unknown => 3

def value : WordDifference → UInt8
  | .fixed v => v
  | _ => 0

def bits (d : WordDifference) : List Bool :=
  classBits d.classOf ++ (Bits.ofWord d.value.toUInt64 8).reverse

/-- The inverse of `bits` on its domain: a value stands in class 1 only and is not 0 there. -/
def ofBits? (bits : List Bool) : Option WordDifference :=
  if bits.length ≠ wordWidth then none
  else
    match Bits.toWord? (bits.drop 2).reverse with
    | none => none
    | some word =>
      let value := word.toUInt8
      match bits.take 2 with
      | [false, false] => if value = 0 then some .zero else none
      | [false, true] => if value = 0 then none else some (.fixed value)
      | [true, false] => if value = 0 then some .active else none
      | [true, true] => if value = 0 then some .unknown else none
      | _ => none

/-- The classes that the exclusive or of two classes may have. Two known values may cancel or not;
a known value and an unknown one may do anything. -/
def xorClasses : Nat → Nat → List Nat
  | 0, k => [k]
  | k, 0 => [k]
  | 1, 1 => [0, 1]
  | _, _ => [3]

/-- `z` describes the exclusive or of differences that `x` and `y` describe: its class is one that
may come out, and its value is exact where the values are known. -/
def IsXor (x y z : WordDifference) : Prop :=
  z.classOf ∈ xorClasses x.classOf y.classOf ∧
    (x.classOf ≤ 1 → y.classOf ≤ 1 → z.classOf ≤ 1 → z.value = x.value ^^^ y.value)

instance (x y z : WordDifference) : Decidable (IsXor x y z) := inferInstanceAs (Decidable (_ ∧ _))

end WordDifference

end Linearize
