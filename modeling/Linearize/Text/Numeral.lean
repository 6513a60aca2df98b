import Linearize.Range
import Linearize.Text.Binary64

/-!
# Linearize.Text.Numeral

Reading of numerals: natural numbers and 64-bit integers from digits, and binary64 numbers from
decimal notation.
-/

namespace Linearize
namespace Text

/-- The number that a list of ASCII digits stands for, continuing from `acc`. -/
def digitsValue (acc : Nat) : List Char → Nat
  | [] => acc
  | c :: cs => digitsValue (acc * 10 + (c.toNat - '0'.toNat)) cs

/-- Digits that stand for a 64-bit integer, with an optional minus sign. -/
def readInt? (negative : Bool) (digits : List Char) : Option Int :=
  let n : Int := digitsValue 0 digits
  fit? (if negative then -n else n)

/-- Why a text is no 64-bit integer. -/
inductive IntegerError where
  | empty
  | invalidDigit
  | tooLarge
  | tooSmall
  deriving DecidableEq, Repr

def IntegerError.message : IntegerError → String
  | .empty => "cannot parse integer from empty string"
  | .invalidDigit => "invalid digit found in string"
  | .tooLarge => "number too large to fit in target type"
  | .tooSmall => "number too small to fit in target type"

/-- Reads on from `acc`. Digits are taken from the left, so that an overflow comes before an
invalid digit further right. -/
def integerDigits (negative : Bool) (acc : Int) : List Char → Except IntegerError Int
  | [] => .ok acc
  | c :: cs =>
    if c.isDigit then
      let d : Int := (c.toNat - '0'.toNat : Nat)
      match fit? (if negative then acc * 10 - d else acc * 10 + d) with
      | some acc' => integerDigits negative acc' cs
      | none => .error (if negative then .tooSmall else .tooLarge)
    else .error .invalidDigit

/-- A 64-bit integer with an optional sign and nothing around it. -/
def parseInteger : List Char → Except IntegerError Int
  | [] => .error .empty
  | ['+'] => .error .invalidDigit
  | ['-'] => .error .invalidDigit
  | '+' :: cs => integerDigits false 0 cs
  | '-' :: cs => integerDigits true 0 cs
  | cs => integerDigits false 0 cs

def parseNatural? (cs : List Char) : Option Nat :=
  if cs.isEmpty || !cs.all Char.isDigit then none
  else
    let n := digitsValue 0 cs
    if n < 18446744073709551616 then some n else none

/-- Decimal notation in parts: `digits`, read as a whole number, times `10 ^ exponent`. -/
structure Decimal where
  negative : Bool
  digits : Nat
  exponent : Int
  deriving DecidableEq, Repr

inductive FloatText where
  | decimal (d : Decimal)
  | infinity (negative : Bool)
  | nan
  deriving DecidableEq, Repr

/-- An exponent behind `e`: an optional sign and at least one digit, and nothing more. -/
def readExponent? : List Char → Option Int
  | [] => none
  | '+' :: cs => if cs.isEmpty || !cs.all Char.isDigit then none else some (digitsValue 0 cs)
  | '-' :: cs => if cs.isEmpty || !cs.all Char.isDigit then none else some (-(digitsValue 0 cs : Int))
  | cs => if !cs.all Char.isDigit then none else some (digitsValue 0 cs)

/-- What follows the digits: nothing, or an exponent. -/
def readScale? : List Char → Option Int
  | [] => some 0
  | c :: cs => if c = 'e' || c = 'E' then readExponent? cs else none

/-- Digits with at most one point among or around them, at least one digit, then an exponent. -/
def readDecimal? (negative : Bool) (cs : List Char) : Option Decimal :=
  let whole := cs.takeWhile Char.isDigit
  let rest := cs.dropWhile Char.isDigit
  let (fraction, rest) :=
    match rest with
    | '.' :: r => (r.takeWhile Char.isDigit, r.dropWhile Char.isDigit)
    | r => ([], r)
  if whole.isEmpty && fraction.isEmpty then none
  else
    match readScale? rest with
    | none => none
    | some e => some ⟨negative, digitsValue 0 (whole ++ fraction), e - fraction.length⟩

def readUnsigned? (negative : Bool) (cs : List Char) : Option FloatText :=
  let lower := cs.map Char.toLower
  if lower = "inf".toList || lower = "infinity".toList then some (.infinity negative)
  else if lower = "nan".toList then some .nan
  else (readDecimal? negative cs).map .decimal

/-- A number in decimal notation, an infinity or a NaN, with an optional sign. -/
def readFloat? : List Char → Option FloatText
  | '+' :: cs => readUnsigned? false cs
  | '-' :: cs => readUnsigned? true cs
  | cs => readUnsigned? false cs

/-- The bits of the nearest binary64 number without its sign. Numbers far outside its range are
decided by their size, so that no great power of ten has to be written out. -/
def Decimal.magnitudeBits (d : Decimal) : UInt64 :=
  let size : Int := (Nat.toDigits 10 d.digits).length + d.exponent
  if d.digits = 0 || size < -400 then 0
  else if 400 < size then UInt64.ofNat infinityBits
  else if 0 ≤ d.exponent then nearestBits (d.digits * Nat.pow 10 d.exponent.toNat) 1
  else nearestBits d.digits (Nat.pow 10 d.exponent.natAbs)

/-- The bit of the sign. -/
def signBit : UInt64 := 9223372036854775808

def Decimal.toFloat (d : Decimal) : Float :=
  Float.ofBits (if d.negative then d.magnitudeBits + signBit else d.magnitudeBits)

def FloatText.toFloat : FloatText → Float
  | .decimal d => d.toFloat
  | .infinity negative => if negative then -1.0 / 0.0 else 1.0 / 0.0
  | .nan => 0.0 / 0.0

def parseFloat? (cs : List Char) : Option Float := (readFloat? cs).map FloatText.toFloat

end Text
end Linearize
