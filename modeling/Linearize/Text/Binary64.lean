/-!
# Linearize.Text.Binary64

The binary64 number nearest to a quotient of natural numbers, a tie going to the even one, by exact
arithmetic.
-/

namespace Linearize
namespace Text

/-- `num / den` rounded to a whole number, a tie to the even one. -/
def roundQuotient (num den : Nat) : Nat :=
  let q := num / den
  let r := num % den
  if den < 2 * r || (den = 2 * r && q % 2 = 1) then q + 1 else q

/-- The least significand of 53 bits, `2 ^ 52`. -/
def leastNormal : Nat := 4503599627370496

def infinityBits : Nat := 2047 * leastNormal

/-- `num / den * 2 ^ -e`, rounded. -/
def roundScaled (num den : Nat) (e : Int) : Nat :=
  if 0 ≤ e then roundQuotient num (den <<< e.toNat)
  else roundQuotient (num <<< (-e).toNat) den

/-- `num / den * 2 ^ -e` is less than `2 ^ 52`. -/
def belowNormal (num den : Nat) (e : Int) : Bool :=
  if 0 ≤ e then num < leastNormal * (den <<< e.toNat) else num <<< (-e).toNat < leastNormal * den

/-- The exponent of the last place of the number next to `num / den`, at least -1074. -/
def lastPlace (num den : Nat) : Int :=
  let e : Int := (num.log2 : Int) - den.log2 - 52
  max (-1074) (if belowNormal num den e then e - 1 else e)

/-- The bits of the positive number nearest to `num / den`, infinity from `2 ^ 1024` on. A
significand that rounds up to the next power of two carries into the exponent. -/
def nearestBits (num den : Nat) : UInt64 :=
  let e := lastPlace num den
  let m := roundScaled num den e
  let bits := if m < leastNormal then m else (e + 1075).toNat * leastNormal + (m - leastNormal)
  UInt64.ofNat (min bits infinityBits)

end Text
end Linearize
