/-!
# Linearize.Text.ByteRanges

How a range of code points reads in UTF-8: as sequences of byte ranges. A sequence stands for all
ways to take a byte from each of its ranges.
-/

namespace Linearize
namespace Text

abbrev ByteRange := Nat × Nat

/-- The numbers from `low` to `high` by their digits: one digit for each of the divisors, which fall
by a factor of 64, and a last one below 64. The sequences are in order and have no number in
common. -/
def digitRanges : List Nat → Nat → Nat → List (List ByteRange)
  | [], low, high => [[(low, high)]]
  | d :: ds, low, high =>
    let first := low / d
    let last := high / d
    if first = last then
      (digitRanges ds (low % d) (high % d)).map fun digits => (first, first) :: digits
    else
      let before := if low % d = 0 then []
        else (digitRanges ds (low % d) (d - 1)).map fun digits => (first, first) :: digits
      let behind := if high % d = d - 1 then []
        else (digitRanges ds 0 (high % d)).map fun digits => (last, last) :: digits
      let start := if low % d = 0 then first else first + 1
      let stop := if high % d = d - 1 then last + 1 else last
      let between := if start < stop then [(start, stop - 1) :: (d :: ds).map fun _ => (0, 63)]
        else []
      before ++ between ++ behind

/-- Code points with encodings of one form: the least and the greatest of them, the divisors of
their digits and what is added to the first digit. Surrogates have no encoding. -/
def encodingForms : List (Nat × Nat × List Nat × Nat) := [
  (0x0, 0x7F, [], 0x0),
  (0x80, 0x7FF, [64], 0xC0),
  (0x800, 0xD7FF, [4096, 64], 0xE0),
  (0xE000, 0xFFFF, [4096, 64], 0xE0),
  (0x10000, 0x10FFFF, [262144, 4096, 64], 0xF0)]

/-- A first digit is marked by the length of the encoding, the others as continuations. -/
def markDigits (lead : Nat) : List ByteRange → List ByteRange
  | [] => []
  | (a, b) :: digits => (lead + a, lead + b) :: digits.map fun r => (0x80 + r.1, 0x80 + r.2)

def byteRanges (low high : Nat) : List (List ByteRange) :=
  encodingForms.flatMap fun (least, greatest, divisors, lead) =>
    if max low least ≤ min high greatest then
      (digitRanges divisors (max low least) (min high greatest)).map (markDigits lead)
    else []

end Text
end Linearize
