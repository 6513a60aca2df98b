import Linearize.Text.AlphanumericRanges
import Linearize.Text.Ranges
import Linearize.Text.WordRanges

/-!
# Linearize.Text.CharClass

Classes of characters, for the whole of Unicode. Characters below 128 are decided without a
look at the tables.
-/

namespace Linearize
namespace Text

def inRanges (ranges : List (Nat × Nat)) (c : Char) : Bool :=
  ranges.any fun r => r.1 ≤ c.toNat && c.toNat ≤ r.2

/-- White space: what is trimmed off lines and what `\s` matches. -/
def isBlank (c : Char) : Bool := inRanges blankRanges c

/-- A letter or a number of any script. -/
def isAlphanumeric (c : Char) : Bool :=
  if c.toNat < 128 then c.isAlphanum else inRanges alphanumericRanges c

/-- A character of a word, in the sense of word boundaries. -/
def isWordChar (c : Char) : Bool :=
  if c.toNat < 128 then c.isAlphanum || c == '_' else inRanges wordRanges c

def trim (cs : List Char) : List Char :=
  ((cs.dropWhile isBlank).reverse.dropWhile isBlank).reverse

end Text
end Linearize
