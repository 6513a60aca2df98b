import Linearize.Regex.Basic

/-!
# Linearize.Regex.Escape

What a backslash and the character behind it stand for: a set, a character or an anchor.
-/

namespace Linearize
namespace Regex

def digits : CharSet := ⟨Text.decimalDigitRanges⟩

def blanks : CharSet := ⟨Text.blankRanges⟩

def wordChars : CharSet := ⟨Text.wordRanges⟩

def setEscape? : Char → Option CharSet
  | 'd' => some digits
  | 'D' => some digits.compl
  | 's' => some blanks
  | 'S' => some blanks.compl
  | 'w' => some wordChars
  | 'W' => some wordChars.compl
  | _ => none

/-- What is no letter and no digit may be escaped to stand for itself. -/
def isEscapable (c : Char) : Bool := c.toNat < 128 && !c.isAlphanum && c != '<' && c != '>'

def charEscape? (c : Char) : Option Char :=
  match c with
  | 'n' => some '\n'
  | 't' => some '\t'
  | 'r' => some '\r'
  | 'f' => some '\x0c'
  | 'v' => some '\x0b'
  | 'a' => some '\x07'
  | _ => if isEscapable c then some c else none

def anchorEscape? : Char → Option Anchor
  | 'A' => some .textStart
  | 'z' => some .textEnd
  | 'b' => some .boundary
  | 'B' => some .notBoundary
  | _ => none

end Regex
end Linearize
