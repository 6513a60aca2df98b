import Linearize.Solver.Values

/-!
# Linearize.Solver.Lines

Solutions as solvers write them: lines with the name of a column and its value as a decimal numeral.
-/

namespace Linearize

structure Digits where
  chars : List Char
  nonempty : chars ≠ []
  digits : ∀ c ∈ chars, c.isDigit = true

inductive ExponentSign where
  | absent
  | plus
  | minus
  deriving DecidableEq, Repr

def ExponentSign.text : ExponentSign → List Char
  | .absent => []
  | .plus => ['+']
  | .minus => ['-']

structure Exponent where
  upper : Bool
  sign : ExponentSign
  digits : Digits

namespace Exponent

def text (e : Exponent) : List Char :=
  (if e.upper then 'E' else 'e') :: (e.sign.text ++ e.digits.chars)

def value (e : Exponent) : Int :=
  let n : Int := Text.digitsValue 0 e.digits.chars
  match e.sign with
  | .minus => -n
  | _ => n

end Exponent

/-- A decimal numeral: digits, perhaps with a minus sign, a fraction and an exponent. -/
structure Numeral where
  negative : Bool
  whole : Digits
  fraction : Option Digits
  exponent : Option Exponent

namespace Numeral

def fractionText (n : Numeral) : List Char :=
  match n.fraction with
  | none => []
  | some f => '.' :: f.chars

def exponentText (n : Numeral) : List Char :=
  match n.exponent with
  | none => []
  | some e => e.text

def magnitudeText (n : Numeral) : List Char := n.whole.chars ++ (n.fractionText ++ n.exponentText)

def text (n : Numeral) : List Char := (if n.negative then ['-'] else []) ++ n.magnitudeText

def fractionDigits (n : Numeral) : List Char := (n.fraction.map Digits.chars).getD []

/-- The number that the numeral writes: all its digits, scaled by the exponent and the digits behind
the point. -/
def decimal (n : Numeral) : Text.Decimal :=
  ⟨n.negative, Text.digitsValue 0 (n.whole.chars ++ n.fractionDigits),
    (n.exponent.map Exponent.value).getD 0 - n.fractionDigits.length⟩

/-- The binary64 number that is nearest to it. -/
def value (n : Numeral) : Float := n.decimal.toFloat

end Numeral

/-- A line of a solution. The number of its column has 64 bits. -/
structure SolutionLine where
  letter : Char
  column : Var
  gap : List Char
  /-- What stands between a star and the numeral, if there is a star. -/
  star : Option (List Char)
  numeral : Numeral
  letter_mem : letter ∈ ['x', 'y', 'z']
  column_lt : column + 1 < 18446744073709551616
  gap_ne_nil : gap ≠ []
  gap_blank : ∀ c ∈ gap, c = ' ' ∨ c = '\t'
  star_blank : ∀ cs ∈ star, ∀ c ∈ cs, c = ' ' ∨ c = '\t'

namespace SolutionLine

def starText (l : SolutionLine) : List Char :=
  match l.star with
  | none => []
  | some cs => '*' :: cs

/-- The line without its line feed. -/
def body (l : SolutionLine) : List Char :=
  l.letter :: '_' :: ((toString (l.column + 1)).toList ++ (l.gap ++ (l.starText ++ l.numeral.text)))

def text (l : SolutionLine) : List Char := l.body ++ ['\n']

end SolutionLine

def solutionText (lines : List SolutionLine) : List Char := lines.flatMap SolutionLine.text

end Linearize
