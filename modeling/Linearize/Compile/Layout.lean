import Linearize.Compile

/-!
# Linearize.Compile.Layout

The layout of a text: the blank lines and comments between its lines, and the white space around
each of them.
-/

namespace Linearize

/-- A line that is empty or a comment, apart from the white space around it. -/
structure SilentLine where
  text : String
  silent : Text.trim text.toList = [] ∨ (Text.trim text.toList).head? = some ';'

structure Blanks where
  text : String
  blank : ∀ c ∈ text.toList, Text.isBlank c = true ∧ c ≠ '\n'

/-- A line with the silent lines above it and the white space around it. -/
structure LaidLine where
  above : List SilentLine
  left : Blanks
  text : String
  right : Blanks

namespace LaidLine

def spaced (l : LaidLine) : String := l.left.text ++ l.text ++ l.right.text

def written (l : LaidLine) : List String := l.above.map SilentLine.text ++ [l.spaced]

end LaidLine

structure Layout where
  lines : List LaidLine
  /-- The silent lines behind the last line. -/
  below : List SilentLine

namespace Layout

/-- The lines without their layout. -/
def plain (l : Layout) : List String := l.lines.map LaidLine.text

def written (l : Layout) : List String :=
  l.lines.flatMap LaidLine.written ++ l.below.map SilentLine.text

/-- How many silent lines there are above the line with the number `n`, which is counted from 1
among the lines without their layout. -/
def above (l : Layout) (n : Nat) : Nat := ((l.lines.take n).flatMap LaidLine.above).length

/-- An error, with the number that its line has when the lines are laid out. -/
def move (l : Layout) : CompileError → CompileError
  | .atLine n e => .atLine (n + l.above n) e
  | e => e

end Layout

/-- A text as a stream: lines that are ended, and then `last`, which is not. -/
def textBytes (lines : List String) (last : String) : List UInt8 :=
  lines.flatMap (fun line => line.toList.flatMap String.utf8EncodeChar ++ [10]) ++
    last.toList.flatMap String.utf8EncodeChar

end Linearize
