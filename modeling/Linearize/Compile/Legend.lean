import Linearize.Compile

/-!
# Linearize.Compile.Legend

The legend of a listing: the comments that say which column a name stands for, as they are read back
from the text. A label is a line of five words, and any other line has none.
-/

namespace Linearize

/-- What is said of the column of a name: that it was declared, as one of two kinds, or that it
stands for a condition. -/
inductive Mark where
  | binary
  | integer
  | auxiliary
  deriving DecidableEq, Repr

namespace Mark

def word : Mark → String
  | .binary => "bin"
  | .integer => "int"
  | .auxiliary => "aux"

def ofWord? (word : List Char) : Option Mark :=
  [binary, integer, auxiliary].find? fun k => k.word.toList = word

end Mark

structure Label where
  mark : Mark
  name : String
  column : String
  deriving DecidableEq, Repr

namespace Label

def words (l : Label) : List String := ["\\", l.mark.word, l.name, "=", l.column]

def line (l : Label) : String := " ".intercalate l.words

def ofLine? (line : List Char) : Option Label :=
  match line.splitOn ' ' with
  | [['\\'], word, name, ['='], column] =>
    (Mark.ofWord? word).map fun mark => ⟨mark, .ofList name, .ofList column⟩
  | _ => none

end Label

def legend (text : String) : List Label := (text.toList.splitOn '\n').filterMap Label.ofLine?

end Linearize
