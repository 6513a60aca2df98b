import Linearize.Statement.Tree

/-!
# Linearize.Statement.Grammar

The written forms of a tree, as a relation of its own: which texts write a leaf, and where space may
or must stand around the elements of a list.
-/

namespace Linearize
namespace Tree

def IsGap (cs : List Char) : Prop := ∀ c ∈ cs, isSpace c = true

inductive WritesLeaf : Tree → List Char → Prop where
  | ident {c : Char} {cs : List Char} :
      isIdentStart c = true → (∀ x ∈ cs, isIdentChar x = true) →
      WritesLeaf (.ident (String.ofList (c :: cs))) (c :: cs)
  | word {w : String} : w ∈ hyphenated ∨ w ∈ operators → WritesLeaf (.ident w) w.toList
  | natural {ds : List Char} {n : Int} :
      ds ≠ [] → (∀ d ∈ ds, d.isDigit = true) → n = (Text.digitsValue 0 ds : Int) → Fits n →
      WritesLeaf (.int n) ds
  | negative {ds : List Char} {n : Int} :
      ds ≠ [] → (∀ d ∈ ds, d.isDigit = true) → n = -(Text.digitsValue 0 ds : Int) → Fits n →
      WritesLeaf (.int n) ('-' :: ds)

mutual

/-- A text that writes a tree, without space around it. -/
inductive Writes : Tree → List Char → Prop where
  | leaf {t : Tree} {cs : List Char} : WritesLeaf t cs → Writes t cs
  | node {ts : List Tree} {gap cs gap' : List Char} :
      IsGap gap → WritesAll ts cs → IsGap gap' →
      Writes (.node ts) ('(' :: gap ++ cs ++ gap' ++ [')'])

inductive WritesAll : List Tree → List Char → Prop where
  | nil : WritesAll [] []
  | single {t : Tree} {cs : List Char} : Writes t cs → WritesAll [t] cs
  | cons {t : Tree} {ts : List Tree} {cs gap cs' : List Char} :
      Writes t cs → IsGap gap → gap ≠ [] → ts ≠ [] → WritesAll ts cs' →
      WritesAll (t :: ts) (cs ++ gap ++ cs')

end

/-- A text that writes a tree, with any space around it. -/
def Renders (t : Tree) (text : List Char) : Prop :=
  ∃ gap cs gap', IsGap gap ∧ Writes t cs ∧ IsGap gap' ∧ text = gap ++ cs ++ gap'

end Tree
end Linearize
