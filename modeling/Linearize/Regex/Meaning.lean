import Linearize.Regex.Match

/-!
# Linearize.Regex.Meaning

What an expression can read, without preferences. Whether it can read a text depends on the texts
before and behind only through anchors.
-/

namespace Linearize
namespace Regex

/-- What is read between two texts: `R before xs ys` says that `xs` can be read between `before`
and `ys`. -/
abbrev Reading := List Char → List Char → List Char → Prop

namespace Reading

def nothing : Reading := fun _ xs _ => xs = []

def andThen (R S : Reading) : Reading := fun before xs ys =>
  ∃ us vs, xs = us ++ vs ∧ R before us (vs ++ ys) ∧ S (before ++ us) vs ys

def rounds (R : Reading) : Nat → Reading
  | 0 => nothing
  | n + 1 => R.andThen (R.rounds n)

end Reading

/-- What an expression can read. Of two limits of a repetition the greater one counts. -/
def Reads : Regex → Reading
  | .empty => .nothing
  | .text cs => fun _ xs _ => xs = cs
  | .one s => fun _ xs _ => ∃ x, xs = [x] ∧ s.contains x = true
  | .anchor a => fun before xs ys =>
    xs = [] ∧ (⟨before.getLast?, ys, ys.length⟩ : Cursor).isAt a = true
  | .seq a b => a.Reads.andThen b.Reads
  | .alt a b => fun before xs ys => a.Reads before xs ys ∨ b.Reads before xs ys
  | .times _ low high r => fun before xs ys =>
    ∃ n, low ≤ n ∧ (∀ h ∈ high, n ≤ max low h) ∧ r.Reads.rounds n before xs ys
  | .group _ r => r.Reads

/-- The expression can read some part of the text. -/
def Occurs (r : Regex) (text : List Char) : Prop :=
  ∃ before xs ys, text = before ++ (xs ++ ys) ∧ r.Reads before xs ys

end Regex
end Linearize
