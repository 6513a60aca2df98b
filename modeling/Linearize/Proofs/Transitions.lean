import Linearize.Proofs.Weights

/-!
# Linearize.Proofs.Transitions

The relation of words as a table of classes. Over any three operands of the width of a word the rows
of the relation exist, can be checked without an overflow, and let exactly those bits through that
encode a row of the table with the right values.
-/

namespace Linearize

/-- The classes of two differences and of an exclusive or of them. -/
def classTable : List (Nat × Nat × Nat) :=
  [(0, 0, 0), (0, 1, 1), (0, 2, 2), (0, 3, 3),
    (1, 0, 1), (1, 1, 0), (1, 1, 1), (1, 2, 3), (1, 3, 3),
    (2, 0, 2), (2, 1, 3), (2, 2, 3), (2, 3, 3),
    (3, 0, 3), (3, 1, 3), (3, 2, 3), (3, 3, 3)]

theorem WordDifference.mem_classTable_iff (x y z : WordDifference) :
    (x.classOf, y.classOf, z.classOf) ∈ classTable ↔ z.classOf ∈ xorClasses x.classOf y.classOf := by
  cases x <;> cases y <;> simp [classOf, xorClasses, classTable]

/-- Related words are a row of the table with the exclusive or of the values that are known. -/
theorem Statement.wordsRelated_iff_classTable {a b c : List Bool} :
    WordsRelated a b c ↔
      ∃ x y z, WordDifference.ofBits? a = some x ∧ WordDifference.ofBits? b = some y ∧
        WordDifference.ofBits? c = some z ∧
        (x.classOf, y.classOf, z.classOf) ∈ classTable ∧
        (x.classOf ≤ 1 → y.classOf ≤ 1 → z.classOf ≤ 1 → z.value = x.value ^^^ y.value) := by
  simp only [WordsRelated, WordDifference.IsXor, WordDifference.mem_classTable_iff]

theorem wordCover_length : ∀ p ∈ wordCover, p.length = 30 := by
  intro p hp
  have hparts : ∀ p ∈ classCover.map (spread everyPlace) ++
      (List.range 8).flatMap fun t => placeCover.map (spread (onePlace t)), p.length = 30 := by
    decide +kernel
  exact hparts p ((mem_wordCover_iff p).1 hp)

theorem exists_truncatedWordRows {a b c : List Var} (ha : a.length = wordWidth)
    (hb : b.length = wordWidth) (hc : c.length = wordWidth) :
    ∃ rows, truncatedWordRows a b c = .ok rows ∧
      ∀ (σ : Var → Int) (s : Assignment),
        (∀ v ∈ a ++ b ++ c, s v = some (σ v) ∧ IsBit (σ v)) →
        s.satisfies rows = some (decide (AllHold σ rows)) := by
  obtain ⟨rows, hrows, hlight⟩ := coverRows_light (a ++ b ++ c) wordCover fun p hp => by
    rw [wordCover_length p hp]
    decide
  refine ⟨rows, relationRows_of_coverRows ha hb hc hrows, ?_⟩
  intro σ s hs
  exact satisfies_light hlight (coverRows_over hrows hs)

/-- The relation of words is exact at every point of bits: its rows hold there iff the bits of the
operands encode words whose classes are a row of the table and whose values, if all three have one,
are related by exclusive or. The check of the rows agrees. -/
theorem truncatedWordRows_exact (a b c : List Var) (ha : a.length = 10) (hb : b.length = 10)
    (hc : c.length = 10) :
    ∃ rows, truncatedWordRows a b c = .ok rows ∧
      ∀ σ : Var → Int, (∀ v ∈ a ++ b ++ c, IsBit (σ v)) →
        (AllHold σ rows ↔
          ∃ x y z, WordDifference.ofBits? (bitsAt σ a) = some x ∧
            WordDifference.ofBits? (bitsAt σ b) = some y ∧
            WordDifference.ofBits? (bitsAt σ c) = some z ∧
            (x.classOf, y.classOf, z.classOf) ∈ classTable ∧
            (x.classOf ≤ 1 → y.classOf ≤ 1 → z.classOf ≤ 1 → z.value = x.value ^^^ y.value)) ∧
        ∀ s : Assignment, (∀ v ∈ a ++ b ++ c, s v = some (σ v)) →
          s.satisfies rows = some (decide (AllHold σ rows)) := by
  obtain ⟨rows, hrows, hcheck⟩ := exists_truncatedWordRows ha hb hc
  refine ⟨rows, hrows, ?_⟩
  intro σ hbits
  refine ⟨?_, fun s hs => hcheck σ s fun v hv => ⟨hs v hv, hbits v hv⟩⟩
  rw [truncatedWordRows_hold hrows hbits, Statement.wordsRelated_iff_classTable]

/-- The same operand twice, and an output that repeats a variable. -/
theorem repeatedWord_exact :
    ∃ rows, truncatedWordRows (List.range 10) (List.range 10) (List.replicate 10 10) = .ok rows ∧
      ∀ σ : Var → Int,
        (∀ v ∈ List.range 10 ++ List.range 10 ++ List.replicate 10 10, IsBit (σ v)) →
        (AllHold σ rows ↔
          ∃ x y z, WordDifference.ofBits? (bitsAt σ (List.range 10)) = some x ∧
            WordDifference.ofBits? (bitsAt σ (List.range 10)) = some y ∧
            WordDifference.ofBits? (bitsAt σ (List.replicate 10 10)) = some z ∧
            (x.classOf, y.classOf, z.classOf) ∈ classTable ∧
            (x.classOf ≤ 1 → y.classOf ≤ 1 → z.classOf ≤ 1 → z.value = x.value ^^^ y.value)) ∧
        ∀ s : Assignment,
          (∀ v ∈ List.range 10 ++ List.range 10 ++ List.replicate 10 10, s v = some (σ v)) →
          s.satisfies rows = some (decide (AllHold σ rows)) :=
  truncatedWordRows_exact (List.range 10) (List.range 10) (List.replicate 10 10) (by decide)
    (by decide) (by decide)

end Linearize
