import Linearize.Proofs.Greedy
import Linearize.Proofs.Numerals
import Linearize.Proofs.Records

/-!
# Linearize.Proofs.RecordPattern

The record pattern takes a line of a solution up to its end. No part of it reads a line feed behind
the numeral, and the one part that takes too much, the digits before a point that is not there,
gives the last digit back.
-/

namespace Linearize

open Regex

/-! ## The record pattern -/

def digitSet : CharSet := ⟨Text.decimalDigitRanges⟩

def blankSet : CharSet := ⟨Text.blankRanges⟩

def asciiDigitSet : CharSet := .span 48 57

def letterSet : CharSet := .span 120 122

def markSet : CharSet := ⟨[(69, 69), (101, 101)]⟩

def signSet : CharSet := ⟨[(43, 43), (45, 45)]⟩

namespace Regex

def optional (r : Regex) : Regex := .times true 0 (some 1) r

def star (s : CharSet) : Regex := .times true 0 none (.one s)

def plus (s : CharSet) : Regex := .times true 1 none (.one s)

end Regex

def exponentRegex : Regex :=
  .seq (.one markSet) (.seq (.optional (.one signSet)) (.plus asciiDigitSet))

/-- The last digits of a number, with a point before them if there is one, and an exponent. -/
def lastDigitsRegex : Regex :=
  .seq (.optional (.text ['.'])) (.seq (.plus asciiDigitSet) (.optional exponentRegex))

def numeralRegex : Regex :=
  .seq (.optional (.text ['-'])) (.seq (.star asciiDigitSet) lastDigitsRegex)

def recordRegex : Regex :=
  .seq (.anchor .boundary) <| .seq (.one letterSet) <| .seq (.text ['_']) <|
    .seq (.group 1 (.plus digitSet)) <| .seq (.plus blankSet) <| .seq (.optional (.text ['*'])) <|
      .seq (.star blankSet) (.group 2 numeralRegex)

theorem parse_recordPattern : Regex.parse? recordPattern.toList = some recordRegex := by
  decide +kernel

theorem recordRegex_loopsAdvance : recordRegex.loopsAdvance = true := by decide

/-! ## Characters -/

section

variable {c : Char}

theorem CharSet.contains_iff {s : CharSet} :
    s.contains c = true ↔ ∃ r ∈ s.ranges, r.1 ≤ c.toNat ∧ c.toNat ≤ r.2 := by
  simp [contains, Text.inRanges]

theorem isDigit_iff : c.isDigit = true ↔ 48 ≤ c.toNat ∧ c.toNat ≤ 57 := by
  simp only [Char.isDigit, Bool.and_eq_true, decide_eq_true_eq]
  exact Iff.rfl

theorem asciiDigitSet_contains (c : Char) : asciiDigitSet.contains c = c.isDigit := by
  rw [Bool.eq_iff_iff, CharSet.contains_iff, isDigit_iff]
  simp [asciiDigitSet, CharSet.span]

theorem digitSet_contains (hc : c.isDigit = true) : digitSet.contains c = true :=
  CharSet.contains_iff.2 ⟨(48, 57), List.mem_cons_self, isDigit_iff.1 hc⟩

theorem blankSet_contains (hc : c = ' ' ∨ c = '\t') : blankSet.contains c = true := by
  rcases hc with rfl | rfl <;> decide

theorem not_contains_digit {s : CharSet} (hs : ∀ r ∈ s.ranges, r.2 < 48 ∨ 57 < r.1)
    (hc : c.isDigit = true) : s.contains c = false := by
  have hrange := isDigit_iff.1 hc
  rw [Bool.eq_false_iff, Ne, CharSet.contains_iff]
  rintro ⟨r, hr, hlow, hhigh⟩
  rcases hs r hr with h | h <;> omega

end

/-! ## Numerals -/

section

variable {before tail : List Char}

theorem Digits.contains (d : Digits) : ∀ c ∈ d.chars, asciiDigitSet.contains c = true := by
  intro c hc
  rw [asciiDigitSet_contains]
  exact d.digits c hc

theorem Digits.stops (d : Digits) {s : CharSet} (hs : ∀ r ∈ s.ranges, r.2 < 48 ∨ 57 < r.1)
    (cs : List Char) : StopsAt s (d.chars ++ cs) := by
  obtain ⟨c, cs', hchars, hc⟩ := d.exists_cons
  rw [hchars]
  exact stopsAt_cons (not_contains_digit hs hc)

theorem Exponent.takes (e : Exponent) :
    exponentRegex.Takes before e.text ('\n' :: tail) [] := by
  have hmark : markSet.contains (if e.upper then 'E' else 'e') = true := by
    cases e.upper <;> decide
  refine (takes_one hmark).andThen (.andThen ?_
    (takes_plus e.digits.nonempty e.digits.contains (stopsAt_cons (by decide))))
  cases e.sign with
  | absent => exact (fails_one (e.digits.stops (by decide) _)).optional
  | plus => exact (takes_one (by decide)).optional
  | minus => exact (takes_one (by decide)).optional

namespace Numeral

variable (n : Numeral)

theorem exponentText_takes :
    (optional exponentRegex).Takes before n.exponentText ('\n' :: tail) [] := by
  rw [exponentText]
  cases n.exponent with
  | none => exact (fails_one (stopsAt_cons (by decide))).seq.optional
  | some e => exact e.takes.optional

theorem exponentText_stops {s : CharSet} (hupper : s.contains 'E' = false)
    (hlower : s.contains 'e' = false) (hend : s.contains '\n' = false) :
    StopsAt s (n.exponentText ++ '\n' :: tail) := by
  rcases n.exponentText_cases with h | ⟨c, cs, h, rfl | rfl⟩
  · rw [h]
    exact stopsAt_cons hend
  · rw [h]
    exact stopsAt_cons hupper
  · rw [h]
    exact stopsAt_cons hlower

theorem plus_takes {ds : List Char} (hne : ds ≠ [])
    (hds : ∀ c ∈ ds, asciiDigitSet.contains c = true) :
    (Regex.seq (.plus asciiDigitSet) (.optional exponentRegex)).Takes before
      (ds ++ n.exponentText) ('\n' :: tail) [] :=
  (takes_plus hne hds (n.exponentText_stops (by decide) (by decide) (by decide))).andThen
    n.exponentText_takes

/-- With a fraction the point ends the digits before it. Without one they go to the end of the
digits, where the rest of the pattern fails, and give the last one back. -/
theorem magnitudeText_takes :
    (Regex.seq (.star asciiDigitSet) lastDigitsRegex).Takes before n.magnitudeText
      ('\n' :: tail) [] := by
  rw [magnitudeText, fractionText]
  cases n.fraction with
  | some f =>
    refine (takes_star n.whole.contains (stopsAt_cons (by decide))).andThen ?_
    exact (takes_text ['.']).optional.andThen (n.plus_takes f.nonempty f.contains)
  | none =>
    have hwhole := n.whole.contains
    rcases List.eq_nil_or_concat n.whole.chars with h | ⟨ds, d, h⟩
    · exact absurd h n.whole.nonempty
    · rw [List.concat_eq_append] at h
      rw [h, List.forall_mem_append, List.forall_mem_singleton] at hwhole
      obtain ⟨hds, hd⟩ := hwhole
      rw [h, List.nil_append, List.append_assoc]
      have hstops : StopsAt asciiDigitSet (n.exponentText ++ '\n' :: tail) :=
        n.exponentText_stops (by decide) (by decide) (by decide)
      have hpoint : StopsAt (.single '.') (n.exponentText ++ '\n' :: tail) :=
        n.exponentText_stops (by decide) (by decide) (by decide)
      refine Takes.star_back ?_ hds hd hstops ?_
      · exact (fails_text hpoint).optional_seq (fails_plus hstops).seq
      · have hdigit : d.isDigit = true := (asciiDigitSet_contains d).symm.trans hd
        have hskip : (Regex.optional (.text ['.'])).Takes (before ++ ds) []
            ([d] ++ n.exponentText ++ '\n' :: tail) [] :=
          (fails_text (stopsAt_cons (not_contains_digit (by decide) hdigit))).optional
        exact hskip.andThen (n.plus_takes (List.cons_ne_nil d []) (List.forall_mem_singleton.2 hd))

theorem magnitudeText_stops {s : CharSet} (hs : ∀ r ∈ s.ranges, r.2 < 48 ∨ 57 < r.1) :
    StopsAt s (n.magnitudeText ++ tail) := by
  rw [magnitudeText, List.append_assoc]
  exact n.whole.stops hs _

theorem text_takes : numeralRegex.Takes before n.text ('\n' :: tail) [] := by
  rw [text]
  cases n.negative with
  | true => exact (takes_text ['-']).optional.andThen n.magnitudeText_takes
  | false =>
    exact (fails_text (n.magnitudeText_stops (by decide))).optional.andThen n.magnitudeText_takes

theorem text_stops {s : CharSet} (hminus : s.contains '-' = false)
    (hs : ∀ r ∈ s.ranges, r.2 < 48 ∨ 57 < r.1) : StopsAt s (n.text ++ tail) := by
  rw [text]
  cases n.negative with
  | true => exact stopsAt_cons hminus
  | false => exact n.magnitudeText_stops hs

end Numeral

end

/-! ## Lines -/

def StartsLine (before : List Char) : Prop :=
  before.getLast? = none ∨ before.getLast? = some '\n'

namespace SolutionLine

variable (l : SolutionLine) {before tail : List Char}

def columnText : List Char := (toString (l.column + 1)).toList

theorem letter_cases : l.letter = 'x' ∨ l.letter = 'y' ∨ l.letter = 'z' := by
  simpa using l.letter_mem

theorem boundary (hbefore : StartsLine before) :
    (Cursor.between before (l.body ++ '\n' :: tail)).isAt .boundary = true := by
  have hletter : Text.isWordChar l.letter = true := by
    rcases l.letter_cases with h | h | h <;> rw [h] <;> decide
  have hend : Text.isWordChar '\n' = false := by decide
  change (before.getLast?.any Text.isWordChar != (some l.letter).any Text.isWordChar) = true
  rw [Option.any_some, hletter]
  rcases hbefore with h | h
  · rw [h]
    rfl
  · rw [h, Option.any_some, hend]
    rfl

theorem column_takes : (Regex.group 1 (.plus digitSet)).Takes before l.columnText
    (l.gap ++ (l.starText ++ l.numeral.text) ++ '\n' :: tail)
    (groupMarks 1 before l.columnText
      (l.gap ++ (l.starText ++ l.numeral.text) ++ '\n' :: tail)) := by
  have hstops : StopsAt digitSet (l.gap ++ (l.starText ++ l.numeral.text) ++ '\n' :: tail) := by
    obtain ⟨c, cs, hgap⟩ := List.exists_cons_of_ne_nil l.gap_ne_nil
    have hc := l.gap_blank c (hgap ▸ List.mem_cons_self)
    rw [hgap]
    refine stopsAt_cons ?_
    rcases hc with rfl | rfl <;> decide
  refine Takes.group 1 (takes_plus (Text.toString_ne_nil _) ?_ hstops)
  exact fun c hc => digitSet_contains (Text.toString_digits _ c hc)

theorem numeral_stops {s : CharSet} (hminus : s.contains '-' = false)
    (hs : ∀ r ∈ s.ranges, r.2 < 48 ∨ 57 < r.1) (hstar : s.contains '*' = false) :
    StopsAt s (l.starText ++ l.numeral.text ++ '\n' :: tail) := by
  rw [starText]
  cases l.star with
  | none => exact l.numeral.text_stops hminus hs
  | some cs => exact stopsAt_cons hstar

theorem gap_takes : (Regex.plus blankSet).Takes before l.gap
    (l.starText ++ l.numeral.text ++ '\n' :: tail) [] :=
  takes_plus l.gap_ne_nil (fun c hc => blankSet_contains (l.gap_blank c hc))
    (l.numeral_stops (by decide) (by decide) (by decide))

theorem numeral_takes (before tail : List Char) : ∃ before', (Regex.seq (.optional (.text ['*']))
      (.seq (.star blankSet) (.group 2 numeralRegex))).Takes before
    (l.starText ++ l.numeral.text) ('\n' :: tail)
    (groupMarks 2 before' l.numeral.text ('\n' :: tail)) := by
  have hvalue : ∀ before, (Regex.group 2 numeralRegex).Takes before l.numeral.text ('\n' :: tail)
      (groupMarks 2 before l.numeral.text ('\n' :: tail)) :=
    fun before => l.numeral.text_takes.group 2
  have hstops : StopsAt blankSet (l.numeral.text ++ '\n' :: tail) :=
    l.numeral.text_stops (by decide) (by decide)
  rw [starText]
  cases hstar : l.star with
  | none =>
    have hskip : (Regex.optional (.text ['*'])).Takes before []
        ([] ++ l.numeral.text ++ '\n' :: tail) [] :=
      (fails_text (l.numeral.text_stops (by decide) (by decide))).optional
    have hgap : (Regex.star blankSet).Takes (before ++ []) [] (l.numeral.text ++ '\n' :: tail) [] :=
      takes_star (List.forall_mem_nil _) hstops
    exact ⟨_, hskip.andThen (hgap.andThen (hvalue _))⟩
  | some cs =>
    have hgap :
        (Regex.star blankSet).Takes (before ++ ['*']) cs (l.numeral.text ++ '\n' :: tail) [] :=
      takes_star (fun c hc => blankSet_contains (l.star_blank cs hstar c hc)) hstops
    exact ⟨_, (takes_text ['*']).optional.andThen (hgap.andThen (hvalue _))⟩

theorem body_takes (tail : List Char)
    (hbefore : StartsLine before) :
    ∃ before₁ before₂ rest, recordRegex.Takes before l.body ('\n' :: tail)
      (groupMarks 2 before₂ l.numeral.text ('\n' :: tail) ++
        groupMarks 1 before₁ l.columnText rest) := by
  have hletter : letterSet.contains l.letter = true := by
    rcases l.letter_cases with h | h | h <;> rw [h] <;> decide
  obtain ⟨before₂, hnumeral⟩ :=
    l.numeral_takes (before ++ [] ++ [l.letter] ++ ['_'] ++ l.columnText ++ l.gap) tail
  refine ⟨before ++ [] ++ [l.letter] ++ ['_'], before₂,
    l.gap ++ (l.starText ++ l.numeral.text) ++ '\n' :: tail, ?_⟩
  refine (takes_anchor (l.boundary hbefore)).andThen ?_
  refine (takes_one hletter).andThen ?_
  refine (takes_text ['_']).andThen ?_
  exact l.column_takes.seq (l.gap_takes.andThen hnumeral)

/-- A line is a match of the record pattern up to its line feed, and its groups are the number of
the column and the numeral. -/
theorem exists_match (before tail : List Char)
    (hbefore : StartsLine before) :
    ∃ m, recordRegex.matchAt? (.between before (l.body ++ '\n' :: tail)) = some m ∧
      m.start = .between before (l.body ++ '\n' :: tail) ∧
      m.stop = .between (before ++ l.body) ('\n' :: tail) ∧
      recordOf? m = some (l.column + 1, l.numeral.value) := by
  obtain ⟨before₁, before₂, rest, htakes⟩ := l.body_takes tail hbefore
  refine ⟨_, matchAt?_of_takes htakes, rfl, rfl, ?_⟩
  refine recordOf?_eq_some_iff.2 ⟨l.columnText, l.numeral.text, ?_, ?_,
    Text.parseNatural?_toString l.column_lt, l.numeral.parseFloat?_text⟩
  · exact congrArg some (Cursor.upTo_between before₁ l.columnText rest)
  · exact congrArg some (Cursor.upTo_between before₂ l.numeral.text ('\n' :: tail))

end SolutionLine

end Linearize
