import Linearize.Proofs.TimePattern

/-!
# Linearize.Proofs.Transcripts

What is read from the transcript of a solver that is known from the start. Its pattern is a time
pattern, so a solve time is read iff there is one, it can be read as a number, and a transcript that
goes on behind a line feed keeps it.
-/

namespace Linearize

open Regex

/-- What a summary says of its transcript: the time stands there as digits with a point among them,
and the model is infeasible iff the transcript says so. -/
structure Summary.Tells (s : Summary) (infeasible : String) (transcript : List Char) : Prop where
  time : ∃ whole fraction : Digits, whole.chars ++ '.' :: fraction.chars <:+: transcript ∧
    Text.parseFloat? (whole.chars ++ '.' :: fraction.chars) = some s.solveTime
  status : s.status = .unsatisfiable ↔ infeasible.toList <:+: transcript

/-! ## Status -/

theorem occursIn_iff {part text : List Char} : occursIn part text = true ↔ part <:+: text := by
  induction text with
  | nil => rw [occursIn, List.isEmpty_iff, List.infix_nil]
  | cons c cs ih =>
    rw [occursIn, Bool.or_eq_true, List.isPrefixOf_iff_prefix, ih, List.infix_cons_iff]

theorem SolverSpec.status_eq_unsatisfiable_iff {spec : SolverSpec} {transcript : List Char} :
    spec.status transcript = .unsatisfiable ↔ spec.infeasible.toList <:+: transcript := by
  rw [← occursIn_iff, status]
  split
  · exact iff_of_true rfl ‹_›
  · exact iff_of_false nofun ‹_›

/-! ## Solve time -/

section

variable {specs : SolverSpecs} {solver infeasible : String} {p : TimePattern}
  {transcript : List Char}

theorem TimeText.exists_parseFloat? (t : TimeText p) :
    ∃ time, Text.parseFloat? t.number = some time := by
  have hnumber := (Numeral.mk false t.whole (some t.fraction) none).parseFloat?_text
  simp only [Numeral.text, Numeral.magnitudeText, Numeral.fractionText, Numeral.exponentText,
    Bool.false_eq_true, if_false, List.nil_append, List.append_nil] at hnumber
  exact ⟨_, hnumber⟩

theorem SolverSpecs.summary_missing (h : specs.get? solver = some ⟨p.regex, infeasible⟩)
    (hoccurs : ¬ p.regex.Occurs transcript) :
    specs.summary solver transcript = .error (.missingOutput solver) := by
  have hnone : p.regex.search? transcript = none := by
    rwa [← Option.not_isSome_iff_eq_none, isSome_search?_iff p.regex_loopsAdvance]
  simp only [summary, h, SolverSpec.timeText?, hnone]

theorem SolverSpecs.exists_summary_time (h : specs.get? solver = some ⟨p.regex, infeasible⟩)
    (hoccurs : p.regex.Occurs transcript) :
    ∃ (t : TimeText p) (time : Float), t.number <:+: transcript ∧
      Text.parseFloat? t.number = some time ∧
      ∀ more, StopsAt asciiDigitSet more →
        specs.summary solver (transcript ++ more) =
          .ok ⟨SolverSpec.status ⟨p.regex, infeasible⟩ (transcript ++ more), time⟩ := by
  obtain ⟨us, t, ys, rfl, hus, hys⟩ := TimePattern.exists_first hoccurs
  obtain ⟨time, htime⟩ := t.exists_parseFloat?
  refine ⟨t, time, ⟨us ++ t.lead, p.trail ++ ys, by simp [TimeText.text]⟩, htime, ?_⟩
  intro more hmore
  have hstops : StopsAt asciiDigitSet (p.trail ++ (ys ++ more)) := by
    rw [← List.append_assoc]
    cases hrest : p.trail ++ ys with
    | nil => exact hmore
    | cons y zs => exact stopsAt_cons (hys y (by rw [hrest]; rfl))
  obtain ⟨m, hsearch, hgroup⟩ := TimePattern.search?_eq t hus hstops
  rw [← List.append_assoc t.text, ← List.append_assoc us] at hsearch
  simp only [summary, h, SolverSpec.timeText?, hsearch, hgroup, Option.getD_some, htime]

end

/-! ## The known solvers -/

namespace TimePattern

/-- The word, and then white space before the number. -/
def afterBlanks (opening : Char) (word : List Char)
    (h : ∀ q ∈ [LeadPart.word word, .run blankSet], q.holds opening = false)
    (hnumber : opening.isDigit = false ∧ opening ≠ '.') : TimePattern where
  opening := opening
  word := word
  lead := [.run blankSet]
  trail := []
  runs_end := by decide
  loops_advance := by decide
  opening_lead := h
  opening_number := hnumber
  opening_trail := List.not_mem_nil
  trail_stops := rfl

def glpk : TimePattern := afterBlanks 'T' "ime used:".toList (by decide) (by decide)

def cplex : TimePattern := afterBlanks 'S' "olution time =".toList (by decide) (by decide)

def gurobi : TimePattern where
  opening := 'E'
  word := "xplored ".toList
  lead := [.run asciiDigitSet, .word " nodes (".toList, .run asciiDigitSet,
    .word " simplex iterations) in ".toList]
  trail := " seconds".toList
  runs_end := by decide
  loops_advance := by decide
  opening_lead := by decide
  opening_number := by decide
  opening_trail := by decide
  trail_stops := by decide

def scip : TimePattern where
  opening := 'S'
  word := "olving Time (sec)".toList
  lead := [.run blankSet, .word [':'], .run blankSet]
  trail := []
  runs_end := by decide
  loops_advance := by decide
  opening_lead := by decide
  opening_number := by decide
  opening_trail := by decide
  trail_stops := by decide

end TimePattern

namespace SolverSpecs

def addText (specs : SolverSpecs) (e : String × String × String) : SolverSpecs :=
  match SolverSpec.ofText? e.2.1 e.2.2 with
  | none => specs
  | some spec => specs.put e.1 spec

theorem default_eq : default = defaultTexts.foldl addText [] := rfl

theorem get?_addText {specs : SolverSpecs} {e : String × String × String} {name : String}
    (h : name ≠ e.1) : (addText specs e).get? name = specs.get? name := by
  rw [addText]
  split
  · rfl
  · rw [Table.get?_put, if_neg h]

theorem get?_foldl_addText {texts : List (String × String × String)} {name : String}
    (h : name ∉ texts.map (·.1)) (specs : SolverSpecs) :
    (texts.foldl addText specs).get? name = specs.get? name := by
  induction texts generalizing specs with
  | nil => rfl
  | cons e texts ih =>
    rw [List.map_cons, List.mem_cons, not_or] at h
    rw [List.foldl_cons, ih h.2, get?_addText h.1]

theorem get?_foldl_addText_of_mem {texts : List (String × String × String)}
    {solver pattern infeasible : String} {spec : SolverSpec} (hnames : (texts.map (·.1)).Nodup)
    (hmem : (solver, pattern, infeasible) ∈ texts)
    (hspec : SolverSpec.ofText? pattern infeasible = some spec) (specs : SolverSpecs) :
    (texts.foldl addText specs).get? solver = some spec := by
  induction texts generalizing specs with
  | nil => cases hmem
  | cons e texts ih =>
    obtain ⟨hfirst, hnames⟩ := List.nodup_cons.1 hnames
    rw [List.foldl_cons]
    rcases List.mem_cons.1 hmem with rfl | hmem
    · rw [get?_foldl_addText hfirst, addText, hspec]
      exact (Table.get?_put specs solver spec solver).trans (if_pos rfl)
    · exact ih hnames hmem _

/-- Every pattern of the table is a time pattern. -/
theorem exists_timePattern {solver pattern infeasible : String}
    (h : (solver, pattern, infeasible) ∈ defaultTexts) :
    ∃ p : TimePattern, Regex.parse? pattern.toList = some p.regex ∧
      default.get? solver = some ⟨p.regex, infeasible⟩ := by
  have hparse : ∃ p : TimePattern, Regex.parse? pattern.toList = some p.regex := by
    simp only [defaultTexts, List.mem_cons, Prod.mk.injEq, List.not_mem_nil, or_false] at h
    rcases h with ⟨-, rfl, -⟩ | ⟨-, rfl, -⟩ | ⟨-, rfl, -⟩ | ⟨-, rfl, -⟩
    · exact ⟨.glpk, by decide +kernel⟩
    · exact ⟨.cplex, by decide +kernel⟩
    · exact ⟨.gurobi, by decide +kernel⟩
    · exact ⟨.scip, by decide +kernel⟩
  obtain ⟨p, hp⟩ := hparse
  have hspec : SolverSpec.ofText? pattern infeasible = some ⟨p.regex, infeasible⟩ := by
    rw [SolverSpec.ofText?, hp, Option.map_some]
  rw [default_eq]
  exact ⟨p, hp, get?_foldl_addText_of_mem (by decide) h hspec []⟩

/-- With the pattern of a known solver the output is missing iff the pattern can read no part of the
transcript. Otherwise there is a summary, and a transcript that goes on behind a line feed keeps the
time, and keeps the status if that is infeasible. -/
theorem default_summary_exact {solver pattern infeasible : String}
    (h : (solver, pattern, infeasible) ∈ defaultTexts) (transcript : List Char) :
    ∃ r, Regex.parse? pattern.toList = some r ∧ default.get? solver = some ⟨r, infeasible⟩ ∧
      ((¬ r.Occurs transcript ∧
          default.summary solver transcript = .error (.missingOutput solver)) ∨
        (r.Occurs transcript ∧ ∃ s, default.summary solver transcript = .ok s ∧
          s.Tells infeasible transcript ∧
          ∀ more, ∃ later, default.summary solver (transcript ++ '\n' :: more) = .ok later ∧
            later.solveTime = s.solveTime ∧
            (s.status = .unsatisfiable → later.status = .unsatisfiable))) := by
  obtain ⟨p, hparse, hspec⟩ := exists_timePattern h
  refine ⟨p.regex, hparse, hspec, ?_⟩
  by_cases hoccurs : p.regex.Occurs transcript
  · obtain ⟨t, time, hnumber, htime, hsummary⟩ := exists_summary_time hspec hoccurs
    have hnow := hsummary [] (stopsAt_nil _)
    rw [List.append_nil] at hnow
    refine .inr ⟨hoccurs, _, hnow, ⟨⟨t.whole, t.fraction, hnumber, htime⟩,
      SolverSpec.status_eq_unsatisfiable_iff⟩, fun more => ?_⟩
    refine ⟨_, hsummary _ (stopsAt_cons (by decide)), rfl, fun hstatus => ?_⟩
    have hmarker := SolverSpec.status_eq_unsatisfiable_iff.1 hstatus
    exact SolverSpec.status_eq_unsatisfiable_iff.2
      (hmarker.trans (List.prefix_append transcript _).isInfix)
  · exact .inl ⟨hoccurs, summary_missing hspec hoccurs⟩

def infeasibleTranscript : List Char :=
  "PROBLEM HAS NO PRIMAL FEASIBLE SOLUTION\nTime used:   0.1 secs".toList

theorem infeasibleTranscript_summary_exact :
    ("glpk", "Time used:[\\s]+([0-9]+\\.[0-9]+)", "PROBLEM HAS NO PRIMAL FEASIBLE SOLUTION") ∈
        defaultTexts ∧
      ∃ s, default.summary "glpk" infeasibleTranscript = .ok s ∧
        s.Tells "PROBLEM HAS NO PRIMAL FEASIBLE SOLUTION" infeasibleTranscript ∧
        s.status = .unsatisfiable ∧
        ∀ more, ∃ later,
          default.summary "glpk" (infeasibleTranscript ++ '\n' :: more) = .ok later ∧
            later.solveTime = s.solveTime ∧ later.status = .unsatisfiable := by
  have hmem : ("glpk", "Time used:[\\s]+([0-9]+\\.[0-9]+)",
      "PROBLEM HAS NO PRIMAL FEASIBLE SOLUTION") ∈ defaultTexts := by decide
  obtain ⟨r, hparse, -, hsummary⟩ := default_summary_exact hmem infeasibleTranscript
  have hfound : (Regex.parse? "Time used:[\\s]+([0-9]+\\.[0-9]+)".toList).any (fun r =>
      r.loopsAdvance && (r.search? infeasibleTranscript).isSome) = true := by decide +kernel
  rw [hparse, Option.any_some, Bool.and_eq_true] at hfound
  have hoccurs : r.Occurs infeasibleTranscript := (isSome_search?_iff hfound.1 _).1 hfound.2
  rcases hsummary with ⟨hnot, -⟩ | ⟨-, s, hs, htells, hlater⟩
  · exact absurd hoccurs hnot
  · have hstatus : s.status = .unsatisfiable :=
      htells.status.2 (occursIn_iff.1 (by decide +kernel))
    refine ⟨hmem, s, hs, htells, hstatus, fun more => ?_⟩
    obtain ⟨later, hok, htime, hkept⟩ := hlater more
    exact ⟨later, hok, htime, hkept hstatus⟩

end SolverSpecs

end Linearize
