import Linearize.Proofs.Occurrences
import Linearize.Proofs.RecordPattern
import Linearize.Solver.Summary

/-!
# Linearize.Proofs.TimePattern

Patterns for a solve time: words and runs of characters, and then a number with a point, perhaps
with a word behind it. No run can go on into what stands behind it, so that such a pattern reads a
text in one way only, up to the number of last digits. Its first character stands nowhere else in
what it reads, so that nothing that it reads reaches into a later reading.
-/

namespace Linearize

open Regex

/-! ## Parts of patterns -/

/-- What stands before the number. -/
inductive LeadPart where
  | word (cs : List Char)
  | run (s : CharSet)

namespace LeadPart

def regex : LeadPart → Regex
  | word cs => .text cs
  | run s => .plus s

def before (parts : List LeadPart) (r : Regex) : Regex := parts.foldr (fun p r => .seq p.regex r) r

def Spells : LeadPart → List Char → Prop
  | word cs, xs => xs = cs
  | run s, xs => xs ≠ [] ∧ ∀ x ∈ xs, s.contains x = true

/-- What the parts read one behind the other. -/
def Spelled : List LeadPart → List Char → Prop
  | [], xs => xs = []
  | p :: ps, xs => ∃ us vs, xs = us ++ vs ∧ p.Spells us ∧ Spelled ps vs

def holds (c : Char) : LeadPart → Bool
  | word cs => cs.contains c
  | run s => s.contains c

/-- A run of the set cannot go on where the parts begin, or a number if there are none. -/
def endsRun (s : CharSet) : List LeadPart → Bool
  | [] => s.ranges.all fun r => r.2 < 48 || 57 < r.1
  | word (c :: _) :: _ => !s.contains c
  | word [] :: _ | run _ :: _ => false

def runsEnd : List LeadPart → Bool
  | [] => true
  | word _ :: ps => runsEnd ps
  | run s :: ps => endsRun s ps && runsEnd ps

end LeadPart

/-- A pattern that begins with a character that stands nowhere else in what it reads. -/
structure TimePattern where
  opening : Char
  /-- The rest of the first word. -/
  word : List Char
  lead : List LeadPart
  /-- What stands behind the number. -/
  trail : List Char
  runs_end : LeadPart.runsEnd lead = true
  loops_advance : ∀ q ∈ lead, q.regex.loopsAdvance = true
  opening_lead : ∀ p ∈ LeadPart.word word :: lead, p.holds opening = false
  opening_number : opening.isDigit = false ∧ opening ≠ '.'
  opening_trail : opening ∉ trail
  trail_stops : trail.head?.any Char.isDigit = false

/-- Digits with a point among them. -/
def numberRegex : Regex := .seq (.plus asciiDigitSet) (.seq (.text ['.']) (.plus asciiDigitSet))

namespace TimePattern

def parts (p : TimePattern) : List LeadPart := .word (p.opening :: p.word) :: p.lead

def timeRegex : List Char → Regex
  | [] => .group 1 numberRegex
  | c :: cs => .seq (.group 1 numberRegex) (.text (c :: cs))

def regex (p : TimePattern) : Regex := LeadPart.before p.parts (timeRegex p.trail)

end TimePattern

structure TimeText (p : TimePattern) where
  lead : List Char
  whole : Digits
  fraction : Digits
  spelled : LeadPart.Spelled p.parts lead

namespace TimeText

variable {p : TimePattern}

def number (t : TimeText p) : List Char := t.whole.chars ++ '.' :: t.fraction.chars

def text (t : TimeText p) : List Char := t.lead ++ (t.number ++ p.trail)

end TimeText

/-! ## What the patterns read -/

section

variable {before xs ys : List Char}

theorem rounds_one {s : CharSet} {n : Nat} :
    (Regex.one s).Reads.rounds n before xs ys ↔
      xs.length = n ∧ ∀ x ∈ xs, s.contains x = true := by
  induction n generalizing before xs with
  | zero =>
    rw [Reading.rounds, Reading.nothing, List.length_eq_zero_iff]
    constructor
    · rintro rfl
      exact ⟨rfl, List.forall_mem_nil _⟩
    · exact And.left
  | succ n ih =>
    constructor
    · rintro ⟨_, vs, rfl, ⟨x, rfl, hx⟩, hvs⟩
      obtain ⟨rfl, hall⟩ := ih.1 hvs
      exact ⟨rfl, List.forall_mem_cons.2 ⟨hx, hall⟩⟩
    · rintro ⟨hlength, hall⟩
      obtain ⟨x, vs, rfl⟩ := List.exists_cons_of_length_eq_add_one hlength
      obtain ⟨hx, hvs⟩ := List.forall_mem_cons.1 hall
      exact ⟨[x], vs, rfl, ⟨x, rfl, hx⟩, ih.2 ⟨Nat.succ.inj hlength, hvs⟩⟩

theorem reads_plus {s : CharSet} :
    (Regex.plus s).Reads before xs ys ↔ xs ≠ [] ∧ ∀ x ∈ xs, s.contains x = true := by
  constructor
  · rintro ⟨n, hn, -, h⟩
    obtain ⟨rfl, hall⟩ := rounds_one.1 h
    exact ⟨List.length_pos_iff.1 hn, hall⟩
  · rintro ⟨hne, hall⟩
    exact ⟨xs.length, List.length_pos_iff.2 hne, nofun, rounds_one.2 ⟨rfl, hall⟩⟩

theorem LeadPart.reads_regex {p : LeadPart} : p.regex.Reads before xs ys ↔ p.Spells xs := by
  cases p with
  | word cs => exact Iff.rfl
  | run s => exact reads_plus

theorem LeadPart.reads_before {ps : List LeadPart} {r : Regex} :
    (LeadPart.before ps r).Reads before xs ys ↔
      ∃ us vs, xs = us ++ vs ∧ Spelled ps us ∧ r.Reads (before ++ us) vs ys := by
  induction ps generalizing before xs with
  | nil =>
    constructor
    · intro h
      exact ⟨[], xs, rfl, rfl, by rwa [List.append_nil]⟩
    · rintro ⟨_, vs, rfl, rfl, h⟩
      rwa [List.append_nil] at h
  | cons p ps ih =>
    constructor
    · rintro ⟨us, _, rfl, hp, h⟩
      obtain ⟨vs, ws, rfl, hps, hr⟩ := ih.1 h
      refine ⟨us ++ vs, ws, by simp, ⟨us, vs, rfl, reads_regex.1 hp, hps⟩, ?_⟩
      rwa [← List.append_assoc]
    · rintro ⟨_, ws, rfl, ⟨us, vs, rfl, hp, hps⟩, hr⟩
      refine ⟨us, vs ++ ws, by simp, reads_regex.2 hp, ih.2 ⟨vs, ws, rfl, hps, ?_⟩⟩
      rwa [List.append_assoc]

theorem reads_digits :
    (Regex.plus asciiDigitSet).Reads before xs ys ↔ ∃ d : Digits, xs = d.chars := by
  simp only [reads_plus, asciiDigitSet_contains]
  constructor
  · rintro ⟨hne, hall⟩
    exact ⟨⟨xs, hne, hall⟩, rfl⟩
  · rintro ⟨d, rfl⟩
    exact ⟨d.nonempty, d.digits⟩

theorem reads_number : numberRegex.Reads before xs ys ↔
    ∃ whole fraction : Digits, xs = whole.chars ++ '.' :: fraction.chars := by
  constructor
  · rintro ⟨us, _, rfl, hwhole, _, vs, rfl, rfl, hfraction⟩
    obtain ⟨whole, rfl⟩ := reads_digits.1 hwhole
    obtain ⟨fraction, rfl⟩ := reads_digits.1 hfraction
    exact ⟨whole, fraction, rfl⟩
  · rintro ⟨whole, fraction, rfl⟩
    exact ⟨whole.chars, '.' :: fraction.chars, rfl, reads_digits.2 ⟨whole, rfl⟩, ['.'],
      fraction.chars, rfl, rfl, reads_digits.2 ⟨fraction, rfl⟩⟩

theorem TimePattern.reads_timeRegex {trail : List Char} :
    (timeRegex trail).Reads before xs ys ↔
      ∃ us, xs = us ++ trail ∧ numberRegex.Reads before us (trail ++ ys) := by
  cases trail with
  | nil =>
    simp only [List.append_nil, exists_eq_left', List.nil_append]
    exact Iff.rfl
  | cons c cs =>
    constructor
    · rintro ⟨us, _, rfl, h, rfl⟩
      exact ⟨us, rfl, h⟩
    · rintro ⟨us, rfl, h⟩
      exact ⟨us, c :: cs, rfl, h, rfl⟩

theorem TimePattern.reads_iff {p : TimePattern} :
    p.regex.Reads before xs ys ↔ ∃ t : TimeText p, xs = t.text := by
  rw [regex, LeadPart.reads_before]
  constructor
  · rintro ⟨lead, _, rfl, hlead, h⟩
    obtain ⟨number, rfl, hnumber⟩ := reads_timeRegex.1 h
    obtain ⟨whole, fraction, rfl⟩ := reads_number.1 hnumber
    exact ⟨⟨lead, whole, fraction, hlead⟩, rfl⟩
  · rintro ⟨t, rfl⟩
    exact ⟨t.lead, t.number ++ p.trail, rfl, t.spelled,
      reads_timeRegex.2 ⟨t.number, rfl, reads_number.2 ⟨t.whole, t.fraction, rfl⟩⟩⟩

end

/-! ## What the patterns take -/

section

variable {before ys : List Char}

theorem number_takes (before : List Char) (whole fraction : Digits)
    (hys : StopsAt asciiDigitSet ys) :
    numberRegex.Takes before (whole.chars ++ '.' :: fraction.chars) ys [] :=
  (takes_plus whole.nonempty whole.contains (stopsAt_cons (by decide))).andThen
    ((takes_text ['.']).andThen (takes_plus fraction.nonempty fraction.contains hys))

theorem TimePattern.timeRegex_takes {trail : List Char} (before : List Char)
    (whole fraction : Digits) (hys : StopsAt asciiDigitSet (trail ++ ys)) :
    (timeRegex trail).Takes before (whole.chars ++ '.' :: fraction.chars ++ trail) ys
      (groupMarks 1 before (whole.chars ++ '.' :: fraction.chars) (trail ++ ys)) := by
  have hgroup := (number_takes before whole fraction hys).group 1
  cases trail with
  | nil =>
    rw [List.append_nil]
    exact hgroup
  | cons c cs => exact hgroup.seq (takes_text (c :: cs))

theorem LeadPart.stops_of_endsRun {s : CharSet} {ps : List LeadPart} {us : List Char}
    (hs : endsRun s ps = true) (hus : Spelled ps us) (whole : Digits) :
    StopsAt s (us ++ (whole.chars ++ ys)) := by
  cases ps with
  | nil =>
    cases hus
    refine whole.stops (fun r hr => ?_) ys
    simpa using List.all_eq_true.1 hs r hr
  | cons p ps =>
    obtain ⟨us, vs, rfl, hp, -⟩ := hus
    cases p with
    | run s' => cases hs
    | word cs =>
      cases hp
      cases us with
      | nil => cases hs
      | cons c cs => exact stopsAt_cons (by simpa [endsRun] using hs)

/-- By induction on the parts. Each run goes to its end, where the next part or the number
begins. -/
theorem LeadPart.before_takes (ps : List LeadPart) (hps : runsEnd ps = true) {r : Regex}
    {us zs : List Char} {marks : Captures} (hus : Spelled ps us) (whole : Digits)
    (h : r.Takes (before ++ us) (whole.chars ++ zs) ys marks) :
    (LeadPart.before ps r).Takes before (us ++ (whole.chars ++ zs)) ys marks := by
  induction ps generalizing before us with
  | nil =>
    cases hus
    rwa [List.append_nil] at h
  | cons p ps ih =>
    obtain ⟨us, vs, rfl, hp, hvs⟩ := hus
    rw [← List.append_assoc] at h
    rw [List.append_assoc]
    cases p with
    | word cs =>
      cases hp
      exact (takes_text us).andThen (ih hps hvs h)
    | run s =>
      rw [runsEnd, Bool.and_eq_true] at hps
      have hstops : StopsAt s (vs ++ (whole.chars ++ zs) ++ ys) := by
        rw [List.append_assoc, List.append_assoc]
        exact stops_of_endsRun hps.1 hvs whole
      exact (takes_plus hp.1 hp.2 hstops).andThen (ih hps.2 hvs h)

theorem TimeText.takes {p : TimePattern} (t : TimeText p) (before : List Char)
    (hys : StopsAt asciiDigitSet (p.trail ++ ys)) :
    p.regex.Takes before t.text ys
      (groupMarks 1 (before ++ t.lead) t.number (p.trail ++ ys)) := by
  have h := TimePattern.timeRegex_takes (before ++ t.lead) t.whole t.fraction hys
  rw [List.append_assoc] at h
  have htakes := LeadPart.before_takes p.parts p.runs_end t.spelled t.whole h
  rwa [← List.append_assoc t.whole.chars] at htakes

end

/-! ## Searches -/

section

variable {p : TimePattern} {us ys : List Char}

theorem LeadPart.not_mem_of_spells {q : LeadPart} {c : Char} (hq : q.holds c = false)
    {xs : List Char} (h : q.Spells xs) : c ∉ xs := by
  intro hc
  cases q with
  | word cs =>
    cases h
    simp [holds, hc] at hq
  | run s => exact absurd (h.2 c hc) (Bool.eq_false_iff.1 hq)

theorem LeadPart.not_mem_of_spelled {ps : List LeadPart} {c : Char}
    (hps : ∀ q ∈ ps, q.holds c = false) {xs : List Char} (h : Spelled ps xs) : c ∉ xs := by
  induction ps generalizing xs with
  | nil =>
    cases h
    exact List.not_mem_nil
  | cons q ps ih =>
    obtain ⟨us, vs, rfl, hq, hvs⟩ := h
    obtain ⟨hqc, hps⟩ := List.forall_mem_cons.1 hps
    rw [List.mem_append, not_or]
    exact ⟨not_mem_of_spells hqc hq, ih hps hvs⟩

def Digits.extend (d : Digits) (ys : List Char) : Digits where
  chars := d.chars ++ ys.takeWhile Char.isDigit
  nonempty := List.append_ne_nil_of_left_ne_nil d.nonempty _
  digits := by
    intro c hc
    rcases List.mem_append.1 hc with hc | hc
    · exact d.digits c hc
    · exact List.all_eq_true.1 List.all_takeWhile c hc

namespace TimeText

theorem opening_not_mem_number (t : TimeText p) : p.opening ∉ t.number := by
  obtain ⟨hdigit, hpoint⟩ := p.opening_number
  rw [number, List.mem_append, List.mem_cons]
  rintro (h | h | h)
  · exact absurd (t.whole.digits _ h) (Bool.eq_false_iff.1 hdigit)
  · exact hpoint h
  · exact absurd (t.fraction.digits _ h) (Bool.eq_false_iff.1 hdigit)

theorem exists_cons (t : TimeText p) : ∃ cs, t.text = p.opening :: cs ∧ p.opening ∉ cs := by
  obtain ⟨_, vs, hlead, rfl, hvs⟩ := t.spelled
  refine ⟨p.word ++ vs ++ (t.number ++ p.trail), by rw [text, hlead]; rfl, ?_⟩
  have hword : p.opening ∉ p.word ++ vs :=
    LeadPart.not_mem_of_spelled p.opening_lead ⟨p.word, vs, rfl, rfl, hvs⟩
  exact List.not_mem_append hword (List.not_mem_append t.opening_not_mem_number p.opening_trail)

/-- What begins in a text without a reading does not reach into the reading behind it. -/
theorem not_reads_before (t : TimeText p) (hus : ¬ p.regex.Occurs us) {us₁ us₂ xs zs : List Char}
    (hsplit : us = us₁ ++ us₂) (hne : us₂ ≠ []) (heq : us₂ ++ (t.text ++ ys) = xs ++ zs) :
    ¬ p.regex.Reads us₁ xs zs := by
  intro h
  obtain ⟨x, rfl⟩ := TimePattern.reads_iff.1 h
  have hinside : ∀ vs, us₂ ≠ x.text ++ vs := by
    rintro vs rfl
    exact hus ⟨us₁, x.text, vs, hsplit, TimePattern.reads_iff.2 ⟨x, rfl⟩⟩
  rcases List.append_eq_append_iff.1 heq with ⟨vs, hx, hvs⟩ | ⟨vs, hu, -⟩
  · obtain ⟨cs, htext, -⟩ := t.exists_cons
    obtain ⟨ds, hopening, hds⟩ := x.exists_cons
    cases vs with
    | nil => exact hinside [] (by rw [hx, List.append_nil, List.append_nil])
    | cons v vs =>
      -- Both readings hold the first character of the later one, which the earlier one has already.
      rw [htext] at hvs
      obtain ⟨rfl, -⟩ := List.cons_eq_cons.1 hvs
      obtain ⟨u, us₂, rfl⟩ := List.exists_cons_of_ne_nil hne
      rw [hopening] at hx
      obtain ⟨-, rfl⟩ := List.cons_eq_cons.1 hx
      exact hds (List.mem_append_right us₂ List.mem_cons_self)
  · exact hinside vs hu

theorem exists_stop (t : TimeText p) (ys : List Char) :
    ∃ (x : TimeText p) (zs : List Char), t.text ++ ys = x.text ++ zs ∧
      StopsAt asciiDigitSet (p.trail ++ zs) := by
  cases htrail : p.trail with
  | nil =>
    refine ⟨⟨t.lead, t.whole, t.fraction.extend ys, t.spelled⟩, ys.dropWhile Char.isDigit, ?_, ?_⟩
    · simp [text, number, htrail, Digits.extend]
    · intro y hy
      have hhead := List.head?_dropWhile_not Char.isDigit ys
      rw [List.nil_append] at hy
      rw [Option.mem_def.1 hy] at hhead
      rwa [asciiDigitSet_contains]
  | cons c cs =>
    refine ⟨t, ys, rfl, stopsAt_cons ?_⟩
    have hstops := p.trail_stops
    rwa [htrail, List.head?_cons, Option.any_some, ← asciiDigitSet_contains] at hstops

end TimeText

namespace TimePattern

theorem regex_loopsAdvance (p : TimePattern) : p.regex.loopsAdvance = true := by
  have htime : (timeRegex p.trail).loopsAdvance = true := by
    cases p.trail <;> rfl
  have hparts : ∀ q ∈ p.parts, q.regex.loopsAdvance = true :=
    List.forall_mem_cons.2 ⟨rfl, p.loops_advance⟩
  rw [regex]
  generalize p.parts = parts at hparts
  induction parts with
  | nil => exact htime
  | cons q ps ih =>
    obtain ⟨hq, hps⟩ := List.forall_mem_cons.1 hparts
    exact Bool.and_eq_true_iff.2 ⟨hq, ih hps⟩

theorem exists_first {text : List Char} (h : p.regex.Occurs text) :
    ∃ (us : List Char) (t : TimeText p) (ys : List Char), text = us ++ (t.text ++ ys) ∧
      ¬ p.regex.Occurs us ∧ StopsAt asciiDigitSet (p.trail ++ ys) := by
  obtain ⟨us, xs, ys, rfl, hreads⟩ := h
  induction hlength : us.length using Nat.strong_induction_on generalizing us xs ys with
  | _ length ih =>
    by_cases hus : p.regex.Occurs us
    · obtain ⟨us, vs, ws, rfl, hvs⟩ := hus
      obtain ⟨x, rfl⟩ := reads_iff.1 hvs
      obtain ⟨cs, hcs, -⟩ := x.exists_cons
      have hlt : us.length < length := by
        rw [← hlength, hcs]
        simp
      have hsplit : us ++ (x.text ++ ws) ++ (xs ++ ys) = us ++ (x.text ++ (ws ++ (xs ++ ys))) := by
        simp
      rw [hsplit]
      exact ih _ hlt us x.text _ (reads_iff.2 ⟨x, rfl⟩) rfl
    · obtain ⟨t, rfl⟩ := reads_iff.1 hreads
      obtain ⟨x, zs, heq, hstop⟩ := t.exists_stop ys
      exact ⟨us, x, zs, by rw [heq], hus, hstop⟩

theorem search?_eq (t : TimeText p) (hus : ¬ p.regex.Occurs us)
    (hys : StopsAt asciiDigitSet (p.trail ++ ys)) :
    ∃ m, p.regex.search? (us ++ (t.text ++ ys)) = some m ∧ m.group? 1 = some t.number := by
  have hmatch := matchAt?_of_takes (t.takes us hys)
  have hskip := leftmost?_append p.regex_loopsAdvance [] (t.text ++ ys)
    fun us₁ us₂ xs zs hsplit hne heq => t.not_reads_before hus hsplit hne heq
  have hsearch := hskip.trans (leftmost?_of_matchAt? hmatch)
  rw [search?, Program.ofRegex_searchFrom? _ p.regex_loopsAdvance]
  exact ⟨_, hsearch,
    congrArg some (Cursor.upTo_between (us ++ t.lead) t.number (p.trail ++ ys))⟩

end TimePattern

end

end Linearize
