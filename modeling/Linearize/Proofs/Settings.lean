import Mathlib.Data.List.Nodup
import Linearize.Proofs.Arguments

/-!
# Linearize.Proofs.Settings

The settings that options make. They depend on which options are given and with which values, and
not on their order, since an option that is given twice or against its opposite is refused. So the
order of arguments can only matter for which error is reported.
-/

namespace Linearize

theorem Feature.get_set (f g : Feature) (b : Bool) (s : Settings) :
    f.get (g.set b s) = if f = g then b else f.get s := by
  cases f <;> cases g <;> rfl

theorem Feature.set_get (f : Feature) (s : Settings) : f.set (f.get s) s = s := by
  cases f <;> rfl

theorem Feature.defaultBigM_set (f : Feature) (b : Bool) (s : Settings) :
    (f.set b s).defaultBigM = s.defaultBigM := by
  cases f <;> rfl

theorem Feature.mem_all (f : Feature) : f ∈ Feature.all := by
  cases f <;> decide

theorem Choice.mem_all (o : Choice) : o ∈ Choice.all := by
  rcases o with f | f | _ | _
  · cases f <;> decide
  · cases f <;> decide
  · decide
  · decide

theorem Settings.eq_iff {s s' : Settings} :
    s = s' ↔ s.defaultBigM = s'.defaultBigM ∧ ∀ f : Feature, f.get s = f.get s' := by
  constructor
  · rintro rfl
    exact ⟨rfl, fun _ => rfl⟩
  · rintro ⟨hbigM, hfeature⟩
    obtain ⟨n, a, b, c⟩ := s
    obtain ⟨n', a', b', c'⟩ := s'
    obtain rfl : n = n' := hbigM
    obtain rfl : a = a' := hfeature .variables
    obtain rfl : b = b' := hfeature .indicators
    obtain rfl : c = c' := hfeature .verbose
    rfl

namespace Options

variable {gs gs' : List Given} {s s' : Settings}

theorem isGiven_iff {o : Choice} : isGiven gs o = true ↔ o ∈ choices gs := by
  simp [isGiven, choices]

/-! ## Repetitions -/

theorem repetition?_eq_none_iff : repetition? gs = none ↔ (choices gs).Nodup := by
  have hcount : ∀ o, (gs.filter fun g => g.1 = o).length = (choices gs).count o := by
    intro o
    rw [choices, List.count_eq_countP, List.countP_map, List.countP_eq_length_filter]
    rfl
  rw [List.nodup_iff_count_le_one, repetition?, List.find?_eq_none]
  simp only [hcount, decide_eq_true_eq, Nat.not_lt]
  exact ⟨fun h o => h o o.mem_all, fun h o _ => h o⟩

/-! ## Features -/

/-- Whether a feature is on that is `b` as long as nothing is said. -/
def chosen (gs : List Given) (f : Feature) (b : Bool) : Bool :=
  if isGiven gs (.enable f) then true else if isGiven gs (.disable f) then false else b

def Conflicts (gs : List Given) (f : Feature) : Prop :=
  Choice.enable f ∈ choices gs ∧ Choice.disable f ∈ choices gs

theorem switch_of_conflicts {f : Feature} (h : Conflicts gs f) (fs : List Feature) (s : Settings) :
    switch gs (f :: fs) s = .error (.conflict f) := by
  rw [switch, isGiven_iff.2 h.1, isGiven_iff.2 h.2]

theorem switch_of_not_conflicts {f : Feature} (h : ¬ Conflicts gs f) (fs : List Feature)
    (s : Settings) :
    switch gs (f :: fs) s = switch gs fs (f.set (chosen gs f (f.get s)) s) := by
  rw [Conflicts, ← isGiven_iff, ← isGiven_iff] at h
  rw [switch, chosen]
  cases henable : isGiven gs (.enable f) <;> cases hdisable : isGiven gs (.disable f)
  · simp [Feature.set_get]
  · simp
  · simp
  · exact absurd ⟨henable, hdisable⟩ h

theorem switch_eq_ok_iff {fs : List Feature} :
    switch gs fs s = .ok s' ↔ (∀ f ∈ fs, ¬ Conflicts gs f) ∧ s'.defaultBigM = s.defaultBigM ∧
      ∀ f, f.get s' = if f ∈ fs then chosen gs f (f.get s) else f.get s := by
  induction fs generalizing s with
  | nil =>
    simp only [switch, Except.ok.injEq, List.not_mem_nil, if_false, false_implies, implies_true,
      true_and]
    rw [eq_comm, Settings.eq_iff]
  | cons g fs ih =>
    by_cases hg : Conflicts gs g
    · rw [switch_of_conflicts hg]
      exact ⟨nofun, fun h => absurd hg (h.1 g List.mem_cons_self)⟩
    · have hidem : chosen gs g (chosen gs g (g.get s)) = chosen gs g (g.get s) := by
        simp only [chosen]
        split
        · rfl
        · split <;> rfl
      rw [switch_of_not_conflicts hg, ih, Feature.defaultBigM_set, List.forall_mem_cons,
        and_iff_right hg]
      refine and_congr_right' (and_congr_right' (forall_congr' fun f => ?_))
      rw [Feature.get_set]
      by_cases hf : f = g
      · rw [hf, if_pos rfl, if_pos List.mem_cons_self, hidem, ite_self]
      · simp only [List.mem_cons, hf, if_false, false_or]

/-! ## The big-M -/

theorem bigMText?_eq_some_iff (h : (choices gs).Nodup) {text : String} :
    bigMText? gs = some text ↔ (.defaultBigM, some text) ∈ gs := by
  rw [bigMText?]
  constructor
  · intro htext
    split at htext
    · rename_i o value hfind
      have ho : o = .defaultBigM := by simpa using List.find?_some hfind
      rw [← ho, ← htext]
      exact List.mem_of_find?_eq_some hfind
    · cases htext
  · intro hmem
    split
    · rename_i o value hfind
      have ho : o = .defaultBigM := by simpa using List.find?_some hfind
      have heq := List.inj_on_of_nodup_map h (List.mem_of_find?_eq_some hfind) hmem ho
      exact congrArg Prod.snd heq
    · rename_i hfind
      have hnot := List.find?_eq_none.1 hfind _ hmem
      simp at hnot

theorem setBigM_eq_ok_iff : setBigM gs s = .ok s' ↔ bigMText? gs = none ∧ s' = s ∨
    ∃ text n, bigMText? gs = some text ∧ Text.parseInteger text.toList = .ok n ∧ 0 < n ∧
      s' = { s with defaultBigM := n } := by
  rw [setBigM]
  cases bigMText? gs with
  | none => simp [eq_comm]
  | some text =>
    cases hparse : Text.parseInteger text.toList with
    | error e => simp [hparse]
    | ok n =>
      by_cases hn : n ≤ 0
      · simp [hparse, hn, Int.not_lt.2 hn]
      · simp [hparse, hn, Int.not_le.1 hn, eq_comm]

/-! ## All of them -/

structure Makes (gs : List Given) (s : Settings) : Prop where
  once : (choices gs).Nodup
  help : Choice.help ∉ choices gs
  consistent : ∀ f, ¬ Conflicts gs f
  feature : ∀ f : Feature, f.get s = chosen gs f (f.get .default)
  bigM : (∀ text, (Choice.defaultBigM, some text) ∉ gs) ∧
      s.defaultBigM = Settings.default.defaultBigM ∨
    ∃ text, (Choice.defaultBigM, some text) ∈ gs ∧
      Text.parseInteger text.toList = .ok s.defaultBigM ∧ 0 < s.defaultBigM

/-- Repetitions come first, then help, then the features, and last the big-M. -/
theorem interpret_eq_ok_iff {r : Option Settings} :
    interpret gs = .ok r ↔ repetition? gs = none ∧
      (isGiven gs .help = true ∧ r = none ∨ isGiven gs .help = false ∧
        ∃ s s', switch gs Feature.all .default = .ok s ∧ setBigM gs s = .ok s' ∧ r = some s') := by
  rw [interpret]
  cases repetition? gs with
  | some o => simp
  | none =>
    cases isGiven gs .help with
    | true => simp [eq_comm]
    | false =>
      cases switch gs Feature.all .default with
      | error e => simp
      | ok s => cases hbigM : setBigM gs s <;> simp [hbigM, eq_comm]

theorem interpret_eq_help_iff :
    interpret gs = .ok none ↔ (choices gs).Nodup ∧ Choice.help ∈ choices gs := by
  rw [interpret_eq_ok_iff, repetition?_eq_none_iff, isGiven_iff]
  simp

theorem interpret_eq_settings_iff : interpret gs = .ok (some s) ↔ Makes gs s := by
  rw [interpret_eq_ok_iff, repetition?_eq_none_iff, ← Bool.not_eq_true, isGiven_iff]
  simp only [switch_eq_ok_iff, setBigM_eq_ok_iff, Feature.mem_all, if_true, forall_true_left]
  constructor
  · rintro ⟨honce, ⟨-, hs⟩ | ⟨hhelp, s₁, s₂, ⟨hconsistent, hdefault, hfeature⟩, hbigM, hs⟩⟩ <;>
      cases hs
    rcases hbigM with ⟨hnone, rfl⟩ | ⟨text, n, htext, hparse, hn, rfl⟩
    · refine ⟨honce, hhelp, hconsistent, hfeature, .inl ⟨fun text hmem => ?_, hdefault⟩⟩
      rw [(bigMText?_eq_some_iff honce).2 hmem] at hnone
      cases hnone
    · refine ⟨honce, hhelp, hconsistent, ?_, .inr ⟨text, (bigMText?_eq_some_iff honce).1 htext,
        hparse, hn⟩⟩
      intro f
      rw [← hfeature f]
      cases f <;> rfl
  · rintro ⟨honce, hhelp, hconsistent, hfeature, hbigM⟩
    refine ⟨honce, .inr ⟨hhelp, ?_⟩⟩
    rcases hbigM with ⟨hnone, hdefault⟩ | ⟨text, htext, hparse, hn⟩
    · refine ⟨s, s, ⟨hconsistent, hdefault, hfeature⟩, .inl ⟨?_, rfl⟩, rfl⟩
      rw [Option.eq_none_iff_forall_ne_some]
      exact fun text h => hnone text ((bigMText?_eq_some_iff honce).1 h)
    · refine ⟨{ s with defaultBigM := Settings.default.defaultBigM }, s, ⟨hconsistent, rfl, ?_⟩,
        .inr ⟨text, s.defaultBigM, (bigMText?_eq_some_iff honce).2 htext, hparse, hn, rfl⟩, rfl⟩
      intro f
      rw [← hfeature f]
      cases f <;> rfl

theorem Makes.of_perm (h : Makes gs s) (hperm : gs.Perm gs') : Makes gs' s := by
  have hchoices : (choices gs).Perm (choices gs') := hperm.map _
  have hgiven : ∀ o, isGiven gs' o = isGiven gs o := by
    intro o
    rw [Bool.eq_iff_iff, isGiven_iff, isGiven_iff, hchoices.mem_iff]
  refine ⟨hchoices.nodup_iff.1 h.once, mt hchoices.mem_iff.2 h.help, fun f hf => h.consistent f ?_,
    fun f => ?_, ?_⟩
  · exact ⟨hchoices.mem_iff.2 hf.1, hchoices.mem_iff.2 hf.2⟩
  · rw [chosen, hgiven, hgiven]
    exact h.feature f
  · simpa only [← hperm.mem_iff] using h.bigM

theorem interpret_of_perm (hperm : gs.Perm gs') {r : Option Settings} (h : interpret gs = .ok r) :
    interpret gs' = .ok r := by
  cases r with
  | none =>
    obtain ⟨honce, hhelp⟩ := interpret_eq_help_iff.1 h
    have hchoices : (choices gs).Perm (choices gs') := hperm.map _
    exact interpret_eq_help_iff.2 ⟨hchoices.nodup_iff.1 honce, hchoices.mem_iff.1 hhelp⟩
  | some s => exact interpret_eq_settings_iff.2 ((interpret_eq_settings_iff.1 h).of_perm hperm)

theorem parse_eq_ok_iff {args : List String} {r : Option Settings} :
    parse args = .ok r ↔ ∃ gs, Reads args gs ∧ interpret gs = .ok r := by
  simp only [← scan_eq_ok_iff, parse]
  cases scan args <;> simp

theorem parse_of_perm {args args' : List String} (hperm : args.Perm args') (hstop : "--" ∉ args)
    (hbare : "--default-big-m" ∉ args) {r : Option Settings} (h : parse args = .ok r) :
    parse args' = .ok r := by
  obtain ⟨gs, hreads, hgs⟩ := parse_eq_ok_iff.1 h
  obtain ⟨gs', hgsperm, hreads'⟩ := hreads.of_perm hperm hstop hbare
  exact parse_eq_ok_iff.2 ⟨gs', hreads', interpret_of_perm hgsperm hgs⟩

/-- The settings are what the arguments say. Where no argument ends the options and every value is
attached, arguments in another order have the same result or fail too. And whatever the arguments
are, accepted settings have a positive big-M, and every feature as its option or the opposite one
says, of which at most one is given, or as it is by default. -/
theorem parse_exact (args : List String) :
    ("--" ∉ args → "--default-big-m" ∉ args → ∀ args', args.Perm args' →
      ∀ r, parse args' = .ok r ↔ parse args = .ok r) ∧
    ∀ s, parse args = .ok (some s) → ∃ gs, (∀ gs', Reads args gs' ↔ gs' = gs) ∧
      1 ≤ s.defaultBigM ∧ ∀ f : Feature,
        ¬ (Choice.enable f ∈ choices gs ∧ Choice.disable f ∈ choices gs) ∧
        (Choice.enable f ∈ choices gs → f.get s = true) ∧
        (Choice.disable f ∈ choices gs → f.get s = false) ∧
        (Choice.enable f ∉ choices gs → Choice.disable f ∉ choices gs →
          f.get s = f.get Settings.default) := by
  constructor
  · intro hstop hbare args' hperm r
    refine ⟨parse_of_perm hperm.symm ?_ ?_, parse_of_perm hperm hstop hbare⟩
    · exact fun h => hstop (hperm.mem_iff.2 h)
    · exact fun h => hbare (hperm.mem_iff.2 h)
  · intro s h
    obtain ⟨gs, hreads, hgs⟩ := parse_eq_ok_iff.1 h
    have hmakes := interpret_eq_settings_iff.1 hgs
    refine ⟨gs, fun gs' => ⟨fun h' => h'.unique hreads, fun h' => h' ▸ hreads⟩, ?_,
      fun f => ⟨hmakes.consistent f, ?_⟩⟩
    · rcases hmakes.bigM with ⟨-, hdefault⟩ | ⟨text, -, -, hpos⟩
      · rw [hdefault]
        decide
      · omega
    · have hfeature := hmakes.feature f
      have hconsistent := hmakes.consistent f
      rw [Conflicts] at hconsistent
      simp only [chosen, isGiven_iff] at hfeature
      grind

/-- An attached value, two options, and two arguments that are none. -/
def mixedArguments : List String :=
  ["free", "--enable-verbose", "--default-big-m=+64", "-", "--disable-show-variables"]

theorem mixedArguments_exact :
    (∀ r, parse mixedArguments.reverse = .ok r ↔ parse mixedArguments = .ok r) ∧
    ∃ gs, (∀ gs', Reads mixedArguments gs' ↔ gs' = gs) ∧
      (1 : Int) ≤ 64 ∧ ∀ f : Feature,
        ¬ (Choice.enable f ∈ choices gs ∧ Choice.disable f ∈ choices gs) ∧
        (Choice.enable f ∈ choices gs → f.get ⟨64, false, false, true⟩ = true) ∧
        (Choice.disable f ∈ choices gs → f.get ⟨64, false, false, true⟩ = false) ∧
        (Choice.enable f ∉ choices gs → Choice.disable f ∉ choices gs →
          f.get ⟨64, false, false, true⟩ = f.get Settings.default) := by
  obtain ⟨horder, haccepted⟩ := parse_exact mixedArguments
  exact ⟨horder (by decide) (by decide) _ (List.reverse_perm _).symm,
    haccepted ⟨64, false, false, true⟩ (by decide +kernel)⟩

/-- A value that is not attached ties its argument to the one in front. -/
example : parse ["--default-big-m", "5"] = .ok (some ⟨5, true, false, false⟩) ∧
    parse ["5", "--default-big-m"] = .error (.missingArgument "default-big-m") := by
  decide +kernel

end Options
end Linearize
