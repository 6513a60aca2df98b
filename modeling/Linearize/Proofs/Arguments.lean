import Mathlib.Data.List.Forall2
import Mathlib.Data.List.Perm.Basic
import Linearize.Options.Grammar

/-!
# Linearize.Proofs.Arguments

Arguments are read as they are written: the scan finds the options of a list of arguments exactly if
the list is written by the grammar. Where every argument speaks for itself, the order of the
arguments is the order of the options and nothing more.
-/

namespace Linearize

/-! ## Names -/

namespace Choice

theorem name_toList (o : Choice) : o.name.toList ≠ [] ∧ '=' ∉ o.name.toList := by
  rcases o with f | f | _ | _
  · cases f <;> decide
  · cases f <;> decide
  · decide
  · decide

theorem ofName?_name (o : Choice) : ofName? o.name.toList = some o := by
  rcases o with f | f | _ | _
  · cases f <;> decide
  · cases f <;> decide
  · decide
  · decide

theorem ofName?_eq_some {cs : List Char} {o : Choice} (h : ofName? cs = some o) :
    cs = o.name.toList ∨ cs = ['h'] ∧ o = .help := by
  unfold ofName? at h
  split at h
  · rename_i c
    rw [ofLetter?] at h
    split at h
    · rename_i hc
      cases h
      exact .inr ⟨by rw [hc], rfl⟩
    · cases h
  · have hname := List.find?_some h
    exact .inl (decide_eq_true_iff.1 hname).symm

end Choice

namespace Options

/-! ## Parts of an argument -/

theorem splitValue_of_notMem {name : List Char} (h : '=' ∉ name) :
    splitValue name = (name, none) := by
  induction name with
  | nil => rfl
  | cons c cs ih =>
    rw [List.mem_cons, not_or] at h
    obtain ⟨hc, hcs⟩ := h
    rw [splitValue, if_neg (Ne.symm hc), ih hcs]

theorem splitValue_append {name : List Char} (h : '=' ∉ name) (value : List Char) :
    splitValue (name ++ '=' :: value) = (name, some value) := by
  induction name with
  | nil => rfl
  | cons c cs ih =>
    rw [List.mem_cons, not_or] at h
    obtain ⟨hc, hcs⟩ := h
    rw [List.cons_append, splitValue, if_neg (Ne.symm hc), ih hcs]

theorem eq_of_splitValue (cs : List Char) :
    cs = (splitValue cs).1 ++ ((splitValue cs).2.map ('=' :: ·)).getD [] := by
  induction cs with
  | nil => rfl
  | cons c cs ih =>
    rw [splitValue]
    split
    · rename_i hc
      rw [hc]
      rfl
    · exact congrArg (c :: ·) ih

theorem readLetters_eq_ok_iff {cs : List Char} {gs : List Given} :
    readLetters cs = .ok gs ↔
      ∃ n, cs = List.replicate n 'h' ∧ gs = List.replicate n (.help, none) := by
  induction cs generalizing gs with
  | nil =>
    constructor
    · intro h
      cases h
      exact ⟨0, rfl, rfl⟩
    · rintro ⟨n, hn, rfl⟩
      obtain rfl : n = 0 := by simpa using congrArg List.length hn.symm
      rfl
  | cons c cs ih =>
    simp only [readLetters, Choice.ofLetter?]
    constructor
    · intro h
      split at h
      · cases h
      · rename_i o ho
        obtain ⟨rfl, hhelp⟩ := Option.ite_none_right_eq_some.1 ho
        cases hhelp
        split at h
        · cases h
        · rename_i gs' hgs
          cases h
          obtain ⟨n, rfl, rfl⟩ := ih.1 hgs
          exact ⟨n + 1, rfl, rfl⟩
    · rintro ⟨n, hn, rfl⟩
      cases n with
      | zero => cases hn
      | succ n =>
        obtain ⟨rfl, hcs⟩ := List.cons.inj hn
        simp only [if_true, ih.2 ⟨n, hcs, rfl⟩]
        rfl

/-! ## One argument -/

theorem IsFree.ne_dash {arg : String} (h : IsFree arg) (c : Char) (cs : List Char) :
    arg.toList ≠ '-' :: c :: cs := by
  intro harg
  rcases h with h | rfl
  · exact h (by rw [harg, List.head?_cons])
  · cases harg

theorem dashes_toList {name : String} (h : name.toList ≠ []) (rest : String) :
    ∃ c cs, name.toList = c :: cs ∧
      ("--" ++ name ++ rest).toList = '-' :: '-' :: c :: (cs ++ rest.toList) := by
  obtain ⟨c, cs, hname⟩ := List.exists_cons_of_ne_nil h
  refine ⟨c, cs, hname, ?_⟩
  rw [String.toList_append, String.toList_append, hname]
  rfl

theorem scan_gives {arg : String} {gs : List Given} (h : Gives arg gs) {rest : List String}
    {gs' : List Given} (hrest : scan rest = .ok gs') : scan (arg :: rest) = .ok (gs ++ gs') := by
  cases h with
  | free hfree =>
    rw [scan]
    split
    iterate 3 exact absurd ‹_› (hfree.ne_dash _ _)
    exact hrest
  | @flag o ho =>
    obtain ⟨hne, heq⟩ := o.name_toList
    obtain ⟨c, cs, hname, harg⟩ := dashes_toList hne ""
    have hchoice := o.ofName?_name
    rw [hname] at heq hchoice
    rw [String.append_empty, String.toList_empty, List.append_nil] at harg
    simp only [scan, harg, splitValue_of_notMem heq, hchoice, ho, hrest]
    rfl
  | @attached o value ho =>
    obtain ⟨hne, heq⟩ := o.name_toList
    obtain ⟨c, cs, hname, harg⟩ := dashes_toList hne ("=" ++ value)
    have hchoice := o.ofName?_name
    rw [hname] at heq hchoice
    rw [← String.append_assoc] at harg
    have hsplit : splitValue (c :: (cs ++ ("=" ++ value).toList)) =
        (c :: cs, some value.toList) := by
      rw [String.toList_append]
      exact splitValue_append heq _
    simp only [scan, harg, hsplit, hchoice, ho, hrest, if_true, String.ofList_toList]
    rfl
  | letter =>
    simp only [scan, hrest]
    rfl
  | letters n =>
    have harg : ("-" ++ String.ofList (List.replicate (n + 1) 'h')).toList =
        '-' :: 'h' :: List.replicate n 'h' := by
      simp [List.replicate_succ]
    have hletters : readLetters ('h' :: List.replicate n 'h') =
        .ok (List.replicate (n + 1) (.help, none)) :=
      readLetters_eq_ok_iff.2 ⟨n + 1, rfl, rfl⟩
    rw [scan]
    split
    · rename_i hdashes
      rw [harg] at hdashes
      cases hdashes
    · rename_i hdashes
      rw [harg] at hdashes
      cases hdashes
    · rename_i hdash
      rw [harg] at hdash
      cases hdash
      simp only [hletters, hrest]
    · rename_i hnone
      exact absurd harg (hnone _ _)

theorem scan_detached {o : Choice} (ho : o.takesValue = true) (value : String) {rest : List String}
    {gs : List Given} (hrest : scan rest = .ok gs) :
    scan (("--" ++ o.name) :: value :: rest) = .ok ((o, some value) :: gs) := by
  obtain ⟨hne, heq⟩ := o.name_toList
  obtain ⟨c, cs, hname, harg⟩ := dashes_toList hne ""
  have hchoice := o.ofName?_name
  rw [hname] at heq hchoice
  rw [String.append_empty, String.toList_empty, List.append_nil] at harg
  simp only [scan, harg, splitValue_of_notMem heq, hchoice, ho, hrest, if_true]

theorem eq_of_toList {arg : String} {body name : List Char} {value? : Option (List Char)}
    (harg : arg.toList = '-' :: '-' :: body) (hbody : splitValue body = (name, value?)) :
    arg = "--" ++ String.ofList name ++ ((value?.map fun v => "=" ++ String.ofList v).getD "") := by
  have hcs := eq_of_splitValue body
  rw [hbody] at hcs
  rw [← String.toList_inj, harg, hcs]
  cases value? <;> simp

theorem gives_of_flag {arg : String} {body name : List Char} {o : Choice}
    (harg : arg.toList = '-' :: '-' :: body) (hbody : splitValue body = (name, none))
    (hname : Choice.ofName? name = some o) (ho : o.takesValue = false) :
    Gives arg [(o, none)] := by
  rw [eq_of_toList harg hbody]
  rcases Choice.ofName?_eq_some hname with rfl | ⟨rfl, rfl⟩
  · simpa using Gives.flag ho
  · exact .letter

theorem gives_of_attached {arg : String} {body name value : List Char} {o : Choice}
    (harg : arg.toList = '-' :: '-' :: body) (hbody : splitValue body = (name, some value))
    (hname : Choice.ofName? name = some o) (ho : o.takesValue = true) :
    Gives arg [(o, some (String.ofList value))] := by
  rw [eq_of_toList harg hbody]
  rcases Choice.ofName?_eq_some hname with rfl | ⟨rfl, rfl⟩
  · have hgives : Gives ("--" ++ o.name ++ "=" ++ String.ofList value)
        [(o, some (String.ofList value))] := .attached ho
    simpa [String.append_assoc] using hgives
  · cases ho

theorem eq_of_detached {arg : String} {body name : List Char} {o : Choice}
    (harg : arg.toList = '-' :: '-' :: body) (hbody : splitValue body = (name, none))
    (hname : Choice.ofName? name = some o) (ho : o.takesValue = true) : arg = "--" ++ o.name := by
  rw [eq_of_toList harg hbody]
  rcases Choice.ofName?_eq_some hname with rfl | ⟨rfl, rfl⟩
  · simp
  · cases ho

theorem gives_of_letters {arg : String} {cs : List Char} {gs : List Given} (hcs : cs ≠ [])
    (harg : arg.toList = '-' :: cs) (h : readLetters cs = .ok gs) : Gives arg gs := by
  obtain ⟨n, rfl, rfl⟩ := readLetters_eq_ok_iff.1 h
  cases n with
  | zero => exact absurd rfl hcs
  | succ n =>
    have heq : arg = "-" ++ String.ofList (List.replicate (n + 1) 'h') := by
      rw [← String.toList_inj, harg]
      simp
    rw [heq]
    exact .letters n

theorem isFree_of_ne {arg : String} (h : ∀ c cs, arg.toList ≠ '-' :: c :: cs) : IsFree arg := by
  by_cases hdash : arg.toList.head? = some '-'
  · obtain ⟨cs, hcs⟩ := List.head?_eq_some_iff.1 hdash
    cases cs with
    | nil => exact .inr (String.toList_inj.1 hcs)
    | cons c cs => exact absurd hcs (h c cs)
  · exact .inl hdash

/-! ## A list of arguments -/

theorem reads_of_scan {args : List String} {gs : List Given} (h : scan args = .ok gs) :
    Reads args gs := by
  fun_induction scan args generalizing gs with
  | case1 =>
    cases h
    exact .nil
  | case2 arg rest harg =>
    cases h
    obtain rfl : arg = "--" := String.toList_inj.1 harg
    exact .stop rest
  | case5 arg rest body _ harg name o value hvalue hname ho gs' hrest =>
    rename_i ih
    cases h
    exact .cons (gives_of_attached harg (Prod.ext rfl hvalue) hname ho) (ih hrest)
  | case9 arg body _ harg name o hvalue hname ho value rest gs' hrest =>
    rename_i ih
    cases h
    rw [eq_of_detached harg (Prod.ext rfl hvalue) hname ho]
    exact .detached ho (ih hrest)
  | case11 arg rest body _ harg name o hvalue hname ho gs' hrest =>
    rename_i ih
    cases h
    exact .cons (gives_of_flag harg (Prod.ext rfl hvalue) hname (Bool.eq_false_iff.2 ho)) (ih hrest)
  | case14 arg rest c cs _ _ harg gs' hletters gs'' hrest ih =>
    cases h
    exact .cons (gives_of_letters (List.cons_ne_nil c cs) harg hletters) (ih hrest)
  | case15 arg rest _ _ hne ih => exact .cons (.free (isFree_of_ne hne)) (ih h)
  | _ => cases h

theorem scan_of_reads {args : List String} {gs : List Given} (h : Reads args gs) :
    scan args = .ok gs := by
  induction h with
  | nil => rfl
  | stop rest => rfl
  | cons hgives _ ih => exact scan_gives hgives ih
  | detached ho _ ih => exact scan_detached ho _ ih

/-- The scan finds what the arguments give, and fails if they are not written by the grammar. -/
theorem scan_eq_ok_iff {args : List String} {gs : List Given} :
    scan args = .ok gs ↔ Reads args gs := ⟨reads_of_scan, scan_of_reads⟩

theorem Reads.unique {args : List String} {gs gs' : List Given} (h : Reads args gs)
    (h' : Reads args gs') : gs = gs' :=
  Except.ok.inj ((scan_of_reads h).symm.trans (scan_of_reads h'))

/-! ## The order of arguments -/

theorem eq_of_takesValue {o : Choice} (h : o.takesValue = true) : o = .defaultBigM :=
  decide_eq_true_iff.1 h

/-- Where no argument ends the options and every value is attached, each argument speaks for
itself. -/
theorem reads_iff_forall₂ {args : List String} {gs : List Given} (hstop : "--" ∉ args)
    (hbare : "--default-big-m" ∉ args) :
    Reads args gs ↔ ∃ gss, List.Forall₂ Gives args gss ∧ gs = gss.flatten := by
  constructor
  · intro h
    induction h with
    | nil => exact ⟨[], .nil, rfl⟩
    | stop rest => exact absurd List.mem_cons_self hstop
    | cons hgives _ ih =>
      obtain ⟨gss, hall, rfl⟩ := ih (fun h => hstop (List.mem_cons_of_mem _ h))
        (fun h => hbare (List.mem_cons_of_mem _ h))
      exact ⟨_ :: gss, .cons hgives hall, rfl⟩
    | detached ho _ _ =>
      rw [eq_of_takesValue ho] at hbare
      exact absurd List.mem_cons_self hbare
  · rintro ⟨gss, hall, rfl⟩
    clear hstop hbare
    induction hall with
    | nil => exact .nil
    | cons hgives _ ih => exact .cons hgives ih

/-- Other arguments in another order give the same options in another order. -/
theorem Reads.of_perm {args args' : List String} {gs : List Given} (h : Reads args gs)
    (hperm : args.Perm args') (hstop : "--" ∉ args) (hbare : "--default-big-m" ∉ args) :
    ∃ gs', gs.Perm gs' ∧ Reads args' gs' := by
  obtain ⟨gss, hall, rfl⟩ := (reads_iff_forall₂ hstop hbare).1 h
  obtain ⟨gss', hall', hgss⟩ := List.perm_comp_forall₂ hperm.symm hall
  exact ⟨gss'.flatten, hgss.symm.flatten, (reads_iff_forall₂ (fun h => hstop (hperm.mem_iff.2 h))
    (fun h => hbare (hperm.mem_iff.2 h))).2 ⟨gss', hall', rfl⟩⟩

end Options
end Linearize
