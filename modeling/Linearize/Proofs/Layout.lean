import Linearize.Compile.Layout
import Linearize.Proofs.Incremental

/-!
# Linearize.Proofs.Layout

The layout of a text says nothing. Lines that are laid out lead to what they lead to without their
layout, and an error moves with its line.
-/

namespace Linearize

/-! ## Lines of a stream -/

/-- Only a line feed has the byte of a line feed. -/
theorem eq_feed_of_mem_utf8EncodeChar {c : Char} (h : 10 ∈ String.utf8EncodeChar c) : c = '\n' := by
  have hbyte : ∀ n : Nat, (10 : UInt8) = UInt8.ofNat n → n % 256 = 10 := by
    intro n hn
    simpa [eq_comm] using congrArg UInt8.toNat hn
  simp only [String.utf8EncodeChar] at h
  split at h
  · have hval := hbyte _ (List.mem_singleton.1 h)
    exact Char.ext (UInt32.toNat_inj.1 (by change c.val.toNat = 10; omega))
  -- The bytes of a longer encoding are 128 or more.
  · split at h
    · simp only [List.mem_cons, List.not_mem_nil, or_false] at h
      rcases h with h | h <;> have := hbyte _ h <;> omega
    · split at h
      · simp only [List.mem_cons, List.not_mem_nil, or_false] at h
        rcases h with h | h | h <;> have := hbyte _ h <;> omega
      · simp only [List.mem_cons, List.not_mem_nil, or_false] at h
        rcases h with h | h | h | h <;> have := hbyte _ h <;> omega

theorem feed_notMem_flatMap {cs : List Char} (h : '\n' ∉ cs) :
    10 ∉ cs.flatMap String.utf8EncodeChar := by
  rw [List.mem_flatMap]
  rintro ⟨c, hc, hbyte⟩
  exact h (eq_feed_of_mem_utf8EncodeChar hbyte ▸ hc)

theorem fromUTF8?_flatMap (s : String) :
    String.fromUTF8? ⟨(s.toList.flatMap String.utf8EncodeChar).toArray⟩ = some s := by
  have hbytes : (⟨(s.toList.flatMap String.utf8EncodeChar).toArray⟩ : ByteArray) =
      s.toByteArray := by
    rw [← String.utf8Encode_toList, List.utf8Encode]
    exact ByteArray.ext (List.data_toByteArray).symm
  rw [hbytes, String.fromUTF8?, dif_pos s.isValidUTF8]
  rfl

section

variable {bytes : List UInt8}

theorem byteLines_feed (h : 10 ∉ bytes) (line rest : List UInt8) :
    byteLines line (bytes ++ 10 :: rest) = (line.reverse ++ bytes) :: byteLines [] rest := by
  induction bytes generalizing line with
  | nil => simp [byteLines]
  | cons b bytes ih =>
    rw [List.mem_cons, not_or] at h
    rw [List.cons_append, byteLines, if_neg (Ne.symm h.1), ih h.2]
    simp

theorem byteLines_last (h : 10 ∉ bytes) (line : List UInt8) :
    byteLines line bytes =
      if (line.reverse ++ bytes).isEmpty then [] else [line.reverse ++ bytes] := by
  induction bytes generalizing line with
  | nil => simp [byteLines]
  | cons b bytes ih =>
    rw [List.mem_cons, not_or] at h
    rw [byteLines, if_neg (Ne.symm h.1), ih h.2]
    simp

end

theorem textLines_textBytes {lines : List String} {last : String}
    (hlines : ∀ line ∈ lines, '\n' ∉ line.toList) (hlast : '\n' ∉ last.toList) :
    textLines (textBytes lines last) =
      lines.map some ++ if last.isEmpty then [] else [some last] := by
  induction lines with
  | nil =>
    rw [textLines, textBytes, List.flatMap_nil, List.nil_append,
      byteLines_last (feed_notMem_flatMap hlast), List.reverse_nil, List.nil_append]
    by_cases h : last = ""
    · subst h
      rfl
    · have hchars : last.toList ≠ [] := fun hnil => h (String.toList_eq_nil_iff.1 hnil)
      have hbytes : (last.toList.flatMap String.utf8EncodeChar).isEmpty = false := by
        obtain ⟨c, cs, hcs⟩ := List.exists_cons_of_ne_nil hchars
        rw [List.isEmpty_eq_false_iff, hcs, List.flatMap_cons]
        exact List.append_ne_nil_of_left_ne_nil String.utf8EncodeChar_ne_nil _
      simp [hbytes, h, fromUTF8?_flatMap]
  | cons line lines ih =>
    obtain ⟨hline, hlines⟩ := List.forall_mem_cons.1 hlines
    have hread := ih hlines
    rw [textLines] at hread ⊢
    rw [textBytes, List.flatMap_cons, List.append_assoc, List.append_assoc, List.singleton_append,
      byteLines_feed (feed_notMem_flatMap hline), List.map_cons, ← textBytes, hread]
    simp [fromUTF8?_flatMap]

/-! ## Lines that are laid out -/

theorem Text.trim_blanks {left line right : List Char} (hleft : ∀ c ∈ left, isBlank c = true)
    (hright : ∀ c ∈ right, isBlank c = true) : trim (left ++ line ++ right) = trim line := by
  have hreverse : ∀ c ∈ right.reverse, isBlank c = true :=
    fun c hc => hright c (List.mem_reverse.1 hc)
  rw [trim, trim, List.append_assoc, List.dropWhile_append_of_pos hleft, List.dropWhile_append]
  split
  · rename_i hempty
    rw [List.isEmpty_iff.1 hempty, List.dropWhile_eq_nil_iff.2 hright]
  · rw [List.reverse_append, List.dropWhile_append_of_pos hreverse]

namespace Compilation

variable {c : Compilation} {M : Int} {n : Nat}

theorem addLine_silent (l : SilentLine) : c.addLine M l.text.toList = .ok c := by
  have hsilent : isSilent (Text.trim l.text.toList) = true := by
    rcases l.silent with h | h
    · rw [h]
      rfl
    · obtain ⟨cs, hcs⟩ := List.head?_eq_some_iff.1 h
      rw [hcs]
      rfl
  simp [addLine, hsilent]

theorem addLine_spaced (l : LaidLine) :
    c.addLine M l.spaced.toList = c.addLine M l.text.toList := by
  have htrim : Text.trim l.spaced.toList = Text.trim l.text.toList := by
    rw [LaidLine.spaced, String.toList_append, String.toList_append]
    exact Text.trim_blanks (fun x hx => (l.left.blank x hx).1) fun x hx => (l.right.blank x hx).1
  rw [addLine, addLine, htrim]

theorem addLines_silent (silents : List SilentLine) (rest : List (Option String)) :
    addLines M n c (silents.map (some ∘ SilentLine.text) ++ rest) =
      addLines M (n + silents.length) c rest := by
  induction silents generalizing n with
  | nil => rfl
  | cons l silents ih =>
    rw [List.map_cons, List.cons_append, Function.comp_apply, addLines, addLine_silent]
    simp only [ih, List.length_cons, Nat.add_assoc, Nat.add_comm 1]

theorem number_of_addLines {lines : List String} {N : Nat} {cause : LineError}
    (h : addLines M n c (lines.map some) = .error (.atLine N cause)) :
    n < N ∧ N ≤ n + lines.length := by
  obtain ⟨before, line, after, -, rfl, -, -, hof⟩ := addLines_eq_atLine_iff.1 h
  obtain ⟨rfl, -⟩ := ofLine_eq_atLine_iff.1 hof
  rw [List.length_append, List.length_cons]
  omega

theorem addLines_ne_notText {lines : List String} :
    addLines M n c (lines.map some) ≠ .error .notText := by
  induction lines generalizing n c with
  | nil =>
    intro h
    cases h
  | cons line rest ih =>
    rw [List.map_cons, addLines]
    split
    · rename_i e _
      intro h
      unfold CompileError.ofLine at h
      split at h <;> cases h
    · exact ih

end Compilation

namespace Layout

open Compilation

variable {c : Compilation} {M : Int}

theorem above_cons (x : LaidLine) (xs : List LaidLine) (below : List SilentLine) (n : Nat) :
    above ⟨x :: xs, below⟩ (n + 1) = x.above.length + above ⟨xs, below⟩ n := by
  simp [above]

/-- An error of lines behind `n` others, which are `n + k` lines when they are laid out. -/
def moveFrom (l : Layout) (n k : Nat) : CompileError → CompileError
  | .atLine N e => .atLine (N + k + l.above (N - n)) e
  | e => e

theorem moveFrom_ofLine (l : Layout) (n k : Nat) (e : LineError) :
    l.moveFrom n k (.ofLine (n + 1) e) = .ofLine (n + k + l.above 1 + 1) e := by
  unfold CompileError.ofLine
  split
  · rfl
  · rfl
  · simp only [moveFrom, Nat.add_sub_cancel_left]
    congr 1
    omega

/-- By induction on the lines. The first line has the silent lines above it behind it when the
others are reached. -/
theorem addLines_written (l : Layout) (n k : Nat) :
    addLines M (n + k) c (l.written.map some) =
      (addLines M n c (l.plain.map some)).mapError (l.moveFrom n k) := by
  obtain ⟨lines, below⟩ := l
  induction lines generalizing c n k with
  | nil =>
    have hsilent := addLines_silent (M := M) (n := n + k) (c := c) below []
    rw [List.append_nil] at hsilent
    have hwritten : (written ⟨[], below⟩).map some = below.map (some ∘ SilentLine.text) := by
      simp [written]
    rw [hwritten, hsilent]
    rfl
  | cons x xs ih =>
    have hwritten : (written ⟨x :: xs, below⟩).map some =
        x.above.map (some ∘ SilentLine.text) ++
          some x.spaced :: (written ⟨xs, below⟩).map some := by
      simp [written, LaidLine.written]
    have hplain : (plain ⟨x :: xs, below⟩).map some =
        some x.text :: (plain ⟨xs, below⟩).map some := rfl
    rw [hwritten, hplain, addLines_silent, addLines, addLines, addLine_spaced]
    cases c.addLine M x.text.toList with
    | error e =>
      have habove : above ⟨x :: xs, below⟩ 1 = x.above.length := above_cons x xs below 0
      simp only [Except.mapError, moveFrom_ofLine, habove]
    | ok c' =>
      have hnumber : n + k + x.above.length + 1 = n + 1 + (k + x.above.length) := by omega
      simp only [hnumber, ih]
      cases hrest : addLines M (n + 1) c' ((plain ⟨xs, below⟩).map some) with
      | ok c'' => rfl
      | error e =>
        cases e with
        | atLine N cause =>
          obtain ⟨hlt, -⟩ := number_of_addLines hrest
          obtain ⟨d, rfl⟩ := Nat.exists_eq_add_of_lt hlt
          have hfirst : n + 1 + d + 1 - n = d + 1 + 1 := by omega
          have hlater : n + 1 + d + 1 - (n + 1) = d + 1 := by omega
          simp only [Except.mapError, moveFrom, hfirst, hlater, above_cons]
          congr 2
          omega
        | notText => rfl
        | overflow => rfl

theorem moveFrom_zero (l : Layout) : l.moveFrom 0 0 = l.move := by
  funext e
  cases e <;> rfl

theorem above_eq_zero {l : Layout} (h : ∀ x ∈ l.lines, x.above = []) (n : Nat) :
    l.above n = 0 := by
  rw [above, List.length_eq_zero_iff, List.flatMap_eq_nil_iff]
  exact fun x hx => h x (List.mem_of_mem_take hx)

end Layout

/-! ## Texts that are laid out -/

theorem compileLines_written (s : Settings) (l : Layout) :
    compileLines s (l.written.map some) = (compileLines s (l.plain.map some)).mapError l.move := by
  have hlines := l.addLines_written (c := .empty) (M := s.defaultBigM) 0 0
  rw [Nat.add_zero, l.moveFrom_zero] at hlines
  rw [compileLines, compileLines, hlines]
  cases Compilation.addLines s.defaultBigM 0 .empty (l.plain.map some) with
  | error e => rfl
  | ok c =>
    simp only [Except.mapError]
    cases c.listing s <;> rfl

theorem compileLines_eq_error {s : Settings} {lines : List (Option String)} {e : CompileError}
    (h : compileLines s lines = .error e) :
    Compilation.addLines s.defaultBigM 0 .empty lines = .error e ∨ e = .overflow := by
  simp only [compileLines] at h
  split at h
  · cases h
    exact .inl ‹_›
  · split at h
    · cases h
      exact .inr rfl
    · cases h

/-- A text leads to the same listing or error however it is laid out. An error moves by the number
of silent lines above its line, and white space around the lines moves nothing. -/
theorem layout_exact (s : Settings) (l : Layout) (input input' : List UInt8)
    (hplain : textLines input = l.plain.map some)
    (hwritten : textLines input' = l.written.map some) :
    compile s input' = (compile s input).mapError l.move ∧
      compile s input ≠ .error .notText ∧
      (∀ n e, compile s input = .error (.atLine n e) → 1 ≤ n ∧ n ≤ l.plain.length) ∧
      ((∀ x ∈ l.lines, x.above = []) → compile s input' = compile s input) := by
  rw [compile, compile, hplain, hwritten, compileLines_written]
  refine ⟨rfl, ?_, ?_, ?_⟩
  · intro h
    rcases compileLines_eq_error h with h | h
    · exact Compilation.addLines_ne_notText h
    · cases h
  · intro n e h
    rcases compileLines_eq_error h with h | h
    · have hnumber := Compilation.number_of_addLines h
      omega
    · cases h
  · intro h
    have hmove : l.move = id := by
      funext e
      cases e with
      | atLine n e => rw [Layout.move, Layout.above_eq_zero h n]; rfl
      | notText => rfl
      | overflow => rfl
    rw [hmove]
    cases compileLines s (l.plain.map some) <;> rfl

def noBlanks : Blanks := ⟨"", by simp⟩

/-- The name is declared twice, behind comments, a line of an ideographic space and one that is
empty without its layout as well. -/
def repeatedName : Layout where
  lines := [
    ⟨[⟨"; names", by decide +kernel⟩, ⟨" \u3000", by decide +kernel⟩], ⟨"\t", by simp; decide⟩,
      "(bin a)", ⟨"\u00a0\r", by simp; decide⟩⟩,
    ⟨[], noBlanks, "", ⟨"\u2028", by simp; decide⟩⟩,
    ⟨[⟨"\x0b ;(bin b)", by decide +kernel⟩], noBlanks, "(bin a)", noBlanks⟩]
  below := [⟨";", by decide +kernel⟩]

def repeatedNameInput : List UInt8 := textBytes ["(bin a)", ""] "(bin a)"

def repeatedNameLaidOut : List UInt8 := textBytes repeatedName.written ""

theorem repeatedName_layout_exact :
    compile .default repeatedNameInput = .error (.atLine 3 (.read (.duplicateVariable "a"))) ∧
      repeatedName.above 3 = 3 ∧
      compile .default repeatedNameLaidOut =
        .error (.atLine 6 (.read (.duplicateVariable "a"))) := by
  have hinput : compile .default repeatedNameInput =
      .error (.atLine 3 (.read (.duplicateVariable "a"))) := by decide +kernel
  have hplain : textLines repeatedNameInput = repeatedName.plain.map some :=
    textLines_textBytes (by decide) (by decide)
  have hwritten : textLines repeatedNameLaidOut = repeatedName.written.map some :=
    textLines_textBytes (by decide +kernel) (by decide)
  obtain ⟨hmove, -⟩ := layout_exact .default repeatedName repeatedNameInput repeatedNameLaidOut
    hplain hwritten
  rw [hinput] at hmove
  exact ⟨hinput, by decide, hmove⟩

end Linearize
