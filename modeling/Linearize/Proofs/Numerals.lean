import Linearize.Solver.Lines
import Mathlib.Data.List.Basic
import Mathlib.Data.Nat.Digits.Defs

/-!
# Linearize.Proofs.Numerals

Numerals are read as what they write: the number of a column, and the value of a decimal numeral
with all its optional parts.
-/

namespace Linearize

def NoDigitNext (cs : List Char) : Prop := ∀ c ∈ cs.head?, c.isDigit = false

namespace Text

variable {ds rest : List Char}

theorem takeWhile_digits (hds : ∀ c ∈ ds, c.isDigit = true) (hrest : NoDigitNext rest) :
    (ds ++ rest).takeWhile Char.isDigit = ds := by
  rw [List.takeWhile_append_of_pos hds]
  cases rest with
  | nil => exact List.append_nil ds
  | cons c cs => rw [List.takeWhile_cons_of_neg (by simp [hrest c rfl]), List.append_nil]

theorem dropWhile_digits (hds : ∀ c ∈ ds, c.isDigit = true) (hrest : NoDigitNext rest) :
    (ds ++ rest).dropWhile Char.isDigit = rest := by
  rw [List.dropWhile_append_of_pos hds]
  cases rest with
  | nil => rfl
  | cons c cs => exact List.dropWhile_cons_of_neg (by simp [hrest c rfl])

theorem digitsValue_eq (acc : Nat) (cs : List Char) :
    digitsValue acc cs = Nat.ofDigitChars 10 cs acc := by
  induction cs generalizing acc with
  | nil => rfl
  | cons c cs ih =>
    rw [Nat.ofDigitChars_cons, Nat.mul_comm]
    exact ih _

theorem toString_digits (n : Nat) : ∀ c ∈ (toString n).toList, c.isDigit = true := by
  intro c hc
  rw [Nat.toString_eq_repr, Nat.toList_repr] at hc
  exact Nat.isDigit_of_mem_toDigits (by decide) (by decide) hc

theorem toString_ne_nil (n : Nat) : (toString n).toList ≠ [] := by
  rw [Nat.toString_eq_repr, Nat.toList_repr]
  exact Nat.toDigits_ne_nil

theorem digits_accepted (hne : ds ≠ []) (hds : ∀ c ∈ ds, c.isDigit = true) :
    (ds.isEmpty || !ds.all Char.isDigit) = false := by
  rw [List.isEmpty_eq_false_iff.2 hne, List.all_eq_true.2 hds]
  rfl

theorem parseNatural?_toString {n : Nat} (h : n < 18446744073709551616) :
    parseNatural? (toString n).toList = some n := by
  have hvalue : digitsValue 0 (toString n).toList = n := by
    rw [digitsValue_eq, Nat.toString_eq_repr, Nat.toList_repr]
    exact Nat.ofDigitChars_toDigits (by decide) (by decide)
  rw [parseNatural?, digits_accepted (toString_ne_nil n) (toString_digits n), hvalue]
  exact if_pos h

theorem toLower_of_isDigit {c : Char} (h : c.isDigit = true) : c.toLower = c := by
  simp only [Char.isDigit, Bool.and_eq_true, decide_eq_true_eq] at h
  delta Char.toLower
  split
  · rename_i hupper
    have hle : c.val.toNat ≤ 57 := h.2
    have hge : 65 ≤ c.val.toNat := hupper.1
    omega
  · rfl

theorem readExponent?_of_isDigit {c : Char} {cs : List Char} (hc : c.isDigit = true) :
    readExponent? (c :: cs) =
      if !(c :: cs).all Char.isDigit then none else some (digitsValue 0 (c :: cs) : Int) := by
  unfold readExponent?
  split
  · rename_i h
    cases h
  · rename_i h
    exact absurd ((List.cons.inj h).1 ▸ hc) (by decide)
  · rename_i h
    exact absurd ((List.cons.inj h).1 ▸ hc) (by decide)
  · rfl

section

variable {whole fraction : List Char} {negative : Bool}

theorem readDecimal?_plain (hne : whole ≠ []) (hwhole : ∀ c ∈ whole, c.isDigit = true)
    (hrest : NoDigitNext rest) (hpoint : rest.head? ≠ some '.') :
    readDecimal? negative (whole ++ rest) =
      (readScale? rest).map fun e => ⟨negative, digitsValue 0 whole, e⟩ := by
  rw [readDecimal?, takeWhile_digits hwhole hrest, dropWhile_digits hwhole hrest,
    List.isEmpty_eq_false_iff.2 hne]
  split
  rename_i fraction rest' hsplit
  split at hsplit
  · exact absurd rfl hpoint
  · cases hsplit
    rw [List.append_nil]
    cases readScale? rest with
    | none => rfl
    | some e => simp

theorem readDecimal?_point (hwhole : ∀ c ∈ whole, c.isDigit = true) (hne : fraction ≠ [])
    (hfraction : ∀ c ∈ fraction, c.isDigit = true) (hrest : NoDigitNext rest) :
    readDecimal? negative (whole ++ '.' :: (fraction ++ rest)) =
      (readScale? rest).map fun e =>
        ⟨negative, digitsValue 0 (whole ++ fraction), e - fraction.length⟩ := by
  have hpoint : NoDigitNext ('.' :: (fraction ++ rest)) := by
    rintro _ ⟨⟩
    rfl
  rw [readDecimal?, takeWhile_digits hwhole hpoint, dropWhile_digits hwhole hpoint]
  simp only [takeWhile_digits hfraction hrest, dropWhile_digits hfraction hrest,
    List.isEmpty_eq_false_iff.2 hne, Bool.and_false, Bool.false_eq_true, if_false]
  cases readScale? rest with
  | none => rfl
  | some e => rfl

end

end Text

/-! ## Decimal numerals -/

def Digits.ofNat (n : Nat) : Digits := ⟨_, Text.toString_ne_nil n, Text.toString_digits n⟩

theorem Digits.exists_cons (d : Digits) : ∃ c cs, d.chars = c :: cs ∧ c.isDigit = true := by
  obtain ⟨c, cs, h⟩ := List.exists_cons_of_ne_nil d.nonempty
  exact ⟨c, cs, h, d.digits c (h ▸ List.mem_cons_self)⟩

theorem Digits.accepted (d : Digits) : (d.chars.isEmpty || !d.chars.all Char.isDigit) = false :=
  Text.digits_accepted d.nonempty d.digits

theorem Exponent.readExponent?_text (e : Exponent) :
    Text.readExponent? (e.sign.text ++ e.digits.chars) = some e.value := by
  have haccepted := e.digits.accepted
  rw [value]
  cases e.sign with
  | plus =>
    change (if (e.digits.chars.isEmpty || !e.digits.chars.all Char.isDigit) = true then none
      else some _) = _
    rw [haccepted]
    rfl
  | minus =>
    change (if (e.digits.chars.isEmpty || !e.digits.chars.all Char.isDigit) = true then none
      else some _) = _
    rw [haccepted]
    rfl
  | absent =>
    obtain ⟨c, cs, hchars, hc⟩ := e.digits.exists_cons
    rw [ExponentSign.text, List.nil_append, hchars, Text.readExponent?_of_isDigit hc, ← hchars,
      List.all_eq_true.2 e.digits.digits]
    rfl

namespace Numeral

variable (n : Numeral)

theorem readScale?_text :
    Text.readScale? n.exponentText = some ((n.exponent.map Exponent.value).getD 0) := by
  rw [exponentText]
  cases n.exponent with
  | none => rfl
  | some e =>
    change (if (if e.upper then 'E' else 'e') = 'e' || (if e.upper then 'E' else 'e') = 'E' then
      Text.readExponent? (e.sign.text ++ e.digits.chars) else none) = _
    rw [if_pos (by cases e.upper <;> rfl), e.readExponent?_text]
    rfl

theorem exponentText_cases : n.exponentText = [] ∨
    ∃ c cs, n.exponentText = c :: cs ∧ (c = 'E' ∨ c = 'e') := by
  rw [exponentText]
  cases n.exponent with
  | none => exact .inl rfl
  | some e => exact .inr ⟨_, _, rfl, by cases e.upper <;> simp⟩

theorem exponentText_noDigitNext : NoDigitNext n.exponentText := by
  intro c hc
  rcases n.exponentText_cases with h | ⟨c', cs, h, hmark⟩
  · rw [h] at hc
    cases hc
  · rw [h] at hc
    cases hc
    rcases hmark with rfl | rfl <;> rfl

theorem readDecimal?_text (negative : Bool) :
    Text.readDecimal? negative n.magnitudeText =
      some ⟨negative, n.decimal.digits, n.decimal.exponent⟩ := by
  rw [magnitudeText, fractionText, decimal, fractionDigits]
  cases n.fraction with
  | none =>
    have hpoint : n.exponentText.head? ≠ some '.' := by
      rcases n.exponentText_cases with h | ⟨c, cs, h, rfl | rfl⟩ <;> rw [h] <;> simp
    rw [List.nil_append, Text.readDecimal?_plain n.whole.nonempty n.whole.digits
      n.exponentText_noDigitNext hpoint, n.readScale?_text]
    simp
  | some f =>
    rw [List.cons_append, Text.readDecimal?_point n.whole.digits f.nonempty f.digits
      n.exponentText_noDigitNext, n.readScale?_text]
    simp

theorem readUnsigned?_text (negative : Bool) :
    Text.readUnsigned? negative n.magnitudeText =
      some (.decimal ⟨negative, n.decimal.digits, n.decimal.exponent⟩) := by
  obtain ⟨c, cs, hchars, hc⟩ := n.whole.exists_cons
  have hhead : n.magnitudeText.map Char.toLower =
      c :: (cs ++ (n.fractionText ++ n.exponentText)).map Char.toLower := by
    rw [magnitudeText, hchars, List.cons_append, List.map_cons, Text.toLower_of_isDigit hc]
  have hword : ∀ (w : String) (x : Char), w.toList.head? = some x → x.isDigit = false →
      n.magnitudeText.map Char.toLower ≠ w.toList := by
    intro w x hw hx h
    rw [hhead] at h
    rw [← h] at hw
    cases hw
    rw [hc] at hx
    cases hx
  have hinf := hword "inf" 'i' (by decide) (by decide)
  have hinfinity := hword "infinity" 'i' (by decide) (by decide)
  have hnan := hword "nan" 'n' (by decide) (by decide)
  rw [Text.readUnsigned?]
  simp only [hinf, hinfinity, hnan, decide_false, Bool.or_false, Bool.false_eq_true, if_false,
    n.readDecimal?_text negative, Option.map_some]

theorem readFloat?_text : Text.readFloat? n.text = some (.decimal n.decimal) := by
  rw [text]
  cases hnegative : n.negative with
  | true =>
    change Text.readUnsigned? true n.magnitudeText = _
    rw [n.readUnsigned?_text, ← hnegative]
    rfl
  | false =>
    obtain ⟨c, cs, hchars, hc⟩ := n.whole.exists_cons
    have hhead : n.magnitudeText = c :: (cs ++ (n.fractionText ++ n.exponentText)) := by
      rw [magnitudeText, hchars, List.cons_append]
    change Text.readFloat? n.magnitudeText = _
    rw [hhead]
    unfold Text.readFloat?
    split
    · rename_i h
      exact absurd ((List.cons.inj h).1 ▸ hc) (by decide)
    · rename_i h
      exact absurd ((List.cons.inj h).1 ▸ hc) (by decide)
    · rw [← hhead, n.readUnsigned?_text, ← hnegative]
      rfl

/-- Every numeral can be read, as the number that is nearest to what it writes. -/
theorem parseFloat?_text : Text.parseFloat? n.text = some n.value := by
  rw [Text.parseFloat?, n.readFloat?_text]
  rfl

end Numeral
end Linearize
