import Mathlib.Data.Nat.Bitwise
import Mathlib.Tactic.Ring
import Linearize.Encode.Difference

/-!
# Linearize.Proofs.Words

Words and lists of bits. Setting bits one after the other makes the word of the number that the
bits stand for, if 64 bits are enough for it; reading a word gives the bits of its number, cut off
at the width. So each of the two undoes the other at every width.
-/

namespace Linearize

/-! ## The number of a list of bits -/

theorem toNat_lt (bits : List Bool) : Bits.toNat bits < 2 ^ bits.length := by
  induction bits with
  | nil => decide
  | cons b bits ih =>
    simp only [Bits.toNat, List.length_cons, Nat.pow_succ]
    cases b <;> simp <;> omega

theorem toNat_eq_zero_iff (bits : List Bool) : Bits.toNat bits = 0 ↔ bits.any id = false := by
  induction bits with
  | nil => decide
  | cons b bits ih =>
    simp only [Bits.toNat, List.any_cons, Bool.or_eq_false_iff, ← ih, id_eq]
    cases b <;> simp

theorem toNat_inj {xs ys : List Bool} (hlen : xs.length = ys.length)
    (h : Bits.toNat xs = Bits.toNat ys) : xs = ys := by
  induction xs generalizing ys with
  | nil => exact (List.length_eq_zero_iff.1 hlen.symm).symm
  | cons x xs ih =>
    obtain ⟨y, ys, rfl⟩ := List.exists_cons_of_length_eq_add_one hlen.symm
    simp only [Bits.toNat] at h
    have hxy : x = y := by cases x <;> cases y <;> simp at h ⊢ <;> omega
    rw [hxy, ih (Nat.succ.inj hlen) (by rw [hxy] at h; omega)]

theorem toNat_zipWith_xor (xs ys : List Bool) (hlen : xs.length = ys.length) :
    Bits.toNat (List.zipWith xor xs ys) = Bits.toNat xs ^^^ Bits.toNat ys := by
  induction xs generalizing ys with
  | nil =>
    obtain rfl := List.length_eq_zero_iff.1 hlen.symm
    rfl
  | cons x xs ih =>
    obtain ⟨y, ys, rfl⟩ := List.exists_cons_of_length_eq_add_one hlen.symm
    have hbit : ∀ (b : Bool) (n : Nat), b.toNat + 2 * n = Nat.bit b n := fun b n => by
      cases b <;> simp [Nat.bit]; omega
    simp only [List.zipWith_cons_cons, Bits.toNat, ih ys (Nat.succ.inj hlen), hbit, Nat.xor_bit]

namespace Bits

theorem toNat_append (xs ys : List Bool) :
    toNat (xs ++ ys) = toNat xs + 2 ^ xs.length * toNat ys := by
  induction xs with
  | nil => simp [toNat]
  | cons x xs ih =>
    rw [List.cons_append, toNat, ih, toNat, List.length_cons, Nat.pow_succ]
    ring

theorem toNat_lt_of_clear {bits : List Bool} {k : Nat}
    (h : ∀ i, k ≤ i → bits[i]? ≠ some true) : toNat bits < 2 ^ k := by
  have hclear : toNat (bits.drop k) = 0 := by
    rw [toNat_eq_zero_iff, List.any_eq_false]
    intro b hb hset
    obtain ⟨i, hi⟩ := List.mem_iff_getElem?.1 hb
    rw [List.getElem?_drop, show b = true from hset] at hi
    exact h (k + i) (Nat.le_add_right k i) hi
  calc toNat bits = toNat (bits.take k ++ bits.drop k) := by rw [List.take_append_drop]
    _ = toNat (bits.take k) := by rw [toNat_append, hclear, Nat.mul_zero, Nat.add_zero]
    _ < 2 ^ (bits.take k).length := toNat_lt _
    _ ≤ 2 ^ k := Nat.pow_le_pow_right (by decide) (List.length_take_le k bits)

/-! ## Reading -/

theorem toNat_ofNat_position {i : Nat} (hi : i < 64) : (UInt64.ofNat i).toNat = i :=
  UInt64.toNat_ofNat_of_lt' (Nat.lt_trans hi (by decide))

theorem bitOf_eq (x : UInt64) (i : Nat) : bitOf x i = x.toNat.testBit i := by
  by_cases hi : i < 64
  · have hshift : (x >>> UInt64.ofNat i &&& 1).toNat = x.toNat / 2 ^ i % 2 := by
      rw [UInt64.toNat_and, UInt64.toNat_shiftRight, toNat_ofNat_position hi, Nat.mod_eq_of_lt hi,
        Nat.shiftRight_eq_div_pow]
      exact Nat.and_one_is_mod _
    rw [bitOf, decide_eq_true hi, Bool.true_and, Nat.testBit_eq_decide_div_mod_eq, ← hshift,
      Bool.eq_iff_iff, beq_iff_eq, decide_eq_true_iff, ← UInt64.toNat_inj]
    rfl
  · have hx : x.toNat < 2 ^ i :=
      Nat.lt_of_lt_of_le x.toNat_lt (Nat.pow_le_pow_right (by decide) (by omega))
    rw [bitOf, decide_eq_false hi, Bool.false_and, Nat.testBit_lt_two_pow hx]

theorem toNat_map_testBit (n width : Nat) :
    toNat ((List.range width).map n.testBit) = n % 2 ^ width := by
  induction width generalizing n with
  | zero => simp [toNat, Nat.mod_one]
  | succ width ih =>
    have hhead : (n.testBit 0).toNat = n % 2 := by
      rcases Nat.mod_two_eq_zero_or_one n with h | h <;> simp [Nat.testBit_zero, h]
    have htail : (List.range width).map (n.testBit ∘ Nat.succ) =
        (List.range width).map (n / 2).testBit := by
      refine List.map_congr_left fun i _ => ?_
      exact Nat.testBit_succ n i
    rw [List.range_succ_eq_map, List.map_cons, List.map_map, toNat, htail, ih, hhead,
      Nat.pow_succ', Nat.mod_mul]

theorem toNat_ofWord (x : UInt64) (width : Nat) : toNat (ofWord x width) = x.toNat % 2 ^ width := by
  rw [ofWord, funext (bitOf_eq x), toNat_map_testBit]

theorem length_ofWord (x : UInt64) (width : Nat) : (ofWord x width).length = width := by
  rw [ofWord, List.length_map, List.length_range]

/-! ## Setting -/

theorem single?_eq_some_iff {i : Nat} {b : UInt64} :
    single? i = some b ↔ i < 64 ∧ b.toNat = 2 ^ i := by
  have hshift : i < 64 → (1 <<< UInt64.ofNat i : UInt64).toNat = 2 ^ i := by
    intro hi
    have hpow : 2 ^ i < 2 ^ 64 := Nat.pow_lt_pow_right (by decide) hi
    rw [UInt64.toNat_shiftLeft, toNat_ofNat_position hi, Nat.mod_eq_of_lt hi, UInt64.toNat_one,
      Nat.one_shiftLeft, Nat.mod_eq_of_lt hpow]
  rw [single?]
  split
  · rename_i hi
    rw [Option.some.injEq, ← UInt64.toNat_inj, hshift hi]
    exact ⟨fun h => ⟨hi, h.symm⟩, fun h => h.2.symm⟩
  · rename_i hi
    exact ⟨nofun, fun h => absurd h.1 hi⟩

/-- The bits set from position `i` on stand for their number times `2 ^ i`. There is no word if that
has more than 64 bits. -/
theorem setFrom_eq_some_iff {i : Nat} {x y : UInt64} {bits : List Bool} :
    setFrom i x bits = some y ↔ y.toNat = x.toNat ||| 2 ^ i * toNat bits := by
  induction bits generalizing i x with
  | nil =>
    rw [setFrom, toNat, Nat.mul_zero, Nat.or_zero, Option.some.injEq, eq_comm, UInt64.toNat_inj]
  | cons b bits ih =>
    have hstep : 2 ^ (i + 1) * toNat bits = 2 ^ i * (2 * toNat bits) := by ring
    cases b with
    | false => rw [setFrom, ih, toNat, Bool.toNat_false, Nat.zero_add, hstep]
    | true =>
      -- the bit at `i` and the later ones do not overlap
      have hset : 2 ^ i * toNat (true :: bits) = 2 ^ i ||| 2 ^ (i + 1) * toNat bits := by
        rw [toNat, Bool.toNat_true, Nat.or_comm, ← Nat.two_pow_add_eq_or_of_lt
          (Nat.pow_lt_pow_right (by decide) (Nat.lt_succ_self i)), hstep]
        ring
      rw [hset, setFrom]
      cases hb : single? i with
      | some b =>
        obtain ⟨-, hb⟩ := single?_eq_some_iff.1 hb
        simp only [ih, UInt64.toNat_or, hb, Nat.or_assoc]
      | none =>
        have hi : 64 ≤ i := by
          by_contra hi
          have hlt : 2 ^ i < 2 ^ 64 := Nat.pow_lt_pow_right (by decide) (by omega)
          have hnew := single?_eq_some_iff (i := i) (b := UInt64.ofNat (2 ^ i))
          rw [hb, UInt64.toNat_ofNat', Nat.mod_eq_of_lt hlt] at hnew
          cases hnew.2 ⟨by omega, rfl⟩
        -- the number has the bit at `i`, and a word has not
        refine ⟨nofun, fun h => ?_⟩
        have hle : 2 ^ i ≤ y.toNat := by
          rw [h]
          exact Nat.le_trans Nat.left_le_or Nat.right_le_or
        have hpow : 2 ^ 64 ≤ 2 ^ i := Nat.pow_le_pow_right (by decide) hi
        have hy := y.toNat_lt
        omega

theorem toWord?_eq_some_iff {bits : List Bool} {x : UInt64} :
    toWord? bits = some x ↔ x.toNat = toNat bits := by
  rw [toWord?, setFrom_eq_some_iff, UInt64.toNat_zero, Nat.zero_or, Nat.pow_zero, Nat.one_mul]

theorem exists_toWord? {bits : List Bool} (h : toNat bits < 2 ^ 64) : ∃ x, toWord? bits = some x :=
  ⟨UInt64.ofNat (toNat bits), toWord?_eq_some_iff.2 (by
    rw [UInt64.toNat_ofNat', Nat.mod_eq_of_lt h])⟩

/-! ## There and back -/

/-- Reading and setting undo each other at every width. The bits of a word have the width as their
length and make the word again, cut off at the width; and bits that are 0 past the 64th make a word
that has these bits. -/
theorem words_exact (x : UInt64) (width : Nat) (bits : List Bool) :
    (ofWord x width).length = width ∧
      (∃ y, toWord? (ofWord x width) = some y ∧ y.toNat = x.toNat % 2 ^ min width 64) ∧
      ((∀ i, 64 ≤ i → bits[i]? ≠ some true) →
        ∃ y, toWord? bits = some y ∧ ofWord y bits.length = bits) := by
  refine ⟨length_ofWord x width, ?_, ?_⟩
  · have hcut : x.toNat % 2 ^ width = x.toNat % 2 ^ min width 64 := by
      rcases Nat.le_total width 64 with hw | hw
      · rw [Nat.min_eq_left hw]
      · have hx : x.toNat < 2 ^ width :=
          Nat.lt_of_lt_of_le x.toNat_lt (Nat.pow_le_pow_right (by decide) hw)
        rw [Nat.min_eq_right hw, Nat.mod_eq_of_lt hx, Nat.mod_eq_of_lt x.toNat_lt]
    have hlt : toNat (ofWord x width) < 2 ^ 64 := by
      rw [toNat_ofWord]
      exact Nat.lt_of_le_of_lt (Nat.mod_le _ _) x.toNat_lt
    obtain ⟨y, hy⟩ := exists_toWord? hlt
    refine ⟨y, hy, ?_⟩
    rw [toWord?_eq_some_iff.1 hy, toNat_ofWord, hcut]
  · intro hclear
    obtain ⟨y, hy⟩ := exists_toWord? (toNat_lt_of_clear hclear)
    refine ⟨y, hy, toNat_inj (length_ofWord y _) ?_⟩
    rw [toNat_ofWord, toWord?_eq_some_iff.1 hy, Nat.mod_eq_of_lt (toNat_lt bits)]

def fullWord : UInt64 := 0xFFFFFFFFFFFFFFFF

/-- The 64th bit is set, and two positions behind it are not. -/
def highBits : List Bool := List.replicate 63 false ++ [true, false, false]

theorem highBits_exact :
    (ofWord fullWord 70).length = 70 ∧
      (∃ y, toWord? (ofWord fullWord 70) = some y ∧ y.toNat = fullWord.toNat % 2 ^ min 70 64) ∧
      ((∀ i, 64 ≤ i → highBits[i]? ≠ some true) ∧
        ∃ y, toWord? highBits = some y ∧ ofWord y highBits.length = highBits) := by
  have hclear : ∀ i, 64 ≤ i → highBits[i]? ≠ some true := by
    intro i hi hset
    obtain ⟨hlt, hbit⟩ := List.getElem?_eq_some_iff.1 hset
    have hlength : i < 66 := hlt
    obtain rfl | rfl : i = 64 ∨ i = 65 := by omega
    · cases hbit
    · cases hbit
  obtain ⟨hlength, hread, hset⟩ := words_exact fullWord 70 highBits
  exact ⟨hlength, hread, hclear, hset hclear⟩

end Bits
end Linearize
