import Linearize.Proofs.Covers
import Linearize.Proofs.Words

/-!
# Linearize.Proofs.Differences

The covers of the two relations of truncated differences admit exactly the related triples. The
bitwise cover is decided over its 64 points. The wordwise one has 2^30 points, so it is taken apart:
some of its patterns are about the classes and about whether a value is 0, and all others are the
same ten patterns at each of the eight places of the values.
-/

namespace Linearize

variable {σ : Var → Int}

/-- Reading a pattern off its characters, without decoding a string. -/
theorem ofText_ofList (cs : List Char) :
    Pattern.ofText (String.ofList cs) = cs.map Ternary.ofChar := by
  simp only [Pattern.ofText, String.toList_ofList]

theorem relationRows_eq_ok {width : Nat} {cover : List Pattern} {a b c : List Var}
    {rows : List Constraint} (h : relationRows width cover a b c = .ok rows) :
    a.length = width ∧ b.length = width ∧ c.length = width ∧
      coverRows (a ++ b ++ c) cover = some rows := by
  simp only [relationRows, checkWidth] at h
  split at h
  · cases h
  · rename_i h₁
    split at h
    · cases h
    · rename_i h₂
      split at h
      · cases h
      · rename_i h₃
        exact ⟨of_not_not fun hn => by simp [hn] at h₁, of_not_not fun hn => by simp [hn] at h₂,
          of_not_not fun hn => by simp [hn] at h₃, orOverflow_eq_ok_iff.1 h⟩

theorem relationRows_of_coverRows {width : Nat} {cover : List Pattern} {a b c : List Var}
    {rows : List Constraint} (ha : a.length = width) (hb : b.length = width)
    (hc : c.length = width) (h : coverRows (a ++ b ++ c) cover = some rows) :
    relationRows width cover a b c = .ok rows := by
  simp only [relationRows, checkWidth, ha, hb, hc, if_true, h]
  rfl

/-! ## Bits -/

theorem bitsRelated_iff (a b c : List Bool) :
    Statement.BitsRelated a b c ↔
      (BitDifference.ofBits? a).any (fun x => (BitDifference.ofBits? b).any fun y =>
        BitDifference.ofBits? c = some (x.xor y)) = true := by
  simp only [Statement.BitsRelated, Option.any_eq_true, decide_eq_true_eq]
  exact ⟨fun ⟨x, y, hx, hy, hz⟩ => ⟨x, hx, y, hy, hz⟩, fun ⟨x, hx, y, hy, hz⟩ => ⟨x, y, hx, hy, hz⟩⟩

theorem bitCover_admits (a₀ a₁ b₀ b₁ c₀ c₁ : Bool) :
    coverAdmits bitCover [a₀, a₁, b₀, b₁, c₀, c₁] = true ↔
      Statement.BitsRelated [a₀, a₁] [b₀, b₁] [c₀, c₁] := by
  rw [bitsRelated_iff]
  simp only [bitCover, List.map_cons, List.map_nil]
  iterate 10 rw [ofText_ofList]
  revert a₀ a₁ b₀ b₁ c₀ c₁
  decide +kernel

theorem truncatedRows_hold {a b c : List Var} {rows : List Constraint}
    (h : truncatedRows a b c = .ok rows) (hvs : ∀ v ∈ a ++ b ++ c, IsBit (σ v)) :
    AllHold σ rows ↔ Statement.BitsRelated (bitsAt σ a) (bitsAt σ b) (bitsAt σ c) := by
  obtain ⟨ha, hb, hc, hrows⟩ := relationRows_eq_ok h
  rw [coverRows_hold hrows hvs]
  obtain ⟨a₀, a₁, rfl⟩ := List.length_eq_two.1 ha
  obtain ⟨b₀, b₁, rfl⟩ := List.length_eq_two.1 hb
  obtain ⟨c₀, c₁, rfl⟩ := List.length_eq_two.1 hc
  exact bitCover_admits _ _ _ _ _ _

/-! ## Values of words -/

def wordValue (v : List Bool) : UInt8 := UInt8.ofNat (Bits.toNat v.reverse)

theorem wordValue_toNat {v : List Bool} (hv : v.length = 8) :
    (wordValue v).toNat = Bits.toNat v.reverse := by
  have hlt := toNat_lt v.reverse
  rw [List.length_reverse, hv] at hlt
  rw [wordValue, UInt8.toNat_ofNat']
  exact Nat.mod_eq_of_lt hlt

theorem wordValue_eq_zero_iff {v : List Bool} (hv : v.length = 8) :
    wordValue v = 0 ↔ v.any id = false := by
  rw [← UInt8.toNat_inj, wordValue_toNat hv, UInt8.toNat_zero, toNat_eq_zero_iff,
    List.any_reverse]

theorem toWord?_wordValue {v : List Bool} (hv : v.length = 8) :
    ∃ word, Bits.toWord? v.reverse = some word ∧ word.toUInt8 = wordValue v := by
  have hlt := toNat_lt v.reverse
  rw [List.length_reverse, hv] at hlt
  obtain ⟨word, hword⟩ := Bits.exists_toWord? (Nat.lt_trans hlt (by decide))
  refine ⟨word, hword, UInt8.toNat_inj.1 ?_⟩
  rw [UInt64.toNat_toUInt8, Bits.toWord?_eq_some_iff.1 hword, wordValue_toNat hv]
  exact Nat.mod_eq_of_lt hlt

theorem wordValue_xor_iff {u v w : List Bool} (hu : u.length = 8) (hv : v.length = 8)
    (hw : w.length = 8) :
    wordValue w = wordValue u ^^^ wordValue v ↔ w = List.zipWith xor u v := by
  have hlen : u.reverse.length = v.reverse.length := by simp [hu, hv]
  rw [← UInt8.toNat_inj, UInt8.toNat_xor, wordValue_toNat hu, wordValue_toNat hv,
    wordValue_toNat hw, ← toNat_zipWith_xor _ _ hlen, ← List.reverse_zipWith (by omega)]
  constructor
  · intro h
    exact List.reverse_injective (toNat_inj (by simp [hu, hv, hw]) h)
  · rintro rfl
    rfl

def classNumber (k₀ k₁ : Bool) : Nat := 2 * k₀.toNat + k₁.toNat

/-- Reading a word: its class is given by the first two bits, and the value differs from 0 exactly
in class 1. -/
theorem wordOfBits?_eq_some_iff {k₀ k₁ : Bool} {v : List Bool} (hv : v.length = 8)
    {d : WordDifference} :
    WordDifference.ofBits? (k₀ :: k₁ :: v) = some d ↔
      (v.any id = (!k₀ && k₁)) ∧ d.classOf = classNumber k₀ k₁ ∧ d.value = wordValue v := by
  have hzero := wordValue_eq_zero_iff hv
  obtain ⟨word, hword, hvalue⟩ := toWord?_wordValue hv
  simp only [WordDifference.ofBits?, List.length_cons, hv, wordWidth, List.drop_succ_cons,
    List.drop_zero, List.take_succ_cons, List.take_zero, hword, hvalue, ne_eq, not_true_eq_false,
    if_false]
  by_cases h0 : wordValue v = 0
  · rw [h0, hzero.1 h0]
    cases d <;> cases k₀ <;> cases k₁ <;>
      simp [WordDifference.classOf, WordDifference.value, classNumber]
  · have hany : v.any id = true := by
      rw [← Bool.not_eq_false]
      exact fun h => h0 (hzero.2 h)
    rw [hany]
    cases d <;> cases k₀ <;> cases k₁ <;>
      simp [WordDifference.classOf, WordDifference.value, classNumber, h0, eq_comm]

theorem exists_wordOfBits? {k₀ k₁ : Bool} {v : List Bool} (hv : v.length = 8)
    (hany : v.any id = (!k₀ && k₁)) : ∃ d, WordDifference.ofBits? (k₀ :: k₁ :: v) = some d := by
  have hzero := wordValue_eq_zero_iff hv
  cases k₀ <;> cases k₁
  · exact ⟨.zero, (wordOfBits?_eq_some_iff hv).2 ⟨hany, rfl, (hzero.2 hany).symm⟩⟩
  · exact ⟨.fixed (wordValue v), (wordOfBits?_eq_some_iff hv).2 ⟨hany, rfl, rfl⟩⟩
  · exact ⟨.active, (wordOfBits?_eq_some_iff hv).2 ⟨hany, rfl, (hzero.2 hany).symm⟩⟩
  · exact ⟨.unknown, (wordOfBits?_eq_some_iff hv).2 ⟨hany, rfl, (hzero.2 hany).symm⟩⟩

theorem WordDifference.length_bits (d : WordDifference) : d.bits.length = wordWidth := by
  rw [bits, List.length_append, List.length_reverse, Bits.length_ofWord]
  rfl

/-- Reading undoes writing: the bits that give a difference are its own, and only a known value 0,
which has no class, is not read back. -/
theorem WordDifference.ofBits?_eq_some_iff {bits : List Bool} {d : WordDifference} :
    WordDifference.ofBits? bits = some d ↔ d.bits = bits ∧ d ≠ .fixed 0 := by
  by_cases hlen : bits.length = wordWidth
  · obtain ⟨k₀, k₁, v, rfl⟩ : ∃ k₀ k₁ v, bits = k₀ :: k₁ :: v := by
      match bits, hlen with
      | k₀ :: k₁ :: v, _ => exact ⟨k₀, k₁, v, rfl⟩
    have hv : v.length = 8 := by simpa [wordWidth] using hlen
    have hvalue : (Bits.ofWord d.value.toUInt64 8).reverse = v ↔ d.value = wordValue v := by
      have hlt : d.value.toNat % 2 ^ 8 = d.value.toNat := Nat.mod_eq_of_lt d.value.toNat_lt
      rw [List.reverse_eq_iff, ← UInt8.toNat_inj, wordValue_toNat hv]
      constructor
      · intro h
        rw [← h, Bits.toNat_ofWord, UInt8.toNat_toUInt64, hlt]
      · intro h
        refine toNat_inj (by rw [Bits.length_ofWord, List.length_reverse, hv]) ?_
        rw [Bits.toNat_ofWord, UInt8.toNat_toUInt64, hlt, h]
    have hzero := wordValue_eq_zero_iff hv
    rw [wordOfBits?_eq_some_iff hv, WordDifference.bits, classBits, List.cons_append,
      List.cons_append, List.nil_append, List.cons.injEq, List.cons.injEq, hvalue]
    cases d <;> cases k₀ <;> cases k₁ <;>
      simp [WordDifference.classOf, WordDifference.value, classNumber] <;> grind
  · refine ⟨fun h => ?_, fun h => absurd (h.1 ▸ d.length_bits) hlen⟩
    rw [WordDifference.ofBits?, if_pos hlen] at h
    cases h

theorem wordsRelated_iff {a₀ a₁ b₀ b₁ c₀ c₁ : Bool} {u v w : List Bool} (hu : u.length = 8)
    (hv : v.length = 8) (hw : w.length = 8) :
    Statement.WordsRelated (a₀ :: a₁ :: u) (b₀ :: b₁ :: v) (c₀ :: c₁ :: w) ↔
      (u.any id = (!a₀ && a₁) ∧ v.any id = (!b₀ && b₁) ∧ w.any id = (!c₀ && c₁) ∧
        classNumber c₀ c₁ ∈
          WordDifference.xorClasses (classNumber a₀ a₁) (classNumber b₀ b₁)) ∧
      (a₀ = false → b₀ = false → c₀ = false → w = List.zipWith xor u v) := by
  have hclass : ∀ k₀ k₁ : Bool, classNumber k₀ k₁ ≤ 1 ↔ k₀ = false := by decide
  constructor
  · rintro ⟨x, y, z, hx, hy, hz, hxor, hval⟩
    obtain ⟨hua, hxc, hxv⟩ := (wordOfBits?_eq_some_iff hu).1 hx
    obtain ⟨hva, hyc, hyv⟩ := (wordOfBits?_eq_some_iff hv).1 hy
    obtain ⟨hwa, hzc, hzv⟩ := (wordOfBits?_eq_some_iff hw).1 hz
    rw [hxc, hyc, hzc] at hxor
    rw [hxc, hyc, hzc, hxv, hyv, hzv, hclass, hclass, hclass] at hval
    exact ⟨⟨hua, hva, hwa, hxor⟩, fun ha hb hc => (wordValue_xor_iff hu hv hw).1 (hval ha hb hc)⟩
  · rintro ⟨⟨hua, hva, hwa, hxor⟩, hval⟩
    obtain ⟨x, hx⟩ := exists_wordOfBits? hu hua
    obtain ⟨y, hy⟩ := exists_wordOfBits? hv hva
    obtain ⟨z, hz⟩ := exists_wordOfBits? hw hwa
    obtain ⟨-, hxc, hxv⟩ := (wordOfBits?_eq_some_iff hu).1 hx
    obtain ⟨-, hyc, hyv⟩ := (wordOfBits?_eq_some_iff hv).1 hy
    obtain ⟨-, hzc, hzv⟩ := (wordOfBits?_eq_some_iff hw).1 hz
    refine ⟨x, y, z, hx, hy, hz, by rw [hxc, hyc, hzc]; exact hxor, ?_⟩
    rw [hxc, hyc, hzc, hxv, hyv, hzv, hclass, hclass, hclass]
    exact fun ha hb hc => (wordValue_xor_iff hu hv hw).2 (hval ha hb hc)

/-! ## The wordwise cover taken apart -/

section WordCover

open Ternary

/-- Over the class bits of three words and a mark for each that its value is not 0. -/
def classCover : List Pattern :=
  [[zero, any, zero, any, zero, any, any, one, any],
   [any, zero, any, zero, any, zero, any, one, any],
   [any, one, any, any, any, zero, any, zero, any],
   [any, any, zero, any, one, any, any, zero, any],
   [any, any, any, any, any, any, zero, one, zero],
   [zero, one, zero, any, any, any, any, any, any],
   [any, any, any, zero, one, zero, any, any, any],
   [one, any, any, one, any, any, any, zero, any],
   [zero, any, any, zero, any, any, one, any, any],
   [any, any, any, one, any, any, zero, any, any],
   [one, any, any, any, any, any, zero, any, any]]

/-- Over the class bits of three words and the bits at one place of their values. -/
def placeCover : List Pattern :=
  [[any, any, any, any, any, any, any, zero, one],
   [any, any, any, any, any, any, one, any, one],
   [any, any, one, any, any, zero, zero, any, zero],
   [any, any, zero, any, any, one, zero, any, zero],
   [any, any, zero, any, any, zero, any, any, one],
   [any, any, one, any, any, one, any, any, one],
   [any, any, any, any, zero, one, any, any, any],
   [any, any, any, one, any, one, any, any, any],
   [any, zero, one, any, any, any, any, any, any],
   [one, any, one, any, any, any, any, any, any]]

/-- The value cells of a pattern that is about all bits at once. -/
def everyPlace (x : Ternary) : Pattern := List.replicate 8 x

/-- The value cells of a pattern that is about one bit. -/
def onePlace (t : Nat) (x : Ternary) : Pattern := (List.replicate 8 any).set t x

/-- Puts value cells in the place of the third, sixth and last cell. -/
def spread (value : Ternary → Pattern) : Pattern → Pattern
  | [a₀, a₁, x, b₀, b₁, y, c₀, c₁, z] =>
    (a₀ :: a₁ :: value x) ++ (b₀ :: b₁ :: value y) ++ (c₀ :: c₁ :: value z)
  | p => p

theorem mem_wordCover_iff (p : Pattern) :
    p ∈ wordCover ↔ p ∈ classCover.map (spread everyPlace) ++
      (List.range 8).flatMap fun t => placeCover.map (spread (onePlace t)) := by
  have hparts : (∀ p ∈ wordCover, p ∈ classCover.map (spread everyPlace) ++
      (List.range 8).flatMap fun t => placeCover.map (spread (onePlace t))) ∧
      ∀ p ∈ classCover.map (spread everyPlace) ++
        (List.range 8).flatMap fun t => placeCover.map (spread (onePlace t)), p ∈ wordCover := by
    simp only [wordCover, List.map_cons, List.map_nil]
    iterate 91 rw [ofText_ofList]
    decide +kernel
  exact ⟨hparts.1 p, hparts.2 p⟩

variable {a₀ a₁ b₀ b₁ c₀ c₁ : Bool} {u v w : List Bool}

/-- A spread pattern admits three words iff the pattern admits their class bits and one mark for
each, where a value cell differs from a value as the cell that it comes from differs from the
mark. -/
theorem spread_admits {value : Ternary → Pattern} (mark : List Bool → Bool) {p : Pattern}
    (hp : p.length = 9) (hlen : ∀ x, (value x).length = 8)
    (hval : ∀ x, some x ∈ [p[2]?, p[5]?, p[8]?] → ∀ bits ∈ [u, v, w],
      (value x).admits bits = x.differs (mark bits))
    (hu : u.length = 8) (hv : v.length = 8) :
    (spread value p).admits ((a₀ :: a₁ :: u) ++ (b₀ :: b₁ :: v) ++ (c₀ :: c₁ :: w)) =
      p.admits [a₀, a₁, mark u, b₀, b₁, mark v, c₀, c₁, mark w] := by
  match p, hp with
  | [x₀, x₁, x, y₀, y₁, y, z₀, z₁, z], _ =>
    have hx := hval x (by simp) u (by simp)
    have hy := hval y (by simp) v (by simp)
    have hz := hval z (by simp) w (by simp)
    rw [spread, Pattern.admits_append (by simp [hlen, hu, hv]),
      Pattern.admits_append (by simp [hlen, hu])]
    simp only [Pattern.admits, hx, hy, hz, Bool.or_assoc, Bool.or_false]

theorem everyPlace_admits {x : Ternary} (hx : x ≠ one) {bits : List Bool}
    (h : bits.length = 8) : (everyPlace x).admits bits = x.differs (bits.any id) := by
  have hgen : ∀ (n : Nat) (bits : List Bool), bits.length = n →
      Pattern.admits (List.replicate n x) bits = x.differs (bits.any id) := by
    intro n
    induction n with
    | zero =>
      intro bits h
      obtain rfl := List.length_eq_zero_iff.1 h
      cases x <;> first | rfl | exact absurd rfl hx
    | succ n ih =>
      intro bits h
      obtain ⟨b, bits, rfl⟩ := List.exists_cons_of_length_eq_add_one h
      rw [List.replicate_succ, Pattern.admits, ih bits (Nat.succ.inj h), List.any_cons]
      cases x <;> simp [Ternary.differs] at hx ⊢
  exact hgen 8 bits h

theorem onePlace_admits {t : Nat} (ht : t < 8) (x : Ternary) {bits : List Bool}
    (h : bits.length = 8) : (onePlace t x).admits bits = x.differs (bits.getD t false) := by
  have hany : ∀ (n : Nat) (bits : List Bool),
      Pattern.admits (List.replicate n any) bits = false := by
    intro n
    induction n with
    | zero => intro bits; rfl
    | succ n ih =>
      intro bits
      cases bits with
      | nil => rfl
      | cons b bits => rw [List.replicate_succ, Pattern.admits, ih]; rfl
  have hgen : ∀ (n t : Nat) (bits : List Bool), t < n → bits.length = n →
      Pattern.admits ((List.replicate n any).set t x) bits = x.differs (bits.getD t false) := by
    intro n
    induction n with
    | zero => intro t bits ht; omega
    | succ n ih =>
      intro t bits ht h
      obtain ⟨b, bits, rfl⟩ := List.exists_cons_of_length_eq_add_one h
      cases t with
      | zero => simp [List.replicate_succ, Pattern.admits, hany]
      | succ t =>
        rw [List.replicate_succ, List.set_cons_succ, Pattern.admits,
          ih t bits (by omega) (Nat.succ.inj h), List.getD_cons_succ]
        rfl
  exact hgen 8 t bits ht h

/-- The wordwise cover admits three words iff the cover of the classes admits their marks and the
cover of a place admits every place. -/
theorem wordCover_admits_iff (hu : u.length = 8) (hv : v.length = 8) (hw : w.length = 8) :
    coverAdmits wordCover ((a₀ :: a₁ :: u) ++ (b₀ :: b₁ :: v) ++ (c₀ :: c₁ :: w)) = true ↔
      coverAdmits classCover
        [a₀, a₁, u.any id, b₀, b₁, v.any id, c₀, c₁, w.any id] = true ∧
      ∀ t < 8, coverAdmits placeCover
        [a₀, a₁, u.getD t false, b₀, b₁, v.getD t false, c₀, c₁, w.getD t false] = true := by
  have hbits : ∀ bits ∈ [u, v, w], bits.length = 8 := by simp [hu, hv, hw]
  have hcell : ∀ p ∈ classCover, p.length = 9 ∧
      ∀ x ∈ [p[2]?, p[5]?, p[8]?], x ≠ some one := by decide
  have hplace : ∀ p ∈ placeCover, p.length = 9 := by decide
  have hclasses : ∀ p ∈ classCover, (spread everyPlace p).admits
      ((a₀ :: a₁ :: u) ++ (b₀ :: b₁ :: v) ++ (c₀ :: c₁ :: w)) =
        p.admits [a₀, a₁, u.any id, b₀, b₁, v.any id, c₀, c₁, w.any id] := fun p hp =>
    spread_admits (fun bits => bits.any id) (hcell p hp).1 (fun _ => rfl)
      (fun x hx bits hb => everyPlace_admits
        (fun h => (hcell p hp).2 _ hx (congrArg some h)) (hbits bits hb)) hu hv
  have hplaces : ∀ t < 8, ∀ p ∈ placeCover, (spread (onePlace t) p).admits
      ((a₀ :: a₁ :: u) ++ (b₀ :: b₁ :: v) ++ (c₀ :: c₁ :: w)) =
        p.admits [a₀, a₁, u.getD t false, b₀, b₁, v.getD t false, c₀, c₁, w.getD t false] :=
    fun t ht p hp =>
      spread_admits (fun bits => bits.getD t false) (hplace p hp)
        (fun x => by simp [onePlace]) (fun x _ bits hb => onePlace_admits ht x (hbits bits hb))
        hu hv
  simp only [coverAdmits, List.all_eq_true, mem_wordCover_iff, List.mem_append, List.mem_map,
    List.mem_flatMap, List.mem_range]
  constructor
  · intro h
    constructor
    · intro p hp
      rw [← hclasses p hp]
      exact h _ (.inl ⟨p, hp, rfl⟩)
    · intro t ht p hp
      rw [← hplaces t ht p hp]
      exact h _ (.inr ⟨t, ht, p, hp, rfl⟩)
  · rintro ⟨h₁, h₂⟩ _ (⟨p, hp, rfl⟩ | ⟨t, ht, p, hp, rfl⟩)
    · rw [hclasses p hp]
      exact h₁ p hp
    · rw [hplaces t ht p hp]
      exact h₂ t ht p hp

set_option synthInstance.maxSize 256 in
/-- What the ten patterns of a place say: a bit is set in class 1 only, and it is the exclusive or
in an output of class 0 or 1, or where it is set. -/
theorem placeCover_admits_iff (a₀ a₁ x b₀ b₁ y c₀ c₁ z : Bool) :
    coverAdmits placeCover [a₀, a₁, x, b₀, b₁, y, c₀, c₁, z] = true ↔
      (x = true → (!a₀ && a₁) = true) ∧ (y = true → (!b₀ && b₁) = true) ∧
        (z = true → (!c₀ && c₁) = true) ∧
        (c₀ = false ∨ z = true → z = xor x y) := by
  revert a₀ a₁ x b₀ b₁ y c₀ c₁ z
  decide +kernel

theorem classCover_admits_iff (a₀ a₁ x b₀ b₁ y c₀ c₁ z : Bool) :
    (coverAdmits classCover [a₀, a₁, x, b₀, b₁, y, c₀, c₁, z] = true ∧
      (x = true → (!a₀ && a₁) = true) ∧ (y = true → (!b₀ && b₁) = true) ∧
        (z = true → (!c₀ && c₁) = true)) ↔
      x = (!a₀ && a₁) ∧ y = (!b₀ && b₁) ∧ z = (!c₀ && c₁) ∧
        classNumber c₀ c₁ ∈
          WordDifference.xorClasses (classNumber a₀ a₁) (classNumber b₀ b₁) := by
  revert a₀ a₁ x b₀ b₁ y c₀ c₁ z
  decide +kernel

theorem any_id_iff {bits : List Bool} (h : bits.length = 8) :
    bits.any id = true ↔ ∃ t < 8, bits.getD t false = true := by
  rw [List.any_eq_true]
  constructor
  · rintro ⟨b, hb, hid⟩
    obtain ⟨t, ht⟩ := List.getElem?_of_mem hb
    refine ⟨t, ?_, by rw [List.getD_eq_getElem?_getD, ht]; exact hid⟩
    rw [← h]
    exact (List.getElem?_eq_some_iff.1 ht).1
  · rintro ⟨t, ht, hb⟩
    rw [List.getD_eq_getElem _ _ (by omega)] at hb
    exact ⟨_, List.getElem_mem (by omega), hb⟩

theorem eq_zipWith_xor_iff (hu : u.length = 8) (hv : v.length = 8) (hw : w.length = 8) :
    w = List.zipWith xor u v ↔
      ∀ t < 8, w.getD t false = xor (u.getD t false) (v.getD t false) := by
  have hlen : (List.zipWith xor u v).length = 8 := by simp [hu, hv]
  constructor
  · intro h t ht
    rw [h, List.getD_eq_getElem _ _ (by omega), List.getD_eq_getElem _ _ (by omega),
      List.getD_eq_getElem _ _ (by omega), List.getElem_zipWith]
  · intro h
    refine List.ext_getElem (by omega) ?_
    intro t ht _
    have := h t (by omega)
    rwa [List.getD_eq_getElem _ _ (by omega), List.getD_eq_getElem _ _ (by omega),
      List.getD_eq_getElem _ _ (by omega),
      ← List.getElem_zipWith (f := xor) (h := by omega)] at this

theorem wordCover_admits (hu : u.length = 8) (hv : v.length = 8) (hw : w.length = 8) :
    coverAdmits wordCover ((a₀ :: a₁ :: u) ++ (b₀ :: b₁ :: v) ++ (c₀ :: c₁ :: w)) = true ↔
      Statement.WordsRelated (a₀ :: a₁ :: u) (b₀ :: b₁ :: v) (c₀ :: c₁ :: w) := by
  have hmark : ∀ (bits : List Bool) (k : Bool), bits.length = 8 →
      ((∀ t < 8, bits.getD t false = true → k = true) ↔ (bits.any id = true → k = true)) :=
    fun bits k hb => by
      rw [any_id_iff hb]
      exact ⟨fun h ⟨t, ht, hbit⟩ => h t ht hbit, fun h t ht hbit => h ⟨t, ht, hbit⟩⟩
  -- the class of an output of class 0 or 1 comes from inputs of class 0 or 1
  have hlow : classNumber c₀ c₁ ∈
      WordDifference.xorClasses (classNumber a₀ a₁) (classNumber b₀ b₁) →
        c₀ = false → a₀ = false ∧ b₀ = false := by
    revert a₀ a₁ b₀ b₁ c₀ c₁
    decide
  rw [wordCover_admits_iff hu hv hw, wordsRelated_iff hu hv hw, ← classCover_admits_iff]
  have hplaces : (∀ t < 8, coverAdmits placeCover
        [a₀, a₁, u.getD t false, b₀, b₁, v.getD t false, c₀, c₁, w.getD t false] = true) ↔
      ((u.any id = true → (!a₀ && a₁) = true) ∧ (v.any id = true → (!b₀ && b₁) = true) ∧
        (w.any id = true → (!c₀ && c₁) = true)) ∧
      ∀ t < 8, c₀ = false ∨ w.getD t false = true →
        w.getD t false = xor (u.getD t false) (v.getD t false) := by
    rw [← hmark u _ hu, ← hmark v _ hv, ← hmark w _ hw]
    simp only [placeCover_admits_iff]
    exact ⟨fun h => ⟨⟨fun t ht => (h t ht).1, fun t ht => (h t ht).2.1,
      fun t ht => (h t ht).2.2.1⟩, fun t ht => (h t ht).2.2.2⟩,
      fun h t ht => ⟨h.1.1 t ht, h.1.2.1 t ht, h.1.2.2 t ht, h.2 t ht⟩⟩
  rw [hplaces, ← and_assoc]
  refine and_congr_right ?_
  intro hclass
  obtain ⟨-, -, hwany, hmem⟩ := (classCover_admits_iff ..).1 hclass
  rw [eq_zipWith_xor_iff hu hv hw]
  constructor
  · intro h _ _ hc t ht
    exact h t ht (.inl hc)
  · intro h t ht hor
    cases hc : c₀ with
    | false =>
      obtain ⟨ha, hb⟩ := hlow hmem hc
      exact h ha hb hc t ht
    | true =>
      -- an output of class 2 or 3 has no value, so none of its bits is set
      rw [hc] at hor hwany
      rcases hor with hor | hor
      · cases hor
      · have hset := (any_id_iff hw).2 ⟨t, ht, hor⟩
        rw [hwany] at hset
        cases hset

theorem truncatedWordRows_hold {a b c : List Var} {rows : List Constraint}
    (h : truncatedWordRows a b c = .ok rows) (hbits : ∀ v ∈ a ++ b ++ c, IsBit (σ v)) :
    AllHold σ rows ↔ Statement.WordsRelated (bitsAt σ a) (bitsAt σ b) (bitsAt σ c) := by
  obtain ⟨ha, hb, hc, hrows⟩ := relationRows_eq_ok h
  rw [coverRows_hold hrows hbits]
  simp only [bitsAt_append]
  have htwo : ∀ vs : List Var, vs.length = wordWidth →
      ∃ k₀ k₁ bits, bitsAt σ vs = k₀ :: k₁ :: bits ∧ bits.length = 8 := fun vs hvs => by
    match vs, hvs with
    | v₀ :: v₁ :: rest, hvs =>
      exact ⟨_, _, bitsAt σ rest, rfl, by
        rw [length_bitsAt]
        exact Nat.succ.inj (Nat.succ.inj hvs)⟩
  obtain ⟨a₀, a₁, u, hu, hu8⟩ := htwo a ha
  obtain ⟨b₀, b₁, v, hv, hv8⟩ := htwo b hb
  obtain ⟨c₀, c₁, w, hw, hw8⟩ := htwo c hc
  rw [hu, hv, hw]
  exact wordCover_admits hu8 hv8 hw8

end WordCover

end Linearize
