import Mathlib.Data.List.Nodup
import Mathlib.Data.List.Perm.Subperm
import Mathlib.Tactic.Choose
import Linearize.Proofs.Covers

/-!
# Linearize.Proofs.Minimality

No cover of parity is shorter than the one of full-width patterns. Where two points differ, a
pattern that rejects both has a don't-care or no cell at all, so it rejects a point of the other
parity as well. Hence a cover that admits all points of even weight has a pattern of its own for
each point of odd weight, and these are half of all points.
-/

namespace Linearize

/-! ## The patterns of a parity -/

def Ternary.ofBit (b : Bool) : Ternary := if b then .one else .zero

def Pattern.ofPoint (bits : List Bool) : Pattern := bits.map Ternary.ofBit

theorem mem_parityPoints_iff {n : Nat} {odd : Bool} {p : Pattern} :
    p ∈ parityPoints n odd ↔
      ∃ bits : List Bool, bits.length = n ∧ parity bits = odd ∧ p = Pattern.ofPoint bits := by
  induction n generalizing odd p with
  | zero =>
    have hnil : (∃ bits : List Bool, bits.length = 0 ∧ parity bits = odd ∧
        p = Pattern.ofPoint bits) ↔ odd = false ∧ p = [] := by
      simp [List.length_eq_zero_iff, parity, Pattern.ofPoint, eq_comm]
    rw [hnil]
    cases odd <;> simp [parityPoints]
  | succ n ih =>
    simp only [parityPoints, List.mem_append, List.mem_map, ih]
    constructor
    · rintro (⟨_, ⟨bits, hlen, hodd, rfl⟩, rfl⟩ | ⟨_, ⟨bits, hlen, hodd, rfl⟩, rfl⟩)
      · exact ⟨false :: bits, by simp [hlen], by simp [parity, hodd], rfl⟩
      · exact ⟨true :: bits, by simp [hlen], by simp [parity, hodd], rfl⟩
    · rintro ⟨bits, hlen, hodd, rfl⟩
      obtain ⟨b, bits, rfl⟩ := List.exists_cons_of_length_eq_add_one hlen
      have htail := Nat.succ.inj hlen
      cases b with
      | false => exact .inl ⟨_, ⟨bits, htail, by simpa [parity] using hodd, rfl⟩, rfl⟩
      | true => exact .inr ⟨_, ⟨bits, htail, by simp [← hodd, parity], rfl⟩, rfl⟩

theorem nodup_parityPoints (n : Nat) (odd : Bool) : (parityPoints n odd).Nodup := by
  induction n generalizing odd with
  | zero => cases odd <;> simp [parityPoints]
  | succ n ih =>
    rw [parityPoints, List.nodup_append]
    refine ⟨(ih odd).map List.cons_injective, (ih !odd).map List.cons_injective, ?_⟩
    intro p hp q hq
    obtain ⟨p, -, rfl⟩ := List.mem_map.1 hp
    obtain ⟨q, -, rfl⟩ := List.mem_map.1 hq
    simp

theorem length_parityPoints (n : Nat) (odd : Bool) :
    (parityPoints (n + 1) odd).length = 2 ^ n := by
  induction n generalizing odd with
  | zero => cases odd <;> rfl
  | succ n ih =>
    rw [parityPoints, List.length_append, List.length_map, List.length_map, ih, ih, Nat.pow_succ]
    omega

theorem length_of_mem_parityCover {n : Nat} {p : Pattern} (h : p ∈ parityCover n) :
    p.length = n + 1 := by
  obtain ⟨bits, hlen, -, rfl⟩ := mem_parityPoints_iff.1 h
  rw [Pattern.ofPoint, List.length_map, hlen]

/-! ## Covers of parity in general -/

/-- The cover admits, of the points with `n` inputs and an output, exactly those whose output is the
exclusive or of the inputs. -/
def IsParityCover (n : Nat) (cover : List Pattern) : Prop :=
  ∀ (bits : List Bool) (out : Bool), bits.length = n →
    (coverAdmits cover (bits ++ [out]) = true ↔ out = parity bits)

theorem parityCover_isParityCover (n : Nat) : IsParityCover n (parityCover n) := by
  rintro bits out rfl
  exact parityCover_admits bits out

variable {n : Nat} {cover : List Pattern}

theorem IsParityCover.admits_iff (h : IsParityCover n cover) {bits : List Bool}
    (hlen : bits.length = n + 1) : coverAdmits cover bits = true ↔ parity bits = false := by
  have hne : bits ≠ [] := List.ne_nil_of_length_eq_add_one hlen
  have hsplit := List.dropLast_append_getLast hne
  rw [← hsplit, h _ _ (by rw [List.length_dropLast, hlen]; rfl), parity_append]
  cases bits.getLast hne <;> cases parity bits.dropLast <;> decide

/-- A pattern that rejects two points rejects one that differs from the first in a single bit. -/
theorem Pattern.exists_neighbour {p : Pattern} {xs ys : List Bool} (hlen : ys.length = xs.length)
    (hne : xs ≠ ys) (hx : p.admits xs = false) (hy : p.admits ys = false) :
    ∃ zs : List Bool, zs.length = xs.length ∧ parity zs = !parity xs ∧ p.admits zs = false := by
  induction xs generalizing p ys with
  | nil => exact absurd (List.length_eq_zero_iff.1 hlen).symm hne
  | cons x xs ih =>
    obtain ⟨y, ys, rfl⟩ := List.exists_cons_of_length_eq_add_one hlen
    cases p with
    | nil =>
      refine ⟨(!x) :: xs, rfl, ?_, rfl⟩
      cases x <;> simp [parity]
    | cons t p =>
      rw [admits, Bool.or_eq_false_iff] at hx hy
      by_cases hxy : x = y
      · subst hxy
        have htail : xs ≠ ys := fun heq => hne (congrArg (x :: ·) heq)
        obtain ⟨zs, hzlen, hpar, hrej⟩ := ih (Nat.succ.inj hlen) htail hx.2 hy.2
        refine ⟨x :: zs, by simp [hzlen], ?_, by rw [admits, hx.1, hrej]; rfl⟩
        cases x <;> simp [parity, hpar]
      · -- the cell is a don't-care, so the bit may change
        refine ⟨y :: xs, rfl, ?_, by rw [admits, hy.1, hx.2]; rfl⟩
        cases x <;> cases y <;> simp [parity] at hxy ⊢

/-- No pattern of a cover of parity rejects two points of odd weight. -/
theorem IsParityCover.rejects_one (h : IsParityCover n cover) {p : Pattern} (hp : p ∈ cover)
    {xs ys : List Bool} (hxlen : xs.length = n + 1) (hylen : ys.length = n + 1)
    (hodd : parity xs = true) (hx : p.admits xs = false) (hy : p.admits ys = false) : xs = ys := by
  by_contra hne
  obtain ⟨zs, hzlen, hpar, hz⟩ := p.exists_neighbour (hylen.trans hxlen.symm) hne hx hy
  rw [hodd] at hpar
  have hall := (h.admits_iff (hzlen.trans hxlen)).2 hpar
  rw [List.all_eq_true.1 hall p hp] at hz
  cases hz

theorem IsParityCover.exists_rejects (h : IsParityCover n cover) {xs : List Bool}
    (hlen : xs.length = n + 1) (hodd : parity xs = true) : ∃ p ∈ cover, p.admits xs = false := by
  have hnot : coverAdmits cover xs = false := by
    rw [← Bool.not_eq_true, h.admits_iff hlen, hodd]
    decide
  obtain ⟨p, hp, hrej⟩ := List.all_eq_false.1 hnot
  exact ⟨p, hp, Bool.eq_false_iff.2 hrej⟩

/-- A cover of parity has a pattern for each point of odd weight, and no two of them share one. -/
theorem IsParityCover.two_pow_le_length (h : IsParityCover n cover) : 2 ^ n ≤ cover.length := by
  have hrej : ∀ q ∈ parityCover n, ∃ p ∈ cover, ∃ xs : List Bool, xs.length = n + 1 ∧
      parity xs = true ∧ q = Pattern.ofPoint xs ∧ p.admits xs = false := by
    intro q hq
    obtain ⟨xs, hlen, hodd, rfl⟩ := mem_parityPoints_iff.1 hq
    obtain ⟨p, hp, hx⟩ := h.exists_rejects hlen hodd
    exact ⟨p, hp, xs, hlen, hodd, rfl, hx⟩
  choose! owner hmem point hlen hodd hspells hrejects using hrej
  have hinj : ∀ q ∈ parityCover n, ∀ q' ∈ parityCover n, owner q = owner q' → q = q' := by
    intro q hq q' hq' howner
    have hy := hrejects q' hq'
    rw [← howner] at hy
    rw [hspells q hq, hspells q' hq', h.rejects_one (hmem q hq) (hlen q hq) (hlen q' hq')
      (hodd q hq) (hrejects q hq) hy]
  have hnodup : ((parityCover n).map owner).Nodup :=
    (nodup_parityPoints (n + 1) true).map_on hinj
  have hsub : (parityCover n).map owner ⊆ cover := by
    intro p hp
    obtain ⟨q, hq, rfl⟩ := List.mem_map.1 hp
    exact hmem q hq
  calc 2 ^ n = ((parityCover n).map owner).length := by
        rw [List.length_map, parityCover, length_parityPoints]
    _ ≤ cover.length := (hnodup.subperm hsub).length_le

/-- The cover of parity is of minimum size: it has `2 ^ n` patterns, all different and of full
width, it admits the right points, and every list of patterns that does so has as many. -/
theorem parityCover_minimum (n : Nat) :
    (parityCover n).length = 2 ^ n ∧ (parityCover n).Nodup ∧
      (∀ p ∈ parityCover n, p.length = n + 1) ∧ IsParityCover n (parityCover n) ∧
      ∀ cover : List Pattern, IsParityCover n cover → 2 ^ n ≤ cover.length :=
  ⟨length_parityPoints n true, nodup_parityPoints (n + 1) true,
    fun _ hp => length_of_mem_parityCover hp, parityCover_isParityCover n,
    fun _ h => h.two_pow_le_length⟩

/-- A cover of one input with a pattern that is too long and one that is there twice. -/
def looseCover : List Pattern := [[.zero, .one, .zero], [.one, .zero], [.zero, .one], [.one, .zero]]

theorem looseCover_minimum :
    IsParityCover 1 looseCover ∧ (parityCover 1).length = 2 ∧ 2 ^ 1 ≤ looseCover.length := by
  have h : IsParityCover 1 looseCover := by
    intro bits out hlen
    match bits, hlen with
    | [b], _ => cases b <;> cases out <;> decide
  exact ⟨h, (parityCover_minimum 1).1, (parityCover_minimum 1).2.2.2.2 looseCover h⟩

end Linearize
