/-
Intervals cut into blocks, and buddies.

A tiling of `[0, n)` is given by the sizes of the blocks that start at each offset. `Tiling.split`
and `Tiling.merge` cut a block in two and join two neighbours. Blocks of size `2 ^ j` that lie at
multiples of their size have a buddy, the other half of the block of twice the size; its offset
differs in one bit (`buddy_cases`). A tiling by such blocks in which no two buddies of one size
stand next to each other is a single block (`Tiling.single_of_no_buddies`).
-/
import Mathlib.Data.Nat.Bitwise
import Mathlib.Data.Nat.Find
import Mathlib.Algebra.Order.Ring.Nat

set_option autoImplicit false

/-! ## Buddies -/

section buddies

variable {j o : ℕ}

/-- Flipping the lowest bit of a multiple of `2 ^ j` that may be set. -/
theorem xor_two_pow_of_dvd (h : 2 ^ j ∣ o) : o ^^^ 2 ^ j = 2 ^ j * (o / 2 ^ j ^^^ 1) := by
  have hpos : 0 < 2 ^ j := Nat.two_pow_pos j
  have hdiv : (o ^^^ 2 ^ j) / 2 ^ j = o / 2 ^ j ^^^ 1 := by
    rw [Nat.xor_div_two_pow, Nat.div_self hpos]
  have hmod : (o ^^^ 2 ^ j) % 2 ^ j = 0 := by
    rw [Nat.xor_mod_two_pow, Nat.mod_self, Nat.mod_eq_zero_of_dvd h, Nat.xor_self]
  rw [← hdiv, Nat.mul_div_cancel' (Nat.dvd_of_mod_eq_zero hmod)]

/-- **The buddy** of a block is the block after it or the one before it, and the lower of the two
lies at a multiple of twice the size. -/
theorem buddy_cases (h : 2 ^ j ∣ o) : (2 ^ (j + 1) ∣ o ∧ o ^^^ 2 ^ j = o + 2 ^ j) ∨
      (2 ^ (j + 1) ∣ o ^^^ 2 ^ j ∧ o = (o ^^^ 2 ^ j) + 2 ^ j) := by
  rw [xor_two_pow_of_dvd h]
  obtain ⟨q, rfl⟩ := h
  rw [Nat.mul_div_cancel_left _ (Nat.two_pow_pos j)]
  rcases Nat.even_or_odd q with he | ho
  · left
    rw [Nat.xor_one_of_even he]
    refine ⟨Nat.mul_dvd_mul_left _ he.two_dvd, ?_⟩
    rw [Nat.mul_add, Nat.mul_one]
  · right
    obtain ⟨r, rfl⟩ := ho
    rw [Nat.xor_one_of_odd ⟨r, rfl⟩, Nat.add_sub_cancel]
    refine ⟨Nat.mul_dvd_mul_left _ (Nat.dvd_mul_right 2 r), ?_⟩
    rw [Nat.mul_add, Nat.mul_one]

theorem buddy_dvd (h : 2 ^ j ∣ o) : 2 ^ j ∣ o ^^^ 2 ^ j := by
  rw [xor_two_pow_of_dvd h]
  exact Nat.dvd_mul_right _ _

end buddies

/-! ## Tilings -/

/-- `[0, n)` cut into blocks: `size o = some s` if the block `[o, o + s)` is one of them. -/
structure Tiling (n : ℕ) (size : ℕ → Option ℕ) : Prop where
  inside : ∀ o s, size o = some s → 0 < s ∧ o + s ≤ n
  covers : ∀ x, x < n → ∃ o s, size o = some s ∧ o ≤ x ∧ x < o + s
  apart : ∀ o s o' s', size o = some s → size o' = some s' → o < o' → o + s ≤ o'

namespace Tiling

variable {n o s t : ℕ} {size size' : ℕ → Option ℕ}

theorem single (hn : 0 < n) (h : ∀ o, size o = if o = 0 then some n else none) : Tiling n size where
  inside o s hs := by
    rw [h] at hs
    split at hs
    · cases hs
      exact ⟨hn, by omega⟩
    · cases hs
  covers x hx := ⟨0, n, by rw [h, if_pos rfl], Nat.zero_le x, by omega⟩
  apart o s o' s' _ hs' hlt := by
    rw [h, if_neg (by omega)] at hs'
    cases hs'

variable {x : ℕ}

section

variable (ht : Tiling n size)
include ht

theorem interior (hs : size o = some s) (hlt : o < x) (hin : x < o + s) : size x = none := by
  cases hx : size x with
  | none => rfl
  | some t =>
    have := ht.apart o s x t hs hx hlt
    omega

theorem once {o' s' : ℕ} (hs : size o = some s) (hs' : size o' = some s')
    (hx : o ≤ x ∧ x < o + s) (hx' : o' ≤ x ∧ x < o' + s') : o = o' := by
  rcases Nat.lt_trichotomy o o' with hlt | heq | hgt
  · have := ht.apart o s o' s' hs hs' hlt
    omega
  · exact heq
  · have := ht.apart o' s' o s hs' hs hgt
    omega

/-- **Cutting a block in two.** -/
theorem split (hs : size o = some (s + t)) (h₁ : 0 < s) (h₂ : 0 < t)
    (hl : size' o = some s) (hr : size' (o + s) = some t)
    (hother : ∀ x, x ≠ o → x ≠ o + s → size' x = size x) : Tiling n size' := by
  obtain ⟨-, hend⟩ := ht.inside o _ hs
  -- a block of the new tiling is one of the two halves or an old block elsewhere
  have hcases : ∀ x u, size' x = some u → (x = o ∧ u = s) ∨ (x = o + s ∧ u = t) ∨
      (size x = some u ∧ (x + u ≤ o ∨ o + (s + t) ≤ x)) := by
    intro x u hx
    by_cases hxo : x = o
    · subst hxo
      rw [hl] at hx
      exact .inl ⟨rfl, (Option.some.inj hx).symm⟩
    · by_cases hxs : x = o + s
      · subst hxs
        rw [hr] at hx
        exact .inr (.inl ⟨rfl, (Option.some.inj hx).symm⟩)
      · rw [hother x hxo hxs] at hx
        refine .inr (.inr ⟨hx, ?_⟩)
        rcases Nat.lt_or_ge x o with hlt | hge
        · exact .inl (ht.apart x u o _ hx hs hlt)
        · exact .inr (ht.apart o _ x u hs hx (by omega))
  refine ⟨?_, ?_, ?_⟩
  · intro x u hx
    rcases hcases x u hx with ⟨rfl, rfl⟩ | ⟨rfl, rfl⟩ | ⟨hold, -⟩
    · omega
    · omega
    · exact ht.inside x u hold
  · intro x hx
    obtain ⟨y, u, hy, hle, hlt⟩ := ht.covers x hx
    by_cases hyo : y = o
    · subst hyo
      rw [hs, Option.some.injEq] at hy
      by_cases hhalf : x < y + s
      · exact ⟨y, s, hl, hle, hhalf⟩
      · exact ⟨y + s, t, hr, by omega, by omega⟩
    · refine ⟨y, u, ?_, hle, hlt⟩
      rw [hother y hyo, hy]
      rintro rfl
      rw [ht.interior hs (by omega) (by omega)] at hy
      cases hy
  · intro x u x' u' hx hx' hlt
    rcases hcases x u hx with ⟨rfl, rfl⟩ | ⟨rfl, rfl⟩ | ⟨hold, hout⟩ <;>
      rcases hcases x' u' hx' with ⟨hx'o, rfl⟩ | ⟨hx'o, rfl⟩ | ⟨hold', hout'⟩
    all_goals first
      | omega
      | exact ht.apart x u x' u' hold hold' hlt

/-- **Joining two neighbours.** -/
theorem merge (hs : size o = some s) (htt : size (o + s) = some t)
    (hl : size' o = some (s + t)) (hr : size' (o + s) = none)
    (hother : ∀ x, x ≠ o → x ≠ o + s → size' x = size x) : Tiling n size' := by
  obtain ⟨hpos', hend⟩ := ht.inside (o + s) t htt
  have hcases : ∀ x u, size' x = some u → (x = o ∧ u = s + t) ∨
      (size x = some u ∧ (x + u ≤ o ∨ o + (s + t) ≤ x)) := by
    intro x u hx
    by_cases hxo : x = o
    · subst hxo
      rw [hl] at hx
      exact .inl ⟨rfl, (Option.some.inj hx).symm⟩
    · by_cases hxs : x = o + s
      · subst hxs
        rw [hr] at hx
        cases hx
      · rw [hother x hxo hxs] at hx
        refine .inr ⟨hx, ?_⟩
        rcases Nat.lt_or_ge x o with hlt | hge
        · exact .inl (ht.apart x u o s hx hs hlt)
        · have h₁ := ht.apart o s x u hs hx (by omega)
          have h₂ := ht.apart (o + s) t x u htt hx (by omega)
          exact .inr (by omega)
  refine ⟨?_, ?_, ?_⟩
  · intro x u hx
    rcases hcases x u hx with ⟨rfl, rfl⟩ | ⟨hold, -⟩
    · omega
    · exact ht.inside x u hold
  · intro x hx
    obtain ⟨y, u, hy, hle, hlt⟩ := ht.covers x hx
    by_cases hyo : y = o
    · subst hyo
      rw [hs, Option.some.injEq] at hy
      exact ⟨y, s + t, hl, hle, by omega⟩
    · by_cases hys : y = o + s
      · subst hys
        rw [htt, Option.some.injEq] at hy
        exact ⟨o, s + t, hl, by omega, by omega⟩
      · exact ⟨y, u, by rw [hother y hyo hys]; exact hy, hle, hlt⟩
  · intro x u x' u' hx hx' hlt
    rcases hcases x u hx with ⟨rfl, rfl⟩ | ⟨hold, hout⟩ <;>
      rcases hcases x' u' hx' with ⟨hx'o, rfl⟩ | ⟨hold', hout'⟩
    all_goals first
      | omega
      | exact ht.apart x u x' u' hold hold' hlt

end

/-- Every block has a power of two as its size and lies at a multiple of it. -/
def Aligned (size : ℕ → Option ℕ) : Prop :=
  ∀ o s, size o = some s → ∃ j, s = 2 ^ j ∧ 2 ^ j ∣ o

/-- Of two aligned blocks the smaller one lies apart from the larger one or inside it. -/
theorem next_le {j k y : ℕ} (hx : 2 ^ j ∣ x) (hy : 2 ^ k ∣ y) (hjk : j ≤ k) (hin : x < y + 2 ^ k) :
    x + 2 ^ j ≤ y + 2 ^ k := by
  obtain ⟨a, rfl⟩ := hx
  obtain ⟨b, hb⟩ := Nat.dvd_trans (Nat.pow_dvd_pow 2 hjk) hy
  obtain ⟨d, hd⟩ := Nat.pow_dvd_pow 2 hjk
  rw [hb, hd, ← Nat.mul_add] at hin ⊢
  have hlt : a < b + d := Nat.lt_of_mul_lt_mul_left hin
  calc 2 ^ j * a + 2 ^ j = 2 ^ j * (a + 1) := by rw [Nat.mul_add, Nat.mul_one]
    _ ≤ 2 ^ j * (b + d) := Nat.mul_le_mul_left _ hlt

/-- **No buddies, one block.** If a block is smaller than the whole, the smallest blocks have their
buddies beside them. -/
theorem single_of_no_buddies {p : ℕ} (ht : Tiling (2 ^ p) size) (ha : Aligned size)
    (hno : ∀ o s, size o = some s → s < 2 ^ p → size (o ^^^ s) ≠ some s) :
    ∀ o s, size o = some s → o = 0 ∧ s = 2 ^ p := by
  have hwhole : ∀ o s, size o = some s → s = 2 ^ p := by
    by_contra hex
    push Not at hex
    have hsmall : ∃ j o, size o = some (2 ^ j) ∧ 2 ^ j < 2 ^ p := by
      obtain ⟨o, s, hs, hne⟩ := hex
      obtain ⟨j, rfl, -⟩ := ha o s hs
      have := (ht.inside o _ hs).2
      exact ⟨j, o, hs, by omega⟩
    -- take the least `j` of a block that is not the whole
    classical
    obtain ⟨j, hj, hleast⟩ : ∃ j, (∃ o, size o = some (2 ^ j) ∧ 2 ^ j < 2 ^ p) ∧
        ∀ k, (∃ o, size o = some (2 ^ k) ∧ 2 ^ k < 2 ^ p) → j ≤ k :=
      ⟨Nat.find hsmall, Nat.find_spec hsmall, fun k hk => Nat.find_min' hsmall hk⟩
    obtain ⟨o, hs, hlt⟩ := hj
    obtain ⟨j', hj', hdvd⟩ := ha o _ hs
    rw [← hj'] at hdvd
    have hjp : j < p := (Nat.pow_lt_pow_iff_right (by omega)).mp hlt
    have hend := (ht.inside o _ hs).2
    -- its buddy lies inside the whole
    have hbin : o ^^^ 2 ^ j < 2 ^ p := Nat.xor_lt_two_pow (by omega) hlt
    obtain ⟨y, u, hy, hle, hyu⟩ := ht.covers _ hbin
    obtain ⟨k, rfl, hkdvd⟩ := ha y u hy
    have hjk : j ≤ k := by
      by_cases hk : 2 ^ k < 2 ^ p
      · exact hleast k ⟨y, hy, hk⟩
      · exact Nat.le_of_lt (Nat.lt_of_lt_of_le hjp
          ((Nat.pow_le_pow_iff_right (by omega)).mp (Nat.not_lt.mp hk)))
    have hbdvd := buddy_dvd hdvd
    rcases Nat.eq_or_lt_of_le hjk with rfl | hjk
    · -- a block of the same size that holds the buddy is the buddy
      have hyb : y = o ^^^ 2 ^ j := by
        have hge := Nat.le_of_lt_add_of_dvd hyu hbdvd hkdvd
        omega
      rw [hyb] at hy
      exact hno o _ hs hlt hy
    · -- a larger block that holds the buddy holds the block too
      have hin : y ≤ o ∧ o < y + 2 ^ k := by
        rcases buddy_cases hdvd with ⟨hlow, heq⟩ | ⟨hlow, heq⟩
        · refine ⟨Nat.le_of_lt_add_of_dvd ?_ (Nat.dvd_trans (Nat.pow_dvd_pow 2 hjk) hkdvd) hlow, ?_⟩
          · omega
          · omega
        · have hnext := next_le hlow hkdvd hjk (by omega)
          omega
      have heq := ht.once hs hy ⟨Nat.le_refl o, by omega⟩ hin
      subst heq
      rw [hs, Option.some.injEq] at hy
      have := Nat.pow_lt_pow_right (show 1 < 2 by omega) hjk
      omega
  intro o s hs
  obtain rfl := hwhole o s hs
  exact ⟨by have := (ht.inside o _ hs).2; omega, rfl⟩

end Tiling
