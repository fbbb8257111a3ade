/-
Runs of the buddy allocator.

`Books` is what holds between two steps of an operation, with at most one free block `held`, one
that is being split or merged and stands on no free list. Taking a block off its list, splitting,
marking, merging and listing each keep the books; the loops and then the operations follow.

All of this is for pools of a power of two. `_next_power_of_2` smears bits over 64 places, so a pool
size beyond that may not be rounded to a power of two; `buddy_invariant` says when exactly.
-/
import Mathlib.Tactic.Ring
import LightningH3.BuddyAllocator

set_option autoImplicit false

namespace LightningH3.BuddyAllocator

open Option Function

open Finset (range)

/-- The bytes of a block that count as allocated. -/
def weight : Option Block → ℤ
  | some b => if b.allocated then b.size else 0
  | none => 0

def sizes (blocks : ℕ → Option Block) (o : ℕ) : Option ℕ := (blocks o).map Block.size

/-- The books of a pool of `2 ^ (a + m)` bytes in blocks of `2 ^ a` bytes and up. -/
structure Books (a m : ℕ) (blocks : ℕ → Option Block) (free_lists : ℕ → List ℕ) (total : ℤ)
    (held : Option ℕ) : Prop where
  keyed : ∀ o b, blocks o = some b → b.offset = o
  tiled : Tiling (2 ^ (a + m)) (sizes blocks)
  ordered : ∀ o b, blocks o = some b → ∃ k ≤ m, b.size = 2 ^ (a + k) ∧ 2 ^ (a + k) ∣ o
  listed : ∀ k o, o ∈ free_lists k ↔ held ≠ some o ∧
    ∃ b, blocks o = some b ∧ b.allocated = false ∧ b.size = 2 ^ (a + k)
  nodup : ∀ k, (free_lists k).Nodup
  apart : ∀ o b b', blocks o = some b → blocks (o ^^^ b.size) = some b' →
    b.allocated = false → b'.allocated = false → b'.size = b.size →
    held = some o ∨ held = some (o ^^^ b.size)
  bytes : total = ∑ o ∈ range (2 ^ (a + m)), weight (blocks o)

namespace Books

variable {a m k f o : ℕ} {blocks : ℕ → Option Block} {free_lists : ℕ → List ℕ} {total : ℤ}
  {held : Option ℕ} {b block : Block}

theorem pow_inj {j j' : ℕ} (h : 2 ^ (a + j) = 2 ^ (a + j')) : j = j' := by
  have := Nat.pow_right_injective (Nat.le_refl 2) h
  omega

theorem size_of (hs : blocks o = some b) : sizes blocks o = some b.size := by
  rw [sizes, hs, map_some]

theorem block_inside (h : Books a m blocks free_lists total held) (hs : blocks o = some b) :
    0 < b.size ∧ o + b.size ≤ 2 ^ (a + m) :=
  h.tiled.inside o b.size (size_of hs)

theorem no_block_inside (h : Books a m blocks free_lists total held) (hs : blocks o = some b)
    {x : ℕ} (hlt : o < x) (hin : x < o + b.size) : blocks x = none := by
  have hx := h.tiled.interior (size_of hs) hlt hin
  exact map_eq_none_iff.mp hx

theorem sizes_update (hs : blocks o = some block) (hsize : b.size = block.size) :
    sizes (Function.update blocks o (some b)) = sizes blocks := by
  funext x
  by_cases hx : x = o
  · subst hx
    rw [sizes, update_self, sizes, hs, map_some, map_some, hsize]
  · rw [sizes, update_of_ne hx, sizes]

theorem sum_update {n : ℕ} (ho : o < n) (b : Option Block) :
    ∑ x ∈ range n, weight (Function.update blocks o b x)
      = ∑ x ∈ range n, weight (blocks x) - weight (blocks o) + weight b := by
  have hmem : o ∈ range n := Finset.mem_range.mpr ho
  rw [← Finset.add_sum_erase _ _ hmem,
    ← Finset.add_sum_erase (range n) (fun x => weight (blocks x)) hmem, update_self]
  have hrest : ∑ x ∈ (range n).erase o, weight (Function.update blocks o b x)
      = ∑ x ∈ (range n).erase o, weight (blocks x) := by
    apply Finset.sum_congr rfl
    intro x hx
    rw [update_of_ne (Finset.ne_of_mem_erase hx)]
  rw [hrest]
  ring

section Changed

variable {blocks' : ℕ → Option Block} {l u : ℕ}
  (hother : ∀ x, x ≠ l → x ≠ u → blocks' x = blocks x)
include hother

/-- What holds of every block still does after a change in two places. -/
theorem forall_changed {P : ℕ → Block → Prop} (h : ∀ x b, blocks x = some b → P x b)
    (hl : ∀ b, blocks' l = some b → P l b) (hu : ∀ b, blocks' u = some b → P u b) (x : ℕ)
    (b : Block) (hx : blocks' x = some b) : P x b := by
  by_cases hxl : x = l
  · subst hxl
    exact hl b hx
  · by_cases hxu : x = u
    · subst hxu
      exact hu b hx
    · exact h x b (by rw [← hother x hxl hxu]; exact hx)

theorem sum_changed (n : ℕ) (hl : weight (blocks' l) = weight (blocks l))
    (hu : weight (blocks' u) = weight (blocks u)) :
    ∑ x ∈ range n, weight (blocks x) = ∑ x ∈ range n, weight (blocks' x) := by
  refine Finset.sum_congr rfl fun x _ => ?_
  by_cases hxl : x = l
  · rw [hxl, hl]
  · by_cases hxu : x = u
    · rw [hxu, hu]
    · rw [hother x hxl hxu]

/-- Allocated blocks stay as they are when free ones change. -/
theorem iff_changed (hl : ∀ b, blocks' l = some b ∨ blocks l = some b → b.allocated = false)
    (hu : ∀ b, blocks' u = some b ∨ blocks u = some b → b.allocated = false) (x : ℕ)
    (hal : b.allocated = true) : blocks' x = some b ↔ blocks x = some b := by
  have hout : ∀ {y}, (∀ b, blocks' y = some b ∨ blocks y = some b → b.allocated = false) →
      (blocks' y = some b ↔ blocks y = some b) := by
    intro y hy
    have hno : ¬ (blocks' y = some b ∨ blocks y = some b) := fun hb =>
      Bool.false_ne_true ((hy b hb).symm.trans hal)
    exact iff_of_false (fun hb => hno (.inl hb)) (fun hb => hno (.inr hb))
  by_cases hxl : x = l
  · exact hxl ▸ hout hl
  · by_cases hxu : x = u
    · exact hxu ▸ hout hu
    · rw [hother x hxl hxu]

end Changed

theorem mem_put {k' x : ℕ} : x ∈ Function.update free_lists k (free_lists k ++ [o]) k' ↔
    x ∈ free_lists k' ∨ (k' = k ∧ x = o) := by
  by_cases hk : k' = k
  · subst hk
    rw [update_self, List.mem_append, List.mem_singleton, and_iff_right rfl]
  · rw [update_of_ne hk, or_iff_left fun hx => hk hx.1]

theorem nodup_put (h : ∀ k, (free_lists k).Nodup) (ho : o ∉ free_lists k) (k' : ℕ) :
    (Function.update free_lists k (free_lists k ++ [o]) k').Nodup := by
  by_cases hk : k' = k
  · subst hk
    rw [update_self]
    refine List.nodup_append.mpr ⟨h k', List.nodup_singleton o, ?_⟩
    rintro x hx y hy rfl
    exact ho (List.mem_singleton.mp hy ▸ hx)
  · rw [update_of_ne hk]
    exact h k'

/-- **A block taken off its free list.** -/
theorem pop (h : Books a m blocks free_lists total none) {rest : List ℕ}
    (hf : free_lists f = o :: rest) :
    Books a m blocks (Function.update free_lists f rest) total (some o) ∧
      ∃ b, blocks o = some b ∧ b.allocated = false ∧ b.size = 2 ^ (a + f) := by
  have hnd := h.nodup f
  rw [hf, List.nodup_cons] at hnd
  obtain ⟨-, hblock⟩ := (h.listed f o).mp (by rw [hf]; exact List.mem_cons_self)
  refine ⟨⟨h.keyed, h.tiled, h.ordered, ?_, ?_, ?_, h.bytes⟩, hblock⟩
  · intro k x
    by_cases hk : k = f
    · subst hk
      have hx := h.listed k x
      rw [hf, List.mem_cons] at hx
      rw [update_self]
      constructor
      · intro hmem
        refine ⟨?_, (hx.mp (.inr hmem)).2⟩
        rintro heq
        rw [Option.some.inj heq] at hnd
        exact hnd.1 hmem
      · rintro ⟨hne, hb⟩
        rcases hx.mpr ⟨some_ne_none x |>.symm, hb⟩ with rfl | hmem
        · exact absurd rfl hne
        · exact hmem
    · rw [update_of_ne hk, h.listed]
      refine ⟨?_, fun hx => ⟨some_ne_none x |>.symm, hx.2⟩⟩
      rintro ⟨-, hx⟩
      refine ⟨?_, hx⟩
      -- the block taken is of another order
      intro heq
      rw [Option.some.injEq] at heq
      subst heq
      obtain ⟨b, hb, -, hsize⟩ := hblock
      obtain ⟨b', hb', -, hsize'⟩ := hx
      rw [hb, Option.some.injEq] at hb'
      subst hb'
      exact hk (pow_inj (hsize'.symm.trans hsize))
  · intro k
    by_cases hk : k = f
    · subst hk
      rw [update_self]
      exact hnd.2
    · rw [update_of_ne hk]
      exact h.nodup k
  · intro x b b' hb hb' hf₁ hf₂ hsz
    rcases h.apart x b b' hb hb' hf₁ hf₂ hsz with hn | hn
    · cases hn
    · cases hn

section

variable (h : Books a m blocks free_lists total (some o))
include h

/-- **The block held split in two.** The upper half goes to its free list. -/
theorem split (hb : blocks o = some block)
    (hfree : block.allocated = false) (hsize : block.size = 2 ^ (a + (f + 1))) : Books a m
      (Function.update (Function.update blocks (o + 2 ^ (a + f))
        (some ⟨o + 2 ^ (a + f), 2 ^ (a + f), false, none⟩)) o
        (some { block with size := 2 ^ (a + f) }))
      (Function.update free_lists f (free_lists f ++ [o + 2 ^ (a + f)])) total (some o) := by
  have hpos : 0 < 2 ^ (a + f) := Nat.two_pow_pos _
  have hdouble : 2 ^ (a + (f + 1)) = 2 ^ (a + f) + 2 ^ (a + f) := by
    rw [← Nat.add_assoc, Nat.pow_succ, Nat.mul_two]
  obtain ⟨k, hkm, hk, hdvd⟩ := h.ordered o block hb
  obtain rfl : k = f + 1 := pow_inj (hk.symm.trans hsize)
  obtain ⟨u, hu⟩ : ∃ u, o + 2 ^ (a + f) = u := ⟨_, rfl⟩
  have hnew : blocks u = none := by
    refine h.no_block_inside hb (by omega) ?_
    omega
  have hnot : ∀ k, u ∉ free_lists k := by
    intro k hmem
    obtain ⟨-, b, hb', -⟩ := (h.listed k u).mp hmem
    cases hnew.symm.trans hb'
  have huo : u ≠ o := by omega
  have hlow : 2 ^ (a + f) ∣ o := Nat.dvd_trans (Nat.pow_dvd_pow 2 (by omega)) hdvd
  -- the halves are buddies
  have hbuddy : o ^^^ 2 ^ (a + f) = u := by
    rcases buddy_cases hlow with ⟨-, heq⟩ | ⟨hd, heq⟩
    · rw [heq, hu]
    · have h₁ : o ≤ o ^^^ 2 ^ (a + f) := Nat.le_of_lt_add_of_dvd (by rw [Nat.pow_succ]; omega)
        (by rw [← Nat.add_assoc] at hdvd; exact hdvd) hd
      omega
  rw [hu]
  obtain ⟨blocks', hblocks'⟩ : ∃ blocks', Function.update (Function.update blocks u
      (some ⟨u, 2 ^ (a + f), false, none⟩)) o (some { block with size := 2 ^ (a + f) }) = blocks' :=
    ⟨_, rfl⟩
  have hat : blocks' o = some { block with size := 2 ^ (a + f) } := by
    rw [← hblocks', update_self]
  have hup : blocks' u = some ⟨u, 2 ^ (a + f), false, none⟩ := by
    rw [← hblocks', update_of_ne huo, update_self]
  have hother : ∀ x, x ≠ o → x ≠ u → blocks' x = blocks x := by
    intro x hxo hxu
    rw [← hblocks', update_of_ne hxo, update_of_ne hxu]
  rw [hblocks']
  refine ⟨?_, ?_, ?_, ?_, ?_, ?_, ?_⟩
  · refine forall_changed hother h.keyed (fun b hx => ?_) (fun b hx => ?_)
    · cases hat.symm.trans hx
      exact h.keyed o block hb
    · cases hup.symm.trans hx
      rfl
  · refine h.tiled.split (o := o) (s := 2 ^ (a + f)) (t := 2 ^ (a + f)) ?_ hpos hpos ?_ ?_ ?_
    · rw [size_of hb, hsize, hdouble]
    · rw [sizes, hat, map_some]
    · rw [hu, sizes, hup, map_some]
    · intro x hxo hxu
      rw [hu] at hxu
      rw [sizes, sizes, hother x hxo hxu]
  · refine forall_changed hother h.ordered (fun b hx => ?_) (fun b hx => ?_)
    · cases hat.symm.trans hx
      exact ⟨f, by omega, rfl, hlow⟩
    · cases hup.symm.trans hx
      refine ⟨f, by omega, rfl, ?_⟩
      rw [← hu]
      exact Nat.dvd_add hlow (Nat.dvd_refl _)
  · intro k x
    rw [mem_put]
    by_cases hxo : x = o
    · subst hxo
      refine ⟨?_, fun hx => absurd rfl hx.1⟩
      rintro (hmem | ⟨-, hxu⟩)
      · exact absurd rfl ((h.listed k x).mp hmem).1
      · exact absurd hxu.symm huo
    · by_cases hxu : x = u
      · subst hxu
        rw [hup, or_iff_right (hnot k), and_iff_left rfl]
        constructor
        · rintro rfl
          exact ⟨fun heq => huo (Option.some.inj heq).symm, _, rfl, rfl, rfl⟩
        · rintro ⟨-, b, hb', -, hsz⟩
          cases hb'
          exact (pow_inj hsz).symm
      · rw [hother x hxo hxu, ← h.listed, or_iff_left fun hx => hxu hx.2]
  · exact nodup_put h.nodup (hnot f)
  · intro x b b' hx hx' hf₁ hf₂ hsz
    by_cases hxo : x = o
    · exact .inl (by rw [hxo])
    · by_cases hyo : x ^^^ b.size = o
      · exact .inr (by rw [hyo])
      · by_cases hxu : x = u
        · -- the buddy of the upper half is the lower one
          subst hxu
          rw [hup] at hx
          cases hx
          rw [← hbuddy, Nat.xor_xor_cancel_right] at hyo
          exact absurd rfl hyo
        · by_cases hyu : x ^^^ b.size = u
          · exfalso
            rw [hyu, hup] at hx'
            cases hx'
            rw [← hsz, ← hbuddy] at hyu
            apply hxo
            rw [← Nat.xor_xor_cancel_right x (2 ^ (a + f)), hyu, Nat.xor_xor_cancel_right]
          · rw [hother x hxo hxu] at hx
            rw [hother _ hyo hyu] at hx'
            exact h.apart x b b' hx hx' hf₁ hf₂ hsz
  · rw [h.bytes]
    apply sum_changed hother
    · rw [hat, hb]
      simp [weight, hfree]
    · rw [hup, hnew]
      rfl

/-- **Two free buddies joined.** One of them is held, the other leaves its free list. -/
theorem merge {l u x : ℕ} {bl bu : Block}
    (hl : blocks l = some bl) (hu : blocks u = some bu) (hfl : bl.allocated = false)
    (hfu : bu.allocated = false) (hsl : bl.size = 2 ^ (a + k)) (hsu : bu.size = 2 ^ (a + k))
    (hk : k < m) (hlow : 2 ^ (a + k + 1) ∣ l) (hul : u = l + 2 ^ (a + k))
    (ho : o = l ∧ x = u ∨ o = u ∧ x = l) :
    Books a m (Function.update (Function.update blocks u none) l
        (some { bl with size := bl.size * 2 }))
      (Function.update free_lists k ((free_lists k).erase x)) total (some l) := by
  have hne : u ≠ l := by omega
  have hdouble : bl.size * 2 = 2 ^ (a + (k + 1)) := by
    rw [hsl, ← Nat.add_assoc, Nat.pow_succ]
  obtain ⟨blocks', hblocks'⟩ : ∃ blocks', Function.update (Function.update blocks u none) l
      (some { bl with size := bl.size * 2 }) = blocks' := ⟨_, rfl⟩
  have hat : blocks' l = some { bl with size := bl.size * 2 } := by
    rw [← hblocks', update_self]
  have hup : blocks' u = none := by
    rw [← hblocks', update_of_ne hne, update_self]
  have hother : ∀ y, y ≠ l → y ≠ u → blocks' y = blocks y := by
    intro y hyl hyu
    rw [← hblocks', update_of_ne hyl, update_of_ne hyu]
  -- neither of the two is on a list afterwards
  have hnot : ∀ k' y, y = l ∨ y = u →
      y ∉ Function.update free_lists k ((free_lists k).erase x) k' := by
    intro k' y hy hmem
    have hsize : ∃ b, blocks y = some b ∧ b.size = 2 ^ (a + k) := by
      rcases hy with rfl | rfl
      · exact ⟨bl, hl, hsl⟩
      · exact ⟨bu, hu, hsu⟩
    have hheld : y ≠ x → ∀ k', y ∉ free_lists k' := by
      intro hyx k' hmem
      have hyo : y = o := by
        rcases ho with ⟨h₁, h₂⟩ | ⟨h₁, h₂⟩ <;> rcases hy with h₃ | h₃ <;> omega
      exact ((h.listed k' y).mp hmem).1 (by rw [hyo])
    by_cases hk' : k' = k
    · subst hk'
      rw [update_self, (h.nodup k').mem_erase_iff] at hmem
      exact hheld hmem.1 k' hmem.2
    · rw [update_of_ne hk'] at hmem
      obtain ⟨-, b, hb, -, hsz⟩ := (h.listed k' y).mp hmem
      obtain ⟨b', hb', hsz'⟩ := hsize
      rw [hb, Option.some.injEq] at hb'
      subst hb'
      exact hk' (pow_inj (hsz.symm.trans hsz'))
  rw [hblocks']
  refine ⟨?_, ?_, ?_, ?_, ?_, ?_, ?_⟩
  · refine forall_changed hother h.keyed (fun b hy => ?_) (fun b hy => ?_)
    · cases hat.symm.trans hy
      exact h.keyed l bl hl
    · cases hup.symm.trans hy
  · refine h.tiled.merge (o := l) (s := 2 ^ (a + k)) (t := 2 ^ (a + k)) ?_ ?_ ?_ ?_ ?_
    · rw [size_of hl, hsl]
    · rw [← hul, size_of hu, hsu]
    · rw [sizes, hat, map_some, hsl, Nat.mul_two]
    · rw [← hul, sizes, hup, map_none]
    · intro y hyl hyu
      rw [← hul] at hyu
      rw [sizes, sizes, hother y hyl hyu]
  · refine forall_changed hother h.ordered (fun b hy => ?_) (fun b hy => ?_)
    · cases hat.symm.trans hy
      exact ⟨k + 1, hk, hdouble, hlow⟩
    · cases hup.symm.trans hy
  · intro k' y
    by_cases hyl : y = l
    · refine ⟨fun hmem => absurd hmem (hnot k' y (.inl hyl)), fun hy => absurd ?_ hy.1⟩
      rw [hyl]
    · by_cases hyu : y = u
      · refine ⟨fun hmem => absurd hmem (hnot k' y (.inr hyu)), ?_⟩
        rintro ⟨-, b, hb, -⟩
        rw [hyu, hup] at hb
        cases hb
      · have hyx : y ≠ x := by
          rcases ho with ⟨-, rfl⟩ | ⟨-, rfl⟩
          · exact hyu
          · exact hyl
        have hyo : some o ≠ some y := by
          intro heq
          rw [Option.some.injEq] at heq
          rcases ho with ⟨rfl, -⟩ | ⟨rfl, -⟩
          · exact hyl heq.symm
          · exact hyu heq.symm
        have hmem : y ∈ Function.update free_lists k ((free_lists k).erase x) k' ↔
            y ∈ free_lists k' := by
          by_cases hk' : k' = k
          · subst hk'
            rw [update_self, (h.nodup k').mem_erase_iff]
            exact ⟨fun hy => hy.2, fun hy => ⟨hyx, hy⟩⟩
          · rw [update_of_ne hk']
        rw [hmem, h.listed, hother y hyl hyu]
        exact and_congr_left fun _ => iff_of_true hyo fun heq => hyl (Option.some.inj heq).symm
  · intro k'
    by_cases hk' : k' = k
    · subst hk'
      rw [update_self]
      exact (h.nodup k').erase x
    · rw [update_of_ne hk']
      exact h.nodup k'
  · intro y b b' hy hy' hf₁ hf₂ hsz
    by_cases hyl : y = l
    · exact .inl (by rw [hyl])
    · by_cases hpl : y ^^^ b.size = l
      · exact .inr (by rw [hpl])
      · have hyu : y ≠ u := by
          rintro rfl
          rw [hup] at hy
          cases hy
        have hpu : y ^^^ b.size ≠ u := by
          intro heq
          rw [heq, hup] at hy'
          cases hy'
        rw [hother y hyl hyu] at hy
        rw [hother _ hpl hpu] at hy'
        -- the old exception was about one of the two
        have hold := h.apart y b b' hy hy' hf₁ hf₂ hsz
        rw [Option.some.injEq, Option.some.injEq] at hold
        rcases ho with ⟨rfl, -⟩ | ⟨rfl, -⟩
        · exact absurd hold (by rintro (heq | heq) <;> [exact hyl heq.symm; exact hpl heq.symm])
        · exact absurd hold (by rintro (heq | heq) <;> [exact hyu heq.symm; exact hpu heq.symm])
  · rw [h.bytes]
    apply sum_changed hother
    · rw [hat, hl]
      simp [weight, hfl]
    · rw [hup, hu]
      simp [weight, hfu]

/-- **The block held put on its free list**, when it has no free buddy of its size. -/
theorem put (hb : blocks o = some block)
    (hfree : block.allocated = false) (hsize : block.size = 2 ^ (a + k))
    (hno : ∀ b', blocks (o ^^^ block.size) = some b' → b'.allocated = false →
      b'.size ≠ block.size) :
    Books a m blocks (Function.update free_lists k (free_lists k ++ [o])) total none := by
  have hout : ∀ k', o ∉ free_lists k' := fun k' hmem => ((h.listed k' o).mp hmem).1 rfl
  refine ⟨h.keyed, h.tiled, h.ordered, ?_, ?_, ?_, h.bytes⟩
  · intro k' y
    rw [mem_put]
    by_cases hyo : y = o
    · subst hyo
      rw [or_iff_right (hout k'), and_iff_left rfl]
      constructor
      · rintro rfl
        exact ⟨(some_ne_none y).symm, block, hb, hfree, hsize⟩
      · rintro ⟨-, b, hb', -, hsz⟩
        cases hb.symm.trans hb'
        exact pow_inj (hsz.symm.trans hsize)
    · rw [or_iff_left fun hy => hyo hy.2, h.listed]
      exact and_congr_left fun _ => iff_of_true (fun heq => hyo (Option.some.inj heq).symm)
        (some_ne_none y).symm
  · exact nodup_put h.nodup (hout k)
  · intro y b b' hy hy' hf₁ hf₂ hsz
    exfalso
    rcases h.apart y b b' hy hy' hf₁ hf₂ hsz with heq | heq
    · rw [Option.some.injEq] at heq
      subst heq
      rw [hb, Option.some.injEq] at hy
      subst hy
      exact hno b' hy' hf₂ hsz
    · -- seen from the other one
      rw [Option.some.injEq] at heq
      rw [← heq, hb, Option.some.injEq] at hy'
      subst hy'
      refine hno b ?_ hf₁ hsz.symm
      rw [hsz, heq, Nat.xor_xor_cancel_right]
      exact hy

end

/-- A block that keeps its place and its size. -/
theorem relabel (h : Books a m blocks free_lists total held) (hb : blocks o = some block)
    (hoff : b.offset = block.offset) (hsz : b.size = block.size) :
    (∀ x b', Function.update blocks o (some b) x = some b' → b'.offset = x) ∧
    Tiling (2 ^ (a + m)) (sizes (Function.update blocks o (some b))) ∧
    (∀ x b', Function.update blocks o (some b) x = some b' →
      ∃ k ≤ m, b'.size = 2 ^ (a + k) ∧ 2 ^ (a + k) ∣ x) ∧
    ∑ x ∈ range (2 ^ (a + m)), weight (Function.update blocks o (some b) x)
      = total - weight (some block) + weight (some b) := by
  have hother : ∀ x, x ≠ o → x ≠ o → Function.update blocks o (some b) x = blocks x :=
    fun x hxo _ => update_of_ne hxo _ _
  have hat : ∀ b', Function.update blocks o (some b) o = some b' → b = b' := by
    intro b' hb'
    rw [update_self] at hb'
    exact Option.some.inj hb'
  have hkeyed : ∀ b', Function.update blocks o (some b) o = some b' → b'.offset = o := by
    intro b' hb'
    rw [← hat b' hb', hoff]
    exact h.keyed o block hb
  have hordered : ∀ b', Function.update blocks o (some b) o = some b' →
      ∃ k ≤ m, b'.size = 2 ^ (a + k) ∧ 2 ^ (a + k) ∣ o := by
    intro b' hb'
    rw [← hat b' hb', hsz]
    exact h.ordered o block hb
  have hin := h.block_inside hb
  refine ⟨forall_changed hother h.keyed hkeyed hkeyed, sizes_update hb hsz ▸ h.tiled,
    forall_changed hother h.ordered hordered hordered, ?_⟩
  rw [sum_update (by omega), ← h.bytes, hb]

/-- **The block held handed out.** -/
theorem mark (h : Books a m blocks free_lists total (some o)) (hb : blocks o = some block)
    (hfree : block.allocated = false) (request_id : Option String) :
    Books a m (Function.update blocks o
        (some { block with allocated := true, request_id := request_id })) free_lists
      (total + block.size) none := by
  obtain ⟨b₁, hb₁⟩ : ∃ b₁ : Block,
      { block with allocated := true, request_id := request_id } = b₁ := ⟨_, rfl⟩
  have hsz₁ : b₁.size = block.size := by rw [← hb₁]
  have hal₁ : b₁.allocated = true := by rw [← hb₁]
  rw [hb₁]
  obtain ⟨hkeyed, htiled, hordered, hsum⟩ := h.relabel hb (b := b₁) (by rw [← hb₁]) hsz₁
  refine ⟨hkeyed, htiled, hordered, ?_, h.nodup, ?_, ?_⟩
  · intro k' y
    by_cases hyo : y = o
    · subst hyo
      rw [update_self]
      refine ⟨fun hmem => absurd rfl ((h.listed k' y).mp hmem).1, ?_⟩
      rintro ⟨-, b, hb', hf, -⟩
      cases hb'
      rw [hal₁] at hf
      cases hf
    · rw [h.listed, update_of_ne hyo]
      exact and_congr_left fun _ => iff_of_true (fun heq => hyo (Option.some.inj heq).symm)
        (some_ne_none y).symm
  · intro y b b' hy hy' hf₁ hf₂ hsz
    have hyo : y ≠ o := by
      rintro rfl
      rw [update_self] at hy
      cases hy
      rw [hal₁] at hf₁
      cases hf₁
    have hpo : y ^^^ b.size ≠ o := by
      intro heq
      rw [heq, update_self] at hy'
      cases hy'
      rw [hal₁] at hf₂
      cases hf₂
    rw [update_of_ne hyo] at hy
    rw [update_of_ne hpo] at hy'
    rcases h.apart y b b' hy hy' hf₁ hf₂ hsz with heq | heq
    · exact absurd (Option.some.inj heq).symm hyo
    · exact absurd (Option.some.inj heq).symm hpo
  · rw [hsum]
    simp [weight, hfree, hal₁, hsz₁]

/-- **A block taken back.** It is held, its buddy may be free. -/
theorem unmark (h : Books a m blocks free_lists total none) (hb : blocks o = some block)
    (hal : block.allocated = true) : Books a m (Function.update blocks o
        (some { block with allocated := false, request_id := none })) free_lists
      (total - block.size) (some o) := by
  obtain ⟨b₁, hb₁⟩ : ∃ b₁ : Block, { block with allocated := false, request_id := none } = b₁ :=
    ⟨_, rfl⟩
  have hsz₁ : b₁.size = block.size := by rw [← hb₁]
  have hal₁ : b₁.allocated = false := by rw [← hb₁]
  rw [hb₁]
  obtain ⟨hkeyed, htiled, hordered, hsum⟩ := h.relabel hb (b := b₁) (by rw [← hb₁]) hsz₁
  refine ⟨hkeyed, htiled, hordered, ?_, h.nodup, ?_, ?_⟩
  · intro k' y
    by_cases hyo : y = o
    · subst hyo
      refine ⟨fun hmem => ?_, fun hy => absurd rfl hy.1⟩
      obtain ⟨-, b, hb', hf, -⟩ := (h.listed k' y).mp hmem
      rw [hb, Option.some.injEq] at hb'
      subst hb'
      rw [hal] at hf
      cases hf
    · rw [h.listed, update_of_ne hyo]
      exact and_congr_left fun _ => iff_of_true (some_ne_none y).symm
        (fun heq => hyo (Option.some.inj heq).symm)
  · intro y b b' hy hy' hf₁ hf₂ hsz
    by_cases hyo : y = o
    · exact .inl (by rw [hyo])
    · by_cases hpo : y ^^^ b.size = o
      · exact .inr (by rw [hpo])
      · rw [update_of_ne hyo] at hy
        rw [update_of_ne hpo] at hy'
        rcases h.apart y b b' hy hy' hf₁ hf₂ hsz with heq | heq
        · cases heq
        · cases heq
  · rw [hsum]
    simp [weight, hal, hal₁]

end Books

/-! ## Operations -/

/-- Allocated blocks stay as they are. -/
def Frame (s s' : Allocator) : Prop :=
  ∀ o b, b.allocated = true → (s'.blocks o = some b ↔ s.blocks o = some b)

/-- An allocator with its books. -/
structure Good (a m : ℕ) (s : Allocator) (held : Option ℕ) : Prop where
  min_eq : s.min_block_size = 2 ^ a
  pool_eq : s.pool_size = 2 ^ (a + m)
  order_eq : s.max_order = m
  books : Books a m s.blocks s.free_lists s.allocated_bytes held

section ops

variable {a m o : ℕ} {s : Allocator} {block : Block}

/-- **The splits**, by induction on the order of the block held. -/
theorem split_down_spec {target_order : ℕ} {found_order : ℕ} {s : Allocator} {block : Block} :
    Good a m s (some o) → s.blocks o = some block → block.allocated = false →
    block.size = 2 ^ (a + found_order) → target_order ≤ found_order →
    ∃ s' block', split_down o target_order s block found_order = (s', block') ∧
      Good a m s' (some o) ∧ s'.blocks o = some block' ∧ block'.allocated = false ∧
      block'.size = 2 ^ (a + target_order) ∧ Frame s s' := by
  induction found_order generalizing s block with
  | zero =>
    intro h hb hfree hsize hle
    refine ⟨s, block, rfl, h, hb, hfree, ?_, fun _ _ _ => Iff.rfl⟩
    rw [hsize, Nat.le_zero.mp hle]
  | succ f ih =>
    intro h hb hfree hsize hle
    unfold split_down
    split
    · have hpos : 0 < 2 ^ (a + f) := Nat.two_pow_pos _
      have hpow : s.min_block_size <<< f = 2 ^ (a + f) := by
        rw [h.min_eq, Nat.shiftLeft_eq, Nat.pow_add]
      have hnew : s.blocks (o + 2 ^ (a + f)) = none := by
        refine h.books.no_block_inside hb (by omega) ?_
        rw [hsize, ← Nat.add_assoc]
        omega
      have hframe : Frame s { s with
          blocks := Function.update (Function.update s.blocks (o + 2 ^ (a + f))
            (some ⟨o + 2 ^ (a + f), 2 ^ (a + f), false, none⟩)) o
            (some { block with size := 2 ^ (a + f) })
          free_lists := Function.update s.free_lists f
            (s.free_lists f ++ [o + 2 ^ (a + f)]) } := by
        intro x b
        dsimp only
        refine Books.iff_changed (l := o) (u := o + 2 ^ (a + f)) ?_ ?_ ?_ x
        · intro x hxo hxu
          rw [update_of_ne hxo, update_of_ne hxu]
        · rw [update_self, hb]
          rintro b (hx | hx)
          · cases hx
            exact hfree
          · cases hx
            exact hfree
        · rw [update_of_ne (by omega), update_self, hnew]
          rintro b (hx | hx)
          · cases hx
            rfl
          · cases hx
      rw [hpow]
      obtain ⟨s', block', heq, hgood, hb', hfree', hsize', hframe'⟩ := @ih
        { s with
          blocks := Function.update (Function.update s.blocks (o + 2 ^ (a + f))
            (some ⟨o + 2 ^ (a + f), 2 ^ (a + f), false, none⟩)) o
            (some { block with size := 2 ^ (a + f) })
          free_lists := Function.update s.free_lists f
            (s.free_lists f ++ [o + 2 ^ (a + f)]) }
        { block with size := 2 ^ (a + f) }
        ⟨h.min_eq, h.pool_eq, h.order_eq, h.books.split hb hfree hsize⟩
        (update_self ..) hfree rfl (by omega)
      refine ⟨s', block', heq, hgood, hb', hfree', hsize', ?_⟩
      intro x b hal
      exact (hframe' x b hal).trans (hframe x b hal)
    · refine ⟨s, block, rfl, h, hb, hfree, ?_, fun _ _ _ => Iff.rfl⟩
      rw [hsize, show f + 1 = target_order by omega]

theorem list_block_spec {k : ℕ} (h : Good a m s (some o)) (hb : s.blocks o = some block)
    (hfree : block.allocated = false) (hsize : block.size = 2 ^ (a + k))
    (hno : ∀ b', s.blocks (o ^^^ block.size) = some b' → b'.allocated = false →
      b'.size ≠ block.size) : Good a m (list_block s block) none := by
  have horder : size_to_order s.min_block_size block.size = k := by
    rw [h.min_eq, hsize, size_to_order_pow]
  unfold list_block
  rw [horder, h.books.keyed o block hb]
  exact ⟨h.min_eq, h.pool_eq, h.order_eq, h.books.put hb hfree hsize hno⟩

theorem frame_merge {blocks : ℕ → Option Block} {l u x : ℕ} {bl bu b new : Block}
    (hl : blocks l = some bl) (hu : blocks u = some bu) (hne : u ≠ l) (hfl : bl.allocated = false)
    (hfu : bu.allocated = false) (hnew : new.allocated = bl.allocated) (hal : b.allocated = true) :
    Function.update (Function.update blocks u none) l (some new) x = some b ↔
      blocks x = some b := by
  refine Books.iff_changed (l := l) (u := u) ?_ ?_ ?_ x hal
  · intro x hxl hxu
    rw [update_of_ne hxl, update_of_ne hxu]
  · rw [update_self, hl]
    rintro b (hx | hx)
    · cases hx
      exact hnew.trans hfl
    · cases hx
      exact hfl
  · rw [update_of_ne hne, update_self, hu]
    rintro b (hx | hx)
    · cases hx
    · cases hx
      exact hfu

/-- **`_coalesce`**, by induction on the rounds left: each round doubles the block. -/
theorem coalesce_spec {fuel : ℕ} {o k : ℕ} {s : Allocator} {block : Block} :
    Good a m s (some o) → s.blocks o = some block → block.allocated = false →
    block.size = 2 ^ (a + k) → k ≤ m → m - k < fuel →
    ∃ s', coalesce fuel s block = .ok s' ∧ Good a m s' none ∧ Frame s s' := by
  induction fuel generalizing o k s block with
  | zero =>
    intro _ _ _ _ _ hfuel
    exact absurd hfuel (Nat.not_lt_zero _)
  | succ fuel ih =>
    intro h hb hfree hsize hkm hfuel
    obtain rfl : block.offset = o := h.books.keyed o block hb
    have hlist : (∀ b', s.blocks (block.offset ^^^ block.size) = some b' → b'.allocated = false →
        b'.size ≠ block.size) → ∃ s', Except.ok (list_block s block) = (.ok s' : Except Fault _) ∧
        Good a m s' none ∧ Frame s s' := fun hno =>
      ⟨_, rfl, list_block_spec h hb hfree hsize hno, fun _ _ _ => Iff.rfl⟩
    unfold coalesce
    dsimp only
    split
    · rename_i hlt
      have hk : k < m := by
        rw [hsize, h.pool_eq] at hlt
        have := (Nat.pow_lt_pow_iff_right (by omega)).mp hlt
        omega
      split
      · rename_i hnone
        apply hlist
        intro b' hb'
        rw [hnone] at hb'
        cases hb'
      · rename_i buddy hbuddy
        split
        · rename_i hstop
          apply hlist
          intro b' hb' hf' hs'
          rw [hbuddy, Option.some.injEq] at hb'
          subst hb'
          rw [hf', hs'] at hstop
          simp at hstop
        · rename_i hgo
          rw [Bool.not_eq_true, Bool.or_eq_false_iff, bne_eq_false_iff_eq] at hgo
          obtain ⟨hbf, hbs⟩ := hgo
          obtain ⟨k', -, hk', hdvd⟩ := h.books.ordered block.offset block hb
          obtain rfl : k' = k := Books.pow_inj (hk'.symm.trans hsize)
          have hne : block.offset ≠ block.offset ^^^ 2 ^ (a + k') := by
            intro heq
            rcases buddy_cases hdvd with ⟨-, h'⟩ | ⟨-, h'⟩ <;> omega
          have hin : block.offset ^^^ 2 ^ (a + k') ∈ s.free_lists k' := by
            rw [h.books.listed]
            refine ⟨fun heq => hne (Option.some.inj heq), buddy, ?_, hbf, hbs.trans hsize⟩
            rw [← hsize]
            exact hbuddy
          rw [hsize] at hbuddy ⊢
          have horder : size_to_order s.min_block_size (2 ^ (a + k')) = k' := by
            rw [h.min_eq, size_to_order_pow]
          rw [hbs, hsize, horder, if_neg (not_not.mpr hin)]
          have hjoin : ∀ {l u x : ℕ} {bl bu : Block}, s.blocks l = some bl → s.blocks u = some bu →
              bl.allocated = false → bu.allocated = false → bl.size = 2 ^ (a + k') →
              bu.size = 2 ^ (a + k') → 2 ^ (a + k' + 1) ∣ l → u = l + 2 ^ (a + k') →
              (block.offset = l ∧ x = u ∨ block.offset = u ∧ x = l) → ∀ t : Allocator, t =
                { s with
                  free_lists := Function.update s.free_lists k' ((s.free_lists k').erase x)
                  blocks := Function.update (Function.update s.blocks u none) l
                    (some { bl with size := 2 ^ (a + k') * 2 }) } →
              ∃ s', coalesce fuel t { bl with size := 2 ^ (a + k') * 2 } = .ok s' ∧
                Good a m s' none ∧ Frame s s' := by
            intro l u x bl bu hl hu hfl hfu hsl hsu hlow hul hx t ht
            have hmerge := h.books.merge hl hu hfl hfu hsl hsu hk hlow hul hx
            rw [hsl] at hmerge
            obtain ⟨s', hok, hgood, hframe⟩ := @ih l (k' + 1) t
              { bl with size := 2 ^ (a + k') * 2 } (by rw [ht]; exact ⟨h.min_eq, h.pool_eq,
                h.order_eq, hmerge⟩) (by rw [ht]; exact update_self ..) hfl
              (by rw [← Nat.add_assoc, Nat.pow_succ]) hk (by omega)
            rw [ht] at hframe
            refine ⟨s', hok, hgood, fun x b hal => (hframe x b hal).trans ?_⟩
            exact frame_merge hl hu (by omega) hfl hfu rfl hal
          -- the lower of the two is the block held from now on
          rcases buddy_cases hdvd with ⟨hlow, heq⟩ | ⟨hlow, heq⟩
          · rw [if_neg (by omega)]
            exact hjoin hb hbuddy hfree hbf hsize (hbs.trans hsize) hlow heq (.inl ⟨rfl, rfl⟩) _ rfl
          · rw [if_pos (by have := Nat.two_pow_pos (a + k'); omega)]
            exact hjoin hbuddy hb hbf hfree (hbs.trans hsize) hsize hlow heq (.inr ⟨rfl, rfl⟩) _ rfl
    · rename_i hge
      apply hlist
      intro b' hb'
      -- the whole pool has no buddy inside the pool
      rw [h.pool_eq] at hge
      obtain ⟨-, hend⟩ := h.books.block_inside hb
      have hwhole : block.offset = 0 ∧ block.size = 2 ^ (a + m) := by omega
      obtain ⟨hpos, hend'⟩ := h.books.block_inside hb'
      rw [hwhole.1, Nat.zero_xor] at hend'
      omega

end ops

/-! ## `allocate` and `free` -/

/-- What `allocate` answers: no offset only if no block that is large enough is free, and otherwise
a block of its own, apart from all that were allocated. -/
def Allocates (s s' : Allocator) (size : ℤ) (request_id : Option String) : Option ℕ → Prop
  | none => s' = s ∧ ∀ k : ℕ, size ≤ (s.min_block_size <<< k : ℕ) → s.free_lists k = []
  | some o => ∃ b, s'.blocks o = some b ∧ b.allocated = true ∧ b.request_id = request_id ∧
      size ≤ b.size ∧ ∀ o' b', s.blocks o' = some b' → b'.allocated = true →
        s'.blocks o' = some b' ∧ (o + b.size ≤ o' ∨ o' + b'.size ≤ o)

/-- What `free` answers: `False` for an offset that no allocated block has, and nothing changes;
otherwise this block, and no other, is no longer allocated. -/
def Frees (s s' : Allocator) (o : ℕ) : Bool → Prop
  | false => s' = s ∧ ∀ b, s.blocks o = some b → b.allocated = false
  | true => (∃ b, s.blocks o = some b ∧ b.allocated = true) ∧ ∀ o' b', b'.allocated = true →
      (s'.blocks o' = some b' ↔ s.blocks o' = some b' ∧ o' ≠ o)

section answers

variable {a m : ℕ} {s s' : Allocator}

variable {size : ℤ}

theorem target_order_spec (a : ℕ) (hpos : 0 < size) :
    size ≤ (2 ^ (a + size_to_order (2 ^ a) (max (next_power_of_2 size) (2 ^ a))) : ℕ) ∧
      ∀ k : ℕ, size ≤ (2 ^ (a + k) : ℕ) →
        size_to_order (2 ^ a) (max (next_power_of_2 size) (2 ^ a)) ≤ k := by
  obtain ⟨hge, hleast⟩ := next_power_of_2_bounds hpos
  obtain ⟨hfit, hmin⟩ := size_to_order_spec a (max (next_power_of_2 size) (2 ^ a))
  constructor
  · have hmax := Nat.le_trans (Nat.le_max_left (next_power_of_2 size) (2 ^ a)) hfit
    calc size ≤ (next_power_of_2 size : ℤ) := hge
      _ ≤ _ := Int.ofNat_le.mpr hmax
  · intro k hk
    by_contra hlt
    have hbig := hmin k (by omega)
    have h₁ := hleast (a + k) hk
    have h₂ : 2 ^ a ≤ 2 ^ (a + k) := Nat.pow_le_pow_right (by omega) (by omega)
    omega

theorem no_list_above {held : Option ℕ} (h : Good a m s held) {k : ℕ} (hk : m < k) :
    s.free_lists k = [] := by
  rw [List.eq_nil_iff_forall_not_mem]
  intro o hmem
  obtain ⟨-, b, hb, -, hsize⟩ := (h.books.listed k o).mp hmem
  obtain ⟨k', hk', hsize', -⟩ := h.books.ordered o b hb
  have := Books.pow_inj (hsize.symm.trans hsize')
  omega

theorem find_order_none {target_order : ℕ} (h : find_order s target_order = none) {k : ℕ}
    (hk : target_order ≤ k) (hle : k ≤ s.max_order) : s.free_lists k = [] := by
  unfold find_order at h
  rw [List.find?_eq_none] at h
  have := h k (by rw [List.mem_range'_1]; omega)
  simpa using this

theorem find_order_some {target_order found_order : ℕ}
    (h : find_order s target_order = some found_order) :
    target_order ≤ found_order ∧ s.free_lists found_order ≠ [] := by
  have hmem := List.mem_of_find?_eq_some h
  have hsome := List.find?_some h
  rw [List.mem_range'_1] at hmem
  exact ⟨hmem.1, by simpa using hsome⟩

/-- The size of the block that `allocate` gives a request. -/
def slot_size (min_block_size : ℕ) (size : ℤ) : ℕ :=
  min_block_size <<< size_to_order min_block_size (max (next_power_of_2 size) min_block_size)

/-- The offset of the block that `allocate` gives a request: the oldest of the first order with a
free block. -/
def next_offset (s : Allocator) (size : ℤ) : Option ℕ :=
  let target_order :=
    size_to_order s.min_block_size (max (next_power_of_2 size) s.min_block_size)
  if target_order > s.max_order then none
  else (find_order s target_order).bind fun order => (s.free_lists order).head?

/-- **`allocate`** keeps the books, answers as it should, and gives the block at `next_offset`, of
`slot_size`. -/
theorem allocate_exact (h : Good a m s none) (hpos : 0 < size) (request_id : Option String) :
    ∃ s' out, allocate s size request_id = .ok (s', out) ∧
      Good a m s' none ∧ Allocates s s' size request_id out ∧ out = next_offset s size ∧
      ∀ o b, out = some o → s'.blocks o = some b → b.size = slot_size s.min_block_size size := by
  obtain ⟨hfit, hleast⟩ := target_order_spec a hpos
  have hshift : ∀ k, s.min_block_size <<< k = 2 ^ (a + k) := by
    intro k
    rw [h.min_eq, Nat.shiftLeft_eq, Nat.pow_add]
  unfold allocate next_offset slot_size
  rw [if_neg (by omega)]
  dsimp only
  rw [h.min_eq]
  obtain ⟨t, ht⟩ : ∃ t, size_to_order (2 ^ a) (max (next_power_of_2 size) (2 ^ a)) = t := ⟨_, rfl⟩
  rw [ht] at hfit hleast ⊢
  by_cases hbig : t > s.max_order
  · rw [if_pos hbig, if_pos hbig]
    refine ⟨s, none, rfl, h, ⟨rfl, ?_⟩, rfl, fun _ _ hbad => by cases hbad⟩
    intro k hk
    rw [hshift] at hk
    have hord := h.order_eq
    exact no_list_above h (by have := hleast k hk; omega)
  · rw [if_neg hbig, if_neg hbig]
    unfold allocate_locked
    split
    · rename_i hnone
      rw [hnone]
      refine ⟨s, none, rfl, h, ⟨rfl, ?_⟩, rfl, fun _ _ hbad => by cases hbad⟩
      intro k hk
      rw [hshift] at hk
      by_cases hle : k ≤ s.max_order
      · exact find_order_none hnone (hleast k hk) hle
      · have hord := h.order_eq
        exact no_list_above h (by omega)
    · rename_i found hfound
      rw [hfound, bind_some]
      obtain ⟨hle, hne⟩ := find_order_some hfound
      split
      · rename_i hnil
        exact absurd hnil hne
      · rename_i o rest hlist
        obtain ⟨hbooks, block, hb, hfree, hsize⟩ := h.books.pop hlist
        rw [hb, hlist]
        obtain ⟨s₁, block₁, hsplit, hgood, hb₁, hfree₁, hsize₁, hframe⟩ := split_down_spec
          (s := { s with free_lists := Function.update s.free_lists found rest })
          ⟨h.min_eq, h.pool_eq, h.order_eq, hbooks⟩ hb hfree hsize hle
        dsimp only
        rw [hsplit]
        refine ⟨_, some o, rfl, ⟨hgood.min_eq, hgood.pool_eq, hgood.order_eq,
          hgood.books.mark hb₁ hfree₁ request_id⟩, ⟨_, update_self .., rfl, rfl, ?_, ?_⟩, rfl, ?_⟩
        · rw [← hsize₁] at hfit
          exact hfit
        · intro o' b' hb' hal
          have hold := (hframe o' b' hal).mpr hb'
          have hne' : o' ≠ o := by
            rintro rfl
            rw [hb₁, Option.some.injEq] at hold
            subst hold
            rw [hfree₁] at hal
            cases hal
          refine ⟨by dsimp only; rw [update_of_ne hne']; exact hold, ?_⟩
          have htile := hgood.books.tiled
          rcases Nat.lt_or_gt_of_ne hne' with hlt | hgt
          · exact .inr (htile.apart o' b'.size o block₁.size (Books.size_of hold)
              (Books.size_of hb₁) hlt)
          · exact .inl (htile.apart o block₁.size o' b'.size (Books.size_of hb₁)
              (Books.size_of hold) hgt)
        · intro o' b' ho' hb'
          cases ho'
          dsimp only at hb'
          rw [update_self] at hb'
          cases hb'
          rw [hsize₁, Nat.shiftLeft_eq, ← Nat.pow_add]

theorem allocate_spec (h : Good a m s none) (hpos : 0 < size) (request_id : Option String) :
    ∃ s' out, allocate s size request_id = .ok (s', out) ∧
      Good a m s' none ∧ Allocates s s' size request_id out := by
  obtain ⟨s', out, hok, hgood, hans, -, -⟩ := allocate_exact h hpos request_id
  exact ⟨s', out, hok, hgood, hans⟩

/-- **`free`** keeps the books and answers as it should. -/
theorem free_spec (h : Good a m s none) (o : ℕ) : ∃ s' freed, free s o = .ok (s', freed) ∧
    Good a m s' none ∧ Frees s s' o freed := by
  unfold free
  split
  · rename_i hnone
    refine ⟨s, false, rfl, h, rfl, ?_⟩
    intro b hb
    rw [hnone] at hb
    cases hb
  · rename_i block hb
    by_cases hal : block.allocated = true
    · obtain ⟨k, hk, hsize, -⟩ := h.books.ordered o block hb
      rw [hal]
      dsimp only
      have hmax : m - k < s.max_order + 1 := by
        have := h.order_eq
        omega
      obtain ⟨s', hok, hgood, hframe⟩ := coalesce_spec (k := k)
        (s := { s with
          blocks := Function.update s.blocks o
            (some { block with allocated := false, request_id := none })
          allocated_bytes := s.allocated_bytes - block.size
          num_allocations := s.num_allocations - 1 })
        ⟨h.min_eq, h.pool_eq, h.order_eq, h.books.unmark hb hal⟩ (update_self ..) rfl hsize
        hk hmax
      rw [hok]
      refine ⟨s', true, rfl, hgood, ⟨block, hb, hal⟩, ?_⟩
      intro o' b' hal'
      rw [hframe o' b' hal']
      dsimp only
      by_cases hoo : o' = o
      · subst hoo
        rw [update_self]
        refine iff_of_false ?_ fun hx => hx.2 rfl
        rintro ⟨⟩
        cases hal'
      · rw [update_of_ne hoo]
        exact ⟨fun hx => ⟨hx, hoo⟩, fun hx => hx.1⟩
    · rw [Bool.not_eq_true] at hal
      rw [hal]
      refine ⟨s, false, rfl, h, rfl, ?_⟩
      intro b hb'
      rw [hb, Option.some.injEq] at hb'
      subst hb'
      exact hal

end answers

/-! ## Runs -/

/-- The states of a run. -/
inductive Reachable (s₀ : Allocator) : Allocator → Prop
  | init : Reachable s₀ s₀
  | allocate {s s' : Allocator} {size : ℤ} {request_id : Option String} {out : Option ℕ} :
      Reachable s₀ s → allocate s size request_id = .ok (s', out) → Reachable s₀ s'
  | free {s s' : Allocator} {o : ℕ} {freed : Bool} :
      Reachable s₀ s → free s o = .ok (s', freed) → Reachable s₀ s'

/-- The state between two calls. -/
structure Invariant (s : Allocator) : Prop where
  partition : ∀ x, x < s.pool_size → ∃ o b, (s.blocks o = some b ∧ o ≤ x ∧ x < o + b.size) ∧
    ∀ o' b', s.blocks o' = some b' ∧ o' ≤ x ∧ x < o' + b'.size → o' = o
  inside : ∀ o b, s.blocks o = some b → b.offset = o ∧ o + b.size ≤ s.pool_size
  aligned : ∀ o b, s.blocks o = some b → ∃ j, b.size = 2 ^ j ∧ b.size ∣ o
  listed : ∀ k o, o ∈ s.free_lists k ↔
    ∃ b, s.blocks o = some b ∧ b.allocated = false ∧ b.size = s.min_block_size <<< k
  nodup : ∀ k, (s.free_lists k).Nodup
  no_buddies : ∀ o b b', s.blocks o = some b → s.blocks (o ^^^ b.size) = some b' →
    b'.size = b.size → b.allocated = true ∨ b'.allocated = true
  bytes : s.allocated_bytes = ∑ o ∈ range s.pool_size, weight (s.blocks o)

/-- What every call answers, and what is left when all blocks are free. -/
structure Answers (s : Allocator) : Prop where
  allocates : ∀ size request_id, 0 < size → ∃ s' out,
    allocate s size request_id = .ok (s', out) ∧ Allocates s s' size request_id out
  frees : ∀ o, ∃ s' freed, free s o = .ok (s', freed) ∧ Frees s s' o freed
  emptied : (∀ o b, s.blocks o = some b → b.allocated = false) →
    (∃ b, s.blocks 0 = some b ∧ b.size = s.pool_size) ∧ ∀ o b, s.blocks o = some b → o = 0

section runs

variable {a m : ℕ} {s s₀ : Allocator}

theorem invariant_of_good (h : Good a m s none) : Invariant s where
  partition x hx := by
    rw [h.pool_eq] at hx
    obtain ⟨o, n, hn, hle, hlt⟩ := h.books.tiled.covers x hx
    obtain ⟨b, hb, rfl⟩ := map_eq_some_iff.mp hn
    refine ⟨o, b, ⟨hb, hle, hlt⟩, ?_⟩
    rintro o' b' ⟨hb', hin'⟩
    exact h.books.tiled.once (Books.size_of hb') hn hin' ⟨hle, hlt⟩
  inside o b hb := by
    rw [h.pool_eq]
    exact ⟨h.books.keyed o b hb, (h.books.block_inside hb).2⟩
  aligned o b hb := by
    obtain ⟨k, -, hsize, hdvd⟩ := h.books.ordered o b hb
    exact ⟨a + k, hsize, by rw [hsize]; exact hdvd⟩
  listed k o := by
    rw [h.books.listed, h.min_eq, Nat.shiftLeft_eq, ← Nat.pow_add]
    exact ⟨fun hx => hx.2, fun hx => ⟨(some_ne_none o).symm, hx⟩⟩
  nodup := h.books.nodup
  no_buddies o b b' hb hb' hsize := by
    by_contra hfree
    rw [not_or, Bool.not_eq_true, Bool.not_eq_true] at hfree
    rcases h.books.apart o b b' hb hb' hfree.1 hfree.2 hsize with hn | hn
    · cases hn
    · cases hn
  bytes := by
    rw [h.pool_eq]
    exact h.books.bytes

theorem answers_of_good (h : Good a m s none) : Answers s where
  allocates size request_id hpos := by
    obtain ⟨s', out, hok, -, hans⟩ := allocate_spec h hpos request_id
    exact ⟨s', out, hok, hans⟩
  frees o := by
    obtain ⟨s', freed, hok, -, hans⟩ := free_spec h o
    exact ⟨s', freed, hok, hans⟩
  emptied hall := by
    have hone := Tiling.single_of_no_buddies h.books.tiled
      (fun o n hn => by
        obtain ⟨b, hb, rfl⟩ := map_eq_some_iff.mp hn
        obtain ⟨k, -, hsize, hdvd⟩ := h.books.ordered o b hb
        exact ⟨a + k, hsize, hdvd⟩)
      (fun o n hn _ hbud => by
        obtain ⟨b, hb, rfl⟩ := map_eq_some_iff.mp hn
        obtain ⟨b', hb', hsize⟩ := map_eq_some_iff.mp hbud
        rcases h.books.apart o b b' hb hb' (hall o b hb) (hall _ b' hb') hsize with hx | hx
        · cases hx
        · cases hx)
    obtain ⟨o, n, hn, -, -⟩ := h.books.tiled.covers 0 (Nat.two_pow_pos _)
    obtain ⟨b, hb, rfl⟩ := map_eq_some_iff.mp hn
    obtain ⟨rfl, hsize⟩ := hone o b.size hn
    refine ⟨⟨b, hb, hsize.trans h.pool_eq.symm⟩, ?_⟩
    intro o' b' hb'
    exact (hone o' b'.size (Books.size_of hb')).1

theorem good_of_reachable (h₀ : Good a m s₀ none) (h : Reachable s₀ s) : Good a m s none := by
  induction h with
  | init => exact h₀
  | @allocate s s' size request_id out _ hok ih =>
    by_cases hpos : 0 < size
    · obtain ⟨s₁, out₁, hok₁, hgood, -⟩ := allocate_spec ih hpos request_id
      rw [hok, Except.ok.injEq, Prod.mk.injEq] at hok₁
      rw [hok₁.1]
      exact hgood
    · unfold LightningH3.BuddyAllocator.allocate at hok
      rw [if_pos (by omega)] at hok
      cases hok
  | @free s s' o freed _ hok ih =>
    obtain ⟨s₁, freed₁, hok₁, hgood, -⟩ := free_spec ih o
    rw [hok, Except.ok.injEq, Prod.mk.injEq] at hok₁
    rw [hok₁.1]
    exact hgood

theorem init_ok {pool_size : ℤ} {min_block_size : ℕ}
    (h : init pool_size min_block_size = .ok s₀) : ∃ a, min_block_size = 2 ^ a ∧
      s₀.min_block_size = 2 ^ a ∧ s₀.pool_size = next_power_of_2 (max pool_size min_block_size) ∧
      s₀.max_order = size_to_order (2 ^ a) s₀.pool_size ∧
      s₀.free_lists = (fun order => if order = s₀.max_order then [0] else []) ∧
      s₀.blocks = (fun o => if o = 0 then some ⟨0, s₀.pool_size, false, none⟩ else none) ∧
      s₀.allocated_bytes = 0 := by
  unfold init at h
  split at h
  · cases h
  · rename_i hmin
    rw [not_or, not_not] at hmin
    obtain ⟨a, ha⟩ := (Nat.and_sub_one_eq_zero_iff_isPowerOfTwo hmin.1).mp hmin.2
    cases h
    exact ⟨a, ha, ha, rfl, by rw [← ha], rfl, rfl, rfl⟩

theorem good_init {pool_size : ℤ} {min_block_size p : ℕ}
    (h : init pool_size min_block_size = .ok s₀)
    (hp : next_power_of_2 (max pool_size min_block_size) = 2 ^ p) : ∃ a m, Good a m s₀ none := by
  obtain ⟨a, hmin, hmin', hpool, horder, hlists, hblocks, hbytes⟩ := init_ok h
  have hpos : 0 < max pool_size min_block_size := by
    have : 0 < min_block_size := by rw [hmin]; exact Nat.two_pow_pos a
    omega
  have hap : a ≤ p := by
    have hge := (next_power_of_2_bounds hpos).1
    have hle : 2 ^ a ≤ 2 ^ p := by omega
    exact (Nat.pow_le_pow_iff_right (by omega)).mp hle
  obtain ⟨m, rfl⟩ := Nat.exists_eq_add_of_le hap
  rw [hp] at hpool
  rw [hpool, size_to_order_pow] at horder
  rw [hpool] at hblocks
  rw [horder] at hlists
  refine ⟨a, m, hmin', hpool, horder, ?_⟩
  have hone : ∀ o b, s₀.blocks o = some b → o = 0 ∧ b = ⟨0, 2 ^ (a + m), false, none⟩ := by
    intro o b hb
    rw [hblocks] at hb
    dsimp only at hb
    split at hb
    · rename_i ho
      cases hb
      exact ⟨ho, rfl⟩
    · cases hb
  refine ⟨?_, ?_, ?_, ?_, ?_, ?_, ?_⟩
  · intro o b hb
    obtain ⟨rfl, rfl⟩ := hone o b hb
    rfl
  · apply Tiling.single (Nat.two_pow_pos _)
    intro o
    rw [sizes, hblocks]
    dsimp only
    split
    · rfl
    · rfl
  · intro o b hb
    obtain ⟨rfl, rfl⟩ := hone o b hb
    exact ⟨m, Nat.le_refl m, rfl, Nat.dvd_zero _⟩
  · intro k o
    rw [hlists]
    dsimp only
    constructor
    · intro hmem
      split at hmem
      · rename_i hk
        rw [List.mem_singleton] at hmem
        subst hmem hk
        refine ⟨(some_ne_none _).symm, ⟨0, 2 ^ (a + k), false, none⟩, ?_, rfl, rfl⟩
        rw [hblocks]
        rfl
      · cases hmem
    · rintro ⟨-, b, hb, -, hsize⟩
      obtain ⟨rfl, rfl⟩ := hone o b hb
      rw [if_pos (Books.pow_inj hsize).symm]
      exact List.mem_singleton_self 0
  · intro k
    rw [hlists]
    dsimp only
    split
    · exact List.nodup_singleton 0
    · exact List.nodup_nil
  · intro o b b' hb hb' _ _ _
    obtain ⟨rfl, rfl⟩ := hone o b hb
    have hz := (hone _ b' hb').1
    rw [Nat.zero_xor] at hz
    exact absurd hz (Nat.two_pow_pos _).ne'
  · rw [hbytes, hblocks]
    symm
    apply Finset.sum_eq_zero
    intro o _
    dsimp only
    split
    · rfl
    · rfl

/-- **The buddy allocator.** In every state of every run the blocks partition the pool and the free
lists and the byte count say which of them are free, and every call answers as it should, exactly
for the pool sizes without a gap of 64 zero bits. -/
theorem buddy_invariant {pool_size : ℤ} {min_block_size : ℕ}
    (h : init pool_size min_block_size = .ok s₀) : (∀ s, Reachable s₀ s → Invariant s ∧ Answers s) ↔
      NoGap ((max pool_size min_block_size).toNat - 1) := by
  obtain ⟨a, hmin, -, hpool, -, -, hblocks, -⟩ := init_ok h
  have hpos : 0 < max pool_size min_block_size := by
    have : 0 < min_block_size := by rw [hmin]; exact Nat.two_pow_pos a
    omega
  rw [← next_power_of_2_iff hpos]
  constructor
  · intro hall
    -- the root block is a power of two
    obtain ⟨hinv, -⟩ := hall s₀ .init
    obtain ⟨j, hj, -⟩ := hinv.aligned 0 ⟨0, s₀.pool_size, false, none⟩ (by rw [hblocks]; rfl)
    exact ⟨j, by rw [← hpool]; exact hj⟩
  · rintro ⟨p, hp⟩ s hs
    obtain ⟨a, m, hgood⟩ := good_init h hp
    have hgood' := good_of_reachable hgood hs
    exact ⟨invariant_of_good hgood', answers_of_good hgood'⟩

end runs

/-- A pool of 1000 bytes in blocks of 64 and up. -/
theorem small_pool_invariant : ∃ s₀, init 1000 64 = .ok s₀ ∧
    ∀ s, Reachable s₀ s → Invariant s ∧ Answers s := by
  refine ⟨_, rfl, (@buddy_invariant _ 1000 64 rfl).mpr ?_⟩
  exact noGap_of_lt (by decide)

/-- **A pool past 64 bits.** For `2 ^ 64 + 1` bytes the pool is made one byte short of `2 ^ 65`; its
block is no power of two. -/
theorem huge_pool_not_power_of_2 : ∃ s₀, init (2 ^ 64 + 1) 1 = .ok s₀ ∧
    s₀.pool_size = 2 ^ 65 - 1 ∧ ¬ Invariant s₀ := by
  have hinit : ∃ s₀, init (2 ^ 64 + 1) 1 = .ok s₀ := ⟨_, by unfold init; rfl⟩
  obtain ⟨s₀, hs₀⟩ := hinit
  obtain ⟨a, -, -, hpool, -, -, hblocks, -⟩ := init_ok hs₀
  refine ⟨s₀, hs₀, hpool, ?_⟩
  intro hinv
  obtain ⟨j, hj, -⟩ := hinv.aligned 0 ⟨0, s₀.pool_size, false, none⟩ (by rw [hblocks]; rfl)
  rw [hpool] at hj
  -- `2 ^ 65 - 1` is odd and not `1`
  cases j with
  | zero => exact absurd hj (by decide)
  | succ j =>
    have hodd : (2 ^ 65 - 1) % 2 = 1 := by decide
    have hj' : 2 ^ 65 - 1 = 2 ^ j * 2 := hj
    rw [hj', Nat.mul_mod_left] at hodd
    cases hodd

end LightningH3.BuddyAllocator
