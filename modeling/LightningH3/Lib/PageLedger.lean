/-
Who has a page.

The pages `1 .. n` of a pool are shared out between a list of free pages and owners of any kind:
every page is on the list once or belongs to one owner, and page `0` to nobody. Owners take pages
from the list and give pages back; `PageLedger.take` and `PageLedger.give` say when the books stay
balanced.
-/
import Mathlib.Data.List.Nodup
import Mathlib.Data.List.Perm.Basic
import Mathlib.Data.Int.Notation

set_option autoImplicit false

/-- The pages `1 .. n`, each on the list `pool` once or with one owner. -/
structure PageLedger {κ : Type} (n : ℤ) (pool : List ℤ) (owns : κ → ℤ → Prop) : Prop where
  nodup : pool.Nodup
  covers : ∀ p, (p ∈ pool ∨ ∃ k, owns k p) ↔ 1 ≤ p ∧ p ≤ n
  apart : ∀ k p, owns k p → p ∉ pool
  single : ∀ k k' p, owns k p → owns k' p → k = k'

namespace PageLedger

variable {κ : Type} {n : ℤ} {pool rest taken given : List ℤ} {owns owns' new : κ → ℤ → Prop}

section

variable (h : PageLedger n pool owns)
include h

theorem owned_range {k : κ} {p : ℤ} (hk : owns k p) : 1 ≤ p ∧ p ≤ n :=
  (h.covers p).mp (.inr ⟨k, hk⟩)

theorem pool_range {p : ℤ} (hp : p ∈ pool) : 1 ≤ p ∧ p ≤ n :=
  (h.covers p).mp (.inl hp)

theorem perm (hp : pool.Perm rest) : PageLedger n rest owns where
  nodup := hp.nodup_iff.mp h.nodup
  covers p := by rw [← hp.mem_iff, h.covers]
  apart k p hk := by
    rw [← hp.mem_iff]
    exact h.apart k p hk
  single := h.single

theorem congr (ho : ∀ k p, owns' k p ↔ owns k p) : PageLedger n pool owns' where
  nodup := h.nodup
  covers p := by simp only [ho, h.covers]
  apart k p hk := h.apart k p ((ho k p).mp hk)
  single k k' p hk hk' := h.single k k' p ((ho k p).mp hk) ((ho k' p).mp hk')

omit h in
/-- **Taking.** The pages `taken` leave the pool, each for one new owner. -/
theorem take (h : PageLedger n (taken ++ rest) owns) (ho : ∀ k p, owns' k p ↔ owns k p ∨ new k p)
    (hin : ∀ k p, new k p → p ∈ taken) (hall : ∀ p ∈ taken, ∃ k, new k p)
    (hone : ∀ k k' p, new k p → new k' p → k = k') : PageLedger n rest owns' := by
  obtain ⟨-, hrest, hdis⟩ := List.nodup_append.mp h.nodup
  refine ⟨hrest, ?_, ?_, ?_⟩
  · intro p
    rw [← h.covers, List.mem_append]
    constructor
    · rintro (hp | ⟨k, hk⟩)
      · exact .inl (.inr hp)
      · rcases (ho k p).mp hk with hk | hk
        · exact .inr ⟨k, hk⟩
        · exact .inl (.inl (hin k p hk))
    · rintro ((hp | hp) | ⟨k, hk⟩)
      · obtain ⟨k, hk⟩ := hall p hp
        exact .inr ⟨k, (ho k p).mpr (.inr hk)⟩
      · exact .inl hp
      · exact .inr ⟨k, (ho k p).mpr (.inl hk)⟩
  · intro k p hk hp
    rcases (ho k p).mp hk with hk | hk
    · exact h.apart k p hk (List.mem_append_right _ hp)
    · exact hdis p (hin k p hk) p hp rfl
  · intro k k' p hk hk'
    -- an old owner's page was not in the pool, a new owner's page was
    rcases (ho k p).mp hk with hk | hk <;> rcases (ho k' p).mp hk' with hk' | hk'
    · exact h.single k k' p hk hk'
    · exact absurd (List.mem_append_left _ (hin k' p hk')) (h.apart k p hk)
    · exact absurd (List.mem_append_left _ (hin k p hk)) (h.apart k' p hk')
    · exact hone k k' p hk hk'

/-- **Giving back.** The pages `given` go to the pool, their owners lose them. -/
theorem give (hnd : given.Nodup) (hgiven : ∀ p ∈ given, ∃ k, owns k p)
    (ho : ∀ k p, owns' k p ↔ owns k p ∧ p ∉ given) : PageLedger n (given ++ pool) owns' := by
  refine ⟨?_, ?_, ?_, ?_⟩
  · rw [List.nodup_append]
    refine ⟨hnd, h.nodup, ?_⟩
    rintro p hp q hq rfl
    obtain ⟨k, hk⟩ := hgiven p hp
    exact h.apart k p hk hq
  · intro p
    rw [← h.covers, List.mem_append]
    constructor
    · rintro ((hp | hp) | ⟨k, hk⟩)
      · exact .inr (hgiven p hp)
      · exact .inl hp
      · exact .inr ⟨k, ((ho k p).mp hk).1⟩
    · rintro (hp | ⟨k, hk⟩)
      · exact .inl (.inr hp)
      · by_cases hp : p ∈ given
        · exact .inl (.inl hp)
        · exact .inr ⟨k, (ho k p).mpr ⟨hk, hp⟩⟩
  · intro k p hk hp
    obtain ⟨hk, hnot⟩ := (ho k p).mp hk
    rcases List.mem_append.mp hp with hp | hp
    · exact hnot hp
    · exact h.apart k p hk hp
  · intro k k' p hk hk'
    exact h.single k k' p ((ho k p).mp hk).1 ((ho k' p).mp hk').1

end

theorem full (hnd : pool.Nodup) (hp : ∀ p, p ∈ pool ↔ 1 ≤ p ∧ p ≤ n) (ho : ∀ k p, ¬ owns k p) :
    PageLedger n pool owns where
  nodup := hnd
  covers p := by
    rw [← hp]
    exact ⟨fun h => h.elim id fun ⟨k, hk⟩ => absurd hk (ho k p), .inl⟩
  apart k p hk := absurd hk (ho k p)
  single k _ p hk := absurd hk (ho k p)

end PageLedger
