/-
Removing entries of a list by their positions, and where the others go.

The entries that stay keep their order, so the one at position `p` moves to the number of
positions below `p` that stay.
-/
import Mathlib.Data.List.Range

set_option autoImplicit false

namespace Positions

open List

variable {α : Type}

/-- The entries whose positions, counted from `i` on, are not among `indices`. -/
def keep (indices : List ℕ) : ℕ → List α → List α
  | _, [] => []
  | i, x :: xs => if i ∈ indices then keep indices (i + 1) xs else x :: keep indices (i + 1) xs

/-- The list without the entries at some positions. -/
def without (xs : List α) (indices : List ℕ) : List α := keep indices 0 xs

/-- How many of the positions below `p` stay. -/
def rank (indices : List ℕ) (p : ℕ) : ℕ := (List.range p).countP fun i => decide (i ∉ indices)

variable {indices : List ℕ}

theorem keep_congr {indices' : List ℕ} (h : ∀ i, i ∈ indices ↔ i ∈ indices') (i : ℕ) (xs : List α) :
    keep indices i xs = keep indices' i xs := by
  induction xs generalizing i with
  | nil => rfl
  | cons x xs ih =>
    unfold keep
    rw [ih]
    exact if_congr (h i) rfl rfl

variable {i : ℕ}

theorem keep_of_lt (h : ∀ j ∈ indices, j < i) (xs : List α) : keep indices i xs = xs := by
  induction xs generalizing i with
  | nil => rfl
  | cons x xs ih =>
    unfold keep
    rw [if_neg fun hi => Nat.lt_irrefl i (h i hi), ih fun j hj => Nat.lt_succ_of_lt (h j hj)]

theorem keep_eraseIdx {k : ℕ} (h : ∀ j ∈ indices, j < i + k) (xs : List α) :
    keep ((i + k) :: indices) i xs = keep indices i (xs.eraseIdx k) := by
  induction xs generalizing i k with
  | nil => rfl
  | cons x xs ih =>
    cases k with
    | zero =>
      rw [Nat.add_zero] at h ⊢
      rw [keep_of_lt h]
      unfold keep
      rw [if_pos mem_cons_self]
      apply keep_of_lt
      intro j hj
      rcases mem_cons.mp hj with rfl | hj
      · exact Nat.lt_succ_self j
      · exact Nat.lt_succ_of_lt (h j hj)
    | succ k =>
      have hadd : i + (k + 1) = i + 1 + k := by omega
      unfold keep
      rw [hadd, ih (by rw [← hadd]; exact h)]
      apply if_congr ?_ rfl rfl
      rw [mem_cons]
      constructor
      · rintro (heq | hmem)
        · omega
        · exact hmem
      · exact Or.inr

theorem without_eraseIdx {k : ℕ} (h : ∀ j ∈ indices, j < k) (xs : List α) :
    without xs (k :: indices) = without (xs.eraseIdx k) indices := by
  have herase := keep_eraseIdx (i := 0) (k := k) (by rw [Nat.zero_add]; exact h) xs
  rw [Nat.zero_add] at herase
  exact herase

variable {p : ℕ}

/-- **Where an entry goes.** -/
theorem getElem?_keep (h : i + p ∉ indices) (xs : List α) :
    (keep indices i xs)[(List.range' i p).countP fun j => decide (j ∉ indices)]? = xs[p]? := by
  induction xs generalizing i p with
  | nil => rfl
  | cons x xs ih =>
    unfold keep
    cases p with
    | zero =>
      rw [Nat.add_zero] at h
      rw [if_neg h]
      rfl
    | succ p =>
      have hadd : i + (p + 1) = i + 1 + p := by omega
      rw [hadd] at h
      rw [range'_succ, getElem?_cons_succ, ← ih h]
      by_cases hi : i ∈ indices
      · rw [if_pos hi, countP_cons_of_neg (by simpa using hi)]
      · rw [if_neg hi, countP_cons_of_pos (by simpa using hi), getElem?_cons_succ]

theorem getElem?_without (h : p ∉ indices) (xs : List α) :
    (without xs indices)[rank indices p]? = xs[p]? := by
  unfold without rank
  rw [range_eq_range']
  exact getElem?_keep (by rw [Nat.zero_add]; exact h) xs

theorem rank_le (indices : List ℕ) (p : ℕ) : rank indices p ≤ p := by
  have hle := countP_le_length (p := fun i => decide (i ∉ indices)) (l := List.range p)
  rw [length_range] at hle
  exact hle

theorem rank_lt (hi : i ∈ indices) (hlt : i < p) : rank indices p < p := by
  apply Nat.lt_of_le_of_ne (rank_le indices p)
  intro heq
  have hall : (List.range p).countP (fun j => decide (j ∉ indices)) = (List.range p).length := by
    rw [length_range]
    exact heq
  have hstay := countP_eq_length.mp hall i (mem_range.mpr hlt)
  rw [decide_eq_true_eq] at hstay
  exact hstay hi

end Positions
