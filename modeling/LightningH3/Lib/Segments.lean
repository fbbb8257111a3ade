/-
A line cut into consecutive segments of given sizes.

`start sizes g` is where segment `g` begins. A position below the total lies in exactly
one segment, and that segment's number is the count of segment ends at or below the
position, which is how a bucketised prefix sum finds it.
-/
import Mathlib.Algebra.GroupWithZero.Nat
import Mathlib.Algebra.Order.BigOperators.Group.List
import Mathlib.Data.List.GetD
import Mathlib.Data.Nat.Find

set_option autoImplicit false

namespace Segments

open List

/-- Where segment `g` starts. -/
def start (sizes : List ℕ) (g : ℕ) : ℕ := (sizes.take g).sum

/-- The inclusive prefix sums: where each segment ends. -/
def cumsum (sizes : List ℕ) : List ℕ :=
  (List.range sizes.length).map (fun g => start sizes (g + 1))

/-- The number of segment ends at or below a position. -/
def bucket (sizes : List ℕ) (j : ℕ) : ℕ := (cumsum sizes).countP (fun e => decide (e ≤ j))

@[simp] theorem start_zero (sizes : List ℕ) : start sizes 0 = 0 := by simp [start]

@[simp] theorem length_cumsum (sizes : List ℕ) : (cumsum sizes).length = sizes.length := by
  simp [cumsum]

variable {sizes : List ℕ} {g : ℕ}

theorem start_succ (h : g < sizes.length) : start sizes (g + 1) = start sizes g + sizes[g] := by
  unfold start
  rw [take_add_one, getElem?_eq_getElem h, Option.toList_some, sum_append, sum_singleton]

theorem start_of_length_le (h : sizes.length ≤ g) : start sizes g = sizes.sum := by
  unfold start
  rw [take_of_length_le h]

theorem start_length (sizes : List ℕ) : start sizes sizes.length = sizes.sum :=
  start_of_length_le (Nat.le_refl _)

theorem start_mono (sizes : List ℕ) {h : ℕ} (hgh : g ≤ h) : start sizes g ≤ start sizes h := by
  induction h with
  | zero =>
    have : g = 0 := by omega
    rw [this]
  | succ h ih =>
    rcases Nat.lt_or_ge g (h + 1) with hlt | hge
    · refine (ih (by omega)).trans ?_
      by_cases hlen : h < sizes.length
      · rw [start_succ hlen]; omega
      · rw [start_of_length_le (by omega), start_of_length_le (by omega)]
    · have : g = h + 1 := by omega
      rw [this]

theorem start_le_sum (sizes : List ℕ) (g : ℕ) : start sizes g ≤ sizes.sum := by
  rcases Nat.le_total g sizes.length with h | h
  · rw [← start_length]
    exact start_mono sizes h
  · rw [start_of_length_le h]

variable {j : ℕ}

theorem exists_segment (sizes : List ℕ) (h : j < sizes.sum) :
    ∃ g, ∃ hg : g < sizes.length, start sizes g ≤ j ∧ j < start sizes g + sizes[g] := by
  -- the last start at or below `j`
  have hex : ∃ g, j < start sizes (g + 1) := ⟨sizes.length, by
    rw [start_of_length_le (by omega)]; exact h⟩
  obtain ⟨g, hg, hmin⟩ : ∃ g, j < start sizes (g + 1) ∧ ∀ k < g, ¬ j < start sizes (k + 1) :=
    ⟨Nat.find hex, Nat.find_spec hex, fun k hk => Nat.find_min hex hk⟩
  have hstart : start sizes g ≤ j := by
    cases g with
    | zero => simp
    | succ k =>
      have := hmin k (by omega)
      omega
  have hlen : g < sizes.length := by
    by_contra hge
    rw [start_of_length_le (by omega)] at hstart
    omega
  rw [start_succ hlen] at hg
  exact ⟨g, hlen, hstart, hg⟩

theorem bucket_eq (hg : g < sizes.length) (h₁ : start sizes g ≤ j)
    (h₂ : j < start sizes g + sizes[g]) : bucket sizes j = g := by
  unfold bucket cumsum
  rw [countP_map]
  have hsplit : List.range sizes.length
      = List.range g ++ (List.range (sizes.length - g)).map (fun i => g + i) := by
    rw [← range_add]
    congr 1
    omega
  rw [hsplit, countP_append]
  have hlow : (List.range g).countP ((fun e => decide (e ≤ j)) ∘ fun k => start sizes (k + 1)) = g := by
    rw [countP_eq_length.mpr]
    · exact length_range
    · intro k hk
      rw [mem_range] at hk
      have := start_mono sizes (show k + 1 ≤ g by omega)
      simp only [Function.comp_apply, decide_eq_true_eq]
      omega
  have hhigh : ((List.range (sizes.length - g)).map (fun i => g + i)).countP
      ((fun e => decide (e ≤ j)) ∘ fun k => start sizes (k + 1)) = 0 := by
    rw [countP_eq_zero]
    intro k hk
    obtain ⟨i, _, rfl⟩ := mem_map.mp hk
    have := start_mono sizes (show g + 1 ≤ g + i + 1 by omega)
    rw [start_succ hg] at this
    simp only [Function.comp_apply, decide_eq_true_eq]
    omega
  rw [hlow, hhigh, Nat.add_zero]

theorem segment_unique {h : ℕ} (hg : g < sizes.length) (hh : h < sizes.length)
    (hgj : start sizes g ≤ j ∧ j < start sizes g + sizes[g])
    (hhj : start sizes h ≤ j ∧ j < start sizes h + sizes[h]) : g = h :=
  (bucket_eq hg hgj.1 hgj.2).symm.trans (bucket_eq hh hhj.1 hhj.2)

theorem add_lt_sum {r : ℕ} (hg : g < sizes.length) (hr : r < sizes[g]) :
    start sizes g + r < sizes.sum := by
  have h1 := start_succ hg
  have h2 := start_le_sum sizes (g + 1)
  omega

theorem flatMap_segments (sizes : List ℕ) {k : ℕ} (hk : k ≤ sizes.length) :
    (List.range k).flatMap (fun g => List.range' (start sizes g) (sizes.getD g 0))
      = List.range (start sizes k) := by
  induction k with
  | zero => simp
  | succ k ih =>
    rw [range_succ, flatMap_append, ih (by omega), flatMap_singleton,
      getD_eq_getElem _ _ (by omega), start_succ (by omega), range_eq_range',
      range_eq_range', ← range'_append_1, Nat.zero_add]

theorem flatMap_blocks (count size : ℕ) :
    (List.range count).flatMap (fun g => List.range' (g * size) size)
      = List.range (count * size) := by
  induction count with
  | zero => simp
  | succ count ih =>
    rw [range_succ, flatMap_append, ih, flatMap_singleton, Nat.succ_mul,
      range_eq_range', range_eq_range', ← range'_append_1, Nat.zero_add]

theorem getElem?_flatten {α : Type} (xss : List (List α)) {r : ℕ} (hg : g < xss.length)
    (hr : r < xss[g].length) : xss.flatten[start (xss.map List.length) g + r]? = xss[g][r]? := by
  induction xss generalizing g with
  | nil => simp at hg
  | cons xs xss ih =>
    rw [flatten_cons]
    cases g with
    | zero =>
      rw [start_zero, Nat.zero_add]
      exact getElem?_append_left hr
    | succ g =>
      have hg' : g < xss.length := by simpa using hg
      have hstart : start ((xs :: xss).map List.length) (g + 1)
          = xs.length + start (xss.map List.length) g := by
        unfold start
        rw [map_cons, take_succ_cons, sum_cons]
      rw [hstart, getElem?_append_right (by omega)]
      have hsub : xs.length + start (xss.map List.length) g + r - xs.length
          = start (xss.map List.length) g + r := by omega
      rw [hsub]
      exact ih hg' hr

end Segments
