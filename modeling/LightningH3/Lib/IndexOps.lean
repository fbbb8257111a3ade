/-
Operations on one-dimensional index tensors, as lists: indexed assignment, run lengths,
stable sorting with the positions it came from, and binary search.

Indexed assignment is sequential, so with a repeated index the last value stays.
-/
import Mathlib.Algebra.GroupWithZero.Nat
import Mathlib.Data.List.Sort
import Mathlib.Data.List.TakeDrop
import Mathlib.Data.List.Perm.Subperm

set_option autoImplicit false

namespace IndexOps

open List

variable {α : Type}

/-! ## Indexed assignment -/

/-- `xs[idx] = values`. -/
def scatter (xs : List α) (idx : List ℕ) (values : List α) : List α :=
  (idx.zip values).foldl (fun acc p => acc.set p.1 p.2) xs

theorem scatter_cons (xs : List α) (i : ℕ) (idx : List ℕ) (v : α) (values : List α) :
    scatter xs (i :: idx) (v :: values) = scatter (xs.set i v) idx values := rfl

@[simp] theorem length_scatter (xs : List α) (idx : List ℕ) (values : List α) :
    (scatter xs idx values).length = xs.length := by
  induction idx generalizing xs values with
  | nil => rfl
  | cons i idx ih =>
    cases values with
    | nil => rfl
    | cons v values => rw [scatter_cons, ih, length_set]

variable {idx : List ℕ}

theorem getElem?_scatter_of_notMem {j : ℕ} (h : j ∉ idx) (xs values : List α) :
    (scatter xs idx values)[j]? = xs[j]? := by
  induction idx generalizing xs values with
  | nil => rfl
  | cons i idx ih =>
    cases values with
    | nil => rfl
    | cons v values =>
      rw [mem_cons, not_or] at h
      rw [scatter_cons, ih h.2, getElem?_set_ne (Ne.symm h.1)]

variable {xs values : List α}

theorem getElem?_scatter (hnd : idx.Nodup) (hlen : values.length = idx.length) {k i : ℕ}
    (hk : idx[k]? = some i) (hi : i < xs.length) : (scatter xs idx values)[i]? = values[k]? := by
  induction idx generalizing xs values k with
  | nil => simp at hk
  | cons i' idx ih =>
    cases values with
    | nil => simp at hlen
    | cons v values =>
      rw [nodup_cons] at hnd
      rw [scatter_cons]
      cases k with
      | zero =>
        rw [getElem?_cons_zero, Option.some.injEq] at hk
        subst hk
        rw [getElem?_scatter_of_notMem hnd.1, getElem?_set_self hi, getElem?_cons_zero]
      | succ k =>
        exact ih hnd.2 (by simpa using hlen) hk (by simpa using hi)

theorem mem_scatter {v : α} (h : v ∈ scatter xs idx values) : v ∈ xs ∨ v ∈ values := by
  induction idx generalizing xs values with
  | nil => exact Or.inl h
  | cons i idx ih =>
    cases values with
    | nil => exact Or.inl h
    | cons w values =>
      rcases ih h with hset | hrest
      · rcases mem_or_eq_of_mem_set hset with hold | rfl
        · exact Or.inl hold
        · exact Or.inr (by simp)
      · exact Or.inr (mem_cons_of_mem _ hrest)

theorem scatter_range (h : values.length ≤ xs.length) :
    scatter xs (List.range values.length) values = values ++ xs.drop values.length := by
  refine ext_getElem? (fun i => ?_)
  rcases Nat.lt_or_ge i values.length with hi | hi
  · rw [getElem?_scatter nodup_range (by simp) (getElem?_range hi) (by omega),
      getElem?_append_left hi]
  · rw [getElem?_scatter_of_notMem (by simpa using hi), getElem?_append_right hi, getElem?_drop]
    congr 1
    omega

theorem getElem?_scatter_of_mem {writes : List (ℕ × α)} (hnd : (writes.map Prod.fst).Nodup)
    {w : ℕ × α} (hw : w ∈ writes) (hi : w.1 < xs.length) :
    (scatter xs (writes.map Prod.fst) (writes.map Prod.snd))[w.1]? = some w.2 := by
  obtain ⟨k, hk⟩ := getElem?_of_mem hw
  rw [getElem?_scatter hnd (by simp) (k := k) (by rw [getElem?_map, hk, Option.map_some]) hi,
    getElem?_map, hk, Option.map_some]

theorem scatter_append (h : idx.length = values.length) (xs : List α) (idx' : List ℕ)
    (values' : List α) :
    scatter xs (idx ++ idx') (values ++ values') = scatter (scatter xs idx values) idx' values' := by
  unfold scatter
  rw [zip_append h, foldl_append]

theorem scatter_scatter (hnd : idx.Nodup) (xs : List α) {values' : List α}
    (h : values'.length = idx.length) :
    scatter (scatter xs idx values) idx values' = scatter xs idx values' := by
  refine ext_getElem? (fun i => ?_)
  by_cases hi : i ∈ idx
  · rcases Nat.lt_or_ge i xs.length with hlt | hge
    · obtain ⟨k, hk⟩ := getElem?_of_mem hi
      rw [getElem?_scatter hnd h hk (by rw [length_scatter]; exact hlt),
        getElem?_scatter hnd h hk hlt]
    · rw [getElem?_eq_none (by simpa using hge), getElem?_eq_none (by simpa using hge)]
  · rw [getElem?_scatter_of_notMem hi, getElem?_scatter_of_notMem hi, getElem?_scatter_of_notMem hi]

/-! ## Indexed addition -/

/-- `xs.index_add_(0, idx, values)`. -/
def scatter_add [Add α] (xs : List α) (idx : List ℕ) (values : List α) : List α :=
  (idx.zip values).foldl (fun acc p => acc.modify p.1 (· + p.2)) xs

theorem scatter_add_eq_scatter [AddZeroClass α] (hnd : idx.Nodup) (xs values : List α)
    (hzero : ∀ i ∈ idx, ∀ x, xs[i]? = some x → x = 0) :
    scatter_add xs idx values = scatter xs idx values := by
  induction idx generalizing xs values with
  | nil => rfl
  | cons i idx ih =>
    cases values with
    | nil => rfl
    | cons v values =>
      rw [nodup_cons] at hnd
      have hstep : xs.modify i (· + v) = xs.set i v := by
        refine ext_getElem? (fun j => ?_)
        rw [getElem?_modify, getElem?_set]
        split
        · next hij =>
          subst hij
          split
          · next hlt =>
            have hval := hzero i (by simp) _ (getElem?_eq_getElem hlt)
            rw [getElem?_eq_getElem hlt, hval]
            exact congrArg some (zero_add v)
          · next hge =>
            rw [getElem?_eq_none (not_lt.mp hge)]
            rfl
        · simp
      show scatter_add (xs.modify i (· + v)) idx values = scatter (xs.set i v) idx values
      rw [hstep]
      refine ih hnd.2 _ _ (fun j hj x hx => ?_)
      -- the indices still to come are untouched
      have hne : i ≠ j := fun hij => hnd.1 (hij ▸ hj)
      rw [getElem?_set_ne hne] at hx
      exact hzero j (mem_cons_of_mem _ hj) x hx

/-! ## Ranks -/

/-- Entries with their rank, kept while the rank is below a bound: the front of the list. -/
theorem filter_rank (xs : List α) (k : ℕ) :
    ((xs.zipIdx.map (fun p => (p.1, decide (p.2 < k)))).filter Prod.snd).map Prod.fst
      = xs.take k := by
  have general (ys : List α) (o : ℕ) :
      (((ys.zipIdx o).map (fun p => (p.1, decide (p.2 < k)))).filter Prod.snd).map Prod.fst
        = ys.take (k - o) := by
    induction ys generalizing o with
    | nil => simp
    | cons y ys ih =>
      rw [zipIdx_cons, map_cons]
      by_cases ho : o < k
      · rw [filter_cons_of_pos (by simpa using ho), map_cons, ih,
          show k - o = (k - (o + 1)) + 1 by omega, take_succ_cons]
      · rw [filter_cons_of_neg (by simpa using ho), ih, show k - (o + 1) = 0 by omega,
          show k - o = 0 by omega, take_zero, take_zero]
  exact general xs 0

/-- The rank of a selected number among the selected ones: 0, 1, 2, … -/
theorem ranks_of_filter (n : ℕ) (row : ℕ → Bool) :
    ((List.range n).filter row).map (fun c => (List.range (c + 1)).countP row - 1)
      = List.range ((List.range n).countP row) := by
  induction n with
  | zero => rfl
  | succ n ih =>
    have hcount : (List.range (n + 1)).countP row
        = (List.range n).countP row + if row n = true then 1 else 0 := by
      rw [range_succ, countP_append, countP_singleton]
    rw [hcount]
    conv_lhs => rw [range_succ, filter_append, map_append, ih]
    by_cases hn : row n = true
    · rw [filter_cons_of_pos hn, filter_nil, map_singleton, hcount, if_pos hn,
        Nat.add_sub_cancel, range_succ]
    · rw [filter_cons_of_neg hn, filter_nil, map_nil, append_nil, if_neg hn, Nat.add_zero]

/-! ## Run lengths -/

/-- `xs.unique_consecutive(return_counts=True)`. -/
def runs [DecidableEq α] : List α → List (α × ℕ)
  | [] => []
  | x :: xs =>
    match runs xs with
    | [] => [(x, 1)]
    | (y, n) :: rest => if x = y then (y, n + 1) :: rest else (x, 1) :: (y, n) :: rest

variable {xs : List ℕ}

section Runs

variable [DecidableEq α]

theorem runs_cons (x : α) (xs : List α) : runs (x :: xs) = match runs xs with
      | [] => [(x, 1)]
      | (y, n) :: rest => if x = y then (y, n + 1) :: rest else (x, 1) :: (y, n) :: rest := rfl

theorem flatMap_runs (xs : List α) : (runs xs).flatMap (fun p => List.replicate p.2 p.1) = xs := by
  induction xs with
  | nil => rfl
  | cons x xs ih =>
    rw [runs_cons]
    cases hr : runs xs with
    | nil =>
      rw [hr] at ih
      simp [← ih]
    | cons p rest =>
      rw [hr, flatMap_cons] at ih
      by_cases hx : x = p.1
      · simp only [hx, if_true]
        rw [flatMap_cons, replicate_succ, cons_append, ih]
      · simp only [hx, if_false]
        rw [flatMap_cons, flatMap_cons, ih]
        rfl

theorem runs_pos (xs : List α) : ∀ p ∈ runs xs, 0 < p.2 := by
  induction xs with
  | nil => simp [runs]
  | cons x xs ih =>
    rw [runs_cons]
    cases hr : runs xs with
    | nil => simp
    | cons q rest =>
      rw [hr] at ih
      intro p hp
      by_cases hx : x = q.1
      · simp only [hx, if_true, mem_cons] at hp
        rcases hp with rfl | hp
        · exact Nat.succ_pos _
        · exact ih p (mem_cons_of_mem _ hp)
      · simp only [hx, if_false, mem_cons] at hp
        rcases hp with rfl | hp
        · exact Nat.one_pos
        · exact ih p (by simpa using hp)

theorem mem_of_mem_runs {xs : List α} {p : α × ℕ} (hp : p ∈ runs xs) : p.1 ∈ xs := by
  have hpos := runs_pos xs p hp
  rw [← flatMap_runs xs, mem_flatMap]
  exact ⟨p, hp, mem_replicate.mpr ⟨by omega, rfl⟩⟩

theorem mem_runs_of_mem {xs : List α} {x : α} (h : x ∈ xs) : x ∈ (runs xs).map Prod.fst := by
  rw [← flatMap_runs xs, mem_flatMap] at h
  obtain ⟨p, hp, hx⟩ := h
  rw [(mem_replicate.mp hx).2]
  exact mem_map_of_mem hp

theorem sum_counts_runs (xs : List α) : ((runs xs).map Prod.snd).sum = xs.length := by
  have h := congrArg List.length (flatMap_runs xs)
  simpa using h

theorem runs_strict (h : xs.Pairwise (· ≤ ·)) : ((runs xs).map Prod.fst).Pairwise (· < ·) := by
  induction xs with
  | nil => exact List.Pairwise.nil
  | cons x xs ih =>
    rw [pairwise_cons] at h
    have htail := ih h.2
    rw [runs_cons]
    cases hr : runs xs with
    | nil => simp
    | cons p rest =>
      rw [hr] at htail
      by_cases hx : x = p.1
      · simp only [hx]
        simpa using htail
      · simp only [hx, if_false, map_cons]
        rw [pairwise_cons]
        refine ⟨?_, by simpa using htail⟩
        intro v hv
        have hmem : ∀ w ∈ (p :: rest).map Prod.fst, x ≤ w := by
          intro w hw
          obtain ⟨q, hq, rfl⟩ := mem_map.mp hw
          exact h.1 q.1 (mem_of_mem_runs (hr ▸ hq))
        rw [map_cons, pairwise_cons] at htail
        have hxp : x < p.1 := by
          have := hmem p.1 (by simp)
          omega
        rcases mem_cons.mp hv with rfl | hv'
        · exact hxp
        · exact hxp.trans (htail.1 v hv')

theorem runs_map {β : Type} [DecidableEq β] {f : α → β} (hf : Function.Injective f)
    (xs : List α) : runs (xs.map f) = (runs xs).map (fun p => (f p.1, p.2)) := by
  induction xs with
  | nil => rfl
  | cons x xs ih =>
    rw [map_cons, runs_cons, runs_cons, ih]
    cases hr : runs xs with
    | nil => rfl
    | cons p rest =>
      by_cases hx : x = p.1
      · simp [hx]
      · simp [hx, hf.eq_iff]

/-- Strictly increasing numbers below their own count are `0, 1, 2, …`. -/
theorem eq_range_of_strict (hs : xs.Pairwise (· < ·))
    (hb : ∀ x ∈ xs, x < xs.length) : xs = List.range xs.length := by
  have hnd : xs.Nodup := hs.imp (fun h => Nat.ne_of_lt h)
  have hsub : xs ⊆ List.range xs.length := fun x hx => mem_range.mpr (hb x hx)
  have hperm : xs.Perm (List.range xs.length) :=
    (List.Nodup.subperm hnd hsub).perm_of_length_le (by simp)
  refine hperm.eq_of_pairwise (fun a b _ _ h₁ h₂ => absurd h₂ (Nat.lt_asymm h₁)) hs ?_
  exact pairwise_lt_range

end Runs

/-! ## Sorting with positions -/

section Sorting

variable [LinearOrder α]

/-- `torch.sort(xs, stable=True)`: the values in ascending order, each with its original
position. -/
def stable_sort (xs : List α) : List (α × ℕ) := xs.zipIdx.insertionSort (fun a b => a.1 ≤ b.1)

section

variable (xs : List α)

theorem stable_sort_perm : (stable_sort xs).Perm xs.zipIdx :=
  perm_insertionSort _ _

theorem stable_sort_order_perm : ((stable_sort xs).map Prod.snd).Perm (List.range xs.length) := by
  have h := (stable_sort_perm xs).map Prod.snd
  rw [zipIdx_map_snd] at h
  rw [range_eq_range']
  exact h

@[simp] theorem length_stable_sort : (stable_sort xs).length = xs.length := by
  rw [(stable_sort_perm xs).length_eq, length_zipIdx]

theorem stable_sort_sorted : ((stable_sort xs).map Prod.fst).Pairwise (· ≤ ·) := by
  rw [pairwise_map]
  exact pairwise_insertionSort _ _

theorem getElem?_of_mem_stable_sort {xs : List α} {p : α × ℕ} (h : p ∈ stable_sort xs) :
    xs[p.2]? = some p.1 :=
  mem_zipIdx_iff_getElem?.mp ((stable_sort_perm xs).mem_iff.mp h)

/-- `torch.sort(xs).values`. -/
def sorted_values (xs : List α) : List α := (stable_sort xs).map Prod.fst

theorem sorted_values_perm : (sorted_values xs).Perm xs := by
  have h := (stable_sort_perm xs).map Prod.fst
  rwa [zipIdx_map_fst] at h

@[simp] theorem length_sorted_values : (sorted_values xs).length = xs.length :=
  (sorted_values_perm xs).length_eq

end

end Sorting

/-- Marked entries, with the unmarked ones replaced by a sentinel. -/
def with_sentinel (n : ℕ) (candidates : List (ℕ × Bool)) : List ℕ :=
  candidates.map (fun p => if p.2 = true then p.1 else n)

def marked (candidates : List (ℕ × Bool)) : List ℕ :=
  (candidates.filter Prod.snd).map Prod.fst

theorem with_sentinel_perm (n : ℕ) (candidates : List (ℕ × Bool)) :
    (with_sentinel n candidates).Perm
      (marked candidates ++ List.replicate (candidates.length - (marked candidates).length) n) := by
  induction candidates with
  | nil => exact List.Perm.refl _
  | cons p rest ih =>
    have hle : (marked rest).length ≤ rest.length := by
      unfold marked
      rw [length_map]
      exact length_filter_le _ _
    by_cases hp : p.2 = true
    · have hm : marked (p :: rest) = p.1 :: marked rest := by
        unfold marked
        rw [filter_cons_of_pos hp, map_cons]
      have hw : with_sentinel n (p :: rest) = p.1 :: with_sentinel n rest := by
        unfold with_sentinel
        rw [map_cons, if_pos hp]
      rw [hm, hw, length_cons, length_cons, Nat.add_sub_add_right]
      exact ih.cons _
    · have hm : marked (p :: rest) = marked rest := by
        unfold marked
        rw [filter_cons_of_neg hp]
      have hw : with_sentinel n (p :: rest) = n :: with_sentinel n rest := by
        unfold with_sentinel
        rw [map_cons, if_neg hp]
      rw [hm, hw, length_cons, Nat.succ_sub hle]
      exact (ih.cons n).trans perm_middle.symm

/-- **Compaction by sorting.** With every marked entry below the sentinel, sorting moves
the marked entries, in order, before the sentinels. -/
theorem sorted_with_sentinel {n : ℕ} {candidates : List (ℕ × Bool)}
    (hlt : ∀ x ∈ marked candidates, x < n) :
    sorted_values (with_sentinel n candidates) = sorted_values (marked candidates)
      ++ List.replicate (candidates.length - (marked candidates).length) n := by
  have hmem : ∀ x ∈ sorted_values (marked candidates), x < n := fun x hx =>
    hlt x ((sorted_values_perm _).mem_iff.mp hx)
  refine List.Perm.eq_of_pairwise (fun a b _ _ (h₁ : a ≤ b) h₂ => Nat.le_antisymm h₁ h₂)
    (stable_sort_sorted _) ?_ ?_
  · rw [pairwise_append]
    refine ⟨stable_sort_sorted _, ?_, ?_⟩
    · rw [pairwise_replicate]
      exact Or.inr (Nat.le_refl _)
    · intro a ha b hb
      have := hmem a ha
      rw [(mem_replicate.mp hb).2]
      omega
  · refine ((sorted_values_perm _).trans (with_sentinel_perm n candidates)).trans ?_
    exact (sorted_values_perm _).symm.append_right _

theorem sorted_values_strict (h : xs.Nodup) : (sorted_values xs).Pairwise (· < ·) := by
  have hnd : (sorted_values xs).Nodup := (sorted_values_perm xs).nodup_iff.mpr h
  exact (stable_sort_sorted xs).imp₂ (fun a b hab hne => lt_of_le_of_ne hab hne) hnd

/-! ## Binary search -/

/-- The search loop of `searchsorted` on a possibly unsorted sequence: the window
`[lo, hi)` is halved until it is empty. -/
def search (xs : List ℕ) (below : ℕ → Bool) : ℕ → ℕ → ℕ → ℕ
  | 0, lo, _ => lo
  | fuel + 1, lo, hi =>
    if lo < hi then
      let mid := lo + (hi - lo) / 2
      if below (xs.getD mid 0) then search xs below fuel (mid + 1) hi
      else search xs below fuel lo mid
    else lo

/-- `torch.searchsorted(xs, v)`. -/
def searchsorted (xs : List ℕ) (v : ℕ) : ℕ :=
  search xs (fun x => decide (x < v)) xs.length 0 xs.length

/-- `torch.searchsorted(xs, v, right=True)`. -/
def searchsorted_right (xs : List ℕ) (v : ℕ) : ℕ :=
  search xs (fun x => decide (x ≤ v)) xs.length 0 xs.length

theorem search_bounds (xs : List ℕ) (below : ℕ → Bool) (fuel : ℕ) :
    ∀ lo hi, lo ≤ hi → lo ≤ search xs below fuel lo hi ∧ search xs below fuel lo hi ≤ hi := by
  induction fuel with
  | zero => intro lo hi h; exact ⟨Nat.le_refl _, h⟩
  | succ fuel ih =>
    intro lo hi h
    unfold search
    split
    · next hlt =>
      simp only
      split
      · have := ih (lo + (hi - lo) / 2 + 1) hi (by omega)
        omega
      · have := ih lo (lo + (hi - lo) / 2) (by omega)
        omega
    · exact ⟨Nat.le_refl _, h⟩

variable {below : ℕ → Bool}

theorem search_mono (xs : List ℕ) {below' : ℕ → Bool} (himp : ∀ x, below x = true → below' x = true)
    (fuel : ℕ) : ∀ lo hi, lo ≤ hi → hi - lo ≤ fuel →
      search xs below fuel lo hi ≤ search xs below' fuel lo hi := by
  induction fuel with
  | zero => intro lo hi _ _; exact Nat.le_refl _
  | succ fuel ih =>
    intro lo hi _ hfuel
    unfold search
    split
    · next hlt =>
      simp only
      set mid := lo + (hi - lo) / 2
      cases hb : below (xs.getD mid 0) with
      | true =>
        rw [himp _ hb]
        exact ih (mid + 1) hi (by omega) (by omega)
      | false =>
        cases hb' : below' (xs.getD mid 0) with
        | true =>
          -- the two searches part here, on either side of `mid`
          simp only [if_true, Bool.false_eq_true, if_false]
          have h₁ := search_bounds xs below fuel lo mid (by omega)
          have h₂ := search_bounds xs below' fuel (mid + 1) hi (by omega)
          omega
        | false =>
          exact ih lo mid (by omega) (by omega)
    · exact Nat.le_refl _

theorem search_of_false (xs : List ℕ) (h : ∀ x, below x = false) (fuel : ℕ) :
    ∀ lo hi, search xs below fuel lo hi = lo := by
  induction fuel with
  | zero => intro lo hi; rfl
  | succ fuel ih =>
    intro lo hi
    unfold search
    split
    · simp only [h]
      exact ih _ _
    · rfl

theorem search_of_true (h : ∀ x ∈ xs, below x = true) (fuel : ℕ) :
    ∀ lo hi, lo ≤ hi → hi ≤ xs.length → hi - lo ≤ fuel → search xs below fuel lo hi = hi := by
  induction fuel with
  | zero =>
    intro lo hi h₁ _ h₂
    show lo = hi
    omega
  | succ fuel ih =>
    intro lo hi h₁ hlen h₂
    unfold search
    split
    · next hlt =>
      have hmid : lo + (hi - lo) / 2 < xs.length := by omega
      simp only [getD_eq_getElem?_getD, getElem?_eq_getElem hmid, Option.getD_some,
        h _ (getElem_mem hmid)]
      exact ih _ _ (by omega) hlen (by omega)
    · omega

/-- Where the test holds up to a place and nowhere past it, the search finds the place. -/
theorem search_eq {k : ℕ} (hlow : ∀ i, i < k → below (xs.getD i 0) = true)
    (hhigh : ∀ i, k ≤ i → i < xs.length → below (xs.getD i 0) = false) (fuel : ℕ) :
    ∀ lo hi, lo ≤ k → k ≤ hi → hi ≤ xs.length → hi - lo ≤ fuel →
      search xs below fuel lo hi = k := by
  induction fuel with
  | zero =>
    intro lo hi h₁ h₂ _ hfuel
    show lo = k
    omega
  | succ fuel ih =>
    intro lo hi h₁ h₂ hlen hfuel
    unfold search
    split
    · next hlt =>
      simp only
      set mid := lo + (hi - lo) / 2
      rcases Nat.lt_or_ge mid k with hk | hk
      · rw [if_pos (hlow mid hk)]
        exact ih _ _ (by omega) h₂ hlen (by omega)
      · rw [hhigh mid hk (by omega)]
        exact ih _ _ h₁ hk (by omega) (by omega)
    · omega

theorem searchsorted_zero (xs : List ℕ) : searchsorted xs 0 = 0 :=
  search_of_false xs (fun x => by simp) _ _ _

theorem searchsorted_of_lt {v : ℕ} (h : ∀ x ∈ xs, x < v) : searchsorted xs v = xs.length :=
  search_of_true (fun x hx => by simpa using h x hx) _ _ _ (Nat.zero_le _) (Nat.le_refl _)
    (by omega)

theorem searchsorted_mono (xs : List ℕ) {v w : ℕ} (h : v ≤ w) :
    searchsorted xs v ≤ searchsorted xs w := by
  refine search_mono xs (fun x hx => ?_) xs.length 0 xs.length (Nat.zero_le _) (by omega)
  simp only [decide_eq_true_eq] at hx ⊢
  omega

end IndexOps
