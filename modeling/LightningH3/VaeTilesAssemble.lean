/-
Tiles cover the canvas, and putting them together is seamless.

The tiles of an axis are described by `steps`: tile `i` is responsible for the positions from
its own start to the start of the next tile, the last one for all of its length. The starts
are the partial sums of the steps, their total is the canvas, and a position belongs to the
step it lies in. The assembled value at a position mixes the tile that is responsible for it
with the tiles above and to the left, which cover the position too.
-/
import Mathlib.Analysis.Convex.Hull
import LightningH3.VaeTiles

set_option autoImplicit false

namespace LightningH3.VaeTiles

open Segments List

/-! ## Splitting an axis -/

/-- The lengths that the tiles are responsible for. -/
def steps (size : ℕ) (overlaps : List ℕ) : List ℕ := overlaps.map (size - ·) ++ [size]

theorem length_steps (size : ℕ) (overlaps : List ℕ) :
    (steps size overlaps).length = overlaps.length + 1 := by
  simp [steps]

variable {i : ℕ}

theorem getD_steps (size : ℕ) (overlaps : List ℕ) (hi : i ≤ overlaps.length) :
    (steps size overlaps).getD i 0 = size - crop_at (overlaps.length + 1) overlaps i := by
  unfold steps crop_at
  rcases Nat.lt_or_eq_of_le hi with hlt | rfl
  · rw [if_pos (by omega), getD_append _ _ _ _ (by simpa using hlt),
      getD_eq_getElem _ _ (by simpa using hlt), getD_eq_getElem _ _ hlt, getElem_map]
  · simp

theorem start_steps_succ (size : ℕ) (overlaps : List ℕ) (hi : i < overlaps.length) :
    start (steps size overlaps) (i + 1)
      = start (steps size overlaps) i + (size - overlaps.getD i 0) := by
  have hlt : i < (steps size overlaps).length := by
    rw [length_steps]
    omega
  have hget := getD_steps size overlaps (show i ≤ overlaps.length by omega)
  rw [getD_eq_getElem _ _ hlt] at hget
  rw [start_succ hlt, hget, crop_at, if_pos (by omega)]

theorem sum_steps (size : ℕ) (overlaps : List ℕ) :
    (steps size overlaps).sum = start (steps size overlaps) overlaps.length + size := by
  unfold steps start
  simp

/-- **What a tiling is**: tiles of one size, each overlap with the next one between the
minimum and a tile, the steps adding up to the axis. -/
structure Tiles (vae_ratio tile_overlap_min input_len size : ℕ) (t : Tiling) : Prop where
  starts : t.tile_start_idx
    = (List.range (t.overlaps.length + 1)).map (start (steps size t.overlaps))
  lens : t.tile_len = List.replicate (t.overlaps.length + 1) size
  overlap_min : ∀ o ∈ t.overlaps, tile_overlap_min ≤ o
  overlap_lt : ∀ o ∈ t.overlaps, o < size
  total : (steps size t.overlaps).sum = input_len
  size_dvd : vae_ratio ∣ size
  overlap_dvd : ∀ o ∈ t.overlaps, vae_ratio ∣ o

section Tiling

variable {vae_ratio tile_overlap_min input_len size : ℕ} {t : Tiling}

theorem Tiles.inside (h : Tiles vae_ratio tile_overlap_min input_len size t) {i : ℕ}
    (hi : i ≤ t.overlaps.length) : start (steps size t.overlaps) i + size ≤ input_len := by
  rw [← h.total, sum_steps]
  have := start_mono (steps size t.overlaps) hi
  omega

theorem Tiles.covers (h : Tiles vae_ratio tile_overlap_min input_len size t) {p : ℕ}
    (hp : p < input_len) : ∃ i ≤ t.overlaps.length, start (steps size t.overlaps) i ≤ p
      ∧ p < start (steps size t.overlaps) i + size := by
  rw [← h.total] at hp
  obtain ⟨i, hi, hle, hlt⟩ := exists_segment _ hp
  have hi' := hi
  rw [length_steps] at hi'
  refine ⟨i, by omega, hle, ?_⟩
  have hget := getD_steps size t.overlaps (show i ≤ t.overlaps.length by omega)
  rw [getD_eq_getElem _ _ hi] at hget
  omega

end Tiling

/-! ### The loops of `split_tiles` -/

theorem remaining_succ (size overlap_min input_len : ℕ) {N : ℕ} (hN : 1 ≤ N) :
    remaining size overlap_min input_len (N + 1)
      = remaining size overlap_min input_len N + size - overlap_min := by
  obtain ⟨n, rfl⟩ := Nat.exists_eq_add_of_le' hN
  unfold remaining
  simp only [sum_replicate_nat]
  push_cast
  ring

variable {size : ℕ}

theorem tile_count_spec {overlap_min input_len : ℕ} (hlt : overlap_min < size) :
    ∀ (fuel N : ℕ), 1 ≤ N → 0 < fuel → -remaining size overlap_min input_len N < fuel →
      ∃ M, tile_count size overlap_min input_len fuel N = some M ∧ N ≤ M
        ∧ 0 ≤ remaining size overlap_min input_len M
        ∧ (M = N ∨ remaining size overlap_min input_len M < size - overlap_min) := by
  intro fuel
  induction fuel with
  | zero =>
    intro N _ hfuel
    omega
  | succ fuel ih =>
    intro N hN _ hfuel
    unfold tile_count
    by_cases hneg : remaining size overlap_min input_len N < 0
    · rw [if_pos hneg]
      have hsucc := remaining_succ size overlap_min input_len hN
      obtain ⟨M, hM, hle, hnonneg, hlast⟩ := ih (N + 1) (by omega) (by omega) (by omega)
      refine ⟨M, hM, by omega, hnonneg, Or.inr ?_⟩
      rcases hlast with rfl | h
      · omega
      · exact h
    · rw [if_neg hneg]
      exact ⟨N, rfl, Nat.le_refl _, by omega, Or.inl rfl⟩

theorem length_spread (r : ℕ) (overlaps : List ℕ) (units : ℕ) :
    (spread r units overlaps).length = overlaps.length := by
  induction units with
  | zero => rfl
  | succ n ih =>
    unfold spread at ih ⊢
    rw [range_succ, foldl_append, foldl_cons, foldl_nil, length_modify, ih]

theorem spread_succ (r : ℕ) (overlaps : List ℕ) (units : ℕ) : spread r (units + 1) overlaps
      = (spread r units overlaps).modify (units % overlaps.length) (· + r) := by
  have hlen := length_spread r overlaps units
  unfold spread at hlen ⊢
  rw [range_succ, foldl_append, foldl_cons, foldl_nil, hlen]

variable {r : ℕ}

theorem sum_modify {xs : List ℕ} (hi : i < xs.length) : (xs.modify i (· + r)).sum = xs.sum + r := by
  induction xs generalizing i with
  | nil => simp at hi
  | cons x xs ih =>
    cases i with
    | zero =>
      simp only [modify_zero_cons, sum_cons]
      omega
    | succ i =>
      simp only [modify_succ_cons, sum_cons]
      rw [ih (by simpa using hi)]
      omega

theorem mem_modify {xs : List ℕ} {o : ℕ} (h : o ∈ xs.modify i (· + r)) :
    o ∈ xs ∨ ∃ o' ∈ xs, o = o' + r := by
  obtain ⟨k, hk, rfl⟩ := mem_iff_getElem.mp h
  rw [getElem_modify]
  rw [length_modify] at hk
  split
  · exact Or.inr ⟨_, getElem_mem hk, rfl⟩
  · exact Or.inl (getElem_mem hk)

/-- **Handing out.** The sum grows by all the ratios; each overlap stays a multiple of the
ratio, above what it was and below what it was and everything handed out. -/
theorem spread_spec {units n overlap_min : ℕ} (hn : 0 < n) (hdvd : r ∣ overlap_min) :
    (spread r units (List.replicate n overlap_min)).sum = n * overlap_min + units * r
      ∧ ∀ o ∈ spread r units (List.replicate n overlap_min),
        overlap_min ≤ o ∧ o ≤ overlap_min + units * r ∧ r ∣ o := by
  induction units with
  | zero =>
    refine ⟨by simp [spread], fun o ho => ?_⟩
    have ho' : o ∈ List.replicate n overlap_min := ho
    rw [eq_of_mem_replicate ho']
    exact ⟨Nat.le_refl _, by omega, hdvd⟩
  | succ units ih =>
    obtain ⟨hsum, hmem⟩ := ih
    rw [spread_succ]
    refine ⟨?_, fun o ho => ?_⟩
    · rw [sum_modify, Nat.add_mul units 1]
      · omega
      · rw [length_spread, length_replicate]
        exact Nat.mod_lt _ hn
    · rw [Nat.add_mul]
      rcases mem_modify ho with h | ⟨o', h, rfl⟩
      · obtain ⟨h1, h2, h3⟩ := hmem o h
        exact ⟨h1, by omega, h3⟩
      · obtain ⟨h1, h2, h3⟩ := hmem o' h
        exact ⟨by omega, by omega, (Nat.dvd_add_right h3).mpr (Nat.dvd_refl r)⟩

theorem place_tiles_eq (overlaps : List ℕ) (h : ∀ o ∈ overlaps, o ≤ size) :
    place_tiles size overlaps
      = (List.range (overlaps.length + 1)).map (start (steps size overlaps)) := by
  induction overlaps using List.reverseRecOn with
  | nil => simp [place_tiles]
  | append_singleton overlaps o ih =>
    have ho := h o (by simp)
    have hprev := ih (fun o' ho' => h o' (by simp [ho']))
    -- the starts of the tiles before the last one do not change
    have hstart : ∀ i ≤ overlaps.length, start (steps size (overlaps ++ [o])) i
        = start (steps size overlaps) i := by
      intro i hi
      unfold steps start
      rw [map_append, append_assoc, take_append_of_le_length (by simpa using hi),
        take_append_of_le_length (by simpa using hi)]
    unfold place_tiles at hprev ⊢
    rw [foldl_append, foldl_cons, foldl_nil, hprev, length_append,
      length_singleton, range_succ (n := overlaps.length + 1), map_append, map_singleton]
    congr 1
    · refine map_congr_left (fun i hi => ?_)
      rw [mem_range] at hi
      rw [hstart i (by omega)]
    · rw [start_steps_succ size (overlaps ++ [o]) (by simp), hstart _ (Nat.le_refl _)]
      simp [range_succ]
      omega

theorem start_of_sum (overlaps : List ℕ) (h : ∀ o ∈ overlaps, o ≤ size) :
    start (steps size overlaps) overlaps.length + overlaps.sum = overlaps.length * size := by
  have hsum : start (steps size overlaps) overlaps.length = (overlaps.map (size - ·)).sum := by
    unfold steps start
    rw [take_append_of_le_length (by simp), take_of_length_le (by simp)]
  rw [hsum]
  clear hsum
  induction overlaps with
  | nil => simp
  | cons o overlaps ih =>
    have ho := h o (by simp)
    have hprev := ih (fun o' ho' => h o' (by simp [ho']))
    simp only [map_cons, sum_cons, length_cons, Nat.add_mul]
    omega

/-- **`split_tiles`.** It ends, and what it gives is a tiling. -/
theorem split_tiles_spec {vae_ratio tile_size tile_overlap_min input_len : ℕ}
    (hsize : vae_ratio ∣ tile_size) (hmin : vae_ratio ∣ tile_overlap_min)
    (hlen : vae_ratio ∣ input_len) (hlt : tile_overlap_min < tile_size) :
    ∃ t, split_tiles vae_ratio tile_size tile_overlap_min input_len = some t
      ∧ Tiles vae_ratio tile_overlap_min input_len (min tile_size input_len) t := by
  unfold split_tiles
  by_cases hsmall : tile_size ≥ input_len
  · rw [if_pos hsmall, Nat.min_eq_right hsmall]
    refine ⟨_, rfl, ?_⟩
    exact ⟨by simp, by simp, by simp, by simp, by simp [steps], hlen, by simp⟩
  · rw [if_neg hsmall, Nat.min_eq_left (by omega)]
    set N₀ := (input_len + tile_size - 1) / tile_size with hN₀
    have hceil_low : N₀ * tile_size < input_len + tile_size := by
      have := Nat.div_mul_le_self (input_len + tile_size - 1) tile_size
      rw [← hN₀] at this
      omega
    have hceil_up : input_len ≤ N₀ * tile_size := by
      have := Nat.lt_div_mul_add (a := input_len + tile_size - 1) (show 0 < tile_size by omega)
      rw [← hN₀] at this
      omega
    have hN₀_two : 2 ≤ N₀ := by
      by_contra hcon
      have hle : N₀ * tile_size ≤ 1 * tile_size := Nat.mul_le_mul_right _ (by omega)
      omega
    obtain ⟨n, hn⟩ : ∃ n, N₀ = n + 1 := ⟨N₀ - 1, by omega⟩
    -- the first count leaves less than a tile minus one overlap, or nothing
    have hmul : n * tile_overlap_min + n ≤ n * tile_size := by
      exact Nat.mul_le_mul_left n hlt
    have hrem₀ : remaining tile_size tile_overlap_min input_len N₀
        = (N₀ * tile_size : ℕ) - (n * tile_overlap_min : ℕ) - input_len := by
      unfold remaining
      rw [hn, sum_replicate_nat]
      push_cast
      ring
    rw [hn, Nat.add_mul] at hceil_low hceil_up
    rw [hn] at hrem₀
    rw [Nat.add_mul] at hrem₀
    have hreach : -remaining tile_size tile_overlap_min input_len N₀ < (input_len + 1 : ℕ) := by
      rw [hn]
      omega
    obtain ⟨M, hM, hle, hnonneg, hlast⟩ :=
      tile_count_spec hlt (input_len + 1) N₀ (by omega) (by omega) hreach
    -- in either case less than a tile without an overlap is left over
    have hleft : remaining tile_size tile_overlap_min input_len M < tile_size - tile_overlap_min := by
      rcases hlast with rfl | h
      · have hone : 1 * tile_overlap_min ≤ n * tile_overlap_min := Nat.mul_le_mul_right _ (by omega)
        rw [hn]
        omega
      · exact h
    rw [hM]
    refine ⟨_, rfl, ?_⟩
    obtain ⟨m, rfl⟩ : ∃ m, M = m + 1 := ⟨M - 1, by omega⟩
    have hm : 0 < m := by omega
    have hrem : remaining tile_size tile_overlap_min input_len (m + 1)
        = ((m * tile_size + tile_size : ℕ) : ℤ) - (m * tile_overlap_min : ℕ) - input_len := by
      unfold remaining
      rw [sum_replicate_nat]
      push_cast
      ring
    have hdvd : (vae_ratio : ℤ) ∣ remaining tile_size tile_overlap_min input_len (m + 1) := by
      rw [hrem]
      refine Int.dvd_sub (Int.dvd_sub (Int.natCast_dvd_natCast.mpr ?_)
        (Int.natCast_dvd_natCast.mpr ?_)) (Int.natCast_dvd_natCast.mpr hlen)
      · exact (Nat.dvd_add (Dvd.dvd.mul_left hsize m) hsize)
      · exact Dvd.dvd.mul_left hmin m
    set units := (remaining tile_size tile_overlap_min input_len (m + 1) / vae_ratio).toNat with hunits
    have hcount : ((units * vae_ratio : ℕ) : ℤ)
        = remaining tile_size tile_overlap_min input_len (m + 1) := by
      have hdiv := Int.ediv_mul_cancel hdvd
      have hdiv_nonneg := Int.ediv_nonneg hnonneg (Int.natCast_nonneg vae_ratio)
      push_cast
      rw [Int.toNat_of_nonneg hdiv_nonneg, hdiv]
    obtain ⟨hsum, hmem⟩ := @spread_spec _ units _ _ hm hmin
    have hlength : (spread vae_ratio units (List.replicate m tile_overlap_min)).length = m := by
      rw [length_spread, length_replicate]
    have hle_size : ∀ o ∈ spread vae_ratio units (List.replicate m tile_overlap_min),
        o < tile_size := by
      intro o ho
      have := (hmem o ho).2.1
      omega
    have htotal := start_of_sum _ (fun o ho => (hle_size o ho).le)
    rw [hlength] at htotal
    simp only [Nat.add_sub_cancel]
    refine ⟨place_tiles_eq _ (fun o ho => (hle_size o ho).le), by rw [hlength],
      fun o ho => (hmem o ho).1, hle_size, ?_, hsize, fun o ho => (hmem o ho).2.2⟩
    show (steps tile_size (spread vae_ratio units (List.replicate m tile_overlap_min))).sum = _
    rw [sum_steps, hlength]
    omega

/-! ## Assembling -/

variable {E : Type}

section Assembled

variable (K : Type) [Field K] [LinearOrder K] [IsStrictOrderedRing K] [AddCommGroup E] [Module K E]

/-- A grid of tiles of one size, for positive overlaps along both axes that are below it. -/
structure Grid (rows : List (List (Plane E))) (height width : ℕ) (y_overlap x_overlap : List ℕ) :
    Prop where
  length_rows : rows.length = y_overlap.length + 1
  length_row : ∀ i ≤ y_overlap.length, (rows.getD i []).length = x_overlap.length + 1
  height_eq : ∀ i ≤ y_overlap.length, ∀ j ≤ x_overlap.length, (tile_at rows i j).height = height
  width_eq : ∀ i ≤ y_overlap.length, ∀ j ≤ x_overlap.length, (tile_at rows i j).width = width
  y_pos : ∀ o ∈ y_overlap, 0 < o
  x_pos : ∀ o ∈ x_overlap, 0 < o
  y_lt : ∀ o ∈ y_overlap, o < height
  x_lt : ∀ o ∈ x_overlap, o < width

variable {rows : List (List (Plane E))} {height width : ℕ} {y_overlap x_overlap : List ℕ}

/-- What the tiles that cover a position of the canvas hold there. -/
def held (rows : List (List (Plane E))) (height width : ℕ) (y_overlap x_overlap : List ℕ)
    (y x : ℕ) : Set E :=
  { v | ∃ i ≤ y_overlap.length, ∃ j ≤ x_overlap.length,
      (start (steps height y_overlap) i ≤ y ∧ y < start (steps height y_overlap) i + height)
      ∧ (start (steps width x_overlap) j ≤ x ∧ x < start (steps width x_overlap) j + width)
      ∧ v = (tile_at rows i j).get (y - start (steps height y_overlap) i)
          (x - start (steps width x_overlap) j) }

variable {i : ℕ}

theorem getD_mem {xs : List ℕ} (hi : i < xs.length) : xs.getD i 0 ∈ xs := by
  rw [getD_eq_getElem _ _ hi]
  exact getElem_mem hi

omit [LinearOrder K] [IsStrictOrderedRing K] in
theorem blended_tile_size (h : Grid rows height width y_overlap x_overlap) {j : ℕ}
    (hi : i ≤ y_overlap.length) (hj : j ≤ x_overlap.length) :
    (blended_tile K rows y_overlap x_overlap i j).height = (steps height y_overlap).getD i 0
      ∧ (blended_tile K rows y_overlap x_overlap i j).width = (steps width x_overlap).getD j 0 := by
  rw [getD_steps _ _ hi, getD_steps _ _ hj]
  have hy : ∀ n, (if i < y_overlap.length + 1 - 1 then length_without n (y_overlap.getD i 0) else n)
      = n - crop_at (y_overlap.length + 1) y_overlap i := by
    intro n
    unfold crop_at length_without
    split
    · have hpos := h.y_pos _ (getD_mem (show i < y_overlap.length by omega))
      rw [if_neg (by omega)]
    · rfl
  have hx : ∀ n, (if j < x_overlap.length + 1 - 1 then length_without n (x_overlap.getD j 0) else n)
      = n - crop_at (x_overlap.length + 1) x_overlap j := by
    intro n
    unfold crop_at length_without
    split
    · have hpos := h.x_pos _ (getD_mem (show j < x_overlap.length by omega))
      rw [if_neg (by omega)]
    · rfl
  unfold blended_tile
  simp only [h.length_rows, h.length_row i hi, hy, hx]
  have hh := h.height_eq i hi j hj
  have hw := h.width_eq i hi j hj
  refine ⟨?_, ?_⟩
  · congr 1
    split <;> split <;> exact hh
  · congr 1
    split <;> split <;> exact hw

theorem mix_mem {S : Set E} {n y : ℕ} {a b : E} (hy : y < n) (ha : a ∈ convexHull K S)
    (hb : b ∈ convexHull K S) :
    ((1 : K) - (y : K) / (n : K)) • a + ((y : K) / (n : K)) • b ∈ convexHull K S := by
  have hn : (0 : K) < n := by exact_mod_cast (by omega : 0 < n)
  have hle : (y : K) ≤ n := by exact_mod_cast hy.le
  refine convex_convexHull K S ha hb ?_ ?_ (by ring)
  · rw [sub_nonneg, div_le_one hn]
    exact hle
  · exact div_nonneg (Nat.cast_nonneg y) hn.le

/-- **A written value mixes the tiles that cover its position.** -/
theorem blended_tile_mem (h : Grid rows height width y_overlap x_overlap) {j y x : ℕ}
    (hi : i ≤ y_overlap.length) (hj : j ≤ x_overlap.length)
    (hy : y < (steps height y_overlap).getD i 0) (hx : x < (steps width x_overlap).getD j 0) :
    (blended_tile K rows y_overlap x_overlap i j).get y x ∈ convexHull K
      (held rows height width y_overlap x_overlap (start (steps height y_overlap) i + y)
        (start (steps width x_overlap) j + x)) := by
  set S := held rows height width y_overlap x_overlap (start (steps height y_overlap) i + y)
    (start (steps width x_overlap) j + x) with hS
  have hy' : y < height := by
    rw [getD_steps _ _ hi] at hy
    omega
  have hx' : x < width := by
    rw [getD_steps _ _ hj] at hx
    omega
  -- the tile itself
  have hself : (tile_at rows i j).get y x ∈ convexHull K S := by
    refine subset_convexHull K S ⟨i, hi, j, hj, by omega, by omega, ?_⟩
    rw [Nat.add_sub_cancel_left, Nat.add_sub_cancel_left]
  -- faded in from above
  have habove : (if i > 0 then (tile_at rows (i - 1) j).blend_y K (tile_at rows i j)
      (y_overlap.getD (i - 1) 0) else tile_at rows i j).get y x ∈ convexHull K S := by
    split
    · rename_i hpos
      have hlt := h.y_lt _ (getD_mem (show i - 1 < y_overlap.length by omega))
      have hstep := start_steps_succ height y_overlap (show i - 1 < y_overlap.length by omega)
      rw [Nat.sub_add_cancel hpos] at hstep
      unfold Plane.blend_y
      simp only [h.height_eq (i - 1) (by omega) j hj, h.height_eq i hi j hj]
      split
      · rename_i hfade
        refine mix_mem K hfade (subset_convexHull K S ⟨i - 1, by omega, j, hj, by omega, by omega, ?_⟩)
          hself
        congr 1
        · omega
        · omega
      · exact hself
    · exact hself
  unfold blended_tile
  simp only
  split
  · rename_i hpos
    have hstep := start_steps_succ width x_overlap (show j - 1 < x_overlap.length by omega)
    rw [Nat.sub_add_cancel hpos] at hstep
    have hw : (if i > 0 then (tile_at rows (i - 1) j).blend_y K (tile_at rows i j)
        (y_overlap.getD (i - 1) 0) else tile_at rows i j).width = width := by
      split <;> exact h.width_eq i hi j hj
    unfold Plane.blend_x Plane.blend_y Plane.transpose
    unfold Plane.blend_y at habove hw
    simp only [h.width_eq i hi (j - 1) (by omega), hw]
    split
    · rename_i hfade
      refine mix_mem K hfade (subset_convexHull K S ⟨i, hi, j - 1, by omega, by omega, by omega, ?_⟩)
        habove
      congr 1
      · omega
      · omega
    · exact habove
  · exact habove

end Assembled

/-! ## Writing the tiles -/

section Written

variable (K : Type) [Field K] [AddCommGroup E] [Module K E]
variable {rows : List (List (Plane E))} {height width : ℕ} {y_overlap x_overlap : List ℕ}

/-- The value that the tile responsible for a position writes there. -/
def assembled (rows : List (List (Plane E))) (height width : ℕ) (y_overlap x_overlap : List ℕ)
    (y x : ℕ) : E :=
  let i := bucket (steps height y_overlap) y
  let j := bucket (steps width x_overlap) x
  (blended_tile K rows y_overlap x_overlap i j).get (y - start (steps height y_overlap) i)
    (x - start (steps width x_overlap) j)

theorem assemble_row_loop (h : Grid rows height width y_overlap x_overlap) {i : ℕ}
    (hi : i ≤ y_overlap.length) (c : Canvas E) : ∀ j ≤ x_overlap.length + 1,
      (List.range j).foldl (assemble_tile K rows y_overlap x_overlap
          (start (steps height y_overlap) i) i) (0, c)
        = (start (steps width x_overlap) j, ⟨c.height, c.width, fun y x =>
            if (start (steps height y_overlap) i ≤ y ∧ y < start (steps height y_overlap) (i + 1))
                ∧ x < start (steps width x_overlap) j
            then c.log y x ++ [assembled K rows height width y_overlap x_overlap y x]
            else c.log y x⟩) := by
  intro j
  induction j with
  | zero =>
    intro _
    simp
  | succ j ih =>
    intro hj
    obtain ⟨hheight, hwidth⟩ := blended_tile_size K h hi (show j ≤ x_overlap.length by omega)
    have hj' : j < (steps width x_overlap).length := by
      rw [length_steps]
      omega
    have hi' : i < (steps height y_overlap).length := by
      rw [length_steps]
      omega
    rw [getD_eq_getElem _ _ hi'] at hheight
    rw [getD_eq_getElem _ _ hj'] at hwidth
    have hrow := start_succ hi'
    have hcol := start_succ hj'
    rw [range_succ, foldl_append, ih (by omega), foldl_cons, foldl_nil, assemble_tile, hwidth, hcol]
    simp only [Canvas.write, hheight, hwidth, Prod.mk.injEq, true_and, Canvas.mk.injEq]
    funext y x
    by_cases hy : start (steps height y_overlap) i ≤ y
        ∧ y < start (steps height y_overlap) i + (steps height y_overlap)[i]
    · by_cases hx : start (steps width x_overlap) j ≤ x
          ∧ x < start (steps width x_overlap) j + (steps width x_overlap)[j]
      · -- this tile, on a place that no earlier one has written
        have hby := bucket_eq hi' hy.1 hy.2
        have hbx := bucket_eq hj' hx.1 hx.2
        rw [if_pos ⟨hy, hx⟩, if_neg (by omega), if_pos (by omega)]
        simp only [assembled, hby, hbx]
      · rw [if_neg (fun hc => hx hc.2)]
        by_cases hx' : x < start (steps width x_overlap) j
        · rw [if_pos (by omega), if_pos (by omega)]
        · rw [if_neg (by omega), if_neg (by omega)]
    · rw [if_neg (fun hc => hy hc.1), if_neg (by omega), if_neg (by omega)]

theorem assemble_rows_loop (h : Grid rows height width y_overlap x_overlap) (H W : ℕ) :
    ∀ i ≤ y_overlap.length + 1, (List.range i).foldl (assemble_row K rows y_overlap x_overlap)
          (0, (⟨H, W, fun _ _ => []⟩ : Canvas E))
        = (start (steps height y_overlap) i, ⟨H, W, fun y x =>
            if y < start (steps height y_overlap) i ∧ x < (steps width x_overlap).sum
            then [assembled K rows height width y_overlap x_overlap y x] else []⟩) := by
  intro i
  induction i with
  | zero =>
    intro _
    simp
  | succ i ih =>
    intro hi
    have hi' : i < (steps height y_overlap).length := by
      rw [length_steps]
      omega
    have hle : i ≤ y_overlap.length := by omega
    have hsucc := start_succ hi'
    have hget := getD_steps height y_overlap hle
    rw [getD_eq_getElem _ _ hi'] at hget
    have hend : start (steps width x_overlap) (x_overlap.length + 1) = (steps width x_overlap).sum := by
      rw [← length_steps width x_overlap]
      exact start_length _
    rw [range_succ, foldl_append, ih (by omega), foldl_cons, foldl_nil, assemble_row]
    simp only [h.length_row i hle, assemble_row_loop K h hle _ _ (Nat.le_refl _),
      h.height_eq i hle 0 (Nat.zero_le _), h.length_rows, hsucc, hget, Prod.mk.injEq, true_and,
      Canvas.mk.injEq]
    funext y x
    by_cases hx : x < (steps width x_overlap).sum
    · by_cases hy : y < start (steps height y_overlap) i
      · rw [if_neg (by omega), if_pos ⟨hy, hx⟩, if_pos (by omega)]
      · by_cases hy' : y < start (steps height y_overlap) i
            + (height - crop_at (y_overlap.length + 1) y_overlap i)
        · rw [if_pos (by omega), if_neg (by omega), if_pos (by omega), nil_append]
        · rw [if_neg (by omega), if_neg (by omega), if_neg (by omega)]
    · rw [if_neg (by omega), if_neg (by omega), if_neg (by omega)]

theorem map_steps (size : ℕ) (overlaps : List ℕ) : (List.range (overlaps.length + 1)).map
      (fun i => size - crop_at (overlaps.length + 1) overlaps i) = steps size overlaps := by
  refine ext_getElem (by rw [length_steps]; simp) (fun i hi hi' => ?_)
  have hle : i ≤ overlaps.length := by
    rw [length_steps] at hi'
    omega
  rw [getElem_map, getElem_range, ← getD_steps size overlaps hle, getD_eq_getElem _ _ hi']

/-- **Every position is written once.** -/
theorem assemble_tiles_eq (h : Grid rows height width y_overlap x_overlap) :
    assemble_tiles K rows y_overlap x_overlap
      = ⟨(steps height y_overlap).sum, (steps width x_overlap).sum, fun y x =>
          if y < (steps height y_overlap).sum ∧ x < (steps width x_overlap).sum
          then [assembled K rows height width y_overlap x_overlap y x] else []⟩ := by
  have hheight : (List.range (y_overlap.length + 1)).map (fun i =>
      (tile_at rows i 0).height - crop_at (y_overlap.length + 1) y_overlap i)
      = steps height y_overlap := by
    rw [← map_steps]
    refine map_congr_left (fun i hi => ?_)
    rw [mem_range] at hi
    rw [h.height_eq i (by omega) 0 (Nat.zero_le _)]
  have hwidth : (List.range (x_overlap.length + 1)).map (fun j =>
      (tile_at rows 0 j).width - crop_at (x_overlap.length + 1) x_overlap j)
      = steps width x_overlap := by
    rw [← map_steps]
    refine map_congr_left (fun j hj => ?_)
    rw [mem_range] at hj
    rw [h.width_eq 0 (Nat.zero_le _) j (by omega)]
  have hend : start (steps height y_overlap) (y_overlap.length + 1) = (steps height y_overlap).sum := by
    rw [← length_steps height y_overlap]
    exact start_length _
  unfold assemble_tiles
  simp only [h.length_rows, h.length_row 0 (Nat.zero_le _), hheight, hwidth,
    assemble_rows_loop K h _ _ _ (Nat.le_refl _), hend]

end Written

section Seamless

variable (K : Type) [Field K] [LinearOrder K] [IsStrictOrderedRing K] [AddCommGroup E] [Module K E]
variable {rows : List (List (Plane E))} {height width : ℕ} {y_overlap x_overlap : List ℕ}

section

variable {y x : ℕ} (h : Grid rows height width y_overlap x_overlap)
  (hy : y < (steps height y_overlap).sum) (hx : x < (steps width x_overlap).sum)
include h hy hx

theorem assembled_mem : assembled K rows height width y_overlap x_overlap y x
      ∈ convexHull K (held rows height width y_overlap x_overlap y x) := by
  obtain ⟨i, hi, hyle, hylt⟩ := exists_segment _ hy
  obtain ⟨j, hj, hxle, hxlt⟩ := exists_segment _ hx
  have hi' := hi
  have hj' := hj
  rw [length_steps] at hi' hj'
  have hmem := blended_tile_mem K h (show i ≤ y_overlap.length by omega)
    (show j ≤ x_overlap.length by omega)
    (y := y - start (steps height y_overlap) i) (x := x - start (steps width x_overlap) j)
    (by rw [getD_eq_getElem _ _ hi]; omega) (by rw [getD_eq_getElem _ _ hj]; omega)
  rw [Nat.add_sub_cancel' hyle, Nat.add_sub_cancel' hxle] at hmem
  simp only [assembled, bucket_eq hi hyle hylt, bucket_eq hj hxle hxlt]
  exact hmem

/-- **Seamless.** Where the tiles covering a position agree on it, that value is assembled. -/
theorem assembled_of_agree {v : E}
    (hv : ∀ w ∈ held rows height width y_overlap x_overlap y x, w = v) :
    assembled K rows height width y_overlap x_overlap y x = v := by
  have hmem := assembled_mem K h hy hx
  have hsub : held rows height width y_overlap x_overlap y x ⊆ {v} := fun w hw => hv w hw
  have hone := convexHull_mono (𝕜 := K) hsub hmem
  rwa [convexHull_singleton] at hone

end

end Seamless

end LightningH3.VaeTiles
