/-
Tiled coding is seamless and does not depend on the number of ranks.
-/
import LightningH3.VaeTilesParallel

set_option autoImplicit false

namespace LightningH3.VaeTiles

open Segments Fallible List

variable {A E : Type}

/-! ## Tilings in another unit -/

section Units

variable {v size : ℕ} {overlaps : List ℕ}

theorem steps_dvd (hsize : v ∣ size) (hov : ∀ o ∈ overlaps, v ∣ o) : ∀ x ∈ steps size overlaps, v ∣ x := by
  intro x hx
  rcases mem_append.mp hx with h | h
  · obtain ⟨o, ho, rfl⟩ := mem_map.mp h
    exact Nat.dvd_sub hsize (hov o ho)
  · rw [mem_singleton.mp h]
    exact hsize

theorem steps_div (hv : 0 < v) (hsize : v ∣ size) (hov : ∀ o ∈ overlaps, v ∣ o) :
    steps (size / v) (overlaps.map (· / v)) = (steps size overlaps).map (· / v) := by
  unfold steps
  rw [map_append, map_map, map_map]
  congr 1
  refine map_congr_left (fun o ho => ?_)
  obtain ⟨a, rfl⟩ := hsize
  obtain ⟨b, rfl⟩ := hov o ho
  show v * a / v - v * b / v = (v * a - v * b) / v
  rw [← Nat.mul_sub, Nat.mul_div_cancel_left _ hv, Nat.mul_div_cancel_left _ hv,
    Nat.mul_div_cancel_left _ hv]

variable {xs : List ℕ}

theorem sum_div (hv : 0 < v) (h : ∀ x ∈ xs, v ∣ x) : (xs.map (· / v)).sum = xs.sum / v := by
  induction xs with
  | nil => simp
  | cons x xs ih =>
    obtain ⟨a, ha⟩ := h x (by simp)
    rw [map_cons, sum_cons, sum_cons, ih (fun y hy => h y (by simp [hy])), ha,
      Nat.mul_div_cancel_left _ hv, Nat.add_comm (v * a), Nat.add_mul_div_left _ _ hv, Nat.add_comm]

theorem start_div (hv : 0 < v) (h : ∀ x ∈ xs, v ∣ x) (i : ℕ) :
    start (xs.map (· / v)) i = start xs i / v := by
  unfold start
  rw [← map_take, sum_div hv (fun x hx => h x (mem_of_mem_take hx))]

theorem start_dvd (h : ∀ x ∈ xs, v ∣ x) (i : ℕ) : v ∣ start xs i :=
  dvd_sum (fun x hx => h x (mem_of_mem_take hx))

end Units

section Tiling

variable {vae_ratio overlap_min input_len size : ℕ} {t : Tiling}

section

variable (h : Tiles vae_ratio overlap_min input_len size t)
include h

theorem Tiles.length_starts : t.tile_start_idx.length = t.overlaps.length + 1 := by
  rw [h.starts]
  simp

theorem Tiles.start_eq {i : ℕ} (hi : i ≤ t.overlaps.length) :
    t.tile_start_idx.getD i 0 = start (steps size t.overlaps) i := by
  rw [h.starts, getD_eq_getElem _ _ (by simp; omega), getElem_map, getElem_range]

theorem Tiles.len_eq {i : ℕ} (hi : i ≤ t.overlaps.length) : t.tile_len.getD i 0 = size := by
  rw [h.lens, getD_eq_getElem _ _ (by simp; omega), getElem_replicate]

end

end Tiling

/-! ## The tiles of a plane -/

/-- Tile `(i, j)` of a plane, cut at positions divided by `unit`. -/
def cut_tile (unit : ℕ) (y x : Tiling) (p : Plane A) (i j : ℕ) : Plane A :=
  p.slice (y.tile_start_idx.getD i 0 / unit) (y.tile_len.getD i 0 / unit)
    (x.tile_start_idx.getD j 0 / unit) (x.tile_len.getD j 0 / unit)

/-- The coded tiles of a plane, row by row. -/
def coded_grid (f : Plane A → Plane E) (unit : ℕ) (y x : Tiling) (p : Plane A) :
    List (List (Plane E)) :=
  (List.range y.tile_start_idx.length).map (fun i =>
    (List.range x.tile_start_idx.length).map (fun j => f (cut_tile unit y x p i j)))

/-- What the coded tiles that cover a position of the output hold there. -/
def tile_values (f : Plane A → Plane E) (unit out : ℕ) (y x : Tiling) (p : Plane A) (Y X : ℕ) :
    Set E :=
  { e | ∃ i < y.tile_start_idx.length, ∃ j < x.tile_start_idx.length,
      (y.tile_start_idx.getD i 0 / out ≤ Y
        ∧ Y < y.tile_start_idx.getD i 0 / out + y.tile_len.getD i 0 / out)
      ∧ (x.tile_start_idx.getD j 0 / out ≤ X
        ∧ X < x.tile_start_idx.getD j 0 / out + x.tile_len.getD j 0 / out)
      ∧ e = (f (cut_tile unit y x p i j)).get (Y - y.tile_start_idx.getD i 0 / out)
          (X - x.tile_start_idx.getD j 0 / out) }

/-- **A seamless canvas**: every position is written once, with a mix of what the tiles
covering it hold there; so where they are all restrictions of one field, with that field. -/
structure Seamless (K : Type) [Field K] [LinearOrder K] [AddCommGroup E] [Module K E]
    (c : Canvas E) (height width : ℕ) (values : ℕ → ℕ → Set E) : Prop where
  height_eq : c.height = height
  width_eq : c.width = width
  written_once : ∀ y < height, ∀ x < width, ∃ v, c.log y x = [v] ∧ v ∈ convexHull K (values y x)
  nothing_else : ∀ y x, ¬ (y < height ∧ x < width) → c.log y x = []
  of_field : ∀ field : ℕ → ℕ → E, (∀ y x, ∀ v ∈ values y x, v = field y x) →
    ∀ y < height, ∀ x < width, c.log y x = [field y x]

variable {f : Plane A → Plane E} {t : Tiling}

section Canvas

variable (K : Type) [Field K] [LinearOrder K] [IsStrictOrderedRing K] [AddCommGroup E] [Module K E]

omit [LinearOrder K] [IsStrictOrderedRing K] [AddCommGroup E] [Module K E] [Field K] in
theorem row_coded_grid {unit : ℕ} {y x : Tiling} {p : Plane A} {i : ℕ}
    (hi : i < y.tile_start_idx.length) : (coded_grid f unit y x p).getD i []
      = (List.range x.tile_start_idx.length).map (fun j => f (cut_tile unit y x p i j)) := by
  unfold coded_grid
  rw [getD_eq_getElem _ _ (by simpa using hi), getElem_map, getElem_range]

omit [LinearOrder K] [IsStrictOrderedRing K] [Module K E] [Field K] in
theorem tile_at_coded_grid {unit : ℕ} {y x : Tiling} {p : Plane A} {i j : ℕ}
    (hi : i < y.tile_start_idx.length) (hj : j < x.tile_start_idx.length) :
    tile_at (coded_grid f unit y x p) i j = f (cut_tile unit y x p i j) := by
  unfold tile_at
  rw [row_coded_grid hi, getD_eq_getElem _ _ (by simpa using hj), getElem_map, getElem_range]

variable {vae_ratio overlap_min : ℕ}

theorem cut_size {input_len size unit : ℕ} (h : Tiles vae_ratio overlap_min input_len size t)
    (hunit : 0 < unit) (hdvd : unit ∣ vae_ratio) {i : ℕ} (hi : i ≤ t.overlaps.length) :
    min (t.tile_start_idx.getD i 0 / unit + t.tile_len.getD i 0 / unit) (input_len / unit)
        - min (t.tile_start_idx.getD i 0 / unit) (input_len / unit) = size / unit := by
  rw [h.start_eq hi, h.len_eq hi]
  have hinside := h.inside hi
  have hsteps : ∀ x ∈ steps size t.overlaps, unit ∣ x :=
    steps_dvd (hdvd.trans h.size_dvd) (fun o ho => hdvd.trans (h.overlap_dvd o ho))
  obtain ⟨a, ha⟩ := start_dvd hsteps i
  obtain ⟨b, hb⟩ := hdvd.trans h.size_dvd
  have hle : a + b ≤ input_len / unit := by
    rw [Nat.le_div_iff_mul_le hunit, Nat.mul_comm, Nat.mul_add, ← ha, ← hb]
    exact hinside
  rw [ha, hb, Nat.mul_div_cancel_left _ hunit, Nat.mul_div_cancel_left _ hunit]
  omega

theorem Tiles.overlaps_div {L s out : ℕ} (h : Tiles vae_ratio overlap_min L s t)
    (hout : 0 < out) (hdvd : out ∣ vae_ratio) (hmin : 0 < overlap_min) :
    ∀ o ∈ t.overlaps.map (· / out), 0 < o ∧ o < s / out := by
  intro o ho
  obtain ⟨o', ho', rfl⟩ := mem_map.mp ho
  obtain ⟨a, ha⟩ := hdvd.trans (h.overlap_dvd o' ho')
  obtain ⟨b, hb⟩ := hdvd.trans h.size_dvd
  have hle := h.overlap_min o' ho'
  have hlt := h.overlap_lt o' ho'
  rw [ha, hb, Nat.mul_div_cancel_left _ hout, Nat.mul_div_cancel_left _ hout]
  rw [ha, hb] at hlt
  refine ⟨?_, Nat.lt_of_mul_lt_mul_left hlt⟩
  rcases Nat.eq_zero_or_pos a with rfl | hpos
  · omega
  · exact hpos

theorem Tiles.total_div {L s out : ℕ} (h : Tiles vae_ratio overlap_min L s t)
    (hout : 0 < out) (hdvd : out ∣ vae_ratio) :
    (steps (s / out) (t.overlaps.map (· / out))).sum = L / out := by
  have hov : ∀ o ∈ t.overlaps, out ∣ o := fun o ho => hdvd.trans (h.overlap_dvd o ho)
  rw [steps_div hout (hdvd.trans h.size_dvd) hov, sum_div hout (steps_dvd (hdvd.trans h.size_dvd) hov),
    h.total]

section

variable {f : Plane A → Plane E} {unit out Ly Lx sy sx : ℕ} {y x : Tiling} {p : Plane A}
  (hy : Tiles vae_ratio overlap_min Ly sy y) (hx : Tiles vae_ratio overlap_min Lx sx x)
  (hunit : 0 < unit) (hunit_dvd : unit ∣ vae_ratio) (hout : 0 < out) (hout_dvd : out ∣ vae_ratio)
  (hmin : 0 < overlap_min)
  (hf : ∀ q : Plane A, q.height = sy / unit → q.width = sx / unit →
    (f q).height = sy / out ∧ (f q).width = sx / out)
  (hph : p.height = Ly / unit) (hpw : p.width = Lx / unit)
include hy hx hunit hunit_dvd hout hout_dvd hmin hf hph hpw

theorem coded_grid_grid : Grid (coded_grid f unit y x p) (sy / out) (sx / out)
      (y.overlaps.map (· / out)) (x.overlaps.map (· / out)) := by
  have hly := hy.length_starts
  have hlx := hx.length_starts
  have hy_over := hy.overlaps_div hout hout_dvd hmin
  have hx_over := hx.overlaps_div hout hout_dvd hmin
  have hcoded : ∀ i ≤ y.overlaps.length, ∀ j ≤ x.overlaps.length,
      (tile_at (coded_grid f unit y x p) i j).height = sy / out
        ∧ (tile_at (coded_grid f unit y x p) i j).width = sx / out := by
    intro i hi j hj
    rw [tile_at_coded_grid (by omega) (by omega)]
    refine hf _ ?_ ?_
    · rw [cut_tile, Plane.slice, hph]
      exact cut_size hy hunit hunit_dvd hi
    · rw [cut_tile, Plane.slice, hpw]
      exact cut_size hx hunit hunit_dvd hj
  refine ⟨?_, ?_, ?_, ?_, fun o ho => (hy_over o ho).1, fun o ho => (hx_over o ho).1,
    fun o ho => (hy_over o ho).2, fun o ho => (hx_over o ho).2⟩
  · rw [coded_grid, length_map, length_range, length_map, hly]
  · intro i hi
    rw [length_map] at hi
    rw [row_coded_grid (by omega), length_map, length_range, length_map, hlx]
  · intro i hi j hj
    rw [length_map] at hi hj
    exact (hcoded i hi j hj).1
  · intro i hi j hj
    rw [length_map] at hi hj
    exact (hcoded i hi j hj).2

omit hunit hunit_dvd hmin hf hph hpw in
theorem held_coded_grid (Y X : ℕ) : held (coded_grid f unit y x p) (sy / out) (sx / out)
      (y.overlaps.map (· / out)) (x.overlaps.map (· / out)) Y X = tile_values f unit out y x p Y X := by
  have hly := hy.length_starts
  have hlx := hx.length_starts
  have hstart : ∀ {t : Tiling} {L s : ℕ}, Tiles vae_ratio overlap_min L s t →
      ∀ i ≤ t.overlaps.length, start (steps (s / out) (t.overlaps.map (· / out))) i
        = t.tile_start_idx.getD i 0 / out := by
    intro t L s ht i hi
    have hdvd := steps_dvd (hout_dvd.trans ht.size_dvd)
      (fun o ho => hout_dvd.trans (ht.overlap_dvd o ho))
    rw [steps_div hout (hout_dvd.trans ht.size_dvd)
      (fun o ho => hout_dvd.trans (ht.overlap_dvd o ho)), start_div hout hdvd, ht.start_eq hi]
  ext v
  unfold held tile_values
  simp only [length_map]
  constructor
  · rintro ⟨i, hi, j, hj, hY, hX, hv⟩
    rw [hstart hy i hi] at hY hv
    rw [hstart hx j hj] at hX hv
    rw [tile_at_coded_grid (by omega) (by omega)] at hv
    refine ⟨i, by omega, j, by omega, ?_, ?_, hv⟩
    · rw [hy.len_eq hi]
      exact hY
    · rw [hx.len_eq hj]
      exact hX
  · rintro ⟨i, hi, j, hj, hY, hX, hv⟩
    have hi' : i ≤ y.overlaps.length := by omega
    have hj' : j ≤ x.overlaps.length := by omega
    rw [hy.len_eq hi'] at hY
    rw [hx.len_eq hj'] at hX
    refine ⟨i, hi', j, hj', ?_, ?_, ?_⟩
    · rw [hstart hy i hi']
      exact hY
    · rw [hstart hx j hj']
      exact hX
    · rw [hstart hy i hi', hstart hx j hj', tile_at_coded_grid hi hj]
      exact hv

/-- **The assembled canvas is seamless.** -/
theorem canvas_seamless :
    Seamless K (assemble_tiles K (coded_grid f unit y x p) (y.overlaps.map (· / out))
      (x.overlaps.map (· / out))) (Ly / out) (Lx / out) (tile_values f unit out y x p) := by
  have hgrid := coded_grid_grid (f := f) hy hx hunit hunit_dvd hout hout_dvd hmin hf hph hpw
  have hheight := hy.total_div hout hout_dvd
  have hwidth := hx.total_div hout hout_dvd
  have hheld : ∀ Y X, held (coded_grid f unit y x p) (sy / out) (sx / out)
      (y.overlaps.map (· / out)) (x.overlaps.map (· / out)) Y X
        = tile_values f unit out y x p Y X := held_coded_grid hy hx hout hout_dvd
  rw [assemble_tiles_eq K hgrid]
  refine ⟨hheight, hwidth, ?_, ?_, ?_⟩
  · intro Y hY X hX
    have hmem := assembled_mem K hgrid (by omega : Y < _) (by omega : X < _)
    rw [hheld] at hmem
    exact ⟨_, by simp only [hheight, hwidth, hY, hX, and_self, if_true], hmem⟩
  · intro Y X hout_of
    simp only [hheight, hwidth, hout_of, if_false]
  · intro field hfield Y hY X hX
    have hagree := assembled_of_agree K hgrid (by omega : Y < _) (by omega : X < _)
      (v := field Y X) (by
        rw [hheld]
        exact hfield Y X)
    simp only [hheight, hwidth, hY, hX, and_self, if_true, hagree]

end

end Canvas

/-! ## The rows of coded tiles -/

variable {batch : List (Plane A)} {forward_fn : List (Plane A) → List (Plane E)}

section Rows

theorem getElem?_blocks {B : Type} {n m i j : ℕ} (g : ℕ → ℕ → B) (hi : i < n) (hj : j < m) :
    ((List.range n).flatMap (fun i => (List.range m).map (g i)))[i * m + j]? = some (g i j) := by
  have hsize : ∀ xs ∈ (List.range n).map (fun i => (List.range m).map (g i)), xs.length = m := by
    intro xs hxs
    obtain ⟨k, -, rfl⟩ := mem_map.mp hxs
    simp
  have hblock := drop_take_flatten hsize (k := i) (by simpa using hi)
  have hentry := congrArg (fun xs => xs[j]?) hblock
  simp only [getElem?_take, hj, if_true, getElem?_drop] at hentry
  rw [flatMap_def, hentry, getD_eq_getElem _ _ (by simpa using hi), getElem_map,
    getElem_range, getElem?_map, getElem?_range hj, Option.map_some]

theorem zip_eq_range {xs ys : List ℕ} (h : ys.length = xs.length) :
    xs.zip ys = (List.range xs.length).map (fun i => (xs.getD i 0, ys.getD i 0)) := by
  refine ext_getElem (by simp [h]) (fun i hi hi' => ?_)
  have hx : i < xs.length := by simpa using hi'
  rw [getElem_zip, getElem_map, getElem_range, getD_eq_getElem _ _ hx,
    getD_eq_getElem _ _ (by omega)]

variable {vae_ratio overlap_min Ly Lx sy sx : ℕ} {y x : Tiling}

theorem Tiles.length_lens {L s : ℕ} (h : Tiles vae_ratio overlap_min L s t) :
    t.tile_len.length = t.tile_start_idx.length := by
  rw [h.lens, h.length_starts, length_replicate]

theorem cut_tiles_eq (hy : Tiles vae_ratio overlap_min Ly sy y)
    (hx : Tiles vae_ratio overlap_min Lx sx x) (unit : ℕ) (batch : List (Plane A)) :
    cut_tiles unit y x batch = (List.range y.tile_start_idx.length).flatMap (fun i =>
          (List.range x.tile_start_idx.length).map (fun j =>
            batch.map (fun p => cut_tile unit y x p i j))) := by
  unfold cut_tiles
  rw [zip_eq_range hy.length_lens, zip_eq_range hx.length_lens, flatMap_map]
  refine flatMap_congr (fun i _ => ?_)
  rw [map_map]
  rfl

variable {unit : ℕ}

theorem length_of_mem_cut_tiles : ∀ t ∈ cut_tiles unit y x batch, t.length = batch.length := by
  intro t ht
  obtain ⟨i, -, ht⟩ := mem_flatMap.mp ht
  obtain ⟨j, -, rfl⟩ := mem_map.mp ht
  exact length_map _

section

variable (hy : Tiles vae_ratio overlap_min Ly sy y) (hx : Tiles vae_ratio overlap_min Lx sx x)
include hy hx

theorem cut_tiles_ne_nil : cut_tiles unit y x batch ≠ [] := by
  intro hnil
  have hly := hy.length_starts
  have hlx := hx.length_starts
  have hfirst := getElem?_blocks (fun i j => batch.map (fun p => cut_tile unit y x p i j))
    (show 0 < y.tile_start_idx.length by omega) (show 0 < x.tile_start_idx.length by omega)
  rw [← cut_tiles_eq hy hx unit batch, hnil] at hfirst
  simp at hfirst

end

variable [AddCommGroup E]

/-- **Every rank assembles the same rows**: whatever the number of ranks, and stacked or not,
they are the coded tiles in their places. -/
theorem coded_rows_eq
    {zero : List (Plane E)} {rank world_size : ℕ} (s : Settings) (hf : Independent forward_fn f)
    (hy : Tiles vae_ratio overlap_min Ly sy y) (hx : Tiles vae_ratio overlap_min Lx sx x)
    (hrank : rank < world_size) (batch : List (Plane A)) :
    coded_rows s unit rank world_size y x forward_fn zero batch
      = .ok (batch.map (coded_grid f unit y x)) := by
  have hcut := cut_tiles_eq hy hx unit batch
  unfold coded_rows
  rw [code_tiles_eq s.parallel_tiling s.stack_tiling hf length_of_mem_cut_tiles
    (cut_tiles_ne_nil hy hx) hrank]
  show Except.ok _ = Except.ok _
  congr 1
  refine ext_getElem (by simp) (fun b hb hb' => ?_)
  rw [getElem_map, getElem_map, getElem_range]
  refine map_congr_left (fun i hi => map_congr_left (fun j hj => ?_))
  rw [mem_range] at hi hj
  -- tile `(i, j)` of entry `b` is at place `i * j_max + j`
  have hb'' : b < batch.length := by simpa using hb'
  rw [getElem?_map, hcut, getElem?_blocks _ hi hj]
  simp only [Option.map_some, Option.join_some, Option.getD_some, map_map]
  rw [getD_eq_getElem _ _ (by simpa using hb''), getElem_map]
  rfl

end Rows

/-! ## Tiled encoding and decoding -/

/-- What a tile size and a minimal overlap have to be. -/
structure TileSetting (vae_ratio tile_size tile_overlap_min : ℕ) : Prop where
  ratio_pos : 0 < vae_ratio
  size_dvd : vae_ratio ∣ tile_size
  overlap_dvd : vae_ratio ∣ tile_overlap_min
  overlap_pos : 0 < tile_overlap_min
  overlap_lt : tile_overlap_min < tile_size

/-- **A split axis**: tiles inside it that cover it, each overlapping the next by at least the
minimum and less than a tile. -/
structure Split (tile_size tile_overlap_min input_len : ℕ) (t : Tiling) : Prop where
  inside : ∀ i < t.tile_start_idx.length,
    t.tile_start_idx.getD i 0 + t.tile_len.getD i 0 ≤ input_len
  covers : ∀ p < input_len, ∃ i < t.tile_start_idx.length,
    t.tile_start_idx.getD i 0 ≤ p ∧ p < t.tile_start_idx.getD i 0 + t.tile_len.getD i 0
  count : t.tile_start_idx.length = t.overlaps.length + 1
  next : ∀ i < t.overlaps.length,
    t.tile_start_idx.getD (i + 1) 0 + t.overlaps.getD i 0
      = t.tile_start_idx.getD i 0 + t.tile_len.getD i 0
  overlap_bounds : ∀ o ∈ t.overlaps, tile_overlap_min ≤ o ∧ o < tile_size

theorem Tiles.split {vae_ratio tile_size tile_overlap_min input_len : ℕ}
    (h : Tiles vae_ratio tile_overlap_min input_len (min tile_size input_len) t) :
    Split tile_size tile_overlap_min input_len t := by
  have hlen := h.length_starts
  refine ⟨?_, ?_, hlen, ?_, fun o ho => ⟨h.overlap_min o ho, ?_⟩⟩
  · intro i hi
    rw [h.start_eq (by omega), h.len_eq (by omega)]
    exact h.inside (by omega)
  · intro p hp
    obtain ⟨i, hi, hle, hlt⟩ := h.covers hp
    refine ⟨i, by omega, ?_⟩
    rw [h.start_eq hi, h.len_eq hi]
    exact ⟨hle, hlt⟩
  · intro i hi
    have hlt := h.overlap_lt _ (getD_mem hi)
    rw [h.start_eq (by omega), h.start_eq (by omega), h.len_eq (by omega), start_steps_succ _ _ hi]
    omega
  · have := h.overlap_lt o ho
    omega

/-- **Tiled coding of a batch** on the tilings `y` and `x`. Whatever the number of ranks and
the rank: the rank has tiles to code, the tiles it assembles are the coded tiles in their
order, and every canvas it returns is seamless. -/
structure Coded (K : Type) [Field K] [LinearOrder K] [AddCommGroup E] [Module K E] (s : Settings)
    (unit out : ℕ) (y x : Tiling) (height width : ℕ) (forward_fn : List (Plane A) → List (Plane E))
    (f : Plane A → Plane E) (zero : List (Plane E)) (batch : List (Plane A))
    (run : ℕ → ℕ → Except TileError (List (Canvas E))) : Prop where
  busy : ∀ rank world_size, rank < world_size →
    let num_tiles := (cut_tiles unit y x batch).length
    let state := tile_parallel_state s.parallel_tiling rank world_size num_tiles
    local_tile_indices num_tiles state.1 state.2 ≠ []
  same_tiles : ∀ rank world_size, rank < world_size →
    code_tiles s.parallel_tiling s.stack_tiling rank world_size zero forward_fn
        (cut_tiles unit y x batch)
      = .ok ((cut_tiles unit y x batch).map (fun tile => some (tile.map f)))
  canvases : ∃ canvases, (∀ rank world_size, rank < world_size → run rank world_size = .ok canvases)
    ∧ List.Forall₂ (fun c p => Seamless K c (height / out) (width / out) (tile_values f unit out y x p))
        canvases batch

section Main

variable (K : Type) [Field K] [LinearOrder K] [IsStrictOrderedRing K]
variable [AddCommGroup A] [Module K A] [AddCommGroup E] [Module K E]

theorem local_tiles_ne_nil {num_tiles rank world_size : ℕ} (parallel_tiling : Bool)
    (hpos : 0 < num_tiles) (hrank : rank < world_size) :
    local_tile_indices num_tiles (tile_parallel_state parallel_tiling rank world_size num_tiles).1
      (tile_parallel_state parallel_tiling rank world_size num_tiles).2 ≠ [] := by
  have hone : local_tile_indices num_tiles 0 1 ≠ [] := local_tile_indices_ne_nil (by omega) hpos
  unfold tile_parallel_state
  cases parallel_tiling with
  | false =>
    simp only [Bool.false_eq_true, if_false]
    split
    · exact hone
    · exact hone
  | true =>
    simp only [if_true]
    split
    · exact hone
    · exact local_tile_indices_ne_nil hrank (by omega)

omit [AddCommGroup A] [Module K A] in
theorem coded_of_tiles {vae_ratio overlap_min unit out Ly Lx sy sx : ℕ} {y x : Tiling}
    {zero : List (Plane E)} {run : ℕ → ℕ → Except TileError (List (Canvas E))} (s : Settings)
    (hindep : Independent forward_fn f) (hy : Tiles vae_ratio overlap_min Ly sy y)
    (hx : Tiles vae_ratio overlap_min Lx sx x) (hunit : 0 < unit) (hunit_dvd : unit ∣ vae_ratio)
    (hout : 0 < out) (hout_dvd : out ∣ vae_ratio) (hmin : 0 < overlap_min)
    (hf : ∀ q : Plane A, q.height = sy / unit → q.width = sx / unit →
      (f q).height = sy / out ∧ (f q).width = sx / out)
    (hbatch : ∀ p ∈ batch, p.height = Ly / unit ∧ p.width = Lx / unit)
    (hrun : ∀ rank world_size, run rank world_size = (do
      let rows ← coded_rows s unit rank world_size y x forward_fn zero batch
      pure (rows.map (fun rows => assemble_tiles K rows (y.overlaps.map (· / out))
        (x.overlaps.map (· / out)))))) :
    Coded K s unit out y x Ly Lx forward_fn f zero batch run := by
  refine ⟨?_, ?_, batch.map (fun p => assemble_tiles K (coded_grid f unit y x p)
    (y.overlaps.map (· / out)) (x.overlaps.map (· / out))), ?_, ?_⟩
  · intro rank world_size hrank
    exact local_tiles_ne_nil s.parallel_tiling
      (length_pos_of_ne_nil (cut_tiles_ne_nil hy hx)) hrank
  · intro rank world_size hrank
    exact code_tiles_eq s.parallel_tiling s.stack_tiling hindep length_of_mem_cut_tiles
      (cut_tiles_ne_nil hy hx) hrank
  · intro rank world_size hrank
    rw [hrun, coded_rows_eq s hindep hy hx hrank batch]
    show Except.ok _ = Except.ok _
    rw [map_map]
    rfl
  · rw [forall₂_map_left_iff, forall₂_same]
    intro p hp
    obtain ⟨hph, hpw⟩ := hbatch p hp
    exact canvas_seamless K hy hx hunit hunit_dvd hout hout_dvd hmin hf hph hpw

/-- **Tiled coding is seamless and does not depend on the number of ranks**, encoding from
pixels to latent positions and decoding back. -/
theorem tiled_coding {f : Plane A → Plane E} {g : Plane E → Plane A}
    {encode : List (Plane A) → List (Plane E)} {decode : List (Plane E) → List (Plane A)}
    {zero : List (Plane E)} {zero' : List (Plane A)} {height width : ℕ} {batch : List (Plane A)}
    {latents : List (Plane E)} (s : Settings)
    (henc : TileSetting s.vae_ratio s.tile_size s.tile_overlap_min)
    (hdec : TileSetting s.vae_ratio s.decoder_tile_size s.decoder_tile_overlap_min)
    (hencode : Independent encode f) (hdecode : Independent decode g)
    (hf : ∀ q, s.vae_ratio ∣ q.height → s.vae_ratio ∣ q.width →
      (f q).height = q.height / s.vae_ratio ∧ (f q).width = q.width / s.vae_ratio)
    (hg : ∀ q, (g q).height = q.height * s.vae_ratio ∧ (g q).width = q.width * s.vae_ratio)
    (hheight : s.vae_ratio ∣ height) (hwidth : s.vae_ratio ∣ width)
    (hbatch : ∀ p ∈ batch, p.height = height ∧ p.width = width)
    (hlatents : ∀ p ∈ latents, p.height = height / s.vae_ratio ∧ p.width = width / s.vae_ratio) :
    (∃ y x, split_tiles s.vae_ratio s.tile_size s.tile_overlap_min height = some y
      ∧ Split s.tile_size s.tile_overlap_min height y
      ∧ split_tiles s.vae_ratio s.tile_size s.tile_overlap_min width = some x
      ∧ Split s.tile_size s.tile_overlap_min width x
      ∧ Coded K s 1 s.vae_ratio y x height width encode f zero batch
          (fun rank world_size => tiled_encode K s rank world_size encode zero height width batch))
    ∧ ∃ y x, split_tiles s.vae_ratio s.decoder_tile_size s.decoder_tile_overlap_min height = some y
      ∧ Split s.decoder_tile_size s.decoder_tile_overlap_min height y
      ∧ split_tiles s.vae_ratio s.decoder_tile_size s.decoder_tile_overlap_min width = some x
      ∧ Split s.decoder_tile_size s.decoder_tile_overlap_min width x
      ∧ Coded K s s.vae_ratio 1 y x height width decode g zero' latents
          (fun rank world_size => tiled_decode K s rank world_size decode zero'
            (height / s.vae_ratio) (width / s.vae_ratio) latents) := by
  have hratio := henc.ratio_pos
  refine ⟨?_, ?_⟩
  · obtain ⟨y, hy, hty⟩ := split_tiles_spec henc.size_dvd henc.overlap_dvd hheight henc.overlap_lt
    obtain ⟨x, hx, htx⟩ := split_tiles_spec henc.size_dvd henc.overlap_dvd hwidth henc.overlap_lt
    refine ⟨y, x, hy, hty.split, hx, htx.split, ?_⟩
    refine coded_of_tiles K s hencode hty htx Nat.one_pos (Nat.one_dvd _) hratio (Nat.dvd_refl _)
      henc.overlap_pos ?_ ?_ ?_
    · intro q hqh hqw
      rw [Nat.div_one] at hqh hqw
      rw [← hqh, ← hqw]
      exact hf q (hqh ▸ hty.size_dvd) (hqw ▸ htx.size_dvd)
    · intro p hp
      rw [Nat.div_one, Nat.div_one]
      exact hbatch p hp
    · intro rank world_size
      simp only [tiled_encode, hy, hx]
  · obtain ⟨y, hy, hty⟩ := split_tiles_spec hdec.size_dvd hdec.overlap_dvd hheight hdec.overlap_lt
    obtain ⟨x, hx, htx⟩ := split_tiles_spec hdec.size_dvd hdec.overlap_dvd hwidth hdec.overlap_lt
    refine ⟨y, x, hy, hty.split, hx, htx.split, ?_⟩
    refine coded_of_tiles K s hdecode hty htx hratio (Nat.dvd_refl _) Nat.one_pos (Nat.one_dvd _)
      hdec.overlap_pos ?_ hlatents ?_
    · intro q hqh hqw
      obtain ⟨hh, hw⟩ := hg q
      rw [hh, hw, hqh, hqw, Nat.div_mul_cancel hty.size_dvd, Nat.div_mul_cancel htx.size_dvd,
        Nat.div_one, Nat.div_one]
      exact ⟨rfl, rfl⟩
    · intro rank world_size
      simp only [tiled_decode, Nat.div_mul_cancel hheight, Nat.div_mul_cancel hwidth, hy, hx,
        Nat.div_one, map_id']

/-- Every second position of a plane. -/
def halved (p : Plane ℚ) : Plane ℚ := ⟨p.height / 2, p.width / 2, fun y x => p.get (2 * y) (2 * x)⟩

/-- Every position of a plane twice. -/
def doubled (p : Plane ℚ) : Plane ℚ := ⟨p.height * 2, p.width * 2, fun y x => p.get (y / 2) (x / 2)⟩

/-- Tiles of four pixels on a canvas of eight by six, with a coder that halves and doubles. -/
theorem tiled_coding_half : let s : Settings := ⟨2, 4, 2, 4, 2, true, true⟩
    let p : Plane ℚ := ⟨8, 6, fun y x => y + 10 * x⟩
    TileSetting 2 4 2
      ∧ (∃ y x, split_tiles 2 4 2 8 = some y ∧ split_tiles 2 4 2 6 = some x
        ∧ Coded ℚ s 1 2 y x 8 6 (List.map halved) halved [] [p]
            (fun rank world_size => tiled_encode ℚ s rank world_size (List.map halved) [] 8 6 [p]))
      ∧ ∃ y x, split_tiles 2 4 2 8 = some y ∧ split_tiles 2 4 2 6 = some x
        ∧ Coded ℚ s 2 1 y x 8 6 (List.map doubled) doubled [] [halved p]
            (fun rank world_size => tiled_decode ℚ s rank world_size (List.map doubled) [] (8 / 2)
              (6 / 2) [halved p]) := by
  intro s p
  have hset : TileSetting 2 4 2 :=
    ⟨by decide, by decide, by decide, by decide, by decide⟩
  obtain ⟨⟨y, x, hy, -, hx, -, hcoded⟩, y', x', hy', -, hx', -, hcoded'⟩ :=
    @tiled_coding ℚ ℚ ℚ _ _ _ _ _ _ _ halved doubled (List.map halved) (List.map doubled) [] [] 8 6
      [p] [halved p] s hset hset (fun _ => rfl) (fun _ => rfl)
      (fun _ _ _ => ⟨rfl, rfl⟩) (fun _ => ⟨rfl, rfl⟩) (by decide) (by decide)
      (fun q hq => by rw [mem_singleton.mp hq]; exact ⟨rfl, rfl⟩)
      (fun q hq => by rw [mem_singleton.mp hq]; exact ⟨rfl, rfl⟩)
  exact ⟨hset, ⟨y, x, hy, hx, hcoded⟩, y', x', hy', hx', hcoded'⟩

end Main

end LightningH3.VaeTiles
