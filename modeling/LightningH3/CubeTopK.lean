/-
The KV rows of a sparse step: `_cube_topk_selection` and `cube_topk_block_indices`.

Every query block sees the blocks of its base row, fixed by the layout, and the blocks of
the labels that top-k selects for its own label. The code writes both into one row of
candidates, replaces what is not valid by a sentinel, sorts, and cuts the row at the
number of blocks. The cut loses nothing because the valid candidates of a row are
distinct blocks: a selected label that the base row already shows is masked out, and the
blocks of different labels are different.
-/
import LightningH3.CubeLossless

set_option autoImplicit false

namespace LightningH3.CubeMask

open Segments IndexOps Fallible List

/-! ## Selection -/

section Selection

variable {S : Type} [LinearOrder S] [OrderBot S]

/-- `torch.argsort(row, descending=True, stable=True)`. -/
def argsort_descending (row : List S) : List ℕ :=
  (stable_sort (row.map OrderDual.toDual)).map Prod.snd

/-- The order of `_cube_topk_selection` for one query label: scores outside the candidate
mask are filled with the least value. The pooled scores themselves are an argument. -/
def selected_order (layout : CubeLayout) (scores : ℕ → ℕ → S) (label : ℕ) : List ℕ :=
  argsort_descending ((List.range layout.num_labels).map
    (fun m => if layout.topk_mask label m then scores label m else ⊥))

/-- The count of `_cube_topk_selection` for one query label. -/
def selected_counts (layout : CubeLayout) (topk_ratio : ℚ) (label : ℕ) : ℕ :=
  let size := sparse_size layout.num_labels layout.topk_mask label
  if 0 < size then selected_count size topk_ratio else 0

/-- The labels top-k selects for a query label. -/
def selected_labels (layout : CubeLayout) (scores : ℕ → ℕ → S) (topk_ratio : ℚ) (label : ℕ) :
    List ℕ :=
  (selected_order layout scores label).take (selected_counts layout topk_ratio label)

end Selection

/-! ## Rows -/

/-- The shape of the KV index buffer a call left behind. Every call rewrites the contents. -/
structure CubeRuntime where
  kv_indices_buffer : Option (List ℕ)

/-- `full_kv_num_blocks` of a layout whose heads share their rows. -/
def base_counts (layout : CubeLayout) : List ℕ :=
  (layout.base_physical_layout.full_kv_num_blocks.getD []).headD []

/-- `full_kv_indices` of a layout whose heads share their rows. -/
def base_indices (layout : CubeLayout) : List (List ℕ) :=
  (layout.base_physical_layout.full_kv_indices.getD []).headD []

/-- The base candidates of a query block, each with its validity. -/
def base_candidates (layout : CubeLayout) (q : ℕ) : List (ℕ × Bool) :=
  ((base_indices layout).getD q []).zipIdx.map
    (fun p => (p.1, decide (p.2 < (base_counts layout).getD q 0)))

/-- The candidates of one selected label: its row of block ids, valid up to its block count. -/
def label_candidates (layout : CubeLayout) (valid : Bool) (m : ℕ) : List (ℕ × Bool) :=
  (layout.label_block_indices.getD m []).zipIdx.map
    (fun p => (p.1, valid && decide (p.2 < layout.label_block_counts.getD m 0)))

/-- The top-k candidates of a query block, each with its validity. -/
def selected_candidates {S : Type} [LinearOrder S] [OrderBot S] (layout : CubeLayout)
    (scores : ℕ → ℕ → S) (topk_ratio : ℚ) (q : ℕ) : List (ℕ × Bool) :=
  let label := layout.block_labels.getD q 0
  ((selected_order layout scores label).take layout.topk_semantic_capacity).zipIdx.flatMap
    (fun p => label_candidates layout (decide (p.2 < selected_counts layout topk_ratio label)
      && !layout.base_block_mask label p.1) p.1)

/-- The packed row of a query block: sorted with the sentinel, cut, the sentinel zeroed. -/
def packed_row {S : Type} [LinearOrder S] [OrderBot S] (layout : CubeLayout)
    (scores : ℕ → ℕ → S) (topk_ratio : ℚ) (q : ℕ) : List ℕ :=
  let candidates := base_candidates layout q ++ selected_candidates layout scores topk_ratio q
  ((sorted_values (with_sentinel layout.num_blocks candidates)).take layout.num_blocks).map
    (fun b => if b < layout.num_blocks then b else 0)

/-- The count of a query block. -/
def packed_count {S : Type} [LinearOrder S] [OrderBot S] (layout : CubeLayout)
    (scores : ℕ → ℕ → S) (topk_ratio : ℚ) (q : ℕ) : ℕ :=
  (base_counts layout).getD q 0 + (marked (selected_candidates layout scores topk_ratio q)).length

/-- `buffer.copy_(row)` along the last dimension: a single entry is repeated, any other
width must match. -/
def copy_row (width : ℕ) (row : List ℕ) : Except CubeError (List ℕ) :=
  if row.length = width then .ok row
  else match row with
    | [x] => .ok (List.replicate width x)
    | _ => .error .runtime_error

/-- `cube_topk_block_indices`. Block ids stay below the block count, so the 32-bit casts of
the source are exact. -/
def cube_topk_block_indices {S : Type} [LinearOrder S] [OrderBot S] (num_heads : ℕ)
    (scores : ℕ → ℕ → ℕ → S) (layout : CubeLayout) (runtime : CubeRuntime) (topk_ratio : ℚ) :
    Except CubeError BlockLayout × CubeRuntime :=
  if topk_ratio = 1 then (.ok layout.dense_physical_layout, runtime)
  else if layout.topk_semantic_capacity = 0 then
    (.error (.value_error
      "cube sparse metadata has no compact TopK capacity for a sparse ratio"), runtime)
  else
    let expected := [1, num_heads, layout.num_blocks, layout.num_blocks]
    let shape := runtime.kv_indices_buffer.getD expected
    if shape ≠ expected then
      (.error (.value_error ("cube attention KV buffer shape changed across calls: "
        ++ py_tuple (shape.map (fun (n : ℕ) => (n : ℤ))) ++ " vs "
        ++ py_tuple (expected.map (fun (n : ℕ) => (n : ℤ))))), runtime)
    else
      let rows := (List.range num_heads).mapM (fun head => (List.range layout.num_blocks).mapM
        (fun q => copy_row layout.num_blocks (packed_row layout (scores head) topk_ratio q)))
      (rows.map (fun kv_indices =>
        { kv_num_blocks := (List.range num_heads).map (fun head =>
            (List.range layout.num_blocks).map (packed_count layout (scores head) topk_ratio))
          kv_indices := kv_indices
          full_kv_num_blocks := none
          full_kv_indices := none }), { kv_indices_buffer := some expected })

/-! ## Marked candidates -/

theorem marked_append (xs ys : List (ℕ × Bool)) : marked (xs ++ ys) = marked xs ++ marked ys := by
  unfold marked
  rw [filter_append, map_append]

theorem marked_flatMap {α : Type} (xs : List α) (f : α → List (ℕ × Bool)) :
    marked (xs.flatMap f) = xs.flatMap (fun x => marked (f x)) := by
  induction xs with
  | nil => rfl
  | cons x xs ih => rw [flatMap_cons, marked_append, ih, flatMap_cons]

theorem flatMap_rank {α : Type} (f : ℕ → List α) (c : ℕ → Bool) (xs : List ℕ) (k : ℕ) :
    xs.zipIdx.flatMap (fun p => if (decide (p.2 < k) && c p.1) = true then f p.1 else [])
      = ((xs.take k).filter c).flatMap f := by
  have general (ys : List ℕ) (o : ℕ) :
      (ys.zipIdx o).flatMap (fun p => if (decide (p.2 < k) && c p.1) = true then f p.1 else [])
        = ((ys.take (k - o)).filter c).flatMap f := by
    induction ys generalizing o with
    | nil => simp
    | cons y ys ih =>
      rw [zipIdx_cons, flatMap_cons, ih]
      by_cases ho : o < k
      · rw [show k - o = (k - (o + 1)) + 1 by omega, take_succ_cons]
        by_cases hc : c y = true
        · rw [if_pos (by simp [ho, hc]), filter_cons_of_pos hc, flatMap_cons]
        · rw [if_neg (by simp [hc]), filter_cons_of_neg hc, nil_append]
      · rw [if_neg (by simp [ho]), show k - (o + 1) = 0 by omega, show k - o = 0 by omega,
          nil_append, take_zero, take_zero]
  exact general xs 0

theorem marked_label_candidates (layout : CubeLayout) (valid : Bool) (m : ℕ) :
    marked (label_candidates layout valid m)
      = if valid = true then label_blocks layout m else [] := by
  unfold marked label_candidates
  cases valid with
  | true =>
    exact filter_rank _ _
  | false =>
    simp

/-! ## Base rows -/

theorem take_pack_row {num_blocks capacity : ℕ} {row : ℕ → Bool}
    (h : row_count num_blocks row ≤ capacity) :
    (pack_row num_blocks capacity row).take (row_count num_blocks row)
      = (List.range num_blocks).filter row := by
  have hlen : ((List.range num_blocks).filter row).length = row_count num_blocks row := by
    rw [row_count, countP_eq_length_filter]
  unfold pack_row
  simp only
  rw [ranks_of_filter]
  change (scatter _ (List.range (row_count num_blocks row)) _).take _ = _
  rw [← hlen, scatter_range (by rw [hlen, length_replicate]; exact h), take_left]

@[simp] theorem length_pack_row (num_blocks capacity : ℕ) (row : ℕ → Bool) :
    (pack_row num_blocks capacity row).length = capacity := by
  unfold pack_row
  simp

/-! ## Exact rows -/

/-- **What the rows need of a layout.** Its labels own their blocks, its base rows are packed
from the base mask, and its capacity covers every ratio up to `max_ratio`. -/
structure Expandable (layout : CubeLayout) (max_ratio : ℚ) : Prop where
  length : layout.block_labels.length = layout.num_blocks
  label_lt : ∀ b m : ℕ, layout.block_labels[b]? = some m → m < layout.num_labels
  carries : ∀ m < layout.num_labels, ∀ b : ℕ, b ∈ label_blocks layout m ↔
    layout.block_labels[b]? = some m
  nodup : ∀ m < layout.num_labels, (label_blocks layout m).Nodup
  base : layout.base_physical_layout = pack_as_full layout.block_labels layout.base_block_mask
  rows : ∀ m < layout.num_labels,
    (layout.label_block_indices.getD m []).length = layout.max_label_block_count
  capacity : ∀ ratio ≤ max_ratio, ∀ label < layout.num_labels,
    selected_counts layout ratio label ≤ layout.topk_semantic_capacity
  capacity_le : layout.topk_semantic_capacity ≤ layout.num_labels

/-- The blocks a query block may see: those of base labels and of selected labels. -/
def Visible {S : Type} [LinearOrder S] [OrderBot S] (layout : CubeLayout) (scores : ℕ → ℕ → S)
    (topk_ratio : ℚ) (label b : ℕ) : Prop :=
  ∃ m, layout.block_labels[b]? = some m ∧
    (layout.base_block_mask label m = true ∨ m ∈ selected_labels layout scores topk_ratio label)

/-- How wide a row of candidates is. -/
def candidate_width (layout : CubeLayout) : ℕ :=
  max_of (base_counts layout) + layout.topk_semantic_capacity * layout.max_label_block_count

section Rows

variable {S : Type} [LinearOrder S] [OrderBot S] {layout : CubeLayout} {max_ratio : ℚ}

theorem selected_order_perm (scores : ℕ → ℕ → S) (label : ℕ) :
    (selected_order layout scores label).Perm (List.range layout.num_labels) := by
  have h := stable_sort_order_perm (((List.range layout.num_labels).map
    (fun m => if layout.topk_mask label m then scores label m else ⊥)).map OrderDual.toDual)
  rwa [length_map, length_map, length_range] at h

theorem selected_labels_nodup (scores : ℕ → ℕ → S) (ratio : ℚ) (label : ℕ) :
    (selected_labels layout scores ratio label).Nodup :=
  (((selected_order_perm scores label).nodup_iff.mpr nodup_range).sublist (take_sublist _ _))

variable {ratio : ℚ}

theorem selected_labels_lt {scores : ℕ → ℕ → S} {label m : ℕ}
    (h : m ∈ selected_labels layout scores ratio label) : m < layout.num_labels :=
  mem_range.mp ((selected_order_perm scores label).mem_iff.mp (mem_of_mem_take h))

variable (he : Expandable layout max_ratio)

include he

theorem base_counts_eq : base_counts layout = (List.range layout.num_blocks).map (fun q =>
    row_count layout.num_blocks (fun b => layout.base_block_mask (layout.block_labels.getD q 0)
      (layout.block_labels.getD b 0))) := by
  unfold base_counts
  rw [he.base, ← he.length]
  rfl

theorem base_indices_eq : base_indices layout = (List.range layout.num_blocks).map (fun q =>
    pack_row layout.num_blocks (max_of (base_counts layout)) (fun b =>
      layout.base_block_mask (layout.block_labels.getD q 0) (layout.block_labels.getD b 0))) := by
  unfold base_indices base_counts
  rw [he.base, ← he.length]
  rfl

variable {q : ℕ}

theorem marked_base_candidates (hq : q < layout.num_blocks) :
    marked (base_candidates layout q) = (List.range layout.num_blocks).filter (fun b =>
      layout.base_block_mask (layout.block_labels.getD q 0) (layout.block_labels.getD b 0)) := by
  have hcount : (base_counts layout).getD q 0 = row_count layout.num_blocks (fun b =>
      layout.base_block_mask (layout.block_labels.getD q 0) (layout.block_labels.getD b 0)) := by
    rw [base_counts_eq he, getD_eq_getElem _ _ (by simpa using hq), getElem_map, getElem_range]
  have hmax : (base_counts layout).getD q 0 ≤ max_of (base_counts layout) := by
    rw [getD_eq_getElem _ _ (by rw [base_counts_eq he]; simpa using hq)]
    exact le_max_of (getElem_mem _)
  unfold base_candidates
  rw [show marked (((base_indices layout).getD q []).zipIdx.map
    (fun p => (p.1, decide (p.2 < (base_counts layout).getD q 0))))
    = ((base_indices layout).getD q []).take ((base_counts layout).getD q 0) from filter_rank _ _]
  rw [base_indices_eq he, getD_eq_getElem _ [] (by simpa using hq), getElem_map, getElem_range]
  rw [hcount] at hmax ⊢
  exact take_pack_row hmax

section

variable (scores : ℕ → ℕ → S) (hr : ratio ≤ max_ratio) (hq : q < layout.num_blocks)
include scores hr hq

theorem marked_selected_candidates : marked (selected_candidates layout scores ratio q)
      = ((selected_labels layout scores ratio (layout.block_labels.getD q 0)).filter
          (fun m => !layout.base_block_mask (layout.block_labels.getD q 0) m)).flatMap
            (label_blocks layout) := by
  have hlabel : layout.block_labels.getD q 0 < layout.num_labels := by
    have hq' : q < layout.block_labels.length := by rw [he.length]; exact hq
    rw [getD_eq_getElem _ _ hq']
    exact he.label_lt q _ (getElem?_eq_getElem hq')
  unfold selected_candidates
  rw [marked_flatMap]
  simp only [marked_label_candidates]
  rw [flatMap_rank (label_blocks layout)
    (fun m => !layout.base_block_mask (layout.block_labels.getD q 0) m), take_take,
    Nat.min_eq_left (he.capacity ratio hr _ hlabel)]
  rfl

theorem mem_marked_iff (b : ℕ) :
    b ∈ marked (base_candidates layout q ++ selected_candidates layout scores ratio q) ↔
      Visible layout scores ratio (layout.block_labels.getD q 0) b := by
  rw [marked_append, marked_base_candidates he hq, marked_selected_candidates he scores hr hq,
    mem_append, mem_filter, mem_flatMap, mem_range]
  constructor
  · rintro (⟨hb, hbase⟩ | ⟨m, hm, hb⟩)
    · have hb' : b < layout.block_labels.length := by rw [he.length]; exact hb
      refine ⟨layout.block_labels[b], getElem?_eq_getElem hb', Or.inl ?_⟩
      rwa [getD_eq_getElem (l := layout.block_labels) (n := b) _ hb'] at hbase
    · have hsel := (mem_filter.mp hm).1
      exact ⟨m, (he.carries m (selected_labels_lt hsel) b).mp hb, Or.inr hsel⟩
  · rintro ⟨m, hm, hor⟩
    obtain ⟨hb, heq⟩ := List.getElem?_eq_some_iff.mp hm
    by_cases hbase : layout.base_block_mask (layout.block_labels.getD q 0) m = true
    · refine Or.inl ⟨by rw [← he.length]; exact hb, ?_⟩
      rw [getD_eq_getElem (l := layout.block_labels) (n := b) _ hb, heq]
      exact hbase
    · rcases hor with h | h
      · exact absurd h hbase
      · refine Or.inr ⟨m, mem_filter.mpr ⟨h, by simpa using hbase⟩, ?_⟩
        exact (he.carries m (selected_labels_lt h) b).mpr hm

theorem marked_nodup :
    (marked (base_candidates layout q ++ selected_candidates layout scores ratio q)).Nodup := by
  rw [marked_append, marked_base_candidates he hq, marked_selected_candidates he scores hr hq,
    nodup_append]
  refine ⟨nodup_range.filter _, ?_, ?_⟩
  · rw [nodup_flatMap]
    refine ⟨?_, ?_⟩
    · intro m hm
      exact he.nodup m (selected_labels_lt (mem_filter.mp hm).1)
    · refine ((selected_labels_nodup scores ratio _).filter _).imp_of_mem ?_
      -- a block carries one label
      intro m m' hm hm' hne b hb hb'
      have h₁ := (he.carries m (selected_labels_lt (mem_filter.mp hm).1) b).mp hb
      have h₂ := (he.carries m' (selected_labels_lt (mem_filter.mp hm').1) b).mp hb'
      exact hne (Option.some.inj (h₁.symm.trans h₂))
  · rintro b hb b' hb' rfl
    obtain ⟨m, hm, hbm⟩ := mem_flatMap.mp hb'
    obtain ⟨hsel, hout⟩ := mem_filter.mp hm
    have hlabel := (he.carries m (selected_labels_lt hsel) b).mp hbm
    have hbase := (mem_filter.mp hb).2
    rw [getD_eq_getElem?_getD (i := b), hlabel, Option.getD_some] at hbase
    rw [hbase] at hout
    cases hout

/-- **One row is exact.** Its counted front lists the visible blocks in ascending order, and
the count does not exceed the number of blocks. -/
theorem packed_row_exact : packed_count layout scores ratio q ≤ layout.num_blocks ∧
      ((packed_row layout scores ratio q).take (packed_count layout scores ratio q)).Pairwise
        (· < ·) ∧
      ∀ b, b ∈ (packed_row layout scores ratio q).take (packed_count layout scores ratio q) ↔
        Visible layout scores ratio (layout.block_labels.getD q 0) b := by
  have hnd := marked_nodup he scores hr hq
  have hmem := mem_marked_iff he scores hr hq
  have hlt : ∀ b ∈ marked (base_candidates layout q ++ selected_candidates layout scores ratio q),
      b < layout.num_blocks := by
    intro b hb
    obtain ⟨m, hm, _⟩ := (hmem b).mp hb
    obtain ⟨hlt, _⟩ := List.getElem?_eq_some_iff.mp hm
    rwa [he.length] at hlt
  -- the count is the number of valid candidates
  have hcount : packed_count layout scores ratio q
      = (marked (base_candidates layout q ++ selected_candidates layout scores ratio q)).length := by
    rw [marked_append, length_append, packed_count, marked_base_candidates he hq,
      base_counts_eq he, getD_eq_getElem _ _ (by simpa using hq), getElem_map,
      getElem_range, row_count, countP_eq_length_filter]
  have hle : packed_count layout scores ratio q ≤ layout.num_blocks := by
    rw [hcount]
    have hsub := (List.Nodup.subperm hnd (fun b hb => mem_range.mpr (hlt b hb))).length_le
    rwa [length_range] at hsub
  -- the counted front is the sorted valid candidates
  have hfront : (packed_row layout scores ratio q).take (packed_count layout scores ratio q)
      = sorted_values (marked (base_candidates layout q
          ++ selected_candidates layout scores ratio q)) := by
    unfold packed_row
    simp only
    rw [sorted_with_sentinel hlt, ← map_take, take_take, Nat.min_eq_left hle, hcount,
      take_append_of_le_length (by simp), take_of_length_le (by simp)]
    conv_rhs => rw [← map_id (sorted_values _)]
    refine map_congr_left (fun b hb => ?_)
    rw [if_pos (hlt b ((sorted_values_perm _).mem_iff.mp hb)), id]
  refine ⟨hle, ?_, fun b => ?_⟩
  · rw [hfront]
    exact sorted_values_strict hnd
  · rw [hfront, (sorted_values_perm _).mem_iff]
    exact hmem b

end

theorem length_packed_row (scores : ℕ → ℕ → S) (ratio : ℚ) (hq : q < layout.num_blocks) :
    (packed_row layout scores ratio q).length = min layout.num_blocks (candidate_width layout) := by
  have hbase : (base_candidates layout q).length = max_of (base_counts layout) := by
    unfold base_candidates
    rw [length_map, length_zipIdx, base_indices_eq he,
      getD_eq_getElem _ _ (by simpa using hq), getElem_map, length_pack_row]
  have hselected : (selected_candidates layout scores ratio q).length
      = layout.topk_semantic_capacity * layout.max_label_block_count := by
    unfold selected_candidates
    have hrows : ∀ p ∈ ((selected_order layout scores (layout.block_labels.getD q 0)).take
        layout.topk_semantic_capacity).zipIdx,
        (label_candidates layout (decide (p.2 < selected_counts layout ratio
          (layout.block_labels.getD q 0)) && !layout.base_block_mask
            (layout.block_labels.getD q 0) p.1) p.1).length = layout.max_label_block_count := by
      intro p hp
      have hmem : p.1 ∈ selected_order layout scores (layout.block_labels.getD q 0) :=
        mem_of_mem_take (fst_mem_of_mem_zipIdx hp)
      have hlt := mem_range.mp ((selected_order_perm scores _).mem_iff.mp hmem)
      unfold label_candidates
      rw [length_map, length_zipIdx, he.rows p.1 hlt]
    rw [length_flatMap, map_congr_left hrows, map_const', sum_replicate_nat,
      length_zipIdx, length_take, (selected_order_perm scores _).length_eq,
      length_range, Nat.min_eq_left he.capacity_le]
  unfold packed_row candidate_width
  rw [length_map, length_take, length_sorted_values]
  unfold with_sentinel
  rw [length_map, length_append, hbase, hselected]

end Rows

/-! ## The capacity -/

theorem truncated_mono {a b : ℚ} (h : a ≤ b) :
    (if 0 ≤ a then ⌊a⌋ else ⌈a⌉) ≤ (if 0 ≤ b then ⌊b⌋ else ⌈b⌉) := by
  by_cases ha : 0 ≤ a
  · rw [if_pos ha, if_pos (ha.trans h)]
    exact Int.floor_le_floor h
  · rw [if_neg ha]
    by_cases hb : 0 ≤ b
    · rw [if_pos hb]
      have h₁ : ⌈a⌉ ≤ 0 := Int.ceil_le.mpr (by rw [Int.cast_zero]; exact (not_le.mp ha).le)
      exact h₁.trans (Int.floor_nonneg.mpr hb)
    · rw [if_neg hb]
      exact Int.ceil_le_ceil h

theorem selected_count_mono (size : ℕ) {r r' : ℚ} (h : r ≤ r') :
    selected_count size r ≤ selected_count size r' := by
  have hsize : 0 ≤ Rounding.binary32.round (size : ℚ) :=
    Rounding.round_nonneg (Nat.cast_nonneg size)
  have hprod : Rounding.binary32.round size * Rounding.binary32.round r
      ≤ Rounding.binary32.round size * Rounding.binary32.round r' :=
    mul_le_mul_of_nonneg_left (Rounding.round_mono h) hsize
  have hround : Rounding.binary32.round _ ≤ Rounding.binary32.round _ := Rounding.round_mono hprod
  have htrunc := truncated_mono hround
  refine min_le_min ?_ (Nat.le_refl _)
  exact Int.toNat_le_toNat (max_le_max htrunc (Int.le_refl _))

theorem selected_count_le (size : ℕ) (r : ℚ) : selected_count size r ≤ size := min_le_right _ _

theorem selected_count_pos {size : ℕ} (hs : 0 < size) (r : ℚ) : 0 < selected_count size r := by
  refine lt_min ?_ hs
  omega

theorem max_of_le {xs : List ℕ} {b : ℕ} (h : ∀ x ∈ xs, x ≤ b) : max_of xs ≤ b := by
  have general : ∀ (ys : List ℕ) (a : ℕ), a ≤ b → (∀ y ∈ ys, y ≤ b) → ys.foldl max a ≤ b := by
    intro ys
    induction ys with
    | nil => exact fun a ha _ => ha
    | cons y ys ih =>
      intro a ha hys
      exact ih (max a y) (max_le ha (hys y (by simp))) (fun z hz => hys z (by simp [hz]))
  exact general xs 0 (Nat.zero_le _) h

theorem sparse_size_le (num_labels : ℕ) (mask : ℕ → ℕ → Bool) (label : ℕ) :
    sparse_size num_labels mask label ≤ num_labels := by
  exact countP_le_length.trans (by rw [length_range])

variable {seg : SegmentLayout} {max_ratio : ℚ}

theorem expandable_layout_of {n token_size : ℕ} {counts : List ℕ} {uninitialized : ℕ → ℕ}
    (hpos : 0 < max_ratio) :
    Expandable (layout_of token_size n seg (sorted_labels_of seg) counts max_ratio uninitialized)
      max_ratio where
  length := length_repeat_interleave _
  label_lt := by
    intro b m h
    obtain ⟨hb, _⟩ := List.getElem?_eq_some_iff.mp h
    change b < (repeat_interleave _).length at hb
    rw [length_repeat_interleave] at hb
    obtain ⟨g, hg, h₁, h₂⟩ := exists_segment _ hb
    have hlabel := (repeat_interleave_eq_iff hg).mpr ⟨h₁, h₂⟩
    have hgm : g = m := Option.some.inj (hlabel.symm.trans h)
    rw [length_map] at hg
    rw [← hgm]
    exact hg
  carries := fun m hm b => by
    have hm' : m < (counts.map (block_count token_size)).length := by
      rw [length_map]
      exact hm
    rw [label_blocks_layout_of hm, mem_range'_1, getD_eq_getElem _ _ hm']
    exact (repeat_interleave_eq_iff hm').symm
  nodup := fun m hm => by
    rw [label_blocks_layout_of hm]
    exact nodup_range'
  base := rfl
  rows := by
    intro m hm
    have hm' : m < counts.length := hm
    simp [layout_of, hm']
  capacity := by
    intro ratio hr label hlabel
    have hcap : (layout_of token_size n seg (sorted_labels_of seg) counts max_ratio
        uninitialized).topk_semantic_capacity = max_of ((List.range counts.length).map
          (fun label => selected_count (sparse_size counts.length (topk_mask_of seg) label)
            max_ratio)) := if_pos hpos
    rw [hcap]
    have hmax : selected_count (sparse_size counts.length (topk_mask_of seg) label) max_ratio
        ≤ max_of ((List.range counts.length).map (fun label =>
          selected_count (sparse_size counts.length (topk_mask_of seg) label) max_ratio)) :=
      le_max_of (mem_map_of_mem (mem_range.mpr hlabel))
    refine le_trans ?_ hmax
    unfold selected_counts
    simp only
    split
    · exact selected_count_mono _ hr
    · exact Nat.zero_le _
  capacity_le := by
    show (if max_ratio > 0 then _ else 0) ≤ _
    rw [if_pos hpos]
    refine max_of_le (fun x hx => ?_)
    obtain ⟨label, _, rfl⟩ := mem_map.mp hx
    exact (selected_count_le _ _).trans (sparse_size_le _ _ _)

theorem topk_semantic_capacity_pos {π : Type} [LinearOrder π] {shapes : List Shape}
    {cu_seqlens : List ℕ} {n : ℕ} {cube_size : Shape} {token_size : ℕ} {streams : PackedStreams}
    {position_ids : List (π × (π × π))} (hs : 0 < token_size) (hcube : cube_size.Pos)
    (hshapes : ∀ s ∈ shapes, s.Pos)
    (h : build_cube_segment_layout shapes cu_seqlens n cube_size token_size streams
      position_ids = .ok seg) {counts : List ℕ} (hcounts : counts.length = num_labels_of seg)
    {uninitialized : ℕ → ℕ} (hpos : 0 < max_ratio) :
    0 < (layout_of token_size n seg (sorted_labels_of seg) counts max_ratio
      uninitialized).topk_semantic_capacity := by
  obtain ⟨samples, acc, hloop, hne, _, _, rfl⟩ := build_cube_segment_layout_loop hs hcube hshapes h
  obtain ⟨r, hr, i, h₁, h₂, hi⟩ := hloop.target hne
  have hlt : i < counts.length := by
    obtain ⟨hlt, _⟩ := List.getElem?_eq_some_iff.mp hi
    rw [hloop.sparse] at hlt
    rw [hcounts]
    exact hlt.trans_eq hloop.ranges.symm
  -- the label is its own candidate
  have hsize : 0 < sparse_size counts.length (topk_mask_of ⟨acc.1.cube_labels,
      acc.1.ordered_segments.flatten, acc.2, acc.1.sparse_labels⟩) i := by
    unfold sparse_size
    rw [countP_pos_iff]
    refine ⟨i, mem_range.mpr hlt, ?_⟩
    have hsample : same_sample acc.2 i i = true := by
      exact any_eq_true.mpr ⟨r, hr, by simp [h₁, h₂]⟩
    have hsparse : is_sparse acc.1.sparse_labels i = true := by
      unfold is_sparse
      rw [getD_eq_getElem?_getD, hi]
      rfl
    unfold topk_mask_of
    simp only [hsample, hsparse, Bool.and_self]
  show 0 < (if max_ratio > 0 then _ else 0)
  rw [if_pos hpos]
  refine (selected_count_pos hsize max_ratio).trans_le ?_
  exact le_max_of (mem_map_of_mem (mem_range.mpr hlt))

/-! ## The call -/

/-- **Sparse KV rows are lossless.** On every accepted layout with a positive maximal ratio,
for every sparse ratio up to it, every number of heads and all scores, the counted front of
every row lists exactly the visible blocks, ascending, and the count fits the row. -/
theorem cube_topk_block_indices_exact {π : Type} [LinearOrder π] {S : Type} [LinearOrder S]
    [OrderBot S] (sample_shapes : List (List ℤ)) (cu_seqlens : List ℕ) (total_len : ℕ)
    (cube_size : List ℤ) (streams : PackedStreams) (position_ids : List (π × (π × π)))
    (max_ratio : ℚ) (uninitialized : ℕ → ℕ) (layout : CubeLayout)
    (h : precompute_cube_attention sample_shapes cu_seqlens total_len cube_size streams
      position_ids max_ratio uninitialized = .ok layout)
    (hpos : 0 < max_ratio) (num_heads : ℕ) (scores : ℕ → ℕ → ℕ → S) (runtime : CubeRuntime)
    (hbuffer : ∀ shape, runtime.kv_indices_buffer = some shape →
      shape = [1, num_heads, layout.num_blocks, layout.num_blocks])
    (topk_ratio : ℚ) (hratio : topk_ratio ≤ max_ratio) (hsparse : topk_ratio ≠ 1)
    (hwide : layout.num_blocks ≤ candidate_width layout) :
    ∃ result, (cube_topk_block_indices num_heads scores layout runtime topk_ratio).1 = .ok result ∧
      ∀ head < num_heads, ∀ q < layout.num_blocks, ∃ label count row,
        layout.block_labels[q]? = some label ∧
        (result.kv_num_blocks.getD head [])[q]? = some count ∧
        (result.kv_indices.getD head [])[q]? = some row ∧
        row.length = layout.num_blocks ∧ count ≤ row.length ∧ (row.take count).Pairwise (· < ·) ∧
        ∀ b, b ∈ row.take count ↔ Visible layout (scores head) topk_ratio label b := by
  obtain ⟨shapes, n, size, seg, hshapes, hsize, hseg, hlen, rfl⟩ :=
    precompute_cube_attention_eq_ok h
  obtain ⟨hs, hcube⟩ := cube_token_size_pos hsize
  have hcap : 0 < (layout_of size.1 n seg (sorted_labels_of seg)
      ((runs (sorted_labels_of seg)).map Prod.snd) max_ratio uninitialized).topk_semantic_capacity :=
    topk_semantic_capacity_pos hs hcube (normalize_shapes_pos hshapes) hseg
      (by rw [length_map, hlen]) hpos
  have he : Expandable (layout_of size.1 n seg (sorted_labels_of seg)
      ((runs (sorted_labels_of seg)).map Prod.snd) max_ratio uninitialized) max_ratio :=
    expandable_layout_of hpos
  set layout := layout_of size.1 n seg (sorted_labels_of seg)
    ((runs (sorted_labels_of seg)).map Prod.snd) max_ratio uninitialized
  have hrowlen : ∀ head, ∀ q < layout.num_blocks,
      (packed_row layout (scores head) topk_ratio q).length = layout.num_blocks := fun head q hq => by
    rw [length_packed_row he (scores head) topk_ratio hq, Nat.min_eq_left hwide]
  have hrows : (List.range num_heads).mapM (fun head => (List.range layout.num_blocks).mapM
      (fun q => copy_row layout.num_blocks (packed_row layout (scores head) topk_ratio q)))
      = .ok ((List.range num_heads).map (fun head => (List.range layout.num_blocks).map
        (fun q => packed_row layout (scores head) topk_ratio q))) := by
    refine mapM_of_ok (fun head _ => mapM_of_ok (fun q hq => ?_))
    unfold copy_row
    rw [if_pos (hrowlen head q (mem_range.mp hq))]
  have hshape : runtime.kv_indices_buffer.getD [1, num_heads, layout.num_blocks,
      layout.num_blocks] = [1, num_heads, layout.num_blocks, layout.num_blocks] := by
    cases hb : runtime.kv_indices_buffer with
    | none => rfl
    | some shape => rw [Option.getD_some, hbuffer shape hb]
  unfold cube_topk_block_indices
  rw [if_neg hsparse, if_neg (by omega)]
  simp only
  rw [hshape, if_neg (not_not.mpr rfl), hrows]
  refine ⟨_, rfl, fun head hhead q hq => ?_⟩
  obtain ⟨hle, hasc, hmem⟩ := packed_row_exact he (scores head) hratio hq
  have hq' : q < layout.block_labels.length := by rw [he.length]; exact hq
  refine ⟨layout.block_labels.getD q 0, packed_count layout (scores head) topk_ratio q,
    packed_row layout (scores head) topk_ratio q, ?_, ?_, ?_, hrowlen head q hq, ?_, hasc, hmem⟩
  · rw [getD_eq_getElem _ _ hq', getElem?_eq_getElem hq']
  · simp [hhead, hq]
  · simp [hhead, hq]
  · rw [hrowlen head q hq]
    exact hle

theorem two_labels_accepted : ∃ layout, precompute_cube_attention [[1, 1, 1]] [0, 2] 2 [1, 1, 1]
    (plain_streams [0] [] [1]) (line_positions 2) (1 / 2) (fun _ => 0) = .ok layout ∧
    layout.num_blocks ≤ max_of (base_counts layout) :=
  ⟨_, rfl, by decide⟩

theorem cube_topk_block_indices_exact_two_labels :
    ∃ layout, precompute_cube_attention [[1, 1, 1]] [0, 2] 2 [1, 1, 1]
        (plain_streams [0] [] [1]) (line_positions 2) (1 / 2) (fun _ => 0) = .ok layout ∧
      ∃ result, (cube_topk_block_indices 1 (fun _ _ _ => (0 : ℕ)) layout ⟨none⟩ (1 / 4)).1
          = .ok result ∧ ∀ head < 1, ∀ q < layout.num_blocks, ∃ label count row,
          layout.block_labels[q]? = some label ∧
          (result.kv_num_blocks.getD head [])[q]? = some count ∧
          (result.kv_indices.getD head [])[q]? = some row ∧
          row.length = layout.num_blocks ∧ count ≤ row.length ∧ (row.take count).Pairwise (· < ·) ∧
          ∀ b, b ∈ row.take count ↔ Visible layout (fun _ _ => (0 : ℕ)) (1 / 4) label b := by
  obtain ⟨layout, hlayout, hwide⟩ := two_labels_accepted
  exact ⟨layout, hlayout, cube_topk_block_indices_exact _ _ _ _ _ _ _ _ layout hlayout
    (by norm_num) 1 (fun _ _ _ => (0 : ℕ)) ⟨none⟩ (fun _ hs => by cases hs) (1 / 4) (by norm_num)
    (by norm_num) (hwide.trans (Nat.le_add_right _ _))⟩

/-- **A narrow row fails.** Candidates narrower than the blocks do not fit the buffer. -/
theorem narrow_call_fails {S : Type} [LinearOrder S] [OrderBot S] {layout : CubeLayout}
    (he : Expandable layout max_ratio) (hcap : 0 < layout.topk_semantic_capacity)
    (hwidth : 1 < candidate_width layout) (hnarrow : candidate_width layout < layout.num_blocks)
    {num_heads : ℕ} (hheads : 0 < num_heads) (scores : ℕ → ℕ → ℕ → S) {ratio : ℚ}
    (hsparse : ratio ≠ 1) :
    (cube_topk_block_indices num_heads scores layout ⟨none⟩ ratio).1 = .error .runtime_error := by
  have hblocks : 0 < layout.num_blocks := by omega
  have hrow : copy_row layout.num_blocks (packed_row layout (scores 0) ratio 0)
      = .error .runtime_error := by
    have hlen : (packed_row layout (scores 0) ratio 0).length = candidate_width layout := by
      rw [length_packed_row he (scores 0) ratio hblocks]
      omega
    unfold copy_row
    rw [if_neg (by omega)]
    split
    · next x hx =>
      rw [hx, length_singleton] at hlen
      omega
    · rfl
  unfold cube_topk_block_indices
  rw [if_neg hsparse, if_neg (by omega)]
  simp only [Option.getD_none, ne_eq]
  rw [mapM_range_error hheads (mapM_range_error hblocks hrow)]
  rfl

theorem three_samples_accepted : ∃ seg, precompute_cube_attention
    [[1, 1, 1], [1, 1, 1], [1, 1, 1]] [0, 1, 2, 3] 3 [1, 1, 1] (plain_streams [] [] [0, 1, 2])
      (line_positions 3) (1 / 2) (fun _ => 0)
        = .ok (layout_of 1 3 seg (sorted_labels_of seg) [1, 1, 1] (1 / 2) (fun _ => 0)) ∧
    (∀ label < 3, sparse_size 3 (topk_mask_of seg) label = 1) ∧
    max_of (base_counts (layout_of 1 3 seg (sorted_labels_of seg) [1, 1, 1] (1 / 2)
      (fun _ => 0))) = 1 :=
  ⟨_, rfl, by decide, by decide⟩

theorem three_samples_width (hsizes : ∀ label < 3, sparse_size 3 (topk_mask_of seg) label = 1)
    (hbase : max_of (base_counts (layout_of 1 3 seg (sorted_labels_of seg) [1, 1, 1] (1 / 2)
      (fun _ => 0))) = 1) : (layout_of 1 3 seg (sorted_labels_of seg) [1, 1, 1] (1 / 2)
        (fun _ => 0)).topk_semantic_capacity = 1 ∧
      candidate_width (layout_of 1 3 seg (sorted_labels_of seg) [1, 1, 1] (1 / 2)
        (fun _ => 0)) = 2 := by
  have hone : ∀ label < 3, selected_count (sparse_size 3 (topk_mask_of seg) label) (1 / 2) = 1 := by
    intro label hl
    have h₁ := selected_count_pos Nat.one_pos (1 / 2)
    have h₂ := selected_count_le 1 (1 / 2)
    rw [hsizes label hl]
    omega
  have hcap : (layout_of 1 3 seg (sorted_labels_of seg) [1, 1, 1] (1 / 2)
      (fun _ => 0)).topk_semantic_capacity = 1 := by
    show (if (1 / 2 : ℚ) > 0 then max_of ((List.range 3).map
      (fun label => selected_count (sparse_size 3 (topk_mask_of seg) label) (1 / 2))) else 0) = 1
    rw [if_pos (by norm_num), map_congr_left (fun label hl => hone label (mem_range.mp hl))]
    rfl
  refine ⟨hcap, ?_⟩
  unfold candidate_width
  rw [hbase, hcap]
  rfl

/-- **Two calls that return no such rows.** With a maximal ratio of one, the ratio one is
served by the dense layout, whose partial rows are empty. And three samples without a dense
label make the rows of candidates two wide where three blocks need three. -/
theorem cube_topk_block_indices_without_rows :
    (∃ layout, precompute_cube_attention [[1, 1, 1]] [0, 1] 1 [1, 1, 1] (plain_streams [] [] [0])
        (line_positions 1) 1 (fun _ => 0) = .ok layout ∧
      ∃ result, (cube_topk_block_indices 1 (fun _ _ _ => (0 : ℕ)) layout ⟨none⟩ 1).1 = .ok result ∧
        (result.kv_num_blocks.getD 0 [])[0]? = some 0 ∧ layout.block_labels[0]? = some 0 ∧
        Visible layout (fun _ _ => (0 : ℕ)) 1 0 0) ∧
    (∃ layout, precompute_cube_attention [[1, 1, 1], [1, 1, 1], [1, 1, 1]] [0, 1, 2, 3] 3 [1, 1, 1]
        (plain_streams [] [] [0, 1, 2]) (line_positions 3) (1 / 2) (fun _ => 0) = .ok layout ∧
      (cube_topk_block_indices 1 (fun _ _ _ => (0 : ℕ)) layout ⟨none⟩ (1 / 2)).1
        = .error .runtime_error) := by
  refine ⟨⟨_, rfl, _, rfl, by decide, by decide, ⟨0, by decide, Or.inl (by decide)⟩⟩, ?_⟩
  obtain ⟨seg, hlayout, hsizes, hbase⟩ := three_samples_accepted
  obtain ⟨hcap, hwidth⟩ := three_samples_width hsizes hbase
  refine ⟨_, hlayout, narrow_call_fails (expandable_layout_of (by norm_num)) ?_ ?_ ?_ Nat.one_pos _
    (by norm_num)⟩
  · omega
  · omega
  · rw [hwidth]
    show 2 < 3
    omega

end LightningH3.CubeMask
