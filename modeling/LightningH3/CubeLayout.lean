/-
`precompute_cube_attention`: from the segment layout to the physical block layout.

Every label's tokens are rounded up to whole blocks. The layout records where the j-th
token in cube order goes, which blocks a label owns, and which blocks every query block
may see before any score is known. The second half of the file is the geometry: a run
padded to whole blocks starts at a block boundary, so the padded position of a token
determines its label.
-/
import Mathlib.Algebra.BigOperators.Ring.List
import LightningH3.Lib.Rounding
import LightningH3.CubeMask

set_option autoImplicit false

namespace LightningH3.CubeMask

open Segments IndexOps List

/-! ## The layout -/

/-- A FlexAttention KV descriptor: counts and block ids for each head and query block. -/
structure BlockLayout where
  kv_num_blocks : List (List ℕ)
  kv_indices : List (List (List ℕ))
  full_kv_num_blocks : Option (List (List ℕ))
  full_kv_indices : Option (List (List (List ℕ)))

/-- `CubeLayout`. -/
structure CubeLayout where
  num_labels : ℕ
  topk_mask : ℕ → ℕ → Bool
  base_block_mask : ℕ → ℕ → Bool
  sparse_label_mask : List Bool
  label_lengths : List ℕ
  label_block_counts : List ℕ
  label_block_indices : List (List ℕ)
  max_label_block_count : ℕ
  topk_semantic_capacity : ℕ
  num_blocks : ℕ
  block_labels : List ℕ
  base_physical_layout : BlockLayout
  dense_physical_layout : BlockLayout
  real_total_len : ℕ
  padded_seqlen : ℕ
  cube_token_size : ℕ
  is_real : List ℕ
  pad_indices : List ℕ
  sorted_real_indices : List ℕ
  expand_indices : List ℕ
  gather_indices : List ℕ

/-- One row of `_pack_block_rows`: the k-th visible column goes to rank k. -/
def pack_row (num_blocks capacity : ℕ) (row : ℕ → Bool) : List ℕ :=
  let columns := (List.range num_blocks).filter row
  let positions := columns.map (fun c => (List.range (c + 1)).countP row - 1)
  scatter (List.replicate capacity 0) positions columns

/-- The visible columns of a row, counted. -/
def row_count (num_blocks : ℕ) (row : ℕ → Bool) : ℕ := (List.range num_blocks).countP row

def pack_block_rows (num_blocks : ℕ) (mask : ℕ → ℕ → Bool) : List ℕ × List (List ℕ) :=
  let counts := (List.range num_blocks).map (fun b => row_count num_blocks (mask b))
  let capacity := max_of counts
  (counts, (List.range num_blocks).map (fun b => pack_row num_blocks capacity (mask b)))

/-- `pack_as_full` of `_build_physical_base_layouts`. -/
def pack_as_full (block_labels : List ℕ) (semantic_mask : ℕ → ℕ → Bool) : BlockLayout :=
  let physical := fun q kv => semantic_mask (block_labels.getD q 0) (block_labels.getD kv 0)
  let packed := pack_block_rows block_labels.length physical
  { kv_num_blocks := [packed.1.map (fun _ => 0)]
    kv_indices := [packed.2.map (fun _ => [0])]
    full_kv_num_blocks := some [packed.1]
    full_kv_indices := some [packed.2] }

/-- Both labels lie in one sample's range. -/
def same_sample (ranges : List (ℕ × ℕ)) (i j : ℕ) : Bool :=
  ranges.any (fun r => decide (r.1 ≤ i ∧ i < r.2 ∧ r.1 ≤ j ∧ j < r.2))

/-- The entry of `sparse_label_mask`. -/
def is_sparse (sparse_labels : List Bool) (i : ℕ) : Bool := sparse_labels.getD i false

def topk_mask_of (seg : SegmentLayout) (i j : ℕ) : Bool :=
  same_sample seg.sample_label_ranges i j && is_sparse seg.sparse_labels i
    && is_sparse seg.sparse_labels j

def base_mask_of (seg : SegmentLayout) (i j : ℕ) : Bool :=
  decide (i = j) || (same_sample seg.sample_label_ranges i j
    && (!is_sparse seg.sparse_labels i || !is_sparse seg.sparse_labels j))

/-- The number of top-k candidates of a label. -/
def sparse_size (num_labels : ℕ) (mask : ℕ → ℕ → Bool) (label : ℕ) : ℕ :=
  (List.range num_labels).countP (mask label)

/-- `(sizes.to(float32) * ratio).to(long)`, clamped to at least one and at most the size.
The ratios are at most one and the sizes far below the format's range, so the product
does not overflow. -/
def selected_count (size : ℕ) (ratio : ℚ) : ℕ :=
  let product := Rounding.binary32.round
    (Rounding.binary32.round size * Rounding.binary32.round ratio)
  let truncated : ℤ := if 0 ≤ product then ⌊product⌋ else ⌈product⌉
  min (max truncated 1).toNat size

/-- `_raise_for_unoccupied_labels`. -/
def unoccupied_error (occupied : List ℤ) (ranges : List (ℕ × ℕ)) : CubeError :=
  let missing (r : ℕ × ℕ) := (List.range' r.1 (r.2 - r.1)).filter (fun l => (l : ℤ) ∉ occupied)
  match ranges.zipIdx.find? (fun p => decide (missing p.1 ≠ [])) with
  | some (r, sample_idx) =>
    .value_error ("cube attention sample " ++ toString sample_idx ++ " allocated labels ["
      ++ toString r.1 ++ ", " ++ toString r.2 ++ ") but " ++ toString (missing r).length
      ++ " of them received no tokens (first missing: " ++ toString ((missing r).headD 0)
      ++ "). A joint_cube condition visual stream does not share the target\x27s position grid; "
      ++ "declare it independent_cube or dense_prefix instead.")
  | none =>
    .value_error ("cube attention allocated labels outside every sample range; occupied "
      ++ toString occupied.dedup.length ++ " labels for ranges " ++ "[" ++ String.intercalate ", "
          (ranges.map (fun r => py_tuple [(r.1 : ℤ), (r.2 : ℤ)])) ++ "]")

/-- Tokens of a label rounded up to whole blocks. -/
def block_count (token_size count : ℕ) : ℕ := (count + token_size - 1) / token_size

/-- The padded position of the j-th token in cube order. -/
def padded_position (token_size : ℕ) (counts : List ℕ) (j : ℕ) : ℕ :=
  let group := bucket counts j
  start (counts.map (fun c => block_count token_size c * token_size)) group
    + (j - start counts group)

/-- `torch.repeat_interleave(arange(len(counts)), counts)`. -/
def repeat_interleave (counts : List ℕ) : List ℕ :=
  (counts.zipIdx.map (fun p => List.replicate p.1 p.2)).flatten

/-- The layout of a segment layout whose labels are all occupied. -/
def layout_of (token_size : ℕ) (real_total_len : ℕ) (seg : SegmentLayout)
    (sorted_labels : List ℤ) (counts : List ℕ) (max_sparse_topk_ratio : ℚ)
    (uninitialized : ℕ → ℕ) : CubeLayout :=
  let num_labels := counts.length
  let label_block_counts := counts.map (block_count token_size)
  let padded_seqlen := (counts.map (fun c => block_count token_size c * token_size)).sum
  let num_blocks := label_block_counts.sum
  let padded_pos_sorted := (List.range real_total_len).map (padded_position token_size counts)
  let block_labels := repeat_interleave label_block_counts
  let max_label_block_count := max_of label_block_counts
  let dead_label : ℤ := num_labels
  let padded_cube_labels := scatter (List.replicate padded_seqlen dead_label) padded_pos_sorted
    sorted_labels
  let is_real := padded_cube_labels.map (fun l => if l ≠ dead_label then 1 else 0)
  let topk_mask := topk_mask_of seg
  { num_labels := num_labels
    topk_mask := topk_mask
    base_block_mask := base_mask_of seg
    sparse_label_mask := seg.sparse_labels
    label_lengths := counts
    label_block_counts := label_block_counts
    label_block_indices := (List.range num_labels).map (fun label =>
      (List.range max_label_block_count).map (fun slot =>
        if slot < label_block_counts.getD label 0 then start label_block_counts label + slot
        else 0))
    max_label_block_count := max_label_block_count
    topk_semantic_capacity :=
      if max_sparse_topk_ratio > 0 then
        max_of ((List.range num_labels).map
          (fun label => selected_count (sparse_size num_labels topk_mask label)
            max_sparse_topk_ratio))
      else 0
    num_blocks := num_blocks
    block_labels := block_labels
    base_physical_layout := pack_as_full block_labels (base_mask_of seg)
    dense_physical_layout := pack_as_full block_labels (same_sample seg.sample_label_ranges)
    real_total_len := real_total_len
    padded_seqlen := padded_seqlen
    cube_token_size := token_size
    is_real := is_real
    pad_indices := (List.range padded_seqlen).filter (fun p => is_real.getD p 0 = 0)
    sorted_real_indices := seg.sort_idx
    expand_indices := scatter ((List.range real_total_len).map uninitialized) seg.sort_idx
      padded_pos_sorted
    gather_indices := scatter (List.replicate padded_seqlen 0) padded_pos_sorted seg.sort_idx }

/-- `precompute_cube_attention`, from the point where the sizes are normalised. -/
def finish_layout (token_size real_total_len : ℕ) (seg : SegmentLayout)
    (max_sparse_topk_ratio : ℚ) (uninitialized : ℕ → ℕ) : Except CubeError CubeLayout :=
  let groups := runs (sorted_labels_of seg)
  if groups.length ≠ num_labels_of seg then
    .error (unoccupied_error (groups.map Prod.fst) seg.sample_label_ranges)
  else
    .ok (layout_of token_size real_total_len seg (sorted_labels_of seg) (groups.map Prod.snd)
      max_sparse_topk_ratio uninitialized)

/-- `precompute_cube_attention`. `uninitialized` is what a fresh `torch.empty` holds. -/
def precompute_cube_attention {π : Type} [LinearOrder π] (sample_shapes : List (List ℤ))
    (cu_seqlens : List ℕ) (total_len : ℕ) (cube_size : List ℤ) (streams : PackedStreams)
    (position_ids : List (π × (π × π))) (max_sparse_topk_ratio : ℚ) (uninitialized : ℕ → ℕ) :
    Except CubeError CubeLayout := do
  let shapes ← sample_shapes.mapM normalize_cube_visual_shape
  match cu_seqlens.getLast? with
  | none => .error .index_error
  | some real_total_len =>
    if real_total_len > total_len then
      .error (.value_error ("cube attention real length " ++ toString real_total_len
        ++ " exceeds total length " ++ toString total_len))
    else
      let size ← cube_token_size cube_size
      if position_ids.length ≠ total_len then
        .error (.value_error ("cube attention img_position_ids must have shape ["
          ++ toString total_len ++ ", 3], got " ++ py_tuple [(position_ids.length : ℤ), 3]))
      else
        let seg ← build_cube_segment_layout shapes cu_seqlens real_total_len size.2 size.1
          streams position_ids
        finish_layout size.1 real_total_len seg max_sparse_topk_ratio uninitialized

/-! ## Padded positions -/

section Geometry

variable {token_size : ℕ} {counts : List ℕ}

theorem le_block_count (hs : 0 < token_size) (c : ℕ) : c ≤ block_count token_size c * token_size := by
  unfold block_count
  have h := Nat.div_add_mod (c + token_size - 1) token_size
  have hlt := Nat.mod_lt (c + token_size - 1) hs
  rw [Nat.mul_comm] at h
  omega

theorem block_count_pos (hs : 0 < token_size) {c : ℕ} (hc : 0 < c) : 0 < block_count token_size c := by
  exact Nat.div_pos (by omega) hs

theorem start_padded (g : ℕ) : start (counts.map (fun c => block_count token_size c * token_size)) g
      = start (counts.map (block_count token_size)) g * token_size := by
  unfold start
  rw [← map_take, ← map_take, ← sum_map_mul_right]

theorem sum_padded : (counts.map (fun c => block_count token_size c * token_size)).sum
      = (counts.map (block_count token_size)).sum * token_size := by
  rw [← sum_map_mul_right]

variable {j : ℕ}

theorem padded_position_spec (hs : 0 < token_size) (hj : j < counts.sum) :
    ∃ g, ∃ hg : g < counts.length, ∃ r, r < counts[g] ∧ j = start counts g + r ∧
      bucket counts j = g ∧ padded_position token_size counts j
        = start (counts.map (block_count token_size)) g * token_size + r ∧
      r / token_size < block_count token_size counts[g] := by
  obtain ⟨g, hg, h₁, h₂⟩ := exists_segment counts hj
  have hb : bucket counts j = g := bucket_eq hg h₁ h₂
  refine ⟨g, hg, j - start counts g, by omega, by omega, hb, ?_, ?_⟩
  · unfold padded_position
    simp only [hb]
    rw [start_padded]
  · rw [Nat.div_lt_iff_lt_mul hs]
    have := le_block_count hs counts[g]
    omega

theorem getElem?_repeat_interleave {sizes : List ℕ} {g r : ℕ} (hg : g < sizes.length)
    (hr : r < sizes[g]) : (repeat_interleave sizes)[start sizes g + r]? = some g := by
  unfold repeat_interleave
  have hrow : (sizes.zipIdx.map (fun p => List.replicate p.1 p.2)).map List.length = sizes := by
    rw [map_map]
    have : (List.length ∘ fun p : ℕ × ℕ => List.replicate p.1 p.2) = Prod.fst := by
      funext p
      simp
    rw [this, zipIdx_map_fst]
  have hlen : g < (sizes.zipIdx.map (fun p => List.replicate p.1 p.2)).length := by simpa using hg
  have hget : (sizes.zipIdx.map (fun p => List.replicate p.1 p.2))[g] = List.replicate sizes[g] g := by
    simp
  have h := getElem?_flatten _ hlen (r := r) (by rw [hget]; simpa using hr)
  rw [hrow, hget] at h
  rw [h, getElem?_replicate, if_pos hr]

theorem length_repeat_interleave (sizes : List ℕ) :
    (repeat_interleave sizes).length = sizes.sum := by
  unfold repeat_interleave
  rw [length_flatten, map_map]
  have : (List.length ∘ fun p : ℕ × ℕ => List.replicate p.1 p.2) = Prod.fst := by
    funext p
    simp
  rw [this, zipIdx_map_fst]

theorem repeat_interleave_eq_iff {sizes : List ℕ} {b g : ℕ} (hg : g < sizes.length) :
    (repeat_interleave sizes)[b]? = some g ↔ start sizes g ≤ b ∧ b < start sizes g + sizes[g] := by
  constructor
  · intro h
    obtain ⟨hb, _⟩ := List.getElem?_eq_some_iff.mp h
    rw [length_repeat_interleave] at hb
    obtain ⟨g', hg', h₁, h₂⟩ := exists_segment sizes hb
    have h' := getElem?_repeat_interleave hg' (r := b - start sizes g') (by omega)
    rw [show start sizes g' + (b - start sizes g') = b by omega, h, Option.some.injEq] at h'
    subst h'
    exact ⟨h₁, h₂⟩
  · rintro ⟨h₁, h₂⟩
    have h' := getElem?_repeat_interleave hg (r := b - start sizes g) (by omega)
    rw [show start sizes g + (b - start sizes g) = b by omega] at h'
    exact h'

section

variable (hs : 0 < token_size)
include hs

theorem padded_position_lt (hj : j < counts.sum) : padded_position token_size counts j
      < (counts.map (fun c => block_count token_size c * token_size)).sum := by
  obtain ⟨g, hg, r, hr, _, _, hpos, _⟩ := padded_position_spec hs hj
  rw [hpos, ← start_padded]
  refine add_lt_sum (by simpa using hg) ?_
  rw [getElem_map]
  exact hr.trans_le (le_block_count hs _)

theorem block_of_padded_position (hj : j < counts.sum) :
    (repeat_interleave (counts.map (block_count token_size)))[
      padded_position token_size counts j / token_size]? = some (bucket counts j) := by
  obtain ⟨g, hg, r, -, _, hb, hpos, hblock⟩ := padded_position_spec hs hj
  have hdiv : (start (counts.map (block_count token_size)) g * token_size + r) / token_size
      = start (counts.map (block_count token_size)) g + r / token_size := by
    rw [Nat.add_comm, Nat.add_mul_div_right _ _ hs, Nat.add_comm]
  rw [hpos, hdiv, hb]
  exact getElem?_repeat_interleave (by simpa using hg) (by simpa using hblock)

theorem padded_position_injective {k : ℕ} (hj : j < counts.sum) (hk : k < counts.sum)
    (heq : padded_position token_size counts j = padded_position token_size counts k) : j = k := by
  have h₁ := block_of_padded_position hs hj
  have h₂ := block_of_padded_position hs hk
  rw [heq, h₂, Option.some.injEq] at h₁
  obtain ⟨g, hg, r, _, hjr, hbj, hposj, _⟩ := padded_position_spec hs hj
  obtain ⟨g', hg', r', _, hkr, hbk, hposk, _⟩ := padded_position_spec hs hk
  have hgg : g = g' := by rw [← hbj, ← hbk, h₁]
  subst hgg
  omega

theorem padded_positions_nodup :
    ((List.range counts.sum).map (padded_position token_size counts)).Nodup := by
  refine List.Nodup.map_on ?_ nodup_range
  intro j hj k hk heq
  exact padded_position_injective hs (mem_range.mp hj) (mem_range.mp hk) heq

end

end Geometry

/-! ## Runs of labels -/

theorem getElem?_of_runs {α : Type} [DecidableEq α] (xs : List α) {g r : ℕ}
    (hg : g < (runs xs).length) (hr : r < ((runs xs).get ⟨g, hg⟩).2) :
    xs[start ((runs xs).map Prod.snd) g + r]? = some ((runs xs).get ⟨g, hg⟩).1 := by
  have hflat : ((runs xs).map (fun p => List.replicate p.2 p.1)).flatten = xs := by
    exact flatMap_runs xs
  have hlen : ((runs xs).map (fun p => List.replicate p.2 p.1)).map List.length
      = (runs xs).map Prod.snd := by
    rw [map_map]
    refine map_congr_left (fun p _ => ?_)
    simp
  have h := getElem?_flatten ((runs xs).map (fun p => List.replicate p.2 p.1)) (g := g) (r := r)
    (by simpa using hg) (by simpa using hr)
  rw [hlen, hflat] at h
  rw [h, getElem_map, getElem?_replicate, if_pos (by simpa using hr)]
  rfl

end LightningH3.CubeMask
