/-
The sparse query blocks of the SubBlock attention (`_minimax_h3_subblock_video_query_indices` and
`_minimax_h3_subblock_sparse_query_block_mask` of `denoise_loop.py`).

A block is 64 rows of the packed sequence, counted from its first row, wherever the ranks cut it; the
rows from `used_len` on are padding. The mask compares two counts, the video rows and the real rows of
a block. The video rows are distinct and real, so the counts are equal exactly when every real row is
a video row.
-/
import Mathlib.Data.List.Dedup
import LightningH3.DenoiseLoop

set_option autoImplicit false

namespace LightningH3.DenoiseLoop

open List Fallible PackedSequence

/-! ## 1. The source -/

inductive MaskError where
  | value_error (message : String)
  | key_error
  deriving DecidableEq

variable {π : Type}

/-- `_minimax_h3_subblock_video_query_indices`. -/
def subblock_video_query_indices (packed : Packed π) (text_video_token_mask : Option (List Bool)) :
    Except MaskError (List ℕ) :=
  match packed.video_pos, text_video_token_mask with
  | none, _ => .error .key_error
  | some latent_video_pos, none => .ok latent_video_pos
  | some latent_video_pos, some mask =>
    if mask.length ≠ packed.text_pos.length then
      .error (.value_error ("text_video_token_mask must align with packed text rows "
        ++ s!"({packed.text_pos.length}), got {mask.length}"))
    else .ok (masked packed.text_pos mask ++ latent_video_pos)

/-- `torch.bincount`, of numbers that are not negative. -/
def bincount (xs : List ℤ) (minlength : ℕ) : List ℕ :=
  (List.range (max minlength ((xs.max?.map fun x => x.toNat + 1).getD 0))).map
    fun b : ℕ => xs.count (b : ℤ)

/-- The checks of the video rows; their rank is one. -/
def check_query_indices (video_query_indices : List ℤ) (used_len : ℤ) : Except MaskError Unit :=
  if used_len < 0 then .error (.value_error s!"used_len must be non-negative, got {used_len}")
  else match video_query_indices.min?, video_query_indices.max? with
    | some first, some last =>
      if first < 0 ∨ last ≥ used_len then
        .error (.value_error ("video_query_indices must be first-segment-relative and in "
          ++ s!"[0, {used_len}), got min={first}, max={last}"))
      else if video_query_indices.dedup.length ≠ video_query_indices.length then
        .error (.value_error "video_query_indices must not contain duplicates")
      else .ok ()
    | _, _ => .ok ()

/-- The rows of a block in front of the padding. -/
def real_rows (used_len : ℤ) (block_id : ℕ) : ℤ := min (max (used_len - block_id * 64) 0) 64

/-- `_minimax_h3_subblock_sparse_query_block_mask`. -/
def subblock_sparse_query_block_mask (video_query_indices : List ℤ) (used_len : ℤ) :
    Except MaskError (List Bool) := do
  check_query_indices video_query_indices used_len
  let num_query_blocks := (-(-used_len / 64)).toNat
  let video_rows_per_block := bincount (video_query_indices.map (· / 64)) num_query_blocks
  let real_rows_per_block := (List.range num_query_blocks).map (real_rows used_len)
  pure (List.zipWith (fun (video : ℕ) (real : ℤ) => (video : ℤ) == real) video_rows_per_block
    real_rows_per_block)

/-! ## 2. What the mask is to say -/

/-- A real row of a block. -/
def RealRow (used_len : ℤ) (b : ℕ) (row : ℤ) : Prop :=
  64 * b ≤ row ∧ row < 64 * b + 64 ∧ row < used_len

/-- A row of the packed video, or a text row that is marked as video. -/
def VideoRow (packed : Packed π) (text_video_token_mask : Option (List Bool)) (row : ℤ) : Prop :=
  (∃ pos, packed.video_pos = some pos ∧ ∃ r ∈ pos, (r : ℤ) = row) ∨
    ∃ mask, text_video_token_mask = some mask ∧
      ∃ (i r : ℕ), packed.text_pos[i]? = some r ∧ mask[i]? = some true ∧ (r : ℤ) = row

/-- The checks pass. -/
def ValidRows (indices : List ℤ) (used_len : ℤ) : Prop :=
  0 ≤ used_len ∧ (∀ i ∈ indices, 0 ≤ i ∧ i < used_len) ∧ indices.Nodup

/-! ## 3. Counts and rows -/

section Counts

variable {indices : List ℤ} {used_len : ℤ} {b : ℕ}

theorem check_query_indices_iff :
    check_query_indices indices used_len = .ok () ↔ ValidRows indices used_len := by
  unfold check_query_indices
  by_cases hneg : used_len < 0
  · rw [if_pos hneg]
    exact iff_of_false (by simp) fun h => absurd h.1 (by omega)
  · rw [if_neg hneg]
    rcases eq_or_ne indices [] with rfl | hne
    · exact iff_of_true rfl ⟨by omega, fun i hi => absurd hi not_mem_nil, nodup_nil⟩
    · obtain ⟨first, hmin⟩ := Option.isSome_iff_exists.mp (isSome_min?_of_ne_nil hne)
      obtain ⟨last, hmax⟩ := Option.isSome_iff_exists.mp (isSome_max?_of_ne_nil hne)
      obtain ⟨hfirst, hle⟩ := min?_eq_some_iff.mp hmin
      obtain ⟨hlast, hge⟩ := max?_eq_some_iff.mp hmax
      rw [hmin, hmax]
      dsimp only
      split_ifs with hrange hdup
      · refine iff_of_false (by simp) fun h => ?_
        have hfirst' := h.2.1 first hfirst
        have hlast' := h.2.1 last hlast
        omega
      · refine iff_of_false (by simp) fun h => hdup ?_
        rw [h.2.2.dedup]
      · refine iff_of_true rfl ⟨by omega, fun i hi => ?_, ?_⟩
        · have hlow := hle i hi
          have hhigh := hge i hi
          omega
        · rw [← (dedup_sublist indices).eq_of_length (not_not.mp hdup)]
          exact nodup_dedup indices

/-- The real rows of a block, in their order. -/
def block_rows (used_len : ℤ) (b : ℕ) : List ℤ :=
  (List.range (real_rows used_len b).toNat).map fun r : ℕ => 64 * (b : ℤ) + r

theorem mem_block_rows {row : ℤ} : row ∈ block_rows used_len b ↔ RealRow used_len b row := by
  unfold block_rows RealRow real_rows
  rw [mem_map]
  constructor
  · rintro ⟨r, hr, rfl⟩
    rw [mem_range] at hr
    omega
  · intro hrow
    refine ⟨(row - 64 * b).toNat, ?_, by omega⟩
    rw [mem_range]
    omega

theorem nodup_block_rows : (block_rows used_len b).Nodup :=
  nodup_range.map fun r s h => by simpa using h

/-- **The counts agree exactly when** every real row is among the video rows. -/
theorem count_eq_iff (h : ValidRows indices used_len) :
    (((indices.map (· / 64)).count (b : ℤ) : ℕ) : ℤ) = real_rows used_len b ↔
      ∀ row, RealRow used_len b row → row ∈ indices := by
  have hcount : (indices.map (· / 64)).count (b : ℤ)
      = (indices.filter fun i => i / 64 == (b : ℤ)).length := by
    rw [count, countP_map, countP_eq_length_filter]
    rfl
  have hnodup := h.2.2.filter fun i => i / 64 == (b : ℤ)
  have hsub : indices.filter (fun i => i / 64 == (b : ℤ)) ⊆ block_rows used_len b := by
    intro i hi
    obtain ⟨hmem, hblock⟩ := mem_filter.mp hi
    have hreal := h.2.1 i hmem
    rw [beq_iff_eq] at hblock
    refine mem_block_rows.mpr ⟨?_, ?_, hreal.2⟩ <;> omega
  have hlength : ((block_rows used_len b).length : ℤ) = real_rows used_len b := by
    unfold block_rows real_rows
    rw [length_map, length_range]
    omega
  rw [hcount, ← hlength, Int.natCast_inj]
  constructor
  · intro heq row hrow
    have hperm := (hnodup.subperm hsub).perm_of_length_le heq.ge
    exact (mem_filter.mp (hperm.mem_iff.mpr (mem_block_rows.mpr hrow))).1
  · intro hall
    refine (hnodup.subperm hsub).length_le.antisymm
      (nodup_block_rows.subperm fun row hrow => ?_).length_le
    obtain ⟨hlow, hhigh, -⟩ := mem_block_rows.mp hrow
    refine mem_filter.mpr ⟨hall row (mem_block_rows.mp hrow), ?_⟩
    rw [beq_iff_eq]
    omega

theorem length_bincount {xs : List ℤ} {n : ℕ} (h : ∀ x ∈ xs, 0 ≤ x ∧ x < n) :
    (bincount xs n).length = n := by
  unfold bincount
  rw [length_map, length_range]
  apply Nat.max_eq_left
  cases hmax : xs.max? with
  | none => exact Nat.zero_le n
  | some x =>
    have hx := h x (max?_mem hmax)
    show x.toNat + 1 ≤ n
    omega

/-- **The mask of a block**, on any rows that pass the checks. -/
theorem query_block_mask_iff (h : ValidRows indices used_len) :
    ∃ mask, subblock_sparse_query_block_mask indices used_len = .ok mask ∧
      ∀ b, mask.getD b false = true ↔
        (∃ row, RealRow used_len b row) ∧ ∀ row, RealRow used_len b row → row ∈ indices := by
  have hlength : (bincount (indices.map (· / 64)) (-(-used_len / 64)).toNat).length
      = (-(-used_len / 64)).toNat := by
    refine length_bincount fun x hx => ?_
    obtain ⟨i, hi, rfl⟩ := mem_map.mp hx
    have hreal := h.2.1 i hi
    omega
  unfold subblock_sparse_query_block_mask
  rw [check_query_indices_iff.mpr h]
  refine ⟨_, rfl, fun b => ?_⟩
  rw [getD_eq_getElem?_getD, getElem?_zipWith, getElem?_map]
  rcases Nat.lt_or_ge b (-(-used_len / 64)).toNat with hlt | hge
  · have hcount : (bincount (indices.map (· / 64)) (-(-used_len / 64)).toNat)[b]?
        = some ((indices.map (· / 64)).count (b : ℤ)) := by
      unfold bincount
      rw [getElem?_map, getElem?_range (lt_of_lt_of_le hlt (Nat.le_max_left _ _))]
      rfl
    rw [hcount, getElem?_range hlt]
    show ((((indices.map (· / 64)).count (b : ℤ) : ℕ) : ℤ) == real_rows used_len b) = true ↔ _
    rw [beq_iff_eq, count_eq_iff h, and_iff_right]
    exact ⟨64 * b, by omega, by omega, by omega⟩
  · rw [getElem?_eq_none (by rwa [hlength])]
    refine iff_of_false (by simp) ?_
    rintro ⟨⟨row, hlow, -, hhigh⟩, -⟩
    omega

end Counts

theorem mem_masked {xs : List ℕ} {mask : List Bool} (r : ℕ) :
    r ∈ masked xs mask ↔ ∃ i : ℕ, xs[i]? = some r ∧ mask[i]? = some true := by
  unfold masked
  rw [mem_map]
  constructor
  · rintro ⟨⟨x, m⟩, hmem, rfl⟩
    obtain ⟨hzip, hm⟩ := mem_filter.mp hmem
    obtain ⟨i, hi⟩ := mem_iff_getElem?.mp hzip
    obtain ⟨hx, hmask⟩ := getElem?_zip_eq_some.mp hi
    refine ⟨i, hx, ?_⟩
    rw [hmask]
    exact congrArg some hm
  · rintro ⟨i, hx, hmask⟩
    refine ⟨(r, true), mem_filter.mpr ⟨mem_iff_getElem?.mpr ⟨i, ?_⟩, rfl⟩, rfl⟩
    exact getElem?_zip_eq_some.mpr ⟨hx, hmask⟩

theorem mem_video_query_indices {packed : Packed π} {text_video_token_mask : Option (List Bool)}
    {video : List ℕ} (h : subblock_video_query_indices packed text_video_token_mask = .ok video)
    (row : ℤ) :
    row ∈ video.map (fun r : ℕ => (r : ℤ)) ↔ VideoRow packed text_video_token_mask row := by
  unfold subblock_video_query_indices at h
  unfold VideoRow
  rw [mem_map]
  cases hpos : packed.video_pos with
  | none =>
    rw [hpos] at h
    exact absurd h (by simp)
  | some pos =>
    rw [hpos] at h
    cases text_video_token_mask with
    | none =>
      cases h
      simp
    | some mask =>
      dsimp only at h
      split_ifs at h
      cases h
      simp only [mem_append, mem_masked, Option.some.injEq, exists_eq_left']
      constructor
      · rintro ⟨r, ⟨i, hr, hi⟩ | hr, rfl⟩
        · exact Or.inr ⟨i, r, hr, hi, rfl⟩
        · exact Or.inl ⟨r, hr, rfl⟩
      · rintro (⟨r, hr, rfl⟩ | ⟨i, r, hr, hi, rfl⟩)
        · exact ⟨r, Or.inr hr, rfl⟩
        · exact ⟨r, Or.inl ⟨i, hr, hi⟩, rfl⟩

/-! ## 4. The mask -/

/-- **The mask of the SubBlock attention**: it is computed for distinct video rows in front of the
padding, and true for the blocks that have a real row and only real rows that are video rows. -/
theorem subblock_mask_correct (packed : Packed π) (text_video_token_mask : Option (List Bool))
    (used_len : ℤ) (video : List ℕ)
    (hvideo : subblock_video_query_indices packed text_video_token_mask = .ok video) :
    ((∃ mask, subblock_sparse_query_block_mask (video.map fun r : ℕ => (r : ℤ)) used_len = .ok mask)
        ↔ 0 ≤ used_len ∧ (∀ row ∈ video, (row : ℤ) < used_len) ∧ video.Nodup) ∧
    ∀ mask, subblock_sparse_query_block_mask (video.map fun r : ℕ => (r : ℤ)) used_len = .ok mask →
      ∀ b, mask.getD b false = true ↔ (∃ row, RealRow used_len b row) ∧
        ∀ row, RealRow used_len b row → VideoRow packed text_video_token_mask row := by
  have hvalid : ValidRows (video.map fun r : ℕ => (r : ℤ)) used_len ↔
      0 ≤ used_len ∧ (∀ row ∈ video, (row : ℤ) < used_len) ∧ video.Nodup := by
    unfold ValidRows
    rw [nodup_map_iff Nat.cast_injective, forall_mem_map]
    simp
  have hchecked : ∀ mask,
      subblock_sparse_query_block_mask (video.map fun r : ℕ => (r : ℤ)) used_len = .ok mask →
        ValidRows (video.map fun r : ℕ => (r : ℤ)) used_len := by
    intro mask hmask
    obtain ⟨⟨⟩, hcheck, -⟩ := bind_eq_ok.mp hmask
    exact check_query_indices_iff.mp hcheck
  rw [← hvalid]
  refine ⟨⟨fun ⟨mask, hmask⟩ => hchecked mask hmask, fun h => ?_⟩, fun mask hmask b => ?_⟩
  · obtain ⟨mask, hmask, -⟩ := query_block_mask_iff h
    exact ⟨mask, hmask⟩
  · obtain ⟨mask', hmask', hblocks⟩ := query_block_mask_iff (hchecked mask hmask)
    obtain rfl := Except.ok.inj (hmask.symm.trans hmask')
    simp only [hblocks, mem_video_query_indices hvideo]

/-- One video row behind 64 rows of text. -/
def one_video_row : Packed Unit where
  seq_len := 128
  img_pos := [64]
  audio_pos := []
  text_pos := List.range 64
  update_mask := [true]
  audio_update_mask := none
  img_position_ids := []
  token_tags := []
  cu_seqlens := [0, 65, 128]
  stream_layout := none
  video_pos := some [64]

/-- Its second block has one real row. -/
theorem subblock_mask_tail : ∃ mask, subblock_sparse_query_block_mask [64] 65 = .ok mask ∧
    (mask.getD 1 false = true ↔ (∃ row, RealRow 65 1 row) ∧
      ∀ row, RealRow 65 1 row → VideoRow one_video_row none row) := by
  obtain ⟨hdefined, hblocks⟩ := subblock_mask_correct one_video_row none 65 [64] rfl
  obtain ⟨mask, hmask⟩ := hdefined.mpr (by decide)
  exact ⟨mask, hmask, hblocks mask hmask 1⟩

end LightningH3.DenoiseLoop
