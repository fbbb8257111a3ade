/-
The partition of the used rows: text, image and audio rows are disjoint and are the used
rows, each carries the tag of its list, and the update masks select the target.

The two builders hand out rows with different cursors, so they share no formula for the
target's first row. What they share is the order of the positions, text, condition, audio,
video, from which the target's rows are found in raster order: frame by frame, and in a
frame height by height.
-/
import LightningH3.DenoiseBuffers

set_option autoImplicit false

namespace LightningH3.PackedPartition

open PackedSequence IndexOps Fallible List
open CubeMetadata (Request packed_of)

/-! ## 1. Tags -/

theorem length_set_tags (tags : List ℤ) (rows : List ℕ) (tag : ℤ) :
    (set_tags tags rows tag).length = tags.length :=
  length_scatter _ _ _

theorem set_tags_of_mem {tags : List ℤ} {rows : List ℕ} (hnd : rows.Nodup) {row : ℕ}
    (hrow : row ∈ rows) (hlt : row < tags.length) (tag : ℤ) :
    (set_tags tags rows tag)[row]? = some tag := by
  obtain ⟨k, hk⟩ := getElem?_of_mem hrow
  obtain ⟨hklt, _⟩ := List.getElem?_eq_some_iff.mp hk
  unfold set_tags
  rw [getElem?_scatter hnd (by simp) hk hlt, getElem?_replicate, if_pos hklt]

theorem set_tags_of_notMem {tags : List ℤ} {rows : List ℕ} {row : ℕ} (hrow : row ∉ rows)
    (tag : ℤ) : (set_tags tags rows tag)[row]? = tags[row]? :=
  getElem?_scatter_of_notMem hrow _ _

/-- **Tags of disjoint rows.** Each row carries the tag of its own list; a row of no list is
padding. -/
structure Tagged (tags : List ℤ) (seq_len : ℕ) (text_pos img_pos audio_pos : List ℕ) : Prop where
  length : tags.length = seq_len
  text : ∀ row ∈ text_pos, tags[row]? = some 1
  image : ∀ row ∈ img_pos, tags[row]? = some 0
  audio : ∀ row ∈ audio_pos, tags[row]? = some 2
  padding : ∀ row < seq_len, row ∉ text_pos → row ∉ img_pos → row ∉ audio_pos →
    tags[row]? = some (-1)

theorem token_tags_of_tagged {seq_len : ℕ} {text_pos img_pos audio_pos : List ℕ}
    (hnd : (text_pos ++ (img_pos ++ audio_pos)).Nodup)
    (hin : ∀ row ∈ text_pos ++ (img_pos ++ audio_pos), row < seq_len) :
    Tagged (token_tags_of seq_len text_pos audio_pos img_pos) seq_len text_pos img_pos audio_pos := by
  obtain ⟨htext, hrest, hdisj⟩ := nodup_append.mp hnd
  obtain ⟨himage, haudio, hdisj'⟩ := nodup_append.mp hrest
  have hlen : (token_tags_of seq_len text_pos audio_pos img_pos).length = seq_len := by
    unfold token_tags_of
    rw [length_set_tags, length_set_tags, length_set_tags, length_replicate]
  refine ⟨hlen, ?_, ?_, ?_, ?_⟩
  · intro row hrow
    have hlt := hin row (mem_append_left _ hrow)
    have himg : row ∉ img_pos := fun h =>
      hdisj row hrow row (mem_append_left _ h) rfl
    have haud : row ∉ audio_pos := fun h =>
      hdisj row hrow row (mem_append_right _ h) rfl
    unfold token_tags_of
    rw [set_tags_of_notMem himg, set_tags_of_notMem haud, set_tags_of_mem htext hrow (by simpa)]
  · intro row hrow
    have hlt := hin row (mem_append_right _ (mem_append_left _ hrow))
    unfold token_tags_of
    rw [set_tags_of_mem himage hrow]
    rw [length_set_tags, length_set_tags, length_replicate]
    exact hlt
  · intro row hrow
    have hlt := hin row (mem_append_right _ (mem_append_right _ hrow))
    have himg : row ∉ img_pos := fun h => hdisj' row h row hrow rfl
    unfold token_tags_of
    rw [set_tags_of_notMem himg, set_tags_of_mem haudio hrow]
    rw [length_set_tags, length_replicate]
    exact hlt
  · intro row hrow htxt himg haud
    unfold token_tags_of
    rw [set_tags_of_notMem himg, set_tags_of_notMem haud, set_tags_of_notMem htxt,
      getElem?_replicate, if_pos hrow]

/-! ## 2. Raster order -/

theorem getElem?_flatMap_block {α β : Type} {xs : List α} {f : α → List β} {n : ℕ}
    (hlen : ∀ x ∈ xs, (f x).length = n) {i j : ℕ} {x : α} (hx : xs[i]? = some x) (hj : j < n) :
    (xs.flatMap f)[i * n + j]? = (f x)[j]? := by
  induction xs generalizing i with
  | nil => simp at hx
  | cons y ys ih =>
    rw [flatMap_cons]
    have hy := hlen y mem_cons_self
    cases i with
    | zero =>
      rw [getElem?_cons_zero, Option.some.injEq] at hx
      subst hx
      rw [Nat.zero_mul, Nat.zero_add, getElem?_append_left (by omega)]
    | succ i =>
      have hge : (f y).length ≤ (i + 1) * n + j := by
        rw [Nat.succ_mul]
        omega
      rw [getElem?_append_right hge, ← ih (fun z hz => hlen z (mem_cons_of_mem _ hz)) hx]
      congr 1
      rw [Nat.succ_mul]
      omega

section Raster

variable {π : Type} (N : Numeric π)

theorem length_running_sums (acc : π) (xs : List π) :
    (running_sums N acc xs).length = xs.length := by
  induction xs generalizing acc with
  | nil => rfl
  | cons x xs ih =>
    unfold running_sums
    rw [length_cons, ih, length_cons]

theorem length_video_t_grid (n : ℕ) (origin : π) :
    (video_t_grid N n origin).length = n - 1 + 1 := by
  unfold video_t_grid token_spans
  rw [length_map, length_cons, length_running_sums, length_dropLast, length_map, length_range]

/-- The temporal, height and width coordinates of one row of a video. -/
def latent_position (latent_t latent_h latent_w : ℕ) (origin : π) (t y x : ℕ) :
    Option (π × (π × π)) := do
  let t ← (video_t_grid N latent_t origin)[t]?
  let y ← (h_grid N latent_h latent_w)[y]?
  let x ← (w_grid N latent_h latent_w)[x]?
  some (t, (y, x))

theorem getElem?_frame_grid {latent_h latent_w y x : ℕ} (hy : y < latent_h / 2)
    (hx : x < latent_w / 2) : (frame_grid N latent_h latent_w)[y * (latent_w / 2) + x]? = (do
      let y ← (h_grid N latent_h latent_w)[y]?
      let x ← (w_grid N latent_h latent_w)[x]?
      some (y, x)) := by
  have hwlen : (w_grid N latent_h latent_w).length = latent_w / 2 := length_axis_from_sqrt_area N _ _ _
  have hylt : y < (h_grid N latent_h latent_w).length := by
    unfold h_grid
    rw [length_axis_from_sqrt_area]
    exact hy
  have hyget := getElem?_eq_getElem hylt
  unfold frame_grid
  rw [getElem?_flatMap_block (n := latent_w / 2) (by intro h _; rw [length_map, hwlen]) hyget hx,
    hyget, getElem?_map]
  cases (w_grid N latent_h latent_w)[x]? with
  | none => rfl
  | some w => rfl

/-- **Raster order.** Frame by frame, and in a frame height by height. -/
theorem getElem?_video_positions {latent_t latent_h latent_w t y x : ℕ} (origin : π)
    (ht : t < latent_t) (hy : y < latent_h / 2) (hx : x < latent_w / 2) :
    (video_positions N latent_t latent_h latent_w origin)[
        t * ((latent_h / 2) * (latent_w / 2)) + (y * (latent_w / 2) + x)]?
      = latent_position N latent_t latent_h latent_w origin t y x := by
  have hpoint : y * (latent_w / 2) + x < (latent_h / 2) * (latent_w / 2) := by
    rw [Nat.mul_comm y]
    exact Nat.mul_add_lt_mul_of_lt_of_lt hy hx
  have htlt : t < (video_t_grid N latent_t origin).length := by
    rw [length_video_t_grid]
    omega
  have htget := getElem?_eq_getElem htlt
  unfold video_positions latent_position
  rw [getElem?_flatMap_block (fun i _ => length_image_positions N latent_h latent_w _)
    (getElem?_range ht) hpoint]
  unfold image_positions
  rw [getElem?_map, getElem?_frame_grid N hy hx, getD_eq_getElem?_getD, htget]
  cases (h_grid N latent_h latent_w)[y]? with
  | none => rfl
  | some h =>
    cases (w_grid N latent_h latent_w)[x]? with
    | none => rfl
    | some w => rfl

theorem getElem?_audio_positions {audio_t channel i : ℕ} (origin w_first w_last : π)
    (hchannel : channel < audio_channel) (hi : i < audio_t) :
    (audio_positions N audio_t origin w_first w_last)[channel * audio_t + i]?
      = some (N.add origin (N.of_nat i),
          (N.of_nat 0, if channel = 0 then w_first else w_last)) := by
  unfold audio_positions
  rw [getElem?_flatMap_block (n := audio_t) (by intro c _; rw [length_map, length_range])
    (getElem?_range hchannel) hi, getElem?_map, getElem?_range hi]
  rfl

end Raster

/-! ## 3. The partition -/

/-- What a request asks to generate, and the length of its text. -/
structure Target where
  text_len : ℕ
  latent_t : ℕ
  latent_h : ℕ
  latent_w : ℕ
  audio_t : ℕ

def target_of : Request → Target
  | .keyframes args =>
    { text_len := args.text_len
      latent_t := args.latent_t
      latent_h := args.latent_h
      latent_w := args.latent_w
      audio_t := args.audio_t }
  | .references args =>
    { text_len := args.text_len
      latent_t := args.latent_t
      latent_h := args.latent_h
      latent_w := args.latent_w
      audio_t := args.audio_t }

/-- The sequence length a request asks for; only the reference builder takes one. -/
def asked_seq_len : Request → Option ℕ
  | .keyframes _ => none
  | .references args => args.seq_len

def Target.video_rows (target : Target) : ℕ :=
  target.latent_t * ((target.latent_h / 2) * (target.latent_w / 2))

def Target.audio_rows (target : Target) : ℕ := target.audio_t * audio_channel

/-- The mask is false on the condition rows, true on the target rows, and these are the rows
in this order. -/
structure Selects (pos : List ℕ) (mask : List Bool) (cond target : List ℕ) : Prop where
  pos_eq : pos = cond ++ target
  mask_eq : mask = List.replicate cond.length false ++ List.replicate target.length true

section Partition

variable {π : Type}

/-- **The target's rows.** Consecutive rows, video rows in the raster order of the latent and
audio rows channel by channel, as their positions say. -/
structure TargetRows (N : Numeric π) (target : Target) (position_ids : List (π × (π × π)))
    (video audio : List ℕ) : Prop where
  video_rows : ∃ first, video = List.range' first target.video_rows
  audio_rows : ∃ first, audio = List.range' first target.audio_rows
  positions : ∃ origin w_first w_last,
    grid_ends (w_grid N target.latent_h target.latent_w) = .ok (w_first, w_last) ∧
    (∀ t y x, t < target.latent_t → y < target.latent_h / 2 → x < target.latent_w / 2 →
      ∃ row position, video[t * ((target.latent_h / 2) * (target.latent_w / 2))
          + (y * (target.latent_w / 2) + x)]? = some row ∧
        latent_position N target.latent_t target.latent_h target.latent_w origin t y x
          = some position ∧ position_ids[row]? = some position) ∧
    ∀ channel i, channel < audio_channel → i < target.audio_t →
      ∃ row, audio[channel * target.audio_t + i]? = some row ∧
        position_ids[row]? = some (N.add origin (N.of_nat i),
          (N.of_nat 0, if channel = 0 then w_first else w_last))

/-- **A partitioned layout.** The text, image and audio rows are disjoint and are the used
rows, the tags say which list a row is in, the length is the least multiple of 64 that
holds the used rows unless another was asked for, and the update masks select the target. -/
structure Partitioned (N : Numeric π) (target : Target) (asked : Option ℕ) (packed : Packed π)
    (used : ℕ) : Prop where
  text_rows : packed.text_pos = List.range target.text_len
  nodup : packed.text_pos.Nodup ∧ packed.img_pos.Nodup ∧ packed.audio_pos.Nodup
  disjoint : packed.text_pos.Disjoint packed.img_pos ∧
    packed.text_pos.Disjoint packed.audio_pos ∧ packed.img_pos.Disjoint packed.audio_pos
  union : ∀ row, row ∈ packed.text_pos ∨ row ∈ packed.img_pos ∨ row ∈ packed.audio_pos ↔
    row < used
  boundaries : packed.cu_seqlens = [0, used, packed.seq_len]
  tags : Tagged packed.token_tags packed.seq_len packed.text_pos packed.img_pos packed.audio_pos
  fits : used ≤ packed.seq_len
  seq_len : asked = none → 64 ∣ packed.seq_len ∧ ∀ n, 64 ∣ n → used ≤ n → packed.seq_len ≤ n
  asked_seq_len : ∀ n, asked = some n → packed.seq_len = n
  targets : ∃ cond_video video cond_audio audio,
    Selects packed.img_pos packed.update_mask cond_video video ∧
    Selects packed.audio_pos (packed.audio_update_mask.getD (packed.audio_pos.map (fun _ => true)))
      cond_audio audio ∧
    TargetRows N target packed.img_position_ids video audio ∧
    ∀ text_shape num_tags branch, DenoiseLoop.denoise_branch packed text_shape num_tags = .ok branch →
      branch.video.target_seq_idx = video ∧ branch.audio.target_seq_idx = audio

variable {N : Numeric π}

theorem TargetRows.of_positions {target : Target} {position_ids : List (π × (π × π))}
    (origin : π) {ends : π × π} {start : ℕ}
    (hends : grid_ends (w_grid N target.latent_h target.latent_w) = .ok ends)
    (hids : ∃ front back : List (π × (π × π)), front.length = start ∧
      position_ids = front ++ (audio_positions N target.audio_t origin ends.1 ends.2
        ++ (video_positions N target.latent_t target.latent_h target.latent_w origin ++ back))) :
    TargetRows N target position_ids (List.range' (start + target.audio_rows) target.video_rows)
      (List.range' start target.audio_rows) := by
  obtain ⟨front, back, hstart, hids⟩ := hids
  have haudio_len : (audio_positions N target.audio_t origin ends.1 ends.2).length
      = target.audio_rows := length_audio_positions N _ _ _ _
  have hvideo_len : (video_positions N target.latent_t target.latent_h target.latent_w
      origin).length = target.video_rows := length_video_positions N _ _ _ _
  refine ⟨⟨_, rfl⟩, ⟨_, rfl⟩, origin, ends.1, ends.2, hends, ?_, ?_⟩
  · intro t y x ht hy hx
    have hget := getElem?_video_positions N origin ht hy hx
    -- the row's number in the video
    generalize t * ((target.latent_h / 2) * (target.latent_w / 2)) + (y * (target.latent_w / 2) + x)
      = k at hget ⊢
    have hk : k < target.video_rows := by
      rw [← hvideo_len]
      by_contra hge
      rw [getElem?_eq_none (Nat.le_of_not_lt hge)] at hget
      unfold latent_position at hget
      have h₁ : t < (video_t_grid N target.latent_t origin).length := by
        rw [length_video_t_grid]
        omega
      have h₂ : y < (h_grid N target.latent_h target.latent_w).length := by
        unfold h_grid
        rwa [length_axis_from_sqrt_area]
      have h₃ : x < (w_grid N target.latent_h target.latent_w).length := by
        unfold w_grid
        rwa [length_axis_from_sqrt_area]
      rw [getElem?_eq_getElem h₁, getElem?_eq_getElem h₂, getElem?_eq_getElem h₃] at hget
      cases hget
    have hvalue := getElem?_eq_getElem (hvideo_len ▸ hk)
    refine ⟨start + target.audio_rows + k, _, ?_, hget.symm.trans hvalue, ?_⟩
    · rw [getElem?_range' hk, Nat.one_mul]
    · rw [hids, getElem?_append_right (by omega), getElem?_append_right (by omega),
        getElem?_append_left (by omega), ← hvalue]
      congr 1
      omega
  · intro channel i hchannel hi
    have hget := getElem?_audio_positions N origin ends.1 ends.2 hchannel hi
    generalize channel * target.audio_t + i = k at hget ⊢
    have hk : k < target.audio_rows := by
      rw [← haudio_len]
      exact (List.getElem?_eq_some_iff.mp hget).1
    refine ⟨start + k, ?_, ?_⟩
    · rw [getElem?_range' hk, Nat.one_mul]
    · rw [hids, getElem?_append_right (by omega), getElem?_append_left (by omega), ← hget]
      congr 1
      omega

variable {pos : List ℕ}

theorem Selects.masked {mask : List Bool} {cond target : List ℕ} (h : Selects pos mask cond target) :
    DenoiseLoop.masked pos mask = target := by
  rw [h.pos_eq, h.mask_eq, DenoiseLoop.masked_append (by rw [length_replicate]),
    DenoiseLoop.masked_replicate, DenoiseLoop.masked_replicate]
  rfl

theorem modality_target {mask : List Bool} {m : DenoiseLoop.Modality}
    (h : DenoiseLoop.modality pos mask = .ok m) :
    m.target_seq_idx = DenoiseLoop.masked pos mask := by
  unfold DenoiseLoop.modality at h
  split at h
  · cases h
  · cases h
    rfl

variable {packed : Packed π}

theorem branch_targets {text_shape : List ℕ} {num_tags : ℕ} {branch : DenoiseLoop.Branch}
    (h : DenoiseLoop.denoise_branch packed text_shape num_tags = .ok branch) :
    branch.video.target_seq_idx = DenoiseLoop.masked packed.img_pos packed.update_mask ∧
      branch.audio.target_seq_idx = DenoiseLoop.masked packed.audio_pos
        (packed.audio_update_mask.getD (packed.audio_pos.map (fun _ => true))) := by
  unfold DenoiseLoop.denoise_branch at h
  split at h
  · cases h
  · split at h
    · cases h
    · obtain ⟨video, hvideo, h⟩ := bind_eq_ok.mp h
      obtain ⟨audio, haudio, h⟩ := bind_eq_ok.mp h
      cases h
      exact ⟨modality_target hvideo, modality_target haudio⟩

theorem aligned_least (used : ℕ) :
    64 ∣ aligned used ∧ ∀ n, 64 ∣ n → used ≤ n → aligned used ≤ n := by
  unfold aligned
  refine ⟨Nat.dvd_mul_left _ _, ?_⟩
  rintro n ⟨k, rfl⟩ hn
  omega

theorem Selects.of_suffix {cond target : List ℕ} (hpos : pos = cond ++ target) :
    Selects pos (suffix_mask pos.length cond.length) cond target := by
  refine ⟨hpos, ?_⟩
  have hlen : pos.length = cond.length + target.length := by rw [hpos, length_append]
  rw [CubeMetadata.suffix_mask_eq (by omega), hlen, Nat.add_sub_cancel_left]

theorem Partitioned.of_unpacked {target : Target} {asked : Option ℕ} {layout : StreamLayout}
    {used : ℕ} {cond_video video cond_audio audio : List ℕ}
    (h : CubeMetadata.Unpacked packed layout used cond_video video cond_audio audio)
    (htext : packed.text_pos = List.range target.text_len) (htags : packed.token_tags
      = token_tags_of packed.seq_len packed.text_pos packed.audio_pos packed.img_pos)
    (hcu : packed.cu_seqlens = [0, used, packed.seq_len])
    (hmask : packed.update_mask = suffix_mask packed.img_pos.length cond_video.length)
    (hamask : packed.audio_update_mask.getD (packed.audio_pos.map (fun _ => true))
      = suffix_mask packed.audio_pos.length cond_audio.length)
    (htargets : TargetRows N target packed.img_position_ids video audio)
    (hlen : packed.seq_len = asked.getD (aligned used)) :
    Partitioned N target asked packed used := by
  have hperm : (packed.text_pos ++ (packed.img_pos ++ packed.audio_pos)).Perm (List.range used) := by
    refine List.Perm.trans ?_ h.rows
    rw [h.img_pos, h.audio_pos, CubeMetadata.tokens_packed_streams, perm_iff_count]
    intro row
    simp only [count_append]
    omega
  have hnd := hperm.nodup_iff.mpr nodup_range
  have hmem : ∀ row, row ∈ packed.text_pos ++ (packed.img_pos ++ packed.audio_pos) ↔ row < used := by
    intro row
    rw [hperm.mem_iff, mem_range]
  obtain ⟨htextnd, hrest, hdisj⟩ := nodup_append.mp hnd
  obtain ⟨himagend, haudiond, hdisj'⟩ := nodup_append.mp hrest
  have hvideo := Selects.of_suffix h.img_pos
  have haudio := Selects.of_suffix h.audio_pos
  refine ⟨htext, ⟨htextnd, himagend, haudiond⟩, ⟨?_, ?_, ?_⟩, ?_, hcu, ?_, h.fits, ?_, ?_,
    cond_video, video, cond_audio, audio, hmask ▸ hvideo, hamask ▸ haudio, htargets, ?_⟩
  · intro row h₁ h₂
    exact hdisj row h₁ row (mem_append_left _ h₂) rfl
  · intro row h₁ h₂
    exact hdisj row h₁ row (mem_append_right _ h₂) rfl
  · intro row h₁ h₂
    exact hdisj' row h₁ row h₂ rfl
  · intro row
    rw [← hmem, mem_append, mem_append]
  · rw [htags]
    refine token_tags_of_tagged hnd (fun row hrow => ?_)
    exact Nat.lt_of_lt_of_le ((hmem row).mp hrow) h.fits
  · rintro rfl
    rw [hlen]
    exact aligned_least used
  · rintro n rfl
    exact hlen
  · intro text_shape num_tags branch hbranch
    obtain ⟨hv, ha⟩ := branch_targets hbranch
    rw [hv, ha, hmask, hamask, hvideo.masked, haudio.masked]
    exact ⟨rfl, rfl⟩

/-! ## 4. The builders -/

theorem keyframe_partitioned {args : KeyframeArgs}
    (h : minimax_h3_packed_sequence N args = .ok packed) :
    ∃ used, Partitioned N (target_of (.keyframes args)) none packed used := by
  obtain ⟨indices, _, h⟩ := bind_eq_ok.mp h
  obtain ⟨resolved, hresolved, h⟩ := bind_eq_ok.mp h
  obtain ⟨keyframes, hkeyframes, h⟩ := bind_eq_ok.mp h
  obtain ⟨ends, hends, h⟩ := bind_eq_ok.mp h
  have hcount : keyframes.length = indices.length := by
    rw [← length_resolve_keyframe_frame_indices hresolved, (mapM_eq_ok.mp hkeyframes).length_eq]
  obtain ⟨used, hunpacked⟩ := CubeMetadata.keyframe_unpacked (N := N) args resolved ends hcount
  cases h
  have hused := hunpacked.used_rows
  refine ⟨used, Partitioned.of_unpacked hunpacked rfl rfl ?_ ?_ ?_ ?_ ?_⟩
  · cases hused
    rfl
  · show suffix_mask _ _ = _
    unfold CubeMetadata.keyframe_cond_pos
    rw [length_range']
    rfl
  · show List.map _ _ = _
    rw [length_nil, CubeMetadata.suffix_mask_eq (Nat.zero_le _), map_const']
    rfl
  · have hfront : (text_positions N args.text_len
        ++ keyframes.flatMap (image_positions N args.latent_h args.latent_w)).length
        = args.text_len + indices.length * ((args.latent_h / 2) * (args.latent_w / 2)) := by
      rw [length_append, length_text_positions, length_keyframe_positions, hcount]
    exact TargetRows.of_positions (N.of_nat args.text_len) hends ⟨_, _, hfront, by
      unfold keyframe_packed padded_positions
      simp only [append_assoc]
      rfl⟩
  · cases hused
    rfl

theorem reference_partitioned {args : RefArgs}
    (h : minimax_h3_packed_sequence_ref2va_blocks N args = .ok packed) :
    ∃ used, Partitioned N (target_of (.references args)) args.seq_len packed used := by
  obtain ⟨parsed, _, h⟩ := bind_eq_ok.mp h
  obtain ⟨indices, _, h⟩ := bind_eq_ok.mp h
  obtain ⟨resolved, hresolved, h⟩ := bind_eq_ok.mp h
  simp only at h
  split at h
  · cases h
  · next hfits =>
    obtain ⟨located, hlocated, h⟩ := bind_eq_ok.mp h
    obtain ⟨ends, hends, h⟩ := bind_eq_ok.mp h
    obtain ⟨keyframes, hkeyframes, h⟩ := bind_eq_ok.mp h
    have hcount : keyframes.length = indices.length := by
      rw [← length_resolve_keyframe_frame_indices hresolved, (mapM_eq_ok.mp hkeyframes).length_eq]
    have hrows := length_blocks_positions N hlocated
    cases h
    refine ⟨args.used parsed indices, Partitioned.of_unpacked
      (CubeMetadata.reference_unpacked args ends hcount (not_lt.mp hfits) hrows)
      rfl rfl rfl ?_ ?_ ?_ rfl⟩
    · rw [CubeMetadata.length_reference_cond_pos]
      rfl
    · rw [CubeMetadata.length_reference_cond_audio_pos]
      rfl
    · have hfront : (text_positions N args.text_len
          ++ (keyframes.flatMap (image_positions N args.latent_h args.latent_w)
            ++ located.1)).length
          = CubeMetadata.reference_target_start args parsed indices := by
        unfold CubeMetadata.reference_target_start
        rw [length_append, length_append, length_text_positions, length_keyframe_positions, hcount]
        omega
      exact TargetRows.of_positions located.2 hends ⟨_, _, hfront, by
        unfold reference_packed padded_positions
        simp only [append_assoc]
        rfl⟩

end Partition

variable {π : Type}

/-- **The packed layout partitions the used rows.** Whatever the request, if a builder
returns a layout, it is partitioned for the request's target. -/
theorem packed_layout_partitioned (N : Numeric π) (request : Request) {packed : Packed π}
    (hpacked : packed_of N request = .ok packed) :
    ∃ used, Partitioned N (target_of request) (asked_seq_len request) packed used := by
  cases request with
  | keyframes args => exact keyframe_partitioned hpacked
  | references args => exact reference_partitioned hpacked

/-- An image reference with two keyframes. -/
theorem packed_layout_partitioned_hybrid : ∃ packed used, packed_of CubeMetadata.exact_numeric
      (.references (CubeMetadata.image_request (some [0, -1]))) = .ok packed ∧
    Partitioned CubeMetadata.exact_numeric
      (target_of (.references (CubeMetadata.image_request (some [0, -1])))) none packed used := by
  obtain ⟨packed, hpacked⟩ : ∃ packed, packed_of CubeMetadata.exact_numeric
      (.references (CubeMetadata.image_request (some [0, -1]))) = .ok packed := ⟨_, rfl⟩
  obtain ⟨used, h⟩ := packed_layout_partitioned CubeMetadata.exact_numeric _ hpacked
  exact ⟨packed, used, hpacked, h⟩

end LightningH3.PackedPartition
