/-
The two packed-sequence builders on one request without references.

The keyframe builder and the reference builder with an empty list of blocks hand out the
same rows and the same positions, fail on the same requests with the same error, and
differ in one thing: the reference builder's `stream_layout` leaves the keyframes out.

Keyframe indices that resolve are the first or the last frame, so the temporal position of
a keyframe never fails, and the two builders' different messages for it are never raised.
-/
import LightningH3.CubeConsumable

set_option autoImplicit false

namespace LightningH3.PackedAgree

open PackedSequence Fallible List

/-! ## 1. One request, two calls -/

/-- A request without references. -/
structure LayoutArgs where
  text_len : ℕ
  latent_t : ℕ
  latent_h : ℕ
  latent_w : ℕ
  audio_t : ℕ
  keyframe_frame_indices : Option (List ℤ)
  frame_count : Option ℤ
  include_video_pos : Bool

/-- The call of the keyframe builder. -/
def LayoutArgs.keyframe_args (args : LayoutArgs) : KeyframeArgs where
  text_len := args.text_len
  latent_t := args.latent_t
  latent_h := args.latent_h
  latent_w := args.latent_w
  audio_t := args.audio_t
  include_keyframe_cond := args.keyframe_frame_indices.isSome
  keyframe_frame_indices := args.keyframe_frame_indices
  frame_count := args.frame_count
  include_video_pos := args.include_video_pos

/-- The call of the reference builder, without blocks. -/
def LayoutArgs.ref_args (args : LayoutArgs) : RefArgs where
  text_len := args.text_len
  latent_t := args.latent_t
  latent_h := args.latent_h
  latent_w := args.latent_w
  audio_t := args.audio_t
  ref_blocks := []
  keyframe_frame_indices := args.keyframe_frame_indices
  frame_count := args.frame_count
  seq_len := none
  include_video_pos := args.include_video_pos

section Agreement

variable {π : Type}

/-- **The same rows.** Positions, tags, masks, position ids and lengths; an absent audio mask
is read as the denoising branch reads it. -/
structure SameRows (p q : Packed π) : Prop where
  seq_len : p.seq_len = q.seq_len
  img_pos : p.img_pos = q.img_pos
  audio_pos : p.audio_pos = q.audio_pos
  text_pos : p.text_pos = q.text_pos
  update_mask : p.update_mask = q.update_mask
  audio_update_mask : p.audio_update_mask.getD (p.audio_pos.map (fun _ => true))
    = q.audio_update_mask.getD (q.audio_pos.map (fun _ => true))
  img_position_ids : p.img_position_ids = q.img_position_ids
  token_tags : p.token_tags = q.token_tags
  cu_seqlens : p.cu_seqlens = q.cu_seqlens
  video_pos : p.video_pos = q.video_pos

/-- The results of two builders: the same error, or layouts in the given relation. -/
def Results (R : Packed π → Packed π → Prop) :
    Except PackedError (Packed π) → Except PackedError (Packed π) → Prop
  | .ok p, .ok q => R p q
  | .error e, .error e' => e = e'
  | _, _ => False

/-- **The same layout.** -/
def Same (p q : Packed π) : Prop := SameRows p q ∧ p.stream_layout = q.stream_layout

end Agreement

/-! ## 2. Keyframes -/

variable {frame_count : Option ℤ}

theorem resolve_signature {indices resolved : List ℤ} (hindices : indices ∈ keyframe_signatures)
    (h : resolve_keyframe_frame_indices indices frame_count = .ok resolved) :
    ∀ index ∈ resolved, index = 0 ∨ frame_count = some (index + 1) := by
  cases frame_count with
  | none =>
    unfold resolve_keyframe_frame_indices at h
    simp only at h
    split at h
    · cases h
    · next hnil =>
      rw [not_not] at hnil
      subst hnil
      simp [keyframe_signatures] at hindices
  | some count =>
    unfold resolve_keyframe_frame_indices at h
    simp only at h
    split at h
    · cases h
    · next hpos =>
      have hmem : indices = [0] ∨ indices = [-1] ∨ indices = [0, -1] := by
        simpa [keyframe_signatures] using hindices
      have hzero : (0 : ℤ) < count := by omega
      rcases hmem with rfl | rfl | rfl
      · simp [resolve_from, hzero] at h
        subst h
        simp
      · simp [resolve_from] at h
        subst h
        simp
      · by_cases hone : count = 1
        · subst hone
          simp [resolve_from] at h
        · have hne : ¬ (0 : ℤ) = count - 1 := by omega
          simp [resolve_from, hzero, hne] at h
          subst h
          simp

section Times

variable {π : Type} (N : Numeric π)

/-- The temporal position of a first or a last frame. -/
def cond_t (latent_t : ℕ) (origin : π) (pixel_index : ℤ) : π :=
  if pixel_index = 0 then origin
  else N.sub (N.add origin (temporal_position_span N latent_t)) (frame_rescale N)

theorem mapM_keyframe_t {resolved : List ℤ}
    (h : ∀ index ∈ resolved, index = 0 ∨ frame_count = some (index + 1)) (message : String)
    (latent_t : ℕ) (origin : π) : resolved.mapM (keyframe_t N message latent_t origin frame_count)
      = .ok (resolved.map (cond_t N latent_t origin)) := by
  rw [mapM_eq_ok]
  induction resolved with
  | nil => exact List.Forall₂.nil
  | cons index rest ih =>
    refine List.Forall₂.cons ?_ (ih (fun i hi => h i (mem_cons_of_mem _ hi)))
    unfold keyframe_t cond_t
    rcases h index mem_cons_self with rfl | hlast
    · rw [if_pos rfl, if_pos rfl]
    · split
      · rfl
      · rfl

/-! ## 3. The layouts -/

theorem same_rows_packed (args : LayoutArgs) (indices resolved : List ℤ) (keyframes : List π)
    (ends : π × π) : SameRows (keyframe_packed N args.keyframe_args indices resolved keyframes ends)
      (reference_packed N args.ref_args (aligned (args.ref_args.used [] indices)) [] indices
        ([], N.of_nat args.text_len) keyframes ends) := by
  refine ⟨rfl, rfl, rfl, rfl, rfl, ?_, rfl, rfl, rfl, rfl⟩
  -- no block has audio rows, so every audio row is a target row
  show List.map _ (List.range' _ _) = suffix_mask _ 0
  rw [CubeMetadata.suffix_mask_eq (Nat.zero_le _), map_const']
  rfl

theorem stream_layout_eq_iff (args : LayoutArgs) (indices resolved : List ℤ) (keyframes : List π)
    (ends : π × π) (seq_len : ℕ) (located : List (π × (π × π)) × π) :
    (keyframe_packed N args.keyframe_args indices resolved keyframes ends).stream_layout
      = (reference_packed N args.ref_args seq_len [] indices located keyframes ends).stream_layout
      ↔ resolved = [] := by
  constructor
  · intro h
    have hshapes := congrArg StreamLayout.cond_image_shapes (Option.some.inj h)
    exact map_eq_nil_iff.mp hshapes
  · rintro rfl
    rfl

variable {N}

theorem builders_eq {args : LayoutArgs} {indices resolved : List ℤ}
    (hindices : keyframe_cond_frame_indices args.keyframe_frame_indices.isSome
      args.keyframe_frame_indices = .ok indices)
    (hresolved : resolve_keyframe_frame_indices indices args.frame_count = .ok resolved) :
    minimax_h3_packed_sequence N args.keyframe_args
      = (grid_ends (w_grid N args.latent_h args.latent_w) >>= fun ends =>
        .ok (keyframe_packed N args.keyframe_args indices resolved
          (resolved.map (cond_t N args.latent_t (N.of_nat args.text_len))) ends)) ∧
    minimax_h3_packed_sequence_ref2va_blocks N args.ref_args
      = (grid_ends (w_grid N args.latent_h args.latent_w) >>= fun ends =>
        .ok (reference_packed N args.ref_args (aligned (args.ref_args.used [] indices)) [] indices
          ([], N.of_nat args.text_len)
          (resolved.map (cond_t N args.latent_t (N.of_nat args.text_len))) ends)) := by
  have hends : ∀ index ∈ resolved, index = 0 ∨ args.frame_count = some (index + 1) := by
    rcases keyframe_cond_frame_indices_spec hindices with ⟨_, rfl⟩ | ⟨hsome, hne⟩
    · rw [length_eq_zero_iff.mp (length_resolve_keyframe_frame_indices hresolved)]
      simp
    · refine resolve_signature ?_ hresolved
      rw [hsome] at hindices
      by_contra hmem
      simp [keyframe_cond_frame_indices, hmem] at hindices
  constructor
  · unfold minimax_h3_packed_sequence
    simp only [LayoutArgs.keyframe_args]
    rw [hindices, ok_bind, hresolved, ok_bind, mapM_keyframe_t N hends, ok_bind]
  · have hfits : ¬ args.ref_args.seq_len.getD (aligned (args.ref_args.used [] indices))
        < args.ref_args.used [] indices := not_lt.mpr (CubeMetadata.le_aligned _)
    have hblocks : ∀ grid : List π, blocks_positions N grid (N.of_nat args.text_len) []
        = .ok ([], N.of_nat args.text_len) := fun _ => rfl
    unfold minimax_h3_packed_sequence_ref2va_blocks
    rw [show parse_ref_blocks args.ref_args.ref_blocks = .ok [] from rfl, ok_bind,
      show keyframe_cond_frame_indices args.ref_args.keyframe_frame_indices.isSome
        args.ref_args.keyframe_frame_indices = .ok indices from hindices, ok_bind,
      show resolve_keyframe_frame_indices indices args.ref_args.frame_count = .ok resolved
        from hresolved, ok_bind]
    simp only
    rw [if_neg hfits, show args.ref_args.text_len = args.text_len from rfl]
    simp only [show args.ref_args.frame_count = args.frame_count from rfl, mapM_keyframe_t N hends]
    rfl

end Times

/-! ## 4. Agreement -/

/-- Keyframes that the builders pack: one of the signatures, whose frames are different
frames of the video, on a target whose width axis is not empty. -/
def LayoutArgs.PacksKeyframes (args : LayoutArgs) : Prop :=
  ∃ indices count, args.keyframe_frame_indices = some indices ∧ indices ∈ keyframe_signatures ∧
    args.frame_count = some count ∧ 0 < count ∧ (count = 1 → indices ≠ [0, -1]) ∧
    2 ≤ args.latent_w

theorem resolves_iff {indices : List ℤ} (hindices : indices ∈ keyframe_signatures) :
    (∃ resolved, resolve_keyframe_frame_indices indices frame_count = .ok resolved) ↔
      ∃ count, frame_count = some count ∧ 0 < count ∧ (count = 1 → indices ≠ [0, -1]) := by
  have hmem : indices = [0] ∨ indices = [-1] ∨ indices = [0, -1] := by
    simpa [keyframe_signatures] using hindices
  cases frame_count with
  | none =>
    have hne : indices ≠ [] := by
      rcases hmem with rfl | rfl | rfl <;> simp
    simp [resolve_keyframe_frame_indices, hne]
  | some count =>
    by_cases hpos : count ≤ 0
    · simp [resolve_keyframe_frame_indices, hpos]
    · have hzero : (0 : ℤ) < count := by omega
      rcases hmem with rfl | rfl | rfl
      · simp [resolve_keyframe_frame_indices, resolve_from, hpos, hzero]
      · simp [resolve_keyframe_frame_indices, resolve_from, hpos, hzero]
      · by_cases hone : count = 1
        · subst hone
          simp [resolve_keyframe_frame_indices, resolve_from]
        · have hne : ¬ (0 : ℤ) = count - 1 := by omega
          simp [resolve_keyframe_frame_indices, resolve_from, hpos, hzero, hne, hone]

theorem grid_ends_iff {π : Type} (N : Numeric π) (latent_h latent_w : ℕ) :
    (∃ ends, grid_ends (w_grid N latent_h latent_w) = .ok ends) ↔ 2 ≤ latent_w := by
  have hlen : (w_grid N latent_h latent_w).length = latent_w / 2 :=
    length_axis_from_sqrt_area N _ _ _
  cases hgrid : w_grid N latent_h latent_w with
  | nil =>
    rw [hgrid, length_nil] at hlen
    constructor
    · rintro ⟨ends, h⟩
      cases h
    · intro h
      omega
  | cons x xs =>
    rw [hgrid, length_cons] at hlen
    constructor
    · intro _
      omega
    · intro _
      exact ⟨_, rfl⟩

/-- **The two builders agree, but for the description of keyframes.** On every request
without references they fail alike or hand out the same rows; the layouts are the same
exactly when no keyframe is packed. -/
theorem builders_agree_iff {π : Type} (N : Numeric π) (args : LayoutArgs) :
    Results SameRows (minimax_h3_packed_sequence N args.keyframe_args)
      (minimax_h3_packed_sequence_ref2va_blocks N args.ref_args) ∧
    (Results Same (minimax_h3_packed_sequence N args.keyframe_args)
      (minimax_h3_packed_sequence_ref2va_blocks N args.ref_args) ↔ ¬ args.PacksKeyframes) := by
  cases hindices : keyframe_cond_frame_indices args.keyframe_frame_indices.isSome
      args.keyframe_frame_indices with
  | error e =>
    -- both refuse the keyframe set
    have hno : ¬ args.PacksKeyframes := by
      rintro ⟨indices, count, hsome, hmem, _⟩
      rw [hsome] at hindices
      simp [keyframe_cond_frame_indices, hmem] at hindices
    have hkey : minimax_h3_packed_sequence N args.keyframe_args = .error e := by
      unfold minimax_h3_packed_sequence
      simp only [LayoutArgs.keyframe_args]
      rw [hindices, error_bind]
    have href : minimax_h3_packed_sequence_ref2va_blocks N args.ref_args = .error e := by
      unfold minimax_h3_packed_sequence_ref2va_blocks
      simp only [LayoutArgs.ref_args]
      rw [show parse_ref_blocks [] = .ok [] from rfl, ok_bind, hindices, error_bind]
    rw [hkey, href]
    exact ⟨rfl, fun _ => hno, fun _ => rfl⟩
  | ok indices =>
    cases hresolved : resolve_keyframe_frame_indices indices args.frame_count with
    | error e =>
      -- both refuse the frames
      have hno : ¬ args.PacksKeyframes := by
        rintro ⟨indices', count, hsome, hmem, hcount, hpos, hone, _⟩
        obtain ⟨_, hok⟩ := (resolves_iff hmem).mpr ⟨count, hcount, hpos, hone⟩
        rcases keyframe_cond_frame_indices_spec hindices with ⟨hnone, _⟩ | ⟨hsome', _⟩
        · rw [hsome] at hnone
          cases hnone
        · rw [hsome] at hsome'
          cases hsome'
          rw [hok] at hresolved
          cases hresolved
      have hkey : minimax_h3_packed_sequence N args.keyframe_args = .error e := by
        unfold minimax_h3_packed_sequence
        simp only [LayoutArgs.keyframe_args]
        rw [hindices, ok_bind, hresolved, error_bind]
      have href : minimax_h3_packed_sequence_ref2va_blocks N args.ref_args = .error e := by
        unfold minimax_h3_packed_sequence_ref2va_blocks
        simp only [LayoutArgs.ref_args]
        rw [show parse_ref_blocks [] = .ok [] from rfl, ok_bind, hindices, ok_bind, hresolved,
          error_bind]
      rw [hkey, href]
      exact ⟨rfl, fun _ => hno, fun _ => rfl⟩
    | ok resolved =>
      obtain ⟨hkey, href⟩ := builders_eq (N := N) hindices hresolved
      have hcount := length_resolve_keyframe_frame_indices hresolved
      rw [hkey, href]
      cases hends : grid_ends (w_grid N args.latent_h args.latent_w) with
      | error e =>
        -- both fail on an empty width axis
        have hno : ¬ args.PacksKeyframes := by
          rintro ⟨_, _, _, _, _, _, _, hwide⟩
          obtain ⟨ends, h⟩ := (grid_ends_iff N args.latent_h args.latent_w).mpr hwide
          rw [h] at hends
          cases hends
        exact ⟨rfl, fun _ => hno, fun _ => rfl⟩
      | ok ends =>
        have hrows := same_rows_packed N args indices resolved
          (resolved.map (cond_t N args.latent_t (N.of_nat args.text_len))) ends
        have hlayout := stream_layout_eq_iff N args indices resolved
          (resolved.map (cond_t N args.latent_t (N.of_nat args.text_len))) ends
          (aligned (args.ref_args.used [] indices)) ([], N.of_nat args.text_len)
        refine ⟨hrows, ?_⟩
        have hiff : resolved = [] ↔ ¬ args.PacksKeyframes := by
          rcases keyframe_cond_frame_indices_spec hindices with ⟨hnone, rfl⟩ | ⟨hsome, hne⟩
          · constructor
            · rintro _ ⟨_, _, hsome, _⟩
              rw [hnone] at hsome
              cases hsome
            · intro _
              exact length_eq_zero_iff.mp hcount
          · have hmem : indices ∈ keyframe_signatures := by
              rw [hsome] at hindices
              by_contra hmem
              simp [keyframe_cond_frame_indices, hmem] at hindices
            obtain ⟨count, hsome', hpos, hone⟩ := (resolves_iff hmem).mp ⟨_, hresolved⟩
            have hwide := (grid_ends_iff N args.latent_h args.latent_w).mp ⟨_, hends⟩
            constructor
            · rintro rfl
              exact absurd (length_eq_zero_iff.mp hcount.symm) hne
            · intro hno
              exact absurd ⟨indices, count, hsome, hmem, hsome', hpos, hone, hwide⟩ hno
        rw [← hiff, ← hlayout]
        exact ⟨And.right, fun h => ⟨hrows, h⟩⟩

/-- A first frame alone, on one patch. -/
def first_frame_args : LayoutArgs where
  text_len := 1
  latent_t := 1
  latent_h := 2
  latent_w := 2
  audio_t := 1
  keyframe_frame_indices := some [0]
  frame_count := some 2
  include_video_pos := false

/-- The keyframe builder describes the frame as part of the target's cube, the reference
builder describes nothing. -/
theorem first_frame_undescribed :
    ¬ Results Same (minimax_h3_packed_sequence CubeMetadata.exact_numeric first_frame_args.keyframe_args)
      (minimax_h3_packed_sequence_ref2va_blocks CubeMetadata.exact_numeric
        first_frame_args.ref_args) := by
  rintro ⟨_, h⟩
  have hshapes := congrArg StreamLayout.cond_image_shapes (Option.some.inj h)
  cases hshapes

end LightningH3.PackedAgree
