/-
Which requests have a packed layout that cube sparse attention can consume.

The keyframe builder describes its keyframes as it lays them out. The reference builder
lays keyframe rows in front of the reference rows and describes the reference blocks
only; a hybrid request therefore packs, and is rejected when the metadata is built. A
reference video is described as an independent cube, which has to have several frames.
-/
import LightningH3.CubeMetadata

set_option autoImplicit false

namespace LightningH3.CubeMetadata

open CubeMask PackedSequence Fallible List

/-! ## The shape of a successful build -/

section Builders

variable {π : Type} {N : Numeric π} {packed : Packed π}

theorem minimax_h3_packed_sequence_eq_ok {args : KeyframeArgs}
    (h : minimax_h3_packed_sequence N args = .ok packed) :
    ∃ indices resolved keyframes ends, resolved.length = indices.length ∧
      keyframes.length = indices.length ∧
      packed = keyframe_packed N args indices resolved keyframes ends := by
  obtain ⟨indices, _, h⟩ := bind_eq_ok.mp h
  obtain ⟨resolved, hresolved, h⟩ := bind_eq_ok.mp h
  obtain ⟨keyframes, hkeyframes, h⟩ := bind_eq_ok.mp h
  obtain ⟨ends, _, h⟩ := bind_eq_ok.mp h
  have hlen := length_resolve_keyframe_frame_indices hresolved
  refine ⟨indices, resolved, keyframes, ends, hlen, ?_, (Except.ok.inj h).symm⟩
  rw [← hlen, (mapM_eq_ok.mp hkeyframes).length_eq]

theorem minimax_h3_packed_sequence_ref2va_blocks_eq_ok {args : RefArgs}
    (h : minimax_h3_packed_sequence_ref2va_blocks N args = .ok packed) :
    ∃ parsed indices located keyframes ends seq_len, parse_ref_blocks args.ref_blocks = .ok parsed ∧
      (indices = [] ↔ args.keyframe_frame_indices = none) ∧
      keyframes.length = indices.length ∧ args.used parsed indices ≤ seq_len ∧
      located.1.length = (parsed.map RefItem.visual_rows).sum
        + (parsed.map RefItem.audio_rows).sum ∧
      packed = reference_packed N args seq_len parsed indices located keyframes ends := by
  obtain ⟨parsed, hparsed, h⟩ := bind_eq_ok.mp h
  obtain ⟨indices, hindices, h⟩ := bind_eq_ok.mp h
  obtain ⟨resolved, hresolved, h⟩ := bind_eq_ok.mp h
  simp only at h
  split at h
  · cases h
  · next hfits =>
    obtain ⟨located, hlocated, h⟩ := bind_eq_ok.mp h
    obtain ⟨ends, _, h⟩ := bind_eq_ok.mp h
    obtain ⟨keyframes, hkeyframes, h⟩ := bind_eq_ok.mp h
    refine ⟨parsed, indices, located, keyframes, ends, _, hparsed, ?_, ?_, not_lt.mp hfits,
      length_blocks_positions N hlocated, (Except.ok.inj h).symm⟩
    · rcases keyframe_cond_frame_indices_spec hindices with ⟨hnone, hnil⟩ | ⟨hsome, hne⟩
      · exact ⟨fun _ => hnone, fun _ => hnil⟩
      · constructor
        · intro hnil
          exact absurd hnil hne
        · intro hnone
          rw [hsome] at hnone
          cases hnone
    · rw [← length_resolve_keyframe_frame_indices hresolved, (mapM_eq_ok.mp hkeyframes).length_eq]

theorem le_aligned (used : ℕ) : used ≤ aligned used := by
  unfold aligned
  omega

theorem length_padded_positions {seq_len used : ℕ} {positions : List (π × (π × π))}
    (hused : used ≤ seq_len) (h : positions.length = used) :
    (padded_positions N seq_len used positions).length = seq_len := by
  unfold padded_positions
  rw [length_append, length_replicate]
  omega

theorem tokens_packed_streams (text cond_image latent cond_audio audio : List ℕ)
    (layout : StreamLayout) : (packed_streams text cond_image latent cond_audio audio layout).tokens
      = text ++ (cond_audio ++ (cond_image ++ (audio ++ latent))) := rfl

/-! ## The keyframe builder -/

/-- The condition rows, the target's video rows and its audio rows. -/
def keyframe_cond_pos (args : KeyframeArgs) (indices : List ℤ) : List ℕ :=
  List.range' args.text_len (indices.length * ((args.latent_h / 2) * (args.latent_w / 2)))

def keyframe_latent_pos (args : KeyframeArgs) (indices : List ℤ) : List ℕ :=
  List.range' (args.text_len + indices.length * ((args.latent_h / 2) * (args.latent_w / 2))
    + args.audio_t * audio_channel) (args.latent_t * ((args.latent_h / 2) * (args.latent_w / 2)))

def keyframe_audio_pos (args : KeyframeArgs) (indices : List ℤ) : List ℕ :=
  List.range' (args.text_len + indices.length * ((args.latent_h / 2) * (args.latent_w / 2)))
    (args.audio_t * audio_channel)

def keyframe_layout (args : KeyframeArgs) (resolved : List ℤ) : StreamLayout where
  target_shape := (args.latent_t, (args.latent_h / 2, args.latent_w / 2))
  cond_image_shapes := resolved.map (fun _ => (1, (args.latent_h / 2, args.latent_w / 2)))
  cond_image_roles := resolved.map (fun _ => "joint_cube")
  cond_event_orders := (List.range resolved.length).map (fun index => ("imgvid", index))
  cond_audio_stream_lens := []

variable {indices : List ℤ} {keyframes : List π}

section

variable (args : KeyframeArgs)

theorem keyframe_unpacked (resolved : List ℤ) (ends : π × π)
    (hkeyframes : keyframes.length = indices.length) :
    ∃ used, Unpacked (keyframe_packed N args indices resolved keyframes ends)
      (keyframe_layout args resolved) used (keyframe_cond_pos args indices)
      (keyframe_latent_pos args indices) [] (keyframe_audio_pos args indices) := by
  have hmask := boolean_index_suffix (keyframe_cond_pos args indices)
    (keyframe_latent_pos args indices)
  have hcond : (keyframe_cond_pos args indices).length
      = indices.length * ((args.latent_h / 2) * (args.latent_w / 2)) := length_range'
  rw [hcond] at hmask
  refine ⟨_, rfl, hmask.2, hmask.1, (boolean_index_all _).2, (boolean_index_all _).1, rfl, rfl, rfl,
    le_aligned _, ?_, ?_⟩
  · refine length_padded_positions (le_aligned _) ?_
    simp only [length_append, length_text_positions, length_keyframe_positions,
      length_audio_positions, length_video_positions, hkeyframes]
    omega
  · refine List.Perm.of_eq ?_
    rw [tokens_packed_streams]
    unfold keyframe_cond_pos keyframe_latent_pos keyframe_audio_pos
    show List.range args.text_len ++ _ = _
    rw [nil_append, range'_append_1, range'_append_1, range_eq_range', range_eq_range']
    have happend := @List.range'_append_1 0 args.text_len
      (indices.length * ((args.latent_h / 2) * (args.latent_w / 2)) + (args.audio_t * audio_channel
          + args.latent_t * ((args.latent_h / 2) * (args.latent_w / 2))))
    rw [Nat.zero_add] at happend
    rw [happend]
    congr 1
    omega

theorem joint_tokens_all {streams : List (List ℕ)} {n : ℕ} (h : streams.length = n) :
    joint_tokens streams (List.replicate n .joint_cube) = streams.flatten := by
  unfold joint_tokens
  congr 1
  subst h
  induction streams with
  | nil => rfl
  | cons stream streams ih =>
    rw [length_cons, replicate_succ, zip_cons_cons, filter_cons_of_pos (by simp), map_cons, ih]

theorem keyframe_frame_tokens (resolved : List ℤ) (ends : π × π)
    (hkeyframes : keyframes.length = indices.length) :
    FrameTokens (keyframe_packed N args indices resolved keyframes ends).img_position_ids
      (frame_grid N args.latent_h args.latent_w)
      (keyframe_cond_pos args indices ++ keyframe_latent_pos args indices) := by
  obtain ⟨times, htimes, hvideo⟩ := video_positions_eq N args.latent_t args.latent_h args.latent_w
    (N.of_nat args.text_len)
  refine FrameTokens.append ?_ ?_
  · refine FrameTokens.of_times keyframes ?_ (by rw [hkeyframes, length_frame_grid])
    exact ⟨_, _, length_text_positions N args.text_len, by
      unfold keyframe_packed padded_positions
      simp only
      rw [append_assoc, append_assoc]
      rfl⟩
  · refine FrameTokens.of_times times ?_ (by rw [htimes, length_frame_grid])
    have hlen : (text_positions N args.text_len
        ++ (keyframes.flatMap (image_positions N args.latent_h args.latent_w)
        ++ audio_positions N args.audio_t (N.of_nat args.text_len) ends.1 ends.2)).length
        = args.text_len + indices.length * ((args.latent_h / 2) * (args.latent_w / 2))
          + args.audio_t * audio_channel := by
      simp only [length_append, length_text_positions, length_keyframe_positions,
        length_audio_positions, hkeyframes, Nat.add_assoc]
    exact ⟨_, _, hlen, by
      unfold keyframe_packed padded_positions
      simp only
      rw [hvideo]
      simp only [append_assoc]
      rfl⟩

theorem keyframe_describes {resolved : List ℤ} (ends : π × π)
    (hkeyframes : keyframes.length = indices.length) :
    DescribesRows (keyframe_packed N args indices resolved keyframes ends)
      (keyframe_layout args resolved) (List.replicate resolved.length .joint_cube)
      (keyframe_cond_pos args indices) (keyframe_latent_pos args indices) [] := by
  refine ⟨?_, ?_, ?_, ?_, ?_, rfl, ?_, ?_⟩
  · rw [map_replicate]
    exact map_const' ..
  · rw [length_replicate]
    exact (length_map _).symm
  · intro e he
    obtain ⟨index, _, rfl⟩ := mem_map.mp he
    exact Or.inl rfl
  · simp [keyframe_layout, filter_map]
  · simp [keyframe_layout, filter_map]
  · exact length_range'
  · intro streams hflat hlen
    rw [length_replicate] at hlen
    rw [joint_tokens_all hlen, hflat]
    exact (keyframe_frame_tokens args resolved ends hkeyframes).grid

theorem keyframe_tiles_iff {resolved : List ℤ} (hresolved : resolved.length = indices.length) :
    Tiles (keyframe_layout args resolved) (List.replicate resolved.length .joint_cube)
      (keyframe_cond_pos args indices) ↔
      1 ≤ args.latent_t ∧ 2 ≤ args.latent_h ∧ 2 ≤ args.latent_w := by
  have htarget : (keyframe_layout args resolved).target_shape.Pos ↔
      1 ≤ args.latent_t ∧ 2 ≤ args.latent_h ∧ 2 ≤ args.latent_w := by
    show (0 < args.latent_t ∧ 0 < args.latent_h / 2 ∧ 0 < args.latent_w / 2) ↔ _
    omega
  constructor
  · intro h
    exact htarget.mp h.target_pos
  · rintro ⟨ht, hh, hw⟩
    refine ⟨htarget.mpr ⟨ht, hh, hw⟩, ?_, ?_, ?_⟩
    · intro s hs
      obtain ⟨_, _, rfl⟩ := mem_map.mp hs
      show 0 < 1 ∧ 0 < args.latent_h / 2 ∧ 0 < args.latent_w / 2
      omega
    · unfold keyframe_layout keyframe_cond_pos
      rw [← hresolved]
      simp [Shape.prod]
    · intro e he hrole
      have hmem := eq_of_mem_replicate (of_mem_zip he).2
      rw [hmem] at hrole
      cases hrole

end

/-! ## The reference builder -/

/-- The rows of the blocks, and the target's. -/
def reference_blocks (args : RefArgs) (parsed : List RefItem) (indices : List ℤ) :
    List BlockSlice :=
  block_slices (args.text_len + indices.length * ((args.latent_h / 2) * (args.latent_w / 2))) parsed

/-- The condition rows: keyframes first, then the blocks' visual rows. -/
def reference_cond_pos (args : RefArgs) (parsed : List RefItem) (indices : List ℤ) : List ℕ :=
  List.range' args.text_len (indices.length * ((args.latent_h / 2) * (args.latent_w / 2)))
    ++ (reference_blocks args parsed indices).flatMap BlockSlice.visual_pos

def reference_cond_audio_pos (args : RefArgs) (parsed : List RefItem) (indices : List ℤ) :
    List ℕ :=
  (reference_blocks args parsed indices).flatMap BlockSlice.audio_pos

/-- The first row after the blocks. -/
def reference_target_start (args : RefArgs) (parsed : List RefItem) (indices : List ℤ) : ℕ :=
  args.text_len + indices.length * ((args.latent_h / 2) * (args.latent_w / 2))
    + ((parsed.map RefItem.visual_rows).sum + (parsed.map RefItem.audio_rows).sum)

def reference_audio_pos (args : RefArgs) (parsed : List RefItem) (indices : List ℤ) : List ℕ :=
  List.range' (reference_target_start args parsed indices) (args.audio_t * audio_channel)

def reference_latent_pos (args : RefArgs) (parsed : List RefItem) (indices : List ℤ) : List ℕ :=
  List.range' (reference_target_start args parsed indices + args.audio_t * audio_channel)
    (args.latent_t * ((args.latent_h / 2) * (args.latent_w / 2)))

/-- The description of the blocks, with the target's shape. -/
def reference_layout (args : RefArgs) (parsed : List RefItem) : StreamLayout where
  target_shape := (args.latent_t, (args.latent_h / 2, args.latent_w / 2))
  cond_image_shapes := (describe_blocks parsed).cond_image_shapes
  cond_image_roles := (describe_blocks parsed).cond_image_roles
  cond_event_orders := (describe_blocks parsed).cond_event_orders
  cond_audio_stream_lens := (describe_blocks parsed).cond_audio_stream_lens

section

variable (args : RefArgs)

theorem length_reference_cond_pos (parsed : List RefItem) (indices : List ℤ) :
    (reference_cond_pos args parsed indices).length
      = indices.length * ((args.latent_h / 2) * (args.latent_w / 2))
        + (parsed.map RefItem.visual_rows).sum := by
  unfold reference_cond_pos reference_blocks
  rw [length_append, length_range', (length_block_rows _ _).1]

theorem length_reference_cond_audio_pos (parsed : List RefItem) (indices : List ℤ) :
    (reference_cond_audio_pos args parsed indices).length = (parsed.map RefItem.audio_rows).sum :=
  (length_block_rows _ _).2

theorem reference_rows_perm (parsed : List RefItem) (indices : List ℤ) :
    (List.range args.text_len ++ (reference_cond_audio_pos args parsed indices
      ++ (reference_cond_pos args parsed indices ++ (reference_audio_pos args parsed indices
        ++ reference_latent_pos args parsed indices)))).Perm
      (List.range (args.used parsed indices)) := by
  have hblocks := block_rows_perm
    (args.text_len + indices.length * ((args.latent_h / 2) * (args.latent_w / 2))) parsed
  have hused : List.range (args.used parsed indices)
      = List.range args.text_len
        ++ (List.range' args.text_len (indices.length * ((args.latent_h / 2) * (args.latent_w / 2)))
        ++ (List.range' (args.text_len
              + indices.length * ((args.latent_h / 2) * (args.latent_w / 2)))
              ((parsed.map RefItem.visual_rows).sum + (parsed.map RefItem.audio_rows).sum)
        ++ (reference_audio_pos args parsed indices
          ++ reference_latent_pos args parsed indices))) := by
    unfold reference_audio_pos reference_latent_pos reference_target_start
    rw [range'_append_1, range'_append_1, range'_append_1, range_eq_range', range_eq_range']
    have happend := @List.range'_append_1 0 args.text_len
      (indices.length * ((args.latent_h / 2) * (args.latent_w / 2))
        + ((parsed.map RefItem.visual_rows).sum + (parsed.map RefItem.audio_rows).sum
          + (args.audio_t * audio_channel
            + args.latent_t * ((args.latent_h / 2) * (args.latent_w / 2)))))
    rw [Nat.zero_add] at happend
    rw [happend]
    congr 1
    unfold RefArgs.used
    simp only
    omega
  rw [hused, perm_iff_count]
  intro x
  have hcount := hblocks.count_eq x
  unfold reference_cond_audio_pos reference_cond_pos reference_blocks
  simp only [count_append] at hcount ⊢
  omega

variable {parsed : List RefItem} {located : List (π × (π × π)) × π}

theorem reference_unpacked {seq_len : ℕ} (ends : π × π)
    (hkeyframes : keyframes.length = indices.length) (hfits : args.used parsed indices ≤ seq_len)
    (hlocated : located.1.length = (parsed.map RefItem.visual_rows).sum
      + (parsed.map RefItem.audio_rows).sum) :
    Unpacked (reference_packed N args seq_len parsed indices located keyframes ends)
      (reference_layout args parsed) (args.used parsed indices)
      (reference_cond_pos args parsed indices) (reference_latent_pos args parsed indices)
      (reference_cond_audio_pos args parsed indices) (reference_audio_pos args parsed indices) := by
  have hmask := boolean_index_suffix (reference_cond_pos args parsed indices)
    (reference_latent_pos args parsed indices)
  have hamask := boolean_index_suffix (reference_cond_audio_pos args parsed indices)
    (reference_audio_pos args parsed indices)
  rw [length_reference_cond_pos] at hmask
  rw [length_reference_cond_audio_pos] at hamask
  have himg : (reference_packed N args seq_len parsed indices located keyframes ends).img_pos
      = reference_cond_pos args parsed indices ++ reference_latent_pos args parsed indices :=
    (append_assoc _ _ _).symm
  have hupdate : (reference_packed N args seq_len parsed indices located keyframes ends).update_mask
      = suffix_mask (reference_cond_pos args parsed indices
          ++ reference_latent_pos args parsed indices).length
        (indices.length * ((args.latent_h / 2) * (args.latent_w / 2))
          + (parsed.map RefItem.visual_rows).sum) := by
    rw [← himg]
    rfl
  refine ⟨rfl, ?_, ?_, hamask.2, hamask.1, himg, rfl, rfl, hfits, ?_, ?_⟩
  · rw [himg, hupdate]
    exact hmask.2
  · rw [himg, hupdate]
    exact hmask.1
  · refine length_padded_positions hfits ?_
    simp only [length_append, length_text_positions, length_keyframe_positions,
      length_audio_positions, length_video_positions, hkeyframes]
    unfold RefArgs.used
    simp only
    omega
  · exact reference_rows_perm args parsed indices

theorem joint_tokens_none {streams : List (List ℕ)} {roles : List CondRole}
    (h : ∀ role ∈ roles, role ≠ .joint_cube) : joint_tokens streams roles = [] := by
  unfold joint_tokens
  rw [filter_eq_nil_iff.mpr]
  · rfl
  · intro e he
    simpa using h e.2 (of_mem_zip he).2

theorem reference_frame_tokens (seq_len : ℕ) (ends : π × π)
    (hkeyframes : keyframes.length = indices.length)
    (hlocated : located.1.length = (parsed.map RefItem.visual_rows).sum
      + (parsed.map RefItem.audio_rows).sum) : FrameTokens
      (reference_packed N args seq_len parsed indices located keyframes ends).img_position_ids
      (frame_grid N args.latent_h args.latent_w) (reference_latent_pos args parsed indices) := by
  obtain ⟨times, htimes, hvideo⟩ := video_positions_eq N args.latent_t args.latent_h args.latent_w
    located.2
  refine FrameTokens.of_times times ?_ (by rw [htimes, length_frame_grid])
  have hlen : (text_positions N args.text_len
      ++ (keyframes.flatMap (image_positions N args.latent_h args.latent_w)
      ++ (located.1 ++ audio_positions N args.audio_t located.2 ends.1 ends.2))).length
      = reference_target_start args parsed indices + args.audio_t * audio_channel := by
    unfold reference_target_start
    simp only [length_append, length_text_positions, length_keyframe_positions,
      length_audio_positions, hkeyframes, hlocated, Nat.add_assoc]
  exact ⟨_, _, hlen, by
    unfold reference_packed padded_positions
    rw [hvideo]
    simp only [append_assoc]
    rfl⟩

theorem reference_describes (seq_len : ℕ) (ends : π × π)
    (hkeyframes : keyframes.length = indices.length)
    (hlocated : located.1.length = (parsed.map RefItem.visual_rows).sum
      + (parsed.map RefItem.audio_rows).sum) :
    DescribesRows (reference_packed N args seq_len parsed indices located keyframes ends)
      (reference_layout args parsed) ((parsed.filterMap visual_entry).map Prod.snd)
      (reference_cond_pos args parsed indices) (reference_latent_pos args parsed indices)
      (reference_cond_audio_pos args parsed indices) := by
  have hblocks := describe_blocks_describes parsed
  have hshapes : (reference_layout args parsed).cond_image_shapes
      = (parsed.filterMap visual_entry).map Prod.fst := hblocks.shapes
  refine ⟨?_, ?_, hblocks.types, hblocks.imgvid, hblocks.audio, ?_, length_range', ?_⟩
  · rw [map_map]
    exact hblocks.roles
  · rw [hshapes, length_map, length_map]
  · show (describe_blocks parsed).cond_audio_stream_lens.sum = _
    rw [hblocks.lens, sum_audio_entries, length_reference_cond_audio_pos]
  · intro streams _ _
    rw [joint_tokens_none]
    · exact (reference_frame_tokens args seq_len ends hkeyframes hlocated).grid
    · -- a block is an image or a video, never a keyframe
      intro role hrole
      obtain ⟨e, he, rfl⟩ := mem_map.mp hrole
      obtain ⟨item, _, hentry⟩ := mem_filterMap.mp he
      cases item with
      | image latent_h latent_w => cases hentry; simp
      | audio ref_audio_t => cases hentry
      | video with_audio ref_audio_t latent_t latent_h latent_w => cases hentry; simp

/-- **When the reference builder's description tiles its rows.** Without keyframes, and with
blocks that are genuine. -/
theorem reference_tiles_iff (parsed : List RefItem) (indices : List ℤ) :
    Tiles (reference_layout args parsed) ((parsed.filterMap visual_entry).map Prod.snd)
      (reference_cond_pos args parsed indices) ↔
      (1 ≤ args.latent_t ∧ 2 ≤ args.latent_h ∧ 2 ≤ args.latent_w) ∧ indices = [] ∧
        ∀ item ∈ parsed, item.Genuine := by
  have htarget : (reference_layout args parsed).target_shape.Pos ↔
      1 ≤ args.latent_t ∧ 2 ≤ args.latent_h ∧ 2 ≤ args.latent_w := by
    show (0 < args.latent_t ∧ 0 < args.latent_h / 2 ∧ 0 < args.latent_w / 2) ↔ _
    omega
  have hshapes : (reference_layout args parsed).cond_image_shapes
      = (parsed.filterMap visual_entry).map Prod.fst := (describe_blocks_describes parsed).shapes
  have hzip : (reference_layout args parsed).cond_image_shapes.zip
      ((parsed.filterMap visual_entry).map Prod.snd) = parsed.filterMap visual_entry := by
    rw [hshapes, zip_map']
    exact map_id _
  have hsum : ((reference_layout args parsed).cond_image_shapes.map Shape.prod).sum
      = (parsed.map RefItem.visual_rows).sum := by
    rw [hshapes]
    exact sum_visual_entries parsed
  constructor
  · rintro ⟨hpos, hall, hcover, hframes⟩
    obtain ⟨ht, hh, hw⟩ := htarget.mp hpos
    refine ⟨⟨ht, hh, hw⟩, ?_, ?_⟩
    · -- undescribed keyframe rows would leave rows over
      rw [length_reference_cond_pos] at hcover
      have hrows : 0 < (args.latent_h / 2) * (args.latent_w / 2) :=
        Nat.mul_pos (by omega) (by omega)
      have hzero : indices.length * ((args.latent_h / 2) * (args.latent_w / 2)) = 0 := by omega
      rcases Nat.mul_eq_zero.mp hzero with h | h
      · exact length_eq_zero_iff.mp h
      · omega
    · rw [genuine_iff]
      intro e he
      refine ⟨hall e.1 ?_, ?_⟩
      · rw [hshapes]
        exact mem_map.mpr ⟨e, he, rfl⟩
      · exact hframes e (by rw [hzip]; exact he)
  · rintro ⟨hpos, rfl, hgenuine⟩
    rw [genuine_iff] at hgenuine
    refine ⟨htarget.mpr hpos, ?_, ?_, ?_⟩
    · intro s hs
      rw [hshapes] at hs
      obtain ⟨e, he, rfl⟩ := mem_map.mp hs
      exact (hgenuine e he).1
    · rw [hsum, length_reference_cond_pos, length_nil, Nat.zero_mul, Nat.zero_add]
    · rw [hzip]
      exact fun e he => (hgenuine e he).2

end

end Builders

/-! ## Requests -/

/-- A request, for one of the two builders. -/
inductive Request where
  | keyframes (args : KeyframeArgs)
  | references (args : RefArgs)

/-- The packed layout of a request. -/
def packed_of {π : Type} (N : Numeric π) : Request → Except PackedError (Packed π)
  | .keyframes args => minimax_h3_packed_sequence N args
  | .references args => minimax_h3_packed_sequence_ref2va_blocks N args

variable {π : Type} {packed : Packed π}

/-- **Rows of a packed layout.** Whatever the request, the layout comes apart into text,
condition and target rows, and the text rows are the first. -/
theorem unpacked_of {N : Numeric π} {request : Request} (h : packed_of N request = .ok packed) :
    ∃ layout used cond_image latent cond_audio audio text_len,
      Unpacked packed layout used cond_image latent cond_audio audio ∧
        packed.text_pos = List.range text_len := by
  cases request with
  | keyframes args =>
    obtain ⟨indices, resolved, keyframes, ends, -, hkeyframes, rfl⟩ :=
      minimax_h3_packed_sequence_eq_ok h
    obtain ⟨used, hunpacked⟩ := keyframe_unpacked args resolved ends hkeyframes
    exact ⟨_, _, _, _, _, _, args.text_len, hunpacked, rfl⟩
  | references args =>
    obtain ⟨parsed, indices, located, keyframes, ends, seq_len, -, -, hkeyframes,
      hfits, hlocated, rfl⟩ := minimax_h3_packed_sequence_ref2va_blocks_eq_ok h
    exact ⟨_, _, _, _, _, _, args.text_len,
      reference_unpacked args ends hkeyframes hfits hlocated, rfl⟩

/-- **Targets are suffixes.** Of the image rows and of the audio rows, the masks select an
end. -/
theorem suffix_masks_of {N : Numeric π} {request : Request} (h : packed_of N request = .ok packed) :
    (∃ skip ≤ packed.img_pos.length, packed.update_mask = suffix_mask packed.img_pos.length skip) ∧
    ∃ skip ≤ packed.audio_pos.length,
      packed.audio_update_mask.getD (packed.audio_pos.map (fun _ => true))
        = suffix_mask packed.audio_pos.length skip := by
  cases request with
  | keyframes args =>
    obtain ⟨indices, resolved, keyframes, ends, _, _, rfl⟩ := minimax_h3_packed_sequence_eq_ok h
    refine ⟨⟨_, ?_, rfl⟩, 0, Nat.zero_le _, ?_⟩
    · show _ ≤ (List.range' _ _ ++ List.range' _ _).length
      rw [length_append, length_range']
      exact Nat.le_add_right _ _
    · show List.map _ _ = _
      rw [suffix_mask_eq (Nat.zero_le _)]
      simp
  | references args =>
    obtain ⟨parsed, indices, located, keyframes, ends, seq_len, _, _, _, _, _, rfl⟩ :=
      minimax_h3_packed_sequence_ref2va_blocks_eq_ok h
    refine ⟨⟨_, ?_, rfl⟩, _, ?_, rfl⟩
    · show _ ≤ (List.range' _ _ ++ (_ ++ List.range' _ _)).length
      rw [length_append, length_append, length_range', (length_block_rows _ _).1]
      omega
    · show _ ≤ (_ ++ List.range' _ _).length
      rw [length_append, (length_block_rows _ _).2]
      exact Nat.le_add_right _ _

/-- A request whose condition rows can be described: a target with a frame and a patch,
and for a reference request no keyframes, a patch in every image, and several frames and
a patch in every video. -/
def Describable : Request → Prop
  | .keyframes args => 1 ≤ args.latent_t ∧ 2 ≤ args.latent_h ∧ 2 ≤ args.latent_w
  | .references args =>
    (1 ≤ args.latent_t ∧ 2 ≤ args.latent_h ∧ 2 ≤ args.latent_w) ∧
      args.keyframe_frame_indices = none ∧
      ∀ items, parse_ref_blocks args.ref_blocks = .ok items → ∀ item ∈ items, item.Genuine

/-- The metadata of a packed layout builds, whatever the padding holds, and the layout
assigns every row to one stream. -/
def Consumable {π : Type} [LinearOrder π] (packed : Packed π) (local_cube_size : List ℤ)
    (topk_ratio_list : List ℚ) (num_steps : ℕ) : Prop :=
  (∀ uninitialized, ∃ md,
    build packed local_cube_size topk_ratio_list num_steps uninitialized = .ok md) ∧
    Assigned packed

theorem Unpacked.consumable_iff [LinearOrder π] {layout : StreamLayout} {used : ℕ}
    {roles : List CondRole} {cond_image latent cond_audio audio : List ℕ} {local_cube_size : List ℤ}
    {size : ℕ × Shape} {topk_ratio_list : List ℚ} {num_steps : ℕ}
    (h : Unpacked packed layout used cond_image latent cond_audio audio)
    (hd : DescribesRows packed layout roles cond_image latent cond_audio)
    (hsize : cube_token_size local_cube_size = .ok size) (hlen : topk_ratio_list.length = num_steps)
    (hratios : ∀ r ∈ topk_ratio_list, 0 < r ∧ r ≤ 1) :
    Consumable packed local_cube_size topk_ratio_list num_steps ↔
      Tiles layout roles cond_image := by
  constructor
  · rintro ⟨hbuild, _⟩
    exact (h.build_iff (fun _ => 0) hd hsize hlen hratios).mp (hbuild _)
  · intro ht
    exact ⟨fun uninitialized => (h.build_iff uninitialized hd hsize hlen hratios).mpr ht,
      h.assigned hd ht⟩

section Requests

variable {π : Type} [LinearOrder π] {N : Numeric π} {packed : Packed π} {local_cube_size : List ℤ}
  {size : ℕ × Shape} {topk_ratio_list : List ℚ} {num_steps : ℕ}

theorem keyframes_consumable_iff {args : KeyframeArgs}
    (h : minimax_h3_packed_sequence N args = .ok packed)
    (hsize : cube_token_size local_cube_size = .ok size) (hlen : topk_ratio_list.length = num_steps)
    (hratios : ∀ r ∈ topk_ratio_list, 0 < r ∧ r ≤ 1) :
    Consumable packed local_cube_size topk_ratio_list num_steps ↔
      Describable (.keyframes args) := by
  obtain ⟨indices, resolved, keyframes, ends, hresolved, hkeyframes, rfl⟩ :=
    minimax_h3_packed_sequence_eq_ok h
  obtain ⟨used, hunpacked⟩ := keyframe_unpacked args resolved ends hkeyframes
  rw [hunpacked.consumable_iff (keyframe_describes args ends hkeyframes) hsize hlen hratios]
  exact keyframe_tiles_iff args hresolved

theorem references_consumable_iff {args : RefArgs}
    (h : minimax_h3_packed_sequence_ref2va_blocks N args = .ok packed)
    (hsize : cube_token_size local_cube_size = .ok size) (hlen : topk_ratio_list.length = num_steps)
    (hratios : ∀ r ∈ topk_ratio_list, 0 < r ∧ r ≤ 1) :
    Consumable packed local_cube_size topk_ratio_list num_steps ↔
      Describable (.references args) := by
  obtain ⟨parsed, indices, located, keyframes, ends, seq_len, hparsed, hindices, hkeyframes, hfits,
    hlocated, rfl⟩ := minimax_h3_packed_sequence_ref2va_blocks_eq_ok h
  rw [(reference_unpacked args ends hkeyframes hfits hlocated).consumable_iff
    (reference_describes args seq_len ends hkeyframes hlocated) hsize hlen hratios,
    reference_tiles_iff, hindices]
  -- the blocks parse in one way
  constructor
  · rintro ⟨htarget, hnone, hgenuine⟩
    refine ⟨htarget, hnone, fun items hitems => ?_⟩
    rw [hparsed] at hitems
    cases hitems
    exact hgenuine
  · rintro ⟨htarget, hnone, hgenuine⟩
    exact ⟨htarget, hnone, hgenuine parsed hparsed⟩

variable (N) in
/-- **Consumable layouts.** A packed layout that one of the builders returned can be consumed
by cube sparse attention exactly when its request is describable. -/
theorem packed_layout_consumable_iff (request : Request) (hpacked : packed_of N request = .ok packed)
    (hsize : cube_token_size local_cube_size = .ok size) (hlen : topk_ratio_list.length = num_steps)
    (hratios : ∀ r ∈ topk_ratio_list, 0 < r ∧ r ≤ 1) :
    Consumable packed local_cube_size topk_ratio_list num_steps ↔ Describable request := by
  cases request with
  | keyframes args => exact keyframes_consumable_iff hpacked hsize hlen hratios
  | references args => exact references_consumable_iff hpacked hsize hlen hratios

end Requests

/-- Exact arithmetic, with the square root exact on squares. -/
def exact_numeric : Numeric ℚ where
  of_nat n := n
  add := (· + ·)
  sub := (· - ·)
  mul := (· * ·)
  div := (· / ·)
  max := max
  sqrt q := (Nat.sqrt q.floor.toNat : ℚ)
  linspace left right n := (List.range n).map (fun i => left + i * ((right - left) / n))
  np_sum := List.sum
  py_sum := List.sum
  length_linspace _ _ n := by simp

/-- One image of one patch in front of a target of one patch. -/
def image_request (keyframe_frame_indices : Option (List ℤ)) : RefArgs where
  text_len := 1
  latent_t := 1
  latent_h := 2
  latent_w := 2
  audio_t := 1
  ref_blocks := [some [("kind", .str "image"), ("latent_h", .int 2), ("latent_w", .int 2)]]
  keyframe_frame_indices := keyframe_frame_indices
  frame_count := some 2
  seq_len := none
  include_video_pos := false

theorem admissible_ratios : ∀ r ∈ [(1 / 2 : ℚ), 1], 0 < r ∧ r ≤ 1 := by
  intro r hr
  simp only [mem_cons, not_mem_nil, or_false] at hr
  rcases hr with rfl | rfl <;> norm_num

theorem image_request_consumable : ∃ packed,
    packed_of exact_numeric (.references (image_request none)) = .ok packed ∧
      Consumable packed [4, 4, 4] [1 / 2, 1] 2 := by
  obtain ⟨packed, hpacked⟩ : ∃ packed,
      packed_of exact_numeric (.references (image_request none)) = .ok packed := ⟨_, rfl⟩
  refine ⟨packed, hpacked, (packed_layout_consumable_iff exact_numeric _ hpacked rfl rfl
    admissible_ratios).mpr ⟨⟨by decide, by decide, by decide⟩, rfl, ?_⟩⟩
  intro items hitems
  cases hitems
  intro item hitem
  rw [mem_singleton.mp hitem]
  exact ⟨Nat.le_refl 2, Nat.le_refl 2⟩

/-- With a first frame as well, the request packs and its metadata is rejected. -/
theorem hybrid_request_rejected : ∃ packed,
    packed_of exact_numeric (.references (image_request (some [0]))) = .ok packed ∧
      (∀ uninitialized md, build packed [4, 4, 4] [1 / 2, 1] 2 uninitialized ≠ .ok md) ∧
      ¬ Consumable packed [4, 4, 4] [1 / 2, 1] 2 := by
  obtain ⟨packed, hpacked⟩ : ∃ packed,
      packed_of exact_numeric (.references (image_request (some [0]))) = .ok packed := ⟨_, rfl⟩
  have hrejected : ∀ uninitialized md,
      build packed [4, 4, 4] [1 / 2, 1] 2 uninitialized ≠ .ok md := by
    intro uninitialized md hbuild
    obtain ⟨parsed, indices, located, keyframes, ends, seq_len, _, hindices, hkeyframes, hfits,
      hlocated, rfl⟩ := minimax_h3_packed_sequence_ref2va_blocks_eq_ok hpacked
    have htiles := ((reference_unpacked _ ends hkeyframes hfits hlocated).build_iff uninitialized
      (reference_describes _ seq_len ends hkeyframes hlocated) rfl rfl admissible_ratios).mp
      ⟨md, hbuild⟩
    have hnone := hindices.mp ((reference_tiles_iff _ parsed indices).mp htiles).2.1
    cases hnone
  refine ⟨packed, hpacked, hrejected, ?_⟩
  rintro ⟨hbuild, _⟩
  obtain ⟨md, hmd⟩ := hbuild (fun _ => 0)
  exact hrejected _ md hmd

end LightningH3.CubeMetadata
