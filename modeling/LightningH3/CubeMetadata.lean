/-
`CubeSparseAttentionMetadataBuilder.build`: from a packed layout to the cube layout of its
condition and target rows, and for which requests the packed layout is consumable.

The builder derives the five streams from the row lists and the update masks, and takes
their sizes from `stream_layout`. For the keyframe builder the two agree whenever the
target's patch grid is not empty. The reference builder puts keyframe rows in front of the
reference rows and does not describe them, and describes every video as a cube of several
frames: it is consumable exactly without keyframes, with several frames in every video.
-/
import LightningH3.PackedRows

set_option autoImplicit false

namespace LightningH3.CubeMetadata

open CubeMask PackedSequence Fallible List

/-! ## The metadata builder -/

/-- What the builder raises. The message of a ratio outside `(0, 1]` ends with the ratio. -/
inductive MetadataError where
  | value_error (message : String)
  | ratio_out_of_range (ratio : ℚ)
  | layout (error : CubeError)
  | index_error
  deriving DecidableEq

/-- `CubeSparseAttentionMetadata`. -/
structure CubeSparseAttentionMetadata where
  current_timestep : ℕ
  topk_ratio_list : List ℚ
  layout : CubeLayout

/-- `xs[mask]`. -/
def boolean_index (xs : List ℕ) (mask : List Bool) : Except MetadataError (List ℕ) :=
  if xs.length ≠ mask.length then .error .index_error
  else .ok (((xs.zip mask).filter Prod.snd).map Prod.fst)

/-- The streams and their description, as `build` hands them on. -/
def packed_streams (text cond_image latent cond_audio audio : List ℕ) (layout : StreamLayout) :
    PackedStreams where
  text := text
  cond_image := cond_image
  latent := latent
  cond_audio := cond_audio
  audio := audio
  cond_image_shapes := some [some (layout.cond_image_shapes.map Shape.dims)]
  cond_image_roles := some [some layout.cond_image_roles]
  cond_event_orders := some [some (layout.cond_event_orders.map (fun e => (e.1, ((e.2 : ℤ), ""))))]
  cond_audio_stream_lens := some [some (layout.cond_audio_stream_lens.map (fun (n : ℕ) => (n : ℤ)))]

/-- `max(sparse_ratios, default=0.0)`. -/
def max_sparse_ratio (topk_ratio_list : List ℚ) : ℚ :=
  match topk_ratio_list.filter (fun r => decide (r < 1)) with
  | [] => 0
  | r :: rs => rs.foldl max r

def build {π : Type} [LinearOrder π] (packed : Packed π) (local_cube_size : List ℤ)
    (topk_ratio_list : List ℚ) (num_steps : ℕ) (uninitialized : ℕ → ℕ) :
    Except MetadataError CubeSparseAttentionMetadata :=
  if topk_ratio_list.length ≠ num_steps then
    .error (.value_error ("topk_ratio_list has " ++ toString topk_ratio_list.length
      ++ " entries for " ++ toString num_steps ++ " denoise steps"))
  else
    match topk_ratio_list.find? (fun r => !(decide (0 < r) && decide (r ≤ 1))) with
    | some ratio => .error (.ratio_out_of_range ratio)
    | none =>
      match packed.stream_layout with
      | none => .error (.value_error ("packed layout has no stream_layout entry; cube sparse "
          ++ "attention requires the packed_sequence stream_layout export"))
      | some layout => do
          let audio_update_mask :=
            packed.audio_update_mask.getD (packed.audio_pos.map (fun _ => true))
          let cond_image ← boolean_index packed.img_pos (packed.update_mask.map not)
          let latent ← boolean_index packed.img_pos packed.update_mask
          let cond_audio ← boolean_index packed.audio_pos (audio_update_mask.map not)
          let audio ← boolean_index packed.audio_pos audio_update_mask
          match packed.cu_seqlens[1]? with
          | none => .error .index_error
          | some used =>
            match precompute_cube_attention [layout.target_shape.dims] [0, used] packed.seq_len
                local_cube_size
                (packed_streams packed.text_pos cond_image latent cond_audio audio layout)
                packed.img_position_ids (max_sparse_ratio topk_ratio_list) uninitialized with
            | .error e => .error (.layout e)
            | .ok cube =>
              .ok { current_timestep := 0
                    topk_ratio_list := topk_ratio_list
                    layout := cube }

/-! ## Masks -/

theorem suffix_mask_eq {n skip : ℕ} (h : skip ≤ n) :
    suffix_mask n skip = List.replicate skip false ++ List.replicate (n - skip) true := by
  refine ext_getElem (by simp [suffix_mask]; omega) (fun i h₁ h₂ => ?_)
  simp only [suffix_mask]
  rcases Nat.lt_or_ge i skip with hlt | hge
  · rw [getElem_append_left (by simpa using hlt)]
    simpa using hlt
  · rw [getElem_append_right (by simpa using hge)]
    simpa using hge

theorem filter_zip_replicate (xs : List ℕ) (b : Bool) :
    ((xs.zip (List.replicate xs.length b)).filter Prod.snd).map Prod.fst
      = if b = true then xs else [] := by
  induction xs with
  | nil => cases b <;> rfl
  | cons x xs ih =>
    rw [length_cons, replicate_succ, zip_cons_cons]
    cases b with
    | true => rw [filter_cons_of_pos rfl, map_cons, ih]; rfl
    | false => rw [filter_cons_of_neg (by simp), ih]; rfl

theorem boolean_index_suffix (front back : List ℕ) :
    boolean_index (front ++ back) (suffix_mask (front ++ back).length front.length) = .ok back ∧
      boolean_index (front ++ back)
        ((suffix_mask (front ++ back).length front.length).map not) = .ok front := by
  have hmask := suffix_mask_eq (show front.length ≤ (front ++ back).length by simp)
  have hback : (front ++ back).length - front.length = back.length := by simp
  rw [hback] at hmask
  rw [hmask]
  unfold boolean_index
  refine ⟨?_, ?_⟩
  · rw [if_neg (by simp), zip_append (by simp), filter_append, map_append,
      filter_zip_replicate, filter_zip_replicate]
    rfl
  · rw [map_append, map_replicate, map_replicate, zip_append (by simp), filter_append, map_append]
    have h₁ := filter_zip_replicate front true
    have h₂ := filter_zip_replicate back false
    rw [Bool.not_false, Bool.not_true, h₁, h₂]
    simp

theorem boolean_index_all (xs : List ℕ) : boolean_index xs (xs.map (fun _ => true)) = .ok xs ∧
      boolean_index xs ((xs.map (fun _ => true)).map not) = .ok [] := by
  have h := boolean_index_suffix [] xs
  have hmask : suffix_mask ([] ++ xs).length ([] : List ℕ).length = xs.map (fun _ => true) := by
    rw [suffix_mask_eq (by simp)]
    simp
  rw [hmask] at h
  exact h

theorem build_ok_iff {π : Type} [LinearOrder π] {packed : Packed π} {local_cube_size : List ℤ}
    {topk_ratio_list : List ℚ} {num_steps : ℕ} {uninitialized : ℕ → ℕ} {layout : StreamLayout}
    {cond_image latent cond_audio audio : List ℕ} {used : ℕ}
    (hlen : topk_ratio_list.length = num_steps) (hratios : ∀ r ∈ topk_ratio_list, 0 < r ∧ r ≤ 1)
    (hlayout : packed.stream_layout = some layout)
    (hci : boolean_index packed.img_pos (packed.update_mask.map not) = .ok cond_image)
    (hla : boolean_index packed.img_pos packed.update_mask = .ok latent)
    (hca : boolean_index packed.audio_pos ((packed.audio_update_mask.getD
      (packed.audio_pos.map (fun _ => true))).map not) = .ok cond_audio)
    (hau : boolean_index packed.audio_pos (packed.audio_update_mask.getD
      (packed.audio_pos.map (fun _ => true))) = .ok audio)
    (hused : packed.cu_seqlens[1]? = some used) :
    (∃ md, build packed local_cube_size topk_ratio_list num_steps uninitialized = .ok md) ↔
      ∃ cube, precompute_cube_attention [layout.target_shape.dims] [0, used] packed.seq_len
        local_cube_size (packed_streams packed.text_pos cond_image latent cond_audio audio layout)
        packed.img_position_ids (max_sparse_ratio topk_ratio_list) uninitialized = .ok cube := by
  have hfind : topk_ratio_list.find? (fun r => !(decide (0 < r) && decide (r ≤ 1))) = none := by
    rw [find?_eq_none]
    intro r hr
    obtain ⟨h₀, h₁⟩ := hratios r hr
    simp [h₀, h₁]
  unfold build
  rw [if_neg (not_not.mpr hlen)]
  simp only [hfind, hlayout, hci, hla, hca, hau, hused, ok_bind]
  cases precompute_cube_attention [layout.target_shape.dims] [0, used] packed.seq_len
    local_cube_size (packed_streams packed.text_pos cond_image latent cond_audio audio layout)
    packed.img_position_ids (max_sparse_ratio topk_ratio_list) uninitialized with
  | error e =>
    constructor
    · rintro ⟨md, hmd⟩
      cases hmd
    · rintro ⟨cube, hcube⟩
      cases hcube
  | ok cube => exact ⟨fun _ => ⟨cube, rfl⟩, fun _ => ⟨_, rfl⟩⟩

/-! ## Shapes, roles and events -/

theorem pos_of_normalize_dims {shape : Shape} {s}
    (h : normalize_cube_visual_shape shape.dims = .ok s) : shape.Pos := by
  obtain ⟨a, b, c⟩ := shape
  unfold normalize_cube_visual_shape positive_3d? Shape.dims Shape.Pos at *
  simp only at h ⊢
  by_cases hpos : (0 : ℤ) < a ∧ (0 : ℤ) < b ∧ (0 : ℤ) < c
  · simpa using hpos
  · rw [if_neg hpos] at h
    cases h

theorem normalize_dims {shape : Shape} (h : shape.Pos) :
    normalize_cube_visual_shape shape.dims = .ok shape := by
  obtain ⟨a, b, c⟩ := shape
  have hpos : (0 : ℤ) < a ∧ (0 : ℤ) < b ∧ (0 : ℤ) < c := by simpa [Shape.Pos] using h
  unfold normalize_cube_visual_shape positive_3d? Shape.dims
  simp only
  rw [if_pos hpos]
  rfl

theorem normalize_shapes {shapes : List Shape} (h : ∀ s ∈ shapes, s.Pos) :
    (shapes.map Shape.dims).mapM normalize_cube_visual_shape = .ok shapes := by
  rw [mapM_eq_ok, forall₂_map_left_iff, forall₂_same]
  exact fun s hs => normalize_dims (h s hs)

theorem pos_of_normalize_shapes {shapes out : List Shape}
    (h : (shapes.map Shape.dims).mapM normalize_cube_visual_shape = .ok out) :
    (∀ s ∈ shapes, s.Pos) ∧ out = shapes := by
  have hall := mapM_eq_ok.mp h
  rw [forall₂_map_left_iff] at hall
  have hpos : ∀ s ∈ shapes, s.Pos := by
    intro s hs
    obtain ⟨k, hk, rfl⟩ := getElem_of_mem hs
    exact pos_of_normalize_dims (hall.get hk (by rw [← hall.length_eq]; exact hk))
  refine ⟨hpos, ?_⟩
  have := normalize_shapes hpos
  rw [this] at h
  exact (Except.ok.inj h).symm

theorem normalize_roles {roles : List CondRole} {count sample_idx : ℕ} (h : roles.length = count) :
    normalize_cond_image_roles (roles.map role_name) count sample_idx = .ok roles := by
  unfold normalize_cond_image_roles
  rw [if_neg (by rw [length_map]; exact not_not.mpr h)]
  have hparse : (roles.map role_name).mapM cond_role? = some roles := by
    rw [mapM_eq_some, forall₂_map_left_iff, forall₂_same]
    exact fun r _ => cond_role?_role_name r
  rw [hparse]

theorem normalize_events {events : List (String × ℕ)} {visual_count audio_count : ℕ}
    (htypes : ∀ e ∈ events, e.1 = "imgvid" ∨ e.1 = "audio")
    (himg : (events.filter (fun e => e.1 = "imgvid")).map Prod.snd = List.range visual_count)
    (haud : (events.filter (fun e => e.1 = "audio")).map Prod.snd = List.range audio_count) :
    ∃ out, normalize_condition_event_order
      (events.map (fun e => (e.1, ((e.2 : ℤ), "")))) visual_count audio_count true = .ok out := by
  have indices : ∀ name : String,
      ((events.map (fun e => (e.1, ((e.2 : ℤ), "")))).filter (fun e => e.1 = name)).map
        (fun e => e.2.1)
      = ((events.filter (fun e => e.1 = name)).map Prod.snd).map (fun (n : ℕ) => (n : ℤ)) := by
    intro name
    rw [filter_map, map_map, map_map]
    rfl
  have hunsupported : ((events.map (fun e => (e.1, ((e.2 : ℤ), "")))).map Prod.fst).filter
      (fun t => t ≠ "imgvid" && t ≠ "audio") = [] := by
    rw [filter_eq_nil_iff]
    intro t ht
    obtain ⟨e, he, rfl⟩ := mem_map.mp ht
    obtain ⟨e', he', rfl⟩ := mem_map.mp he
    rcases htypes e' he' with h | h <;> simp [h]
  have hinj : Function.Injective (fun (n : ℕ) => (n : ℤ)) := fun a b hab => Int.ofNat.inj hab
  unfold normalize_condition_event_order
  simp only [indices, himg, haud, hunsupported]
  rw [if_neg (not_not.mpr rfl), if_neg (not_not.mpr rfl), if_neg, if_neg]
  · exact ⟨_, rfl⟩
  · simp [nodup_range.map hinj]
  · simp

/-! ## What the builder takes out of a packed layout -/

section Unpacked

variable {π : Type}

/-- **A packed layout, taken apart.** The masks cut the row lists into condition and target
rows; with the text rows they are the used part of the sequence; every row is positioned. -/
structure Unpacked (packed : Packed π) (layout : StreamLayout) (used : ℕ)
    (cond_image latent cond_audio audio : List ℕ) : Prop where
  described : packed.stream_layout = some layout
  cond_image_rows : boolean_index packed.img_pos (packed.update_mask.map not) = .ok cond_image
  latent_rows : boolean_index packed.img_pos packed.update_mask = .ok latent
  cond_audio_rows : boolean_index packed.audio_pos ((packed.audio_update_mask.getD
    (packed.audio_pos.map (fun _ => true))).map not) = .ok cond_audio
  audio_rows : boolean_index packed.audio_pos (packed.audio_update_mask.getD
    (packed.audio_pos.map (fun _ => true))) = .ok audio
  img_pos : packed.img_pos = cond_image ++ latent
  audio_pos : packed.audio_pos = cond_audio ++ audio
  used_rows : packed.cu_seqlens[1]? = some used
  fits : used ≤ packed.seq_len
  positions : packed.img_position_ids.length = packed.seq_len
  rows : (packed_streams packed.text_pos cond_image latent cond_audio audio layout).tokens.Perm
    (List.range used)

/-- **A description of the rows.** What holds of the description of either builder whatever
the request: roles and events cover the streams, the audio lengths tile the audio rows,
the target has as many rows as its shape says, and the target with the keyframe streams
lies on a grid of positions. -/
structure DescribesRows (packed : Packed π) (layout : StreamLayout) (roles : List CondRole)
    (cond_image latent cond_audio : List ℕ) : Prop where
  roles_eq : layout.cond_image_roles = roles.map role_name
  roles_length : roles.length = layout.cond_image_shapes.length
  event_types : ∀ e ∈ layout.cond_event_orders, e.1 = "imgvid" ∨ e.1 = "audio"
  imgvid_events : (layout.cond_event_orders.filter (fun e => e.1 = "imgvid")).map Prod.snd
    = List.range layout.cond_image_shapes.length
  audio_events : (layout.cond_event_orders.filter (fun e => e.1 = "audio")).map Prod.snd
    = List.range layout.cond_audio_stream_lens.length
  audio_sum : layout.cond_audio_stream_lens.sum = cond_audio.length
  target_rows : latent.length = layout.target_shape.prod
  grid : ∀ streams : List (List ℕ), streams.flatten = cond_image →
    streams.length = roles.length →
      GridTokens packed.img_position_ids (joint_tokens streams roles ++ latent)

/-- **The rest of the description**, which depends on the request: the target's grid is not
empty, the shapes are not empty and tile the condition rows, an independent cube has
several frames. -/
structure Tiles (layout : StreamLayout) (roles : List CondRole) (cond_image : List ℕ) : Prop where
  target_pos : layout.target_shape.Pos
  shapes_pos : ∀ s ∈ layout.cond_image_shapes, s.Pos
  shapes_sum : (layout.cond_image_shapes.map Shape.prod).sum = cond_image.length
  several_frames : ∀ e ∈ layout.cond_image_shapes.zip roles,
    e.2 = .independent_cube → 1 < e.1.1

/-- **Every row in one stream.** The description's sizes split the condition rows as the
layout builder splits them, one role for each visual stream; with the target rows the
streams list the image and the audio rows, and no row twice. -/
def Assigned (packed : Packed π) : Prop :=
  ∃ (layout : StreamLayout) (visual_streams audio_streams : List (List ℕ))
    (cond_image latent cond_audio audio : List ℕ),
    packed.stream_layout = some layout ∧
    boolean_index packed.img_pos (packed.update_mask.map not) = .ok cond_image ∧
    boolean_index packed.img_pos packed.update_mask = .ok latent ∧
    boolean_index packed.audio_pos ((packed.audio_update_mask.getD
      (packed.audio_pos.map (fun _ => true))).map not) = .ok cond_audio ∧
    boolean_index packed.audio_pos (packed.audio_update_mask.getD
      (packed.audio_pos.map (fun _ => true))) = .ok audio ∧
    split_cube_streams cond_image (layout.cond_image_shapes.map (fun s => (s.prod : ℤ))) 0
      "condition visual" = .ok visual_streams ∧
    split_cube_streams cond_audio (layout.cond_audio_stream_lens.map (fun (n : ℕ) => (n : ℤ))) 0
      "condition audio" = .ok audio_streams ∧
    visual_streams.length = layout.cond_image_roles.length ∧
    visual_streams.flatten ++ latent = packed.img_pos ∧
    audio_streams.flatten ++ audio = packed.audio_pos ∧
    (packed.img_pos ++ packed.audio_pos).Nodup

variable {packed : Packed π} {layout : StreamLayout} {used : ℕ} {roles : List CondRole}
  {cond_image latent cond_audio audio : List ℕ}

theorem natCast_toNat (ns : List ℕ) : (ns.map (fun (n : ℕ) => (n : ℤ))).map Int.toNat = ns := by
  rw [map_map]
  exact map_id ns

theorem split_of_sum {rows sizes : List ℕ} (name : String) (h : sizes.sum = rows.length) :
    ∃ streams, split_cube_streams rows (sizes.map (fun (n : ℕ) => (n : ℤ))) 0 name = .ok streams ∧
      streams.length = sizes.length ∧ streams.flatten = rows := by
  obtain ⟨streams, hsplit, _⟩ := split_cube_streams_total 0 name
    (show ∀ s ∈ sizes.map (fun (n : ℕ) => (n : ℤ)), 0 ≤ s by
      intro s hs
      obtain ⟨n, _, rfl⟩ := mem_map.mp hs
      exact Int.natCast_nonneg n)
    (by rw [natCast_toNat, h])
  obtain ⟨hlen, hflat⟩ := split_cube_streams_spec hsplit
  exact ⟨streams, hsplit, by rw [hlen, length_map], hflat⟩

section

variable (h : Unpacked packed layout used cond_image latent cond_audio audio)
include h

theorem Unpacked.nodup : (packed.img_pos ++ packed.audio_pos).Nodup := by
  have hnodup := h.rows.nodup_iff.mpr nodup_range
  rw [h.img_pos, h.audio_pos]
  have hperm : (packed_streams packed.text_pos cond_image latent cond_audio audio layout).tokens.Perm
      (packed.text_pos ++ ((cond_image ++ latent) ++ (cond_audio ++ audio))) := by
    rw [perm_iff_count]
    intro x
    simp only [PackedStreams.tokens, packed_streams, count_append]
    omega
  exact (nodup_append.mp (hperm.nodup_iff.mp hnodup)).2.1

theorem Unpacked.assigned
    (hd : DescribesRows packed layout roles cond_image latent cond_audio)
    (ht : Tiles layout roles cond_image) : Assigned packed := by
  obtain ⟨visual_streams, hvisual, hvlen, hvflat⟩ :=
    split_of_sum "condition visual" ht.shapes_sum
  obtain ⟨audio_streams, haudio, _, haflat⟩ := split_of_sum "condition audio" hd.audio_sum
  rw [map_map] at hvisual
  refine ⟨layout, visual_streams, audio_streams, cond_image, latent, cond_audio, audio, h.described,
    h.cond_image_rows, h.latent_rows, h.cond_audio_rows, h.audio_rows, hvisual, haudio, ?_, ?_, ?_,
    h.nodup⟩
  · rw [hvlen, length_map, hd.roles_eq, length_map, hd.roles_length]
  · rw [hvflat, h.img_pos]
  · rw [haflat, h.audio_pos]

end

theorem several_frames_iff {shapes : List Shape} (hlen : roles.length = shapes.length) :
    (∀ e ∈ shapes.zip roles, e.2 = .independent_cube → 1 < e.1.1) ↔
      ∀ i < shapes.length, roles.getD i .densePrefix = .independent_cube →
        1 < (shapes.getD i (0, (0, 0))).1 := by
  constructor
  · intro h i hi hrole
    have hi' : i < roles.length := by omega
    rw [getD_eq_getElem _ _ hi'] at hrole
    rw [getD_eq_getElem _ _ hi]
    refine h (shapes[i], roles[i]) ?_ hrole
    rw [← getElem_zip (h := by rw [length_zip]; omega)]
    exact getElem_mem _
  · intro h e he hrole
    obtain ⟨i, hi, rfl⟩ := getElem_of_mem he
    rw [length_zip] at hi
    rw [getElem_zip] at hrole ⊢
    have := h i (by omega)
    rw [getD_eq_getElem _ _ (by omega), getD_eq_getElem _ _ (by omega)] at this
    exact this hrole

theorem Unpacked.tiled (h : Unpacked packed layout used cond_image latent cond_audio audio)
    (hd : DescribesRows packed layout roles cond_image latent cond_audio)
    (ht : Tiles layout roles cond_image) : ∃ events, (only_sample layout.target_shape
      (packed_streams packed.text_pos cond_image latent cond_audio audio layout)
      (layout.cond_image_shapes.map Shape.dims) layout.cond_image_roles
      (layout.cond_event_orders.map (fun e => (e.1, ((e.2 : ℤ), ""))))
      (layout.cond_audio_stream_lens.map (fun (n : ℕ) => (n : ℤ)))).Tiled
        packed.img_position_ids layout.cond_image_shapes roles events := by
  obtain ⟨events, hevents⟩ := normalize_events hd.event_types hd.imgvid_events hd.audio_events
  refine ⟨events, ?_, ?_, normalize_shapes ht.shapes_pos, ht.shapes_sum, ?_, ?_, ?_,
    hd.target_rows, ht.target_pos, ?_, ?_⟩
  · intro l hl
    obtain ⟨n, _, rfl⟩ := mem_map.mp hl
    exact Int.natCast_nonneg n
  · show ((layout.cond_audio_stream_lens.map (fun (n : ℕ) => (n : ℤ))).map Int.toNat).sum
      = cond_audio.length
    rw [natCast_toNat, hd.audio_sum]
  · rw [hd.roles_eq]
    exact normalize_roles hd.roles_length
  · show normalize_condition_event_order _ _ (layout.cond_audio_stream_lens.map
      (fun (n : ℕ) => (n : ℤ))).length true = _
    rw [length_map]
    exact hevents
  · intro i hrole
    rcases Nat.lt_or_ge i layout.cond_image_shapes.length with hi | hi
    · exact (several_frames_iff hd.roles_length).mp ht.several_frames i hi hrole
    · rw [getD_eq_default _ _ (by rw [hd.roles_length]; exact hi)] at hrole
      cases hrole
  · intro t hmem
    have hused : t < used := by
      refine mem_range.mp (h.rows.mem_iff.mp ?_)
      unfold PackedStreams.tokens packed_streams
      simp only [mem_append]
      rcases mem_append.mp hmem with hc | hl
      · exact Or.inr (Or.inr (Or.inl hc))
      · exact Or.inr (Or.inr (Or.inr (Or.inr hl)))
    have := h.fits
    rw [h.positions]
    omega
  · intro streams hflat hlen
    exact hd.grid streams hflat (by rw [hlen, hd.roles_length])

/-- **When the metadata builder succeeds.** With admissible ratios it succeeds exactly on the
layouts whose description tiles the condition rows. -/
theorem Unpacked.build_iff [LinearOrder π] {local_cube_size : List ℤ} {size : ℕ × Shape}
    {topk_ratio_list : List ℚ} {num_steps : ℕ} (uninitialized : ℕ → ℕ)
    (h : Unpacked packed layout used cond_image latent cond_audio audio)
    (hd : DescribesRows packed layout roles cond_image latent cond_audio)
    (hsize : cube_token_size local_cube_size = .ok size) (hlen : topk_ratio_list.length = num_steps)
    (hratios : ∀ r ∈ topk_ratio_list, 0 < r ∧ r ≤ 1) :
    (∃ md, build packed local_cube_size topk_ratio_list num_steps uninitialized = .ok md) ↔
      Tiles layout roles cond_image := by
  rw [build_ok_iff hlen hratios h.described h.cond_image_rows h.latent_rows h.cond_audio_rows
    h.audio_rows h.used_rows]
  constructor
  · rintro ⟨cube, hcube⟩
    have hin : ∀ t ∈ (packed_streams packed.text_pos cond_image latent cond_audio audio
        layout).tokens, t < used := fun t ht => mem_range.mp (h.rows.mem_iff.mp ht)
    obtain ⟨htarget, shapes, roles', hnorm, hsum, hroles, hframes⟩ :=
      described_of_accepted hin rfl rfl rfl rfl hcube
    obtain ⟨hpos, rfl⟩ := pos_of_normalize_shapes hnorm
    rw [hd.roles_eq, normalize_roles hd.roles_length] at hroles
    cases hroles
    obtain ⟨_, htarget⟩ := htarget
    exact ⟨pos_of_normalize_dims htarget, hpos, hsum,
      (several_frames_iff hd.roles_length).mpr hframes⟩
  · intro ht
    obtain ⟨events, htiled⟩ := h.tiled hd ht
    exact precompute_cube_attention_total _ uninitialized (normalize_dims ht.target_pos) hsize
      h.fits h.positions h.rows rfl rfl rfl rfl htiled

end Unpacked

end LightningH3.CubeMetadata
