/-
What the packed-sequence builders return: rows that partition the used part of the
sequence, positions for every row, and a description of the reference blocks that lists
the same rows.
-/
import LightningH3.CubeAccept
import LightningH3.PackedSequence

set_option autoImplicit false

namespace LightningH3.PackedSequence

open List

open CubeMask (Shape CondRole)
open Fallible

/-! ## Keyframes -/

theorem keyframe_cond_frame_indices_spec {given : Bool} {indices : Option (List ℤ)}
    {out : List ℤ} (h : keyframe_cond_frame_indices given indices = .ok out) :
    (indices = none ∧ out = []) ∨ (indices = some out ∧ out ≠ []) := by
  unfold keyframe_cond_frame_indices at h
  split at h
  · cases h
  · cases h
    exact Or.inl ⟨rfl, rfl⟩
  · cases h
  · next out' =>
    split at h
    · cases h
    · next hmem =>
      cases h
      refine Or.inr ⟨rfl, ?_⟩
      rintro rfl
      simp [keyframe_signatures] at hmem

theorem length_resolve_from {frame_count : ℤ} {indices : List ℤ} :
    ∀ {resolved out : List ℤ}, resolve_from frame_count resolved indices = .ok out →
      out.length = resolved.length + indices.length := by
  induction indices with
  | nil =>
    intro resolved out h
    cases h
    rfl
  | cons index indices ih =>
    intro resolved out h
    unfold resolve_from at h
    split at h
    · cases h
    · simp only at h
      split at h
      · cases h
      · rw [ih h, length_append, length_singleton, length_cons]
        omega

theorem length_resolve_keyframe_frame_indices {indices resolved : List ℤ}
    {frame_count : Option ℤ} (h : resolve_keyframe_frame_indices indices frame_count = .ok resolved) :
    resolved.length = indices.length := by
  unfold resolve_keyframe_frame_indices at h
  split at h
  · split at h
    · cases h
    · next hnil =>
      rw [not_not] at hnil
      cases h
      rw [hnil]
  · split at h
    · cases h
    · have := length_resolve_from h
      simpa using this

/-! ## Lengths of the position grids -/

section Lengths

variable {π : Type} (N : Numeric π)

@[simp] theorem length_axis_from_sqrt_area (dim patch : ℕ) (sqrt_area : π) :
    (axis_from_sqrt_area N dim patch sqrt_area).length = dim / patch := by
  unfold axis_from_sqrt_area
  rw [length_map, N.length_linspace]

@[simp] theorem length_frame_grid (latent_h latent_w : ℕ) :
    (frame_grid N latent_h latent_w).length = (latent_h / 2) * (latent_w / 2) := by
  unfold frame_grid h_grid w_grid
  simp [length_flatMap]

@[simp] theorem length_text_positions (text_len : ℕ) :
    (text_positions N text_len).length = text_len := by
  simp [text_positions]

@[simp] theorem length_image_positions (latent_h latent_w : ℕ) (t : π) :
    (image_positions N latent_h latent_w t).length = (latent_h / 2) * (latent_w / 2) := by
  simp [image_positions]

@[simp] theorem length_video_positions (latent_t latent_h latent_w : ℕ) (origin : π) :
    (video_positions N latent_t latent_h latent_w origin).length
      = latent_t * ((latent_h / 2) * (latent_w / 2)) := by
  simp [video_positions]

@[simp] theorem length_audio_positions (audio_t : ℕ) (origin w_first w_last : π) :
    (audio_positions N audio_t origin w_first w_last).length = audio_t * audio_channel := by
  simp [audio_positions, Nat.mul_comm]

@[simp] theorem length_keyframe_positions (latent_h latent_w : ℕ) (keyframes : List π) :
    (keyframes.flatMap (image_positions N latent_h latent_w)).length
      = keyframes.length * ((latent_h / 2) * (latent_w / 2)) := by
  simp [length_flatMap]

variable {t_cursor : π} {grid : List π}

theorem length_ref_audio_positions {ref_audio_t : ℕ} {positions : List (π × (π × π))}
    (h : ref_audio_positions N ref_audio_t t_cursor grid = .ok positions) :
    positions.length = ref_audio_t * audio_channel := by
  unfold ref_audio_positions at h
  split at h
  · next hzero =>
    cases h
    rw [hzero]
    rfl
  · obtain ⟨ends, _, h'⟩ := bind_eq_ok.mp h
    cases h'
    exact length_audio_positions N _ _ _ _

theorem length_block_positions {item : RefItem} {block : List (π × (π × π)) × π}
    (h : block_positions N grid t_cursor item = .ok block) :
    block.1.length = item.audio_rows + item.visual_rows := by
  cases item with
  | image latent_h latent_w =>
    cases h
    simp [RefItem.audio_rows, RefItem.visual_rows, RefItem.visual_shape, Shape.prod]
  | audio ref_audio_t =>
    obtain ⟨audio, haudio, h'⟩ := bind_eq_ok.mp h
    cases h'
    simp [RefItem.audio_rows, RefItem.visual_rows, RefItem.visual_shape, Shape.prod,
      length_ref_audio_positions N haudio]
  | video with_audio ref_audio_t latent_t latent_h latent_w =>
    obtain ⟨audio, haudio, h'⟩ := bind_eq_ok.mp h
    cases h'
    simp [RefItem.audio_rows, RefItem.visual_rows, RefItem.visual_shape, Shape.prod,
      length_ref_audio_positions N haudio]

theorem length_blocks_positions {items : List RefItem} {located : List (π × (π × π)) × π}
    (h : blocks_positions N grid t_cursor items = .ok located) :
    located.1.length = (items.map RefItem.visual_rows).sum + (items.map RefItem.audio_rows).sum := by
  have hinv := foldlM_invariant
    (I := fun front acc => acc.1.length
      = (front.map RefItem.visual_rows).sum + (front.map RefItem.audio_rows).sum)
    items [] (by rfl) (by
      intro front item acc acc' hacc hstep
      obtain ⟨block, hblock, hacc'⟩ := bind_eq_ok.mp hstep
      cases hacc'
      have hlen := length_block_positions N hblock
      simp only [map_append, sum_append, map_singleton, sum_singleton,
        length_append]
      omega) h
  simpa using hinv

end Lengths

/-! ## Rows of the reference blocks -/

theorem length_block_rows (cursor : ℕ) (items : List RefItem) :
    ((block_slices cursor items).flatMap BlockSlice.visual_pos).length
        = (items.map RefItem.visual_rows).sum ∧
      ((block_slices cursor items).flatMap BlockSlice.audio_pos).length
        = (items.map RefItem.audio_rows).sum := by
  induction items generalizing cursor with
  | nil => exact ⟨rfl, rfl⟩
  | cons item items ih =>
    unfold block_slices
    rw [flatMap_cons, flatMap_cons, length_append, length_append, (ih _).1, (ih _).2, map_cons,
      map_cons]
    simp [BlockSlice.visual_pos, BlockSlice.audio_pos]

theorem block_rows_perm (cursor : ℕ) (items : List RefItem) :
    ((block_slices cursor items).flatMap BlockSlice.audio_pos
        ++ (block_slices cursor items).flatMap BlockSlice.visual_pos).Perm
      (List.range' cursor ((items.map RefItem.visual_rows).sum
        + (items.map RefItem.audio_rows).sum)) := by
  induction items generalizing cursor with
  | nil => exact List.Perm.refl _
  | cons item items ih =>
    have hrest := ih (cursor + item.audio_rows + item.visual_rows)
    unfold block_slices
    rw [flatMap_cons, flatMap_cons, map_cons, map_cons, sum_cons, sum_cons]
    -- the first block, then the rest
    have hsplit : List.range' cursor (item.visual_rows + (items.map RefItem.visual_rows).sum
        + (item.audio_rows + (items.map RefItem.audio_rows).sum))
        = (List.range' cursor item.audio_rows
          ++ List.range' (cursor + item.audio_rows) item.visual_rows)
          ++ List.range' (cursor + item.audio_rows + item.visual_rows)
            ((items.map RefItem.visual_rows).sum + (items.map RefItem.audio_rows).sum) := by
      rw [range'_append_1, Nat.add_assoc cursor, range'_append_1]
      congr 1
      omega
    rw [hsplit]
    refine List.Perm.trans ?_ (List.Perm.append_left _ hrest)
    rw [perm_iff_count]
    intro x
    simp only [count_append]
    show List.count x (List.range' cursor item.audio_rows) + _
      + (List.count x (List.range' (cursor + item.audio_rows) item.visual_rows) + _) = _
    omega

/-! ## The description of the reference blocks -/

def role_name : CondRole → String
  | .joint_cube => "joint_cube"
  | .independent_cube => "independent_cube"
  | .densePrefix => "dense_prefix"

theorem cond_role?_role_name (role : CondRole) : CubeMask.cond_role? (role_name role) = some role := by
  cases role <;> rfl

/-- What a block adds to the visual description. -/
def visual_entry (item : RefItem) : Option (Shape × CondRole) :=
  match item with
  | .image _ _ => some (item.visual_shape, .densePrefix)
  | .audio _ => none
  | .video _ _ _ _ _ => some (item.visual_shape, .independent_cube)

/-- What a block adds to the audio description. -/
def audio_entry (item : RefItem) : Option ℕ :=
  match item with
  | .image _ _ => none
  | .audio _ => some item.audio_rows
  | .video _ _ _ _ _ => some item.audio_rows

/-- **The description lists the blocks.** Its shapes and roles are those of the visual
blocks, its lengths those of the audio, and its events number both in order. -/
structure Describes (items : List RefItem) (d : Description) : Prop where
  shapes : d.cond_image_shapes = (items.filterMap visual_entry).map Prod.fst
  roles : d.cond_image_roles = (items.filterMap visual_entry).map (fun e => role_name e.2)
  lens : d.cond_audio_stream_lens = items.filterMap audio_entry
  types : ∀ e ∈ d.cond_event_orders, e.1 = "imgvid" ∨ e.1 = "audio"
  imgvid : (d.cond_event_orders.filter (fun e => e.1 = "imgvid")).map Prod.snd
    = List.range d.cond_image_shapes.length
  audio : (d.cond_event_orders.filter (fun e => e.1 = "audio")).map Prod.snd
    = List.range d.cond_audio_stream_lens.length

theorem Describes.step {items : List RefItem} {d : Description} (h : Describes items d)
    (item : RefItem) : Describes (items ++ [item]) (describe d item) := by
  have himg := h.imgvid
  have haud := h.audio
  cases item with
  | image latent_h latent_w =>
    refine ⟨?_, ?_, ?_, ?_, ?_, ?_⟩
    · simp [describe, h.shapes, visual_entry]
    · simp [describe, h.roles, visual_entry, role_name]
    · simp [describe, h.lens, audio_entry]
    · intro e he
      rcases mem_append.mp he with hmem | hmem
      · exact h.types e hmem
      · rw [mem_singleton.mp hmem]
        exact Or.inl rfl
    · simp [describe, himg, range_succ]
    · simp [describe, haud]
  | audio ref_audio_t =>
    refine ⟨?_, ?_, ?_, ?_, ?_, ?_⟩
    · simp [describe, h.shapes, visual_entry]
    · simp [describe, h.roles, visual_entry]
    · simp [describe, h.lens, audio_entry]
    · intro e he
      rcases mem_append.mp he with hmem | hmem
      · exact h.types e hmem
      · rw [mem_singleton.mp hmem]
        exact Or.inr rfl
    · simp [describe, himg]
    · simp [describe, haud, range_succ]
  | video with_audio ref_audio_t latent_t latent_h latent_w =>
    refine ⟨?_, ?_, ?_, ?_, ?_, ?_⟩
    · simp [describe, h.shapes, visual_entry]
    · simp [describe, h.roles, visual_entry, role_name]
    · simp [describe, h.lens, audio_entry]
    · intro e he
      rcases mem_append.mp he with hmem | hmem
      · exact h.types e hmem
      · rcases mem_cons.mp hmem with rfl | hmem'
        · exact Or.inr rfl
        · rw [mem_singleton.mp hmem']
          exact Or.inl rfl
    · simp [describe, himg, range_succ]
    · simp [describe, haud, range_succ]

section

variable (items : List RefItem)

theorem describe_blocks_describes : Describes items (describe_blocks items) := by
  have general (rest front : List RefItem) (d : Description) : Describes front d →
      Describes (front ++ rest) (rest.foldl describe d) := by
    induction rest generalizing front d with
    | nil =>
      intro h
      rwa [append_nil]
    | cons item rest ih =>
      intro h
      have hnext := ih (front ++ [item]) (describe d item) (h.step item)
      rwa [append_assoc, singleton_append] at hnext
  exact general items [] ⟨[], [], [], []⟩ ⟨rfl, rfl, rfl, by simp, rfl, rfl⟩

theorem sum_visual_entries : (((items.filterMap visual_entry).map Prod.fst).map Shape.prod).sum
      = (items.map RefItem.visual_rows).sum := by
  induction items with
  | nil => rfl
  | cons item items ih =>
    rw [map_cons, sum_cons, ← ih]
    cases item with
    | image latent_h latent_w =>
      rfl
    | audio ref_audio_t =>
      rw [filterMap_cons_none rfl]
      simp [RefItem.visual_rows, RefItem.visual_shape, Shape.prod]
    | video with_audio ref_audio_t latent_t latent_h latent_w =>
      rfl

theorem sum_audio_entries :
    (items.filterMap audio_entry).sum = (items.map RefItem.audio_rows).sum := by
  induction items with
  | nil => rfl
  | cons item items ih =>
    rw [map_cons, sum_cons, ← ih]
    cases item with
    | image latent_h latent_w =>
      rw [filterMap_cons_none rfl]
      simp [RefItem.audio_rows]
    | audio ref_audio_t =>
      rfl
    | video with_audio ref_audio_t latent_t latent_h latent_w =>
      rfl

/-- A block whose patch grid is not empty, with several frames if it is a video. -/
def RefItem.Genuine : RefItem → Prop
  | .image latent_h latent_w => 2 ≤ latent_h ∧ 2 ≤ latent_w
  | .audio _ => True
  | .video _ _ latent_t latent_h latent_w => 2 ≤ latent_t ∧ 2 ≤ latent_h ∧ 2 ≤ latent_w

theorem genuine_iff : (∀ item ∈ items, item.Genuine) ↔ ∀ e ∈ items.filterMap visual_entry,
      (0 < e.1.1 ∧ 0 < e.1.2.1 ∧ 0 < e.1.2.2) ∧ (e.2 = .independent_cube → 1 < e.1.1) := by
  constructor
  · intro h e he
    obtain ⟨item, hitem, hentry⟩ := mem_filterMap.mp he
    have hgen := h item hitem
    cases item with
    | image latent_h latent_w =>
      cases hentry
      obtain ⟨h₁, h₂⟩ := hgen
      simp only [RefItem.visual_shape]
      refine ⟨⟨by omega, by omega, by omega⟩, fun hrole => by cases hrole⟩
    | audio ref_audio_t => cases hentry
    | video with_audio ref_audio_t latent_t latent_h latent_w =>
      cases hentry
      obtain ⟨h₁, h₂, h₃⟩ := hgen
      simp only [RefItem.visual_shape]
      exact ⟨⟨by omega, by omega, by omega⟩, fun _ => by omega⟩
  · intro h item hitem
    cases item with
    | image latent_h latent_w =>
      obtain ⟨⟨_, h₁, h₂⟩, _⟩ := h _ (mem_filterMap.mpr ⟨_, hitem, rfl⟩)
      simp only [RefItem.visual_shape] at h₁ h₂
      exact ⟨by omega, by omega⟩
    | audio ref_audio_t => exact trivial
    | video with_audio ref_audio_t latent_t latent_h latent_w =>
      obtain ⟨⟨_, h₁, h₂⟩, h₃⟩ := h _ (mem_filterMap.mpr ⟨_, hitem, rfl⟩)
      have h₄ := h₃ rfl
      simp only [RefItem.visual_shape] at h₁ h₂ h₄
      exact ⟨by omega, by omega, by omega⟩

end

/-! ## Frames -/

section Frames

variable {π : Type}

/-- Tokens that come in whole frames: each stands at one time on the frame, and with it
stands every other point of the frame at that time. -/
def FrameTokens (position_ids : List (π × (π × π))) (frame : List (π × π)) (tokens : List ℕ) :
    Prop :=
  ∀ a ∈ tokens, ∃ t, (∃ p ∈ frame, position_ids[a]? = some (t, p)) ∧
    ∀ p ∈ frame, ∃ d ∈ tokens, position_ids[d]? = some (t, p)

variable {position_ids : List (π × (π × π))}

theorem FrameTokens.append {frame : List (π × π)} {xs ys : List ℕ}
    (hx : FrameTokens position_ids frame xs) (hy : FrameTokens position_ids frame ys) :
    FrameTokens position_ids frame (xs ++ ys) := by
  intro a ha
  rcases mem_append.mp ha with hmem | hmem
  · obtain ⟨t, hat, hall⟩ := hx a hmem
    refine ⟨t, hat, fun p hp => ?_⟩
    obtain ⟨d, hd, hpos⟩ := hall p hp
    exact ⟨d, mem_append_left _ hd, hpos⟩
  · obtain ⟨t, hat, hall⟩ := hy a hmem
    refine ⟨t, hat, fun p hp => ?_⟩
    obtain ⟨d, hd, hpos⟩ := hall p hp
    exact ⟨d, mem_append_right _ hd, hpos⟩

theorem FrameTokens.of_times (times : List π) {frame : List (π × π)} {first count : ℕ}
    (hids : ∃ front back : List (π × (π × π)), front.length = first ∧
      position_ids = front ++ (times.flatMap (fun t => frame.map (Prod.mk t)) ++ back))
    (hcount : times.length * frame.length = count) :
    FrameTokens position_ids frame (List.range' first count) := by
  obtain ⟨front, back, hfirst, hids⟩ := hids
  have hlen : (times.flatMap (fun t => frame.map (Prod.mk t))).length = count := by
    rw [← hcount]
    simp [length_flatMap]
  -- row `first + k` is the k-th of the frames' positions
  have hrow : ∀ k < count, position_ids[first + k]?
      = (times.flatMap (fun t => frame.map (Prod.mk t)))[k]? := by
    intro k hk
    rw [hids, ← hfirst, getElem?_append_right (Nat.le_add_right _ _), Nat.add_sub_cancel_left,
      getElem?_append_left (by omega)]
  intro a ha
  obtain ⟨hge, hlt⟩ := mem_range'_1.mp ha
  obtain ⟨k, rfl⟩ := Nat.exists_eq_add_of_le hge
  have hk : k < count := by omega
  have hget := getElem?_eq_getElem (hlen ▸ hk)
  obtain ⟨t, ht, hmem⟩ := mem_flatMap.mp (mem_of_getElem? hget)
  obtain ⟨p, hp, heq⟩ := mem_map.mp hmem
  refine ⟨t, ⟨p, hp, by rw [hrow k hk, hget, heq]⟩, fun q hq => ?_⟩
  have hin : (t, q) ∈ times.flatMap (fun t => frame.map (Prod.mk t)) :=
    mem_flatMap.mpr ⟨t, ht, mem_map.mpr ⟨q, hq, rfl⟩⟩
  obtain ⟨j, hj⟩ := getElem?_of_mem hin
  obtain ⟨hjlt, _⟩ := List.getElem?_eq_some_iff.mp hj
  refine ⟨first + j, mem_range'_1.mpr ⟨by omega, by omega⟩, ?_⟩
  rw [hrow j (by omega), hj]

/-- **Whole frames of a mesh lie on a grid.** -/
theorem FrameTokens.grid {hs ws : List π} {tokens : List ℕ}
    (h : FrameTokens position_ids (hs.flatMap (fun y => ws.map (fun x => (y, x)))) tokens) :
    CubeMask.GridTokens position_ids tokens := by
  intro a ha b hb c hc
  obtain ⟨ta, ⟨pa, _, hpa⟩, hall⟩ := h a ha
  obtain ⟨tb, ⟨pb, hmemb, hpb⟩, _⟩ := h b hb
  obtain ⟨tc, ⟨pc, hmemc, hpc⟩, _⟩ := h c hc
  -- the height of one and the width of another meet in the mesh
  have hmesh : (pb.1, pc.2) ∈ hs.flatMap (fun y => ws.map (fun x => (y, x))) := by
    obtain ⟨y, hy, hmapb⟩ := mem_flatMap.mp hmemb
    obtain ⟨_, _, rfl⟩ := mem_map.mp hmapb
    obtain ⟨_, _, hmapc⟩ := mem_flatMap.mp hmemc
    obtain ⟨x, hx, rfl⟩ := mem_map.mp hmapc
    exact mem_flatMap.mpr ⟨y, hy, mem_map.mpr ⟨x, hx, rfl⟩⟩
  obtain ⟨d, hd, hpd⟩ := hall _ hmesh
  exact ⟨d, hd, (ta, pa), (tb, pb), (tc, pc), hpa, hpb, hpc, hpd⟩

theorem video_positions_eq (N : Numeric π) (latent_t latent_h latent_w : ℕ) (origin : π) :
    ∃ times : List π, times.length = latent_t ∧ video_positions N latent_t latent_h latent_w origin
        = times.flatMap (fun t => (frame_grid N latent_h latent_w).map (Prod.mk t)) := by
  refine ⟨(List.range latent_t).map (fun i => (video_t_grid N latent_t origin).getD i origin),
    by simp, ?_⟩
  rw [flatMap_map]
  rfl

end Frames

end LightningH3.PackedSequence
