/-
The layout of a reference request and the cuts of its noise augmentation.
-/
import LightningH3.CubeConsumable
import LightningH3.ReferenceBinding

set_option autoImplicit false

namespace LightningH3.ReferenceRows

open PackedSequence Fallible List

variable {σ ρ α π : Type}

/-! ## Keyframes -/

section Keyframes

variable {enc : Encoders σ ρ α}

/-- **An encoded keyframe payload**: its entries are the keyframes in order, on the target
canvas, and the frames are the first, the last or both. -/
structure KeyframeSpec (enc : Encoders σ ρ α) (plan : ResolvedPlan σ) (p : KeyframePayload ρ) :
    Prop where
  encoded : (plan.materials.filter is_keyframe).mapM (encode_keyframe enc plan.shape)
    = .ok p.keyframes
  rows : p.rows = p.keyframes.flatMap KeyframeEntry.rows
  semantic : p.semantic_frame_indices ∈ keyframe_signatures
  grid : ∀ k ∈ p.keyframes, k.latent_h = plan.shape.height / 16 ∧ k.latent_w = plan.shape.width / 16
    ∧ k.rows.length = shape_rows (1, k.latent_h, k.latent_w)
  count : p.keyframes.length = p.semantic_frame_indices.length
  frame_count : ∃ n, p.frame_count = some n ∧ 1 < n
  valid : validate_keyframe_payload (some p) = .ok ()

theorem shape_grid (shape : TargetShape) : 2 ≤ shape.height / 16 ∧ 2 ≤ shape.width / 16
    ∧ shape.height / 16 % 2 = 0 ∧ shape.width / 16 % 2 = 0 := by
  have hw := shape.width_pos
  have hh := shape.height_pos
  have hwa := shape.width_aligned
  have hha := shape.height_aligned
  omega

theorem encode_keyframe_spec (henc : enc.Faithful) {shape : TargetShape} {m : MaterialPlanItem σ}
    {k : KeyframeEntry ρ} (h : encode_keyframe enc shape m = .ok k) :
    k.latent_h = shape.height / 16 ∧ k.latent_w = shape.width / 16
      ∧ k.rows.length = shape_rows (1, k.latent_h, k.latent_w)
      ∧ k.frame_index = m.frame_index ∧ k.resolved_frame_index = m.resolved_frame_index := by
  unfold encode_keyframe at h
  split at h
  · cases h
  · obtain ⟨z, hz, h⟩ := bind_eq_ok.mp h
    obtain ⟨rows, hrows, h⟩ := bind_eq_ok.mp h
    cases h
    obtain ⟨ht, hh, hw⟩ := henc.image_grid m _ _ z shape.width_aligned shape.height_aligned
      shape.width_pos shape.height_pos hz
    obtain ⟨-, -, rfl⟩ := patchify_eq_ok hrows
    refine ⟨rfl, rfl, ?_, rfl, rfl⟩
    rw [length_latent_rows, ht, hh, hw]
    rfl

theorem filterMap_of_map_some {β γ : Type} {f : β → Option γ} {xs : List β} {ys : List γ}
    (h : xs.map f = ys.map some) : xs.filterMap f = ys := by
  have hid : xs.filterMap f = (xs.map f).filterMap id := by
    rw [filterMap_map]
    rfl
  rw [hid, h, filterMap_map]
  exact filterMap_some

theorem validate_keyframe_payload_ok {p : KeyframePayload ρ} {n : ℤ}
    (hsem : p.semantic_frame_indices ∈ keyframe_signatures) (hcount : p.frame_count = some n)
    (hn : 1 < n) (hpixel : p.pixel_frame_indices = p.semantic_frame_indices.map (fun index =>
      if index = -1 then n - 1 else index))
    (hlength : p.keyframes.length = p.semantic_frame_indices.length)
    (hframes : p.keyframes.map KeyframeEntry.frame_index = p.semantic_frame_indices.map some)
    (hpixels : p.keyframes.map KeyframeEntry.resolved_frame_index
      = (p.semantic_frame_indices.map (fun index => if index = -1 then n - 1 else index)).map some)
    (hh : 0 < p.latent_h) (hw : 0 < p.latent_w) (hrows : p.rows.length
      = p.semantic_frame_indices.length * (p.latent_h / 2) * (p.latent_w / 2)) :
    validate_keyframe_payload (some p) = .ok () := by
  unfold validate_keyframe_payload
  simp only [hcount]
  rw [if_neg (not_not.mpr hsem), if_neg (by omega), if_neg (not_not.mpr hpixel),
    if_neg (not_not.mpr hlength), if_neg (not_not.mpr hframes), if_neg (not_not.mpr hpixels),
    if_neg (by omega)]

theorem encode_target_keyframes_spec (henc : enc.Faithful) {plan : ResolvedPlan σ}
    {p : KeyframePayload ρ} (h : encode_target_keyframes enc plan = .ok p) :
    KeyframeSpec enc plan p := by
  obtain ⟨n, hn, h⟩ := bind_eq_ok.mp h
  obtain ⟨encoded, hencoded, h⟩ := bind_eq_ok.mp h
  cases h
  change validate_keyframe_materials plan.shape (plan.materials.filter is_keyframe) = _ at hn
  set keyframes := plan.materials.filter is_keyframe
  -- what the validation has checked
  obtain ⟨semantic, hsig, hsem, hcount, hresolved⟩ : ∃ semantic ∈ keyframe_signatures,
      keyframes.map MaterialPlanItem.frame_index = semantic.map some ∧ 1 < n
      ∧ keyframes.map MaterialPlanItem.resolved_frame_index = (semantic.map (fun index =>
        if index = -1 then n - 1 else index)).map some := by
    simp only [validate_keyframe_materials] at hn
    split at hn
    · cases hn
    · rename_i hmem
      obtain ⟨semantic, hsig, hsem⟩ := mem_map.mp (not_not.mp hmem)
      split at hn
      · cases hn
      · split at hn
        · cases hn
        · split at hn
          · cases hn
          · rename_i hcount hres
            cases hn
            refine ⟨semantic, hsig, hsem.symm, by omega, ?_⟩
            rw [not_not.mp hres]
            have hmap : ∀ f : ℤ → ℤ, keyframes.map (fun m => m.frame_index.map f)
                = (keyframes.map MaterialPlanItem.frame_index).map (Option.map f) := by
              intro f
              rw [map_map]
              rfl
            rw [hmap, ← hsem, map_map, map_map]
            rfl
  have hsemantic := filterMap_of_map_some hsem
  have hpixel := filterMap_of_map_some hresolved
  have hgrid : ∀ k ∈ encoded, k.latent_h = plan.shape.height / 16
      ∧ k.latent_w = plan.shape.width / 16
      ∧ k.rows.length = shape_rows (1, k.latent_h, k.latent_w) := by
    intro k hk
    obtain ⟨m, -, hm⟩ := exists_of_mem_mapM hencoded hk
    obtain ⟨h1, h2, h3, -, -⟩ := encode_keyframe_spec henc hm
    exact ⟨h1, h2, h3⟩
  have hframes : encoded.map KeyframeEntry.frame_index = semantic.map some := by
    rw [← hsem]
    exact map_of_mapM hencoded (fun m k hk => (encode_keyframe_spec henc hk).2.2.2.1)
  have hpixels : encoded.map KeyframeEntry.resolved_frame_index = (semantic.map (fun index =>
      if index = -1 then n - 1 else index)).map some := by
    rw [← hresolved]
    exact map_of_mapM hencoded (fun m k hk => (encode_keyframe_spec henc hk).2.2.2.2)
  have hlength : encoded.length = semantic.length := by
    have := congrArg List.length hframes
    simpa using this
  obtain ⟨hh, hw, -, -⟩ := shape_grid plan.shape
  have hrows : (encoded.flatMap KeyframeEntry.rows).length
      = semantic.length * (plan.shape.height / 16 / 2) * (plan.shape.width / 16 / 2) := by
    rw [← hlength, Nat.mul_assoc]
    refine length_flatMap_const (fun k hk => ?_)
    obtain ⟨h1, h2, h3⟩ := hgrid k hk
    rw [h3, h1, h2, shape_rows, Nat.one_mul]
  refine ⟨hencoded, rfl, ?_, hgrid, ?_, ⟨n, rfl, hcount⟩, ?_⟩
  · show keyframes.filterMap MaterialPlanItem.frame_index ∈ keyframe_signatures
    rw [hsemantic]
    exact hsig
  · show encoded.length = (keyframes.filterMap MaterialPlanItem.frame_index).length
    rw [hsemantic, hlength]
  · refine validate_keyframe_payload_ok (n := n) ?_ rfl hcount ?_ ?_ ?_ ?_ ?_ ?_ ?_
    · show keyframes.filterMap MaterialPlanItem.frame_index ∈ keyframe_signatures
      rw [hsemantic]
      exact hsig
    · show keyframes.filterMap MaterialPlanItem.resolved_frame_index
        = (keyframes.filterMap MaterialPlanItem.frame_index).map _
      rw [hsemantic, hpixel]
    · show encoded.length = (keyframes.filterMap MaterialPlanItem.frame_index).length
      rw [hsemantic, hlength]
    · show _ = (keyframes.filterMap MaterialPlanItem.frame_index).map some
      rw [hsemantic]
      exact hframes
    · show _ = ((keyframes.filterMap MaterialPlanItem.frame_index).map _).map some
      rw [hsemantic]
      exact hpixels
    · show 0 < plan.shape.height / 16
      omega
    · show 0 < plan.shape.width / 16
      omega
    · show _ = (keyframes.filterMap MaterialPlanItem.frame_index).length * _ * _
      rw [hsemantic]
      exact hrows

end Keyframes
/-! ## The layout -/

section Layout

/-- The blocks that the layout builder accepts. -/
def GoodBlock (item : RefItem) : Prop := ∀ shape ∈ block_shape item, GoodShape shape

theorem positive_int_ok {block : List (String × PyValue)} {key : String} {n : ℕ} {allow_zero : Bool}
    (hget : block_get block key = .int n) (hn : allow_zero = true ∨ 0 < n) (path : String) :
    positive_int block key path allow_zero = .ok n := by
  unfold positive_int
  rw [hget]
  simp only
  rw [if_neg]
  · rfl
  · rintro (hneg | ⟨hzero, hfalse⟩)
    · omega
    · rcases hn with htrue | hpos
      · rw [htrue] at hfalse
        cases hfalse
      · omega

theorem parse_raw_block {item : RefItem} (h : GoodBlock item) (index : ℕ) :
    parse_ref_block index (raw_block item) = .ok item := by
  cases item with
  | image latent_h latent_w =>
    obtain ⟨⟨-, hh, hw⟩, -, -⟩ := h _ rfl
    show (do
      let rh ← positive_int _ "latent_h" _ false
      let rw ← positive_int _ "latent_w" _ false
      .ok (RefItem.image rh rw)) = _
    rw [positive_int_ok rfl (Or.inr hh), ok_bind, positive_int_ok rfl (Or.inr hw), ok_bind]
  | audio ref_audio_t =>
    show (do
      let rt ← positive_int _ "ref_audio_t" _ true
      .ok (RefItem.audio rt)) = _
    rw [positive_int_ok rfl (Or.inl rfl), ok_bind]
  | video with_audio ref_audio_t latent_t latent_h latent_w =>
    obtain ⟨⟨ht, hh, hw⟩, -, -⟩ := h _ rfl
    cases with_audio <;>
    · show (do
        let rt ← positive_int _ "ref_audio_t" _ true
        let vt ← positive_int _ "latent_t" _ false
        let vh ← positive_int _ "latent_h" _ false
        let vw ← positive_int _ "latent_w" _ false
        .ok (RefItem.video _ rt vt vh vw)) = _
      rw [positive_int_ok rfl (Or.inl rfl), positive_int_ok rfl (Or.inr ht),
        positive_int_ok rfl (Or.inr hh), positive_int_ok rfl (Or.inr hw)]
      rfl

/-- **The blocks are parsed back.** -/
theorem parse_raw_blocks {items : List RefItem} (h : ∀ item ∈ items, GoodBlock item) :
    parse_ref_blocks (items.map raw_block) = .ok items := by
  unfold parse_ref_blocks
  rw [mapM_eq_ok]
  refine forall₂_iff_get.mpr ⟨by simp, fun i hi hi' => ?_⟩
  simp only [get_eq_getElem, getElem_zipIdx, getElem_map]
  exact parse_raw_block (h _ (getElem_mem hi')) _

theorem grid_ends_ok (N : Numeric π) (latent_h : ℕ) {latent_w : ℕ} (hw : 2 ≤ latent_w) :
    ∃ ends, grid_ends (w_grid N latent_h latent_w) = .ok ends := by
  have hlen : (w_grid N latent_h latent_w).length = latent_w / 2 := by
    unfold w_grid axis_from_sqrt_area
    rw [length_map, N.length_linspace]
  cases hgrid : w_grid N latent_h latent_w with
  | nil =>
    rw [hgrid, length_nil] at hlen
    omega
  | cons x xs =>
    unfold grid_ends
    exact ⟨_, rfl⟩

section

variable {grid : List π} (N : Numeric π) (hgrid : ∃ ends, grid_ends grid = .ok ends)
include N hgrid

theorem block_positions_ok {item : RefItem} (h : GoodBlock item) (t_cursor : π) :
    ∃ block, block_positions N grid t_cursor item = .ok block := by
  have haudio : ∀ {grid : List π} (t : ℕ), (∃ ends, grid_ends grid = .ok ends) →
      ∃ positions, ref_audio_positions N t t_cursor grid = .ok positions := by
    rintro grid t ⟨ends, hends⟩
    unfold ref_audio_positions
    split
    · exact ⟨_, rfl⟩
    · rw [hends]
      exact ⟨_, rfl⟩
  cases item with
  | image latent_h latent_w => exact ⟨_, rfl⟩
  | audio ref_audio_t =>
    obtain ⟨positions, hpos⟩ := haudio ref_audio_t hgrid
    exact ⟨_, bind_eq_ok.mpr ⟨positions, hpos, rfl⟩⟩
  | video with_audio ref_audio_t latent_t latent_h latent_w =>
    obtain ⟨⟨-, -, hw⟩, -, heven⟩ := h _ rfl
    obtain ⟨positions, hpos⟩ := haudio ref_audio_t
      (grid_ends_ok N latent_h (show 2 ≤ latent_w by simp at hw heven; omega))
    exact ⟨_, bind_eq_ok.mpr ⟨positions, hpos, rfl⟩⟩

theorem blocks_positions_ok {items : List RefItem} (h : ∀ item ∈ items, GoodBlock item)
    (t_cursor : π) : ∃ located, blocks_positions N grid t_cursor items = .ok located := by
  obtain ⟨located, hlocated, -⟩ := foldlM_total (ε := PackedError)
    (f := fun (acc : List (π × (π × π)) × π) item => do
      let block ← block_positions N grid acc.2 item
      .ok (acc.1 ++ block.1, block.2))
    (I := fun _ _ => True) items [] (s := ([], t_cursor)) trivial
    (fun front' item back acc heq _ => by
      rw [nil_append] at heq
      obtain ⟨block, hblock⟩ := block_positions_ok N hgrid (h item (by rw [heq]; simp)) acc.2
      exact ⟨_, bind_eq_ok.mpr ⟨block, hblock, rfl⟩, trivial⟩)
  exact ⟨located, hlocated⟩

end

theorem resolve_signature {semantic : List ℤ} {n : ℤ} (hsig : semantic ∈ keyframe_signatures)
    (hn : 1 < n) : ∃ resolved, resolve_keyframe_frame_indices semantic (some n) = .ok resolved
      ∧ ∀ pixel ∈ resolved, pixel = 0 ∨ pixel = n - 1 := by
  have hpos : ¬ n ≤ 0 := by omega
  have hne : n - 1 ≠ 0 := by omega
  have hlt : 0 < n := by omega
  unfold resolve_keyframe_frame_indices
  simp only [if_neg hpos]
  simp only [keyframe_signatures, mem_cons, not_mem_nil, or_false] at hsig
  rcases hsig with rfl | rfl | rfl
  · exact ⟨[0], by simp [resolve_from, hlt], by simp⟩
  · exact ⟨[n - 1], by simp [resolve_from], by simp⟩
  · refine ⟨[0, n - 1], ?_, by simp⟩
    simp [resolve_from, hlt, hne.symm]

/-- The rows of the packed sequence that are not generated. -/
def condition_positions (pos : List ℕ) (mask : List Bool) : List ℕ :=
  (pos.zip mask).filterMap (fun p => if p.2 then none else some p.1)

theorem condition_positions_replicate (pos : List ℕ) (b : Bool) :
    condition_positions pos (List.replicate pos.length b) = if b then [] else pos := by
  induction pos with
  | nil =>
    cases b <;> rfl
  | cons x xs ih =>
    unfold condition_positions at ih ⊢
    rw [length_cons, replicate_succ, zip_cons_cons, filterMap_cons, ih]
    cases b <;> rfl

theorem condition_positions_suffix (front back : List ℕ) :
    condition_positions (front ++ back) (suffix_mask (front ++ back).length front.length) = front := by
  have hmask : suffix_mask (front ++ back).length front.length
      = List.replicate front.length false ++ List.replicate back.length true := by
    unfold suffix_mask
    refine ext_getElem (by simp) (fun i hi hi' => ?_)
    rw [getElem_map, getElem_range, getElem_append]
    split
    · rename_i hlt
      rw [length_replicate] at hlt
      rw [getElem_replicate, decide_eq_false (by omega)]
    · rename_i hge
      rw [length_replicate] at hge
      rw [getElem_replicate, decide_eq_true (by omega)]
  have hfront := condition_positions_replicate front false
  have hback := condition_positions_replicate back true
  unfold condition_positions at hfront hback ⊢
  rw [hmask, zip_append (by simp), filterMap_append, hfront, hback]
  simp

/-- The arguments that the layout of a reference request is built from. -/
def layout_args (shape : TargetShape) (items : List RefItem) (keyframe_frame_indices : Option (List ℤ))
    (frame_count : Option ℤ) (text_len : ℕ) (include_video_pos : Bool) : RefArgs :=
  { text_len := text_len
    latent_t := shape.video_latent_t
    latent_h := shape.height / 16
    latent_w := shape.width / 16
    audio_t := shape.audio_latent_t
    ref_blocks := items.map raw_block
    keyframe_frame_indices := keyframe_frame_indices
    frame_count := frame_count
    seq_len := none
    include_video_pos := include_video_pos }

def frame_rows (shape : TargetShape) : ℕ := (shape.height / 16 / 2) * (shape.width / 16 / 2)

/-- **The layout is built**, and its condition rows are those of the keyframes and of the blocks
in their order. -/
theorem layout_ok (N : Numeric π) {shape : TargetShape} {items : List RefItem}
    {keyframes : Option (List ℤ × ℤ)} {count : ℕ} (hitems : ∀ item ∈ items, GoodBlock item)
    (hkeyframes : ∀ k ∈ keyframes, k.1 ∈ keyframe_signatures ∧ 1 < k.2)
    (hcount : ((keyframes.map Prod.fst).getD []).length = count) (text_len : ℕ)
    (include_video_pos : Bool) :
    ∃ packed, minimax_h3_packed_sequence_ref2va_blocks N (layout_args shape items
        (keyframes.map Prod.fst) (keyframes.map Prod.snd) text_len include_video_pos) = .ok packed
      ∧ condition_positions packed.img_pos packed.update_mask
        = List.range' text_len (count * frame_rows shape)
          ++ (block_slices (text_len + count * frame_rows shape) items).flatMap BlockSlice.visual_pos
      ∧ ∃ mask, packed.audio_update_mask = some mask
        ∧ condition_positions packed.audio_pos mask
          = (block_slices (text_len + count * frame_rows shape) items).flatMap BlockSlice.audio_pos := by
  obtain ⟨-, hw, -, -⟩ := shape_grid shape
  set args := layout_args shape items (keyframes.map Prod.fst) (keyframes.map Prod.snd) text_len
    include_video_pos with hargs
  set indices := (keyframes.map Prod.fst).getD [] with hindices
  have hparsed : parse_ref_blocks args.ref_blocks = .ok items := parse_raw_blocks hitems
  have hcond : keyframe_cond_frame_indices args.keyframe_frame_indices.isSome
      args.keyframe_frame_indices = .ok indices := by
    cases keyframes with
    | none => rfl
    | some k =>
      have hsig := (hkeyframes k rfl).1
      show (if k.1 ∉ keyframe_signatures then _ else _) = _
      rw [if_neg (not_not.mpr hsig)]
      rfl
  have hresolved : ∃ resolved, resolve_keyframe_frame_indices indices args.frame_count = .ok resolved
      ∧ ∀ pixel ∈ resolved, pixel = 0 ∨ args.frame_count = some (pixel + 1) := by
    cases keyframes with
    | none => exact ⟨[], rfl, by simp⟩
    | some k =>
      obtain ⟨hsig, hn⟩ := hkeyframes k rfl
      obtain ⟨resolved, hres, hpixel⟩ := resolve_signature hsig hn
      refine ⟨resolved, hres, fun pixel hmem => ?_⟩
      rcases hpixel pixel hmem with rfl | rfl
      · exact Or.inl rfl
      · right
        show some k.2 = some (k.2 - 1 + 1)
        rw [Int.sub_add_cancel]
  obtain ⟨resolved, hres, hpixel⟩ := hresolved
  have hgrid := grid_ends_ok N (shape.height / 16) hw
  obtain ⟨located, hlocated⟩ := blocks_positions_ok N hgrid hitems (N.of_nat text_len)
  obtain ⟨ends, hends⟩ := hgrid
  obtain ⟨times, htimes⟩ : ∃ times, resolved.mapM (keyframe_t N
      "hybrid ref2va layout only supports first/last keyframe anchors, got resolved frame index "
      args.latent_t located.2 args.frame_count) = .ok times := by
    refine ⟨_, mapM_of_ok (g := fun pixel => if pixel = 0 then located.2 else
      N.sub (N.add located.2 (temporal_position_span N args.latent_t)) (frame_rescale N))
      (fun pixel hmem => ?_)⟩
    unfold keyframe_t
    split
    · rfl
    · rename_i hne
      rw [if_pos ((hpixel pixel hmem).resolve_left hne)]
  have haligned : ¬ args.seq_len.getD (aligned (args.used items indices)) < args.used items indices := by
    show ¬ (args.used items indices + 64 - 1) / 64 * 64 < args.used items indices
    omega
  refine ⟨reference_packed N args (args.seq_len.getD (aligned (args.used items indices))) items
    indices located times ends, ?_, ?_, _, rfl, ?_⟩
  · unfold minimax_h3_packed_sequence_ref2va_blocks
    rw [hparsed, ok_bind, hcond, ok_bind, hres]
    simp only [if_neg haligned]
    rw [show blocks_positions N (w_grid N args.latent_h args.latent_w) (N.of_nat args.text_len) items
      = .ok located from hlocated, ok_bind,
      show grid_ends (w_grid N args.latent_h args.latent_w) = .ok ends from hends, ok_bind, htimes]
    rfl
  · subst hcount
    have hsuffix := condition_positions_suffix
      (List.range' text_len (indices.length * frame_rows shape)
        ++ (block_slices (text_len + indices.length * frame_rows shape) items).flatMap
          BlockSlice.visual_pos)
      (List.range' (text_len + indices.length * frame_rows shape
        + ((items.map RefItem.visual_rows).sum + (items.map RefItem.audio_rows).sum)
        + shape.audio_latent_t * audio_channel) (shape.video_latent_t * frame_rows shape))
    have hlen : (List.range' text_len (indices.length * frame_rows shape)
        ++ (block_slices (text_len + indices.length * frame_rows shape) items).flatMap
          BlockSlice.visual_pos).length
        = indices.length * frame_rows shape + (items.map RefItem.visual_rows).sum := by
      rw [length_append, length_range', (length_block_rows _ _).1]
    rw [hlen, append_assoc] at hsuffix
    exact hsuffix
  · subst hcount
    have hsuffix := condition_positions_suffix
      ((block_slices (text_len + indices.length * frame_rows shape) items).flatMap
        BlockSlice.audio_pos)
      (List.range' (text_len + indices.length * frame_rows shape
        + ((items.map RefItem.visual_rows).sum + (items.map RefItem.audio_rows).sum))
        (shape.audio_latent_t * audio_channel))
    rw [(length_block_rows _ _).2] at hsuffix
    exact hsuffix

end Layout
/-! ## Noise augmentation -/

section Augment

variable (R : Noise ρ α)

/-- The patches of the draw that a condition of a shape is mixed with. -/
def noise_rows (full_t : ℕ) (seed : ℤ) (shape : ℕ × ℕ × ℕ) : List ρ :=
  (⟨shape.1, shape.2.1, shape.2.2, R.draw seed full_t shape.2.1 shape.2.2⟩ : Latent ρ).rows

/-- The rows of one condition, mixed. -/
def mixed (full_t : ℕ) (seed : ℤ) (noise_aug : ℚ) (part : (ℕ × ℕ × ℕ) × List ρ) : List ρ :=
  List.zipWith (R.mix noise_aug) part.2 (noise_rows R full_t seed part.1)

/-- A condition's rows are as many as its shape stands for. -/
def FitsShape (part : (ℕ × ℕ × ℕ) × List ρ) : Prop :=
  GoodShape part.1 ∧ part.2.length = shape_rows part.1

def too_long (full_t : ℕ) (shape : ℕ × ℕ × ℕ) : RefError :=
  .value_error ("condition latent_t " ++ toString shape.1
    ++ " exceeds the noise draw length " ++ toString full_t)

variable {parts : List ((ℕ × ℕ × ℕ) × List ρ)}

theorem check_shapes_ok (h : ∀ p ∈ parts, FitsShape p) :
    ∀ n, (parts.map Prod.fst).foldlM check_shape n = .ok (n + (parts.flatMap Prod.snd).length) := by
  induction parts with
  | nil => exact fun n => rfl
  | cons p parts ih =>
    intro n
    obtain ⟨⟨⟨ht, hh, hw⟩, heh, hew⟩, hlen⟩ := h p (by simp)
    have hstep : check_shape n p.1 = .ok (n + shape_rows p.1) := by
      unfold check_shape
      rw [if_neg (by omega), if_neg (by omega)]
    rw [map_cons, foldlM_cons, hstep, ok_bind, ih (fun q hq => h q (by simp [hq])),
      flatMap_cons, length_append, hlen, Nat.add_assoc]

/-- **The mixing loop** takes each condition's own rows, until one is too long to be drawn. -/
theorem mix_loop {clean_rows : List ρ} {full_t : ℕ} {seed : ℤ} {noise_aug : ℚ} :
    ∀ (parts : List ((ℕ × ℕ × ℕ) × List ρ)) (front out : List ρ),
      (∀ p ∈ parts, FitsShape p) → clean_rows = front ++ parts.flatMap Prod.snd →
      (parts.map Prod.fst).foldlM (mix_step R clean_rows full_t seed noise_aug) (front.length, out)
        = match (parts.map Prod.fst).find? (fun shape => full_t < shape.1) with
          | some shape => .error (too_long full_t shape)
          | none => .ok (clean_rows.length,
              out ++ parts.flatMap (mixed R full_t seed noise_aug)) := by
  intro parts
  induction parts with
  | nil =>
    intro front out _ hclean
    rw [hclean]
    simp
    rfl
  | cons p parts ih =>
    intro front out hfits hclean
    obtain ⟨⟨-, heh, hew⟩, hlen⟩ := hfits p (by simp)
    rw [map_cons, foldlM_cons]
    by_cases hlong : full_t < p.1.1
    · rw [mix_step, if_pos hlong, find?_cons_of_pos (by simpa using hlong)]
      rfl
    · have hpatch : patchify_video_latent (⟨p.1.1, p.1.2.1, p.1.2.2,
          R.draw seed full_t p.1.2.1 p.1.2.2⟩ : Latent ρ) = .ok (noise_rows R full_t seed p.1) := by
        unfold patchify_video_latent
        rw [if_neg (by simp only; omega)]
        rfl
      have hcount : (noise_rows R full_t seed p.1).length = p.2.length := by
        rw [hlen, noise_rows, length_latent_rows]
        rfl
      -- the rows from the offset on begin with the condition's own
      have hpart : (clean_rows.drop front.length).take p.2.length = p.2 := by
        rw [hclean, drop_left, flatMap_cons, take_left]
      have hstep : mix_step R clean_rows full_t seed noise_aug (front.length, out) p.1
          = .ok ((front ++ p.2).length, out ++ mixed R full_t seed noise_aug p) := by
        rw [mix_step, if_neg hlong, hpatch, ok_bind]
        simp only [hcount, hpart, length_append]
        rfl
      rw [hstep, ok_bind, ih (front ++ p.2) _ (fun q hq => hfits q (by simp [hq]))
        (by rw [hclean, flatMap_cons, append_assoc]),
        find?_cons_of_neg (by simpa using hlong), flatMap_cons, append_assoc]

/-- **Visual augmentation**, on conditions whose rows fit their shapes. -/
theorem imgvid_noise_aug_eq {target_latent_t : ℕ} {seed : ℤ}
    {noise_aug : ℚ} (hfits : ∀ p ∈ parts, FitsShape p) (hne : parts ≠ [])
    (ht : 0 < target_latent_t) (h0 : 0 ≤ noise_aug) (h1 : noise_aug < 1) :
    imgvid_cond_noise_aug_rows R (parts.flatMap Prod.snd) (parts.map Prod.fst) target_latent_t
        (parts.map Prod.fst).length seed noise_aug
      = match (parts.map Prod.fst).find? (fun shape => target_latent_t + parts.length < shape.1) with
        | some shape => .error (too_long (target_latent_t + parts.length) shape)
        | none => .ok (parts.flatMap (mixed R (target_latent_t + parts.length) seed noise_aug)) := by
  have hlen : 0 < parts.length := length_pos_of_ne_nil hne
  unfold imgvid_cond_noise_aug_rows
  rw [if_neg (not_not.mpr ⟨h0, h1.le⟩), if_neg h1.ne, if_neg (by omega), length_map,
    if_neg (by omega), check_shapes_ok hfits, ok_bind, if_neg (by simpa using hne),
    if_neg (by simp)]
  have hloop := @mix_loop _ _ R (parts.flatMap Prod.snd) (target_latent_t + parts.length) seed
    noise_aug parts [] [] hfits rfl
  rw [length_nil] at hloop
  rw [hloop]
  cases (parts.map Prod.fst).find? (fun shape => target_latent_t + parts.length < shape.1) with
  | some shape => rfl
  | none => rfl

/-- The rows of one sound, mixed. -/
def mixed_audio (seed : ℤ) (noise_aug : ℚ) (rows : List α) : List α :=
  List.zipWith (R.mix_audio noise_aug) rows
    ((List.range rows.length).map (R.draw_audio (seed + 1) rows.length))

theorem mix_audio_loop {clean_rows : List α} {seed : ℤ} {noise_aug : ℚ} :
    ∀ (parts : List (ℕ × List α)) (front out : List α),
      (∀ p ∈ parts, p.2.length = audio_channel * p.1) →
      clean_rows = front ++ parts.flatMap Prod.snd →
      (parts.map Prod.fst).foldl (mix_audio_step R clean_rows seed noise_aug) (front.length, out)
        = (clean_rows.length, out ++ parts.flatMap (fun p => mixed_audio R seed noise_aug p.2)) := by
  intro parts
  induction parts with
  | nil =>
    intro front out _ hclean
    rw [hclean]
    simp
  | cons p parts ih =>
    intro front out hfits hclean
    have hlen := hfits p (by simp)
    have hpart : (clean_rows.drop front.length).take (audio_channel * p.1) = p.2 := by
      rw [hclean, drop_left, flatMap_cons, ← hlen, take_left]
    have hstep : mix_audio_step R clean_rows seed noise_aug (front.length, out) p.1
        = ((front ++ p.2).length, out ++ mixed_audio R seed noise_aug p.2) := by
      unfold mix_audio_step mixed_audio
      simp only [hpart, length_append, hlen]
    rw [map_cons, foldl_cons, hstep, ih (front ++ p.2) _
      (fun q hq => hfits q (by simp [hq])) (by rw [hclean, flatMap_cons, append_assoc]),
      flatMap_cons, append_assoc]

/-- **Audio augmentation**, on sounds of known lengths. -/
theorem audio_noise_aug_eq {parts : List (ℕ × List α)} {seed : ℤ} {noise_aug : ℚ}
    (hfits : ∀ p ∈ parts, 0 < p.1 ∧ p.2.length = audio_channel * p.1) (hne : parts ≠ [])
    (h0 : 0 ≤ noise_aug) (h1 : noise_aug < 1) :
    audio_cond_noise_aug_rows R (parts.flatMap Prod.snd) (parts.map Prod.fst) seed noise_aug
      = .ok (parts.flatMap (fun p => mixed_audio R seed noise_aug p.2)) := by
  have hsum : (parts.flatMap Prod.snd).length = audio_channel * (parts.map Prod.fst).sum := by
    rw [length_flatMap, map_congr_left (fun p hp => (hfits p hp).2), sum_map_mul_left]
  have hpos : ¬ (parts.map Prod.fst).any (· = 0) = true := by
    rw [any_eq_true]
    rintro ⟨t, ht, hzero⟩
    obtain ⟨p, hp, rfl⟩ := mem_map.mp ht
    have := (hfits p hp).1
    simp at hzero
    omega
  have hloop := @mix_audio_loop _ _ R (parts.flatMap Prod.snd) seed noise_aug parts [] []
    (fun p hp => (hfits p hp).2) rfl
  rw [length_nil] at hloop
  unfold audio_cond_noise_aug_rows
  rw [if_neg (not_not.mpr ⟨h0, h1.le⟩), if_neg h1.ne, if_neg (by simpa using hne), if_neg hpos,
    if_neg (not_not.mpr hsum), hloop]
  rfl

end Augment
/-! ## Alignment -/

variable {sources : List (Source ρ α)}

section Alignment

/-- The conditions of a request as the augmentation sees them: a shape and the rows. -/
def visual_parts (keyframes : List (KeyframeEntry ρ)) (sources : List (Source ρ α)) :
    List ((ℕ × ℕ × ℕ) × List ρ) :=
  keyframes.map (fun k => ((1, k.latent_h, k.latent_w), k.rows))
    ++ sources.flatMap (fun s => (block_shape s.item).toList.zip s.visual.toList)

/-- The sounds of a request as the augmentation sees them: a length and the rows. -/
def audio_parts (sources : List (Source ρ α)) : List (ℕ × List α) :=
  (sources.flatMap (fun s => (block_audio_t s.item).toList.map (fun t => (t, s.audio)))).filter
    (fun p => 0 < p.1)

/-- The positions of each condition's visual rows, with the rows of its own material. -/
def visual_bindings (shape : TargetShape) (text_len : ℕ) (keyframes : List (KeyframeEntry ρ))
    (sources : List (Source ρ α)) : List (List ℕ × List ρ) :=
  keyframes.mapIdx (fun i k =>
      (List.range' (text_len + i * frame_rows shape) (frame_rows shape), k.rows))
    ++ List.zipWith (fun (slice : BlockSlice) s => (slice.visual_pos, s.visual.getD []))
      (block_slices (text_len + keyframes.length * frame_rows shape) (sources.map Source.item))
      sources

/-- The positions of each reference's audio rows, with the rows of its own material. -/
def audio_bindings (shape : TargetShape) (text_len : ℕ) (keyframes : List (KeyframeEntry ρ))
    (sources : List (Source ρ α)) : List (List ℕ × List α) :=
  List.zipWith (fun (slice : BlockSlice) s => (slice.audio_pos, s.audio))
    (block_slices (text_len + keyframes.length * frame_rows shape) (sources.map Source.item))
    sources

/-- **Rows and positions are aligned**: the condition rows and the condition positions of the
layout are cut at the same places, each condition's positions going with the rows of its own
material. -/
structure Aligned (shape : TargetShape) (text_len : ℕ) (keyframes : List (KeyframeEntry ρ))
    (sources : List (Source ρ α)) (ctx : LoopContext ρ α) (packed : Packed π) : Prop where
  blocks : ctx.ref2va_positive_blocks = some (sources.map Source.item)
  visual_rows : ctx.cond_rows.getD []
    = (visual_bindings shape text_len keyframes sources).flatMap Prod.snd
  visual_positions : condition_positions packed.img_pos packed.update_mask
    = (visual_bindings shape text_len keyframes sources).flatMap Prod.fst
  visual_lengths : ∀ b ∈ visual_bindings shape text_len keyframes sources,
    b.1.length = b.2.length
  audio_rows : ctx.audio_ref_rows.getD []
    = (audio_bindings shape text_len keyframes sources).flatMap Prod.snd
  audio_positions : condition_positions packed.audio_pos (packed.audio_update_mask.getD [])
    = (audio_bindings shape text_len keyframes sources).flatMap Prod.fst
  audio_lengths : ∀ b ∈ audio_bindings shape text_len keyframes sources, b.1.length = b.2.length

/-- **The augmentation cuts at the same places**: its shapes are those of the keyframes and of
the blocks, each stands for its condition's rows, and every condition is mixed on its own. -/
structure CutAligned (shape : TargetShape) (keyframes : List (KeyframeEntry ρ))
    (sources : List (Source ρ α)) (extras : Extras ρ α) (ctx : LoopContext ρ α) : Prop where
  visual_shapes : imgvid_condition_shapes ctx.ref2va_positive_blocks extras.keyframe
    extras.is_ref2va = .ok ((visual_parts keyframes sources).map Prod.fst)
  visual_rows : (visual_parts keyframes sources).map Prod.snd
    = keyframes.map KeyframeEntry.rows ++ sources.filterMap Source.visual
  visual_cuts : ∀ p ∈ visual_parts keyframes sources, p.2.length = shape_rows p.1
  visual_mixed : ∀ (R : Noise ρ α) (seed : ℤ) (noise_aug : ℚ), 0 ≤ noise_aug → noise_aug < 1 →
    visual_parts keyframes sources ≠ [] →
    augment_visual R extras ctx shape.video_latent_t seed noise_aug
      = match ((visual_parts keyframes sources).map Prod.fst).find? (fun s =>
          shape.video_latent_t + (visual_parts keyframes sources).length < s.1) with
        | some s => .error (too_long
            (shape.video_latent_t + (visual_parts keyframes sources).length) s)
        | none => .ok (some ((visual_parts keyframes sources).flatMap (mixed R
            (shape.video_latent_t + (visual_parts keyframes sources).length) seed noise_aug)))
  audio_lengths : condition_audio_lengths (sources.map Source.item)
    = (audio_parts sources).map Prod.fst
  audio_rows : (audio_parts sources).map Prod.snd
    = (sources.map Source.audio).filter (fun rows => !rows.isEmpty)
  audio_cuts : ∀ p ∈ audio_parts sources, p.2.length = audio_channel * p.1
  audio_mixed : ∀ (R : Noise ρ α) (seed : ℤ) (noise_aug : ℚ), 0 ≤ noise_aug → noise_aug < 1 →
    audio_parts sources ≠ [] →
    augment_audio R ctx seed noise_aug
      = .ok (some ((audio_parts sources).flatMap (fun p => mixed_audio R seed noise_aug p.2)))

theorem Source.Fits.good_block {s : Source ρ α} (h : s.Fits) : GoodBlock s.item := by
  intro shape hshape
  have hvisual := h.visual
  rw [Option.mem_def.mp hshape] at hvisual
  obtain ⟨rows, hrows⟩ : ∃ rows, s.visual.toList = [rows] := by
    have hlen := hvisual.length_eq
    exact length_eq_one_iff.mp hlen.symm
  rw [hrows] at hvisual
  cases hvisual with
  | cons hgood _ => exact hgood.1

theorem length_of_block_shape {item : RefItem} {shape : ℕ × ℕ × ℕ} (h : block_shape item = some shape) :
    item.visual_rows = shape_rows shape := by
  cases item with
  | image latent_h latent_w =>
    cases h
    exact (Nat.mul_assoc _ _ _).symm
  | audio ref_audio_t => cases h
  | video with_audio ref_audio_t latent_t latent_h latent_w =>
    cases h
    exact (Nat.mul_assoc _ _ _).symm

theorem Source.Fits.visual_length {s : Source ρ α} (h : s.Fits) :
    s.item.visual_rows = (s.visual.getD []).length := by
  have hvisual := h.visual
  cases hshape : block_shape s.item with
  | none =>
    cases hv : s.visual with
    | none =>
      cases hitem : s.item with
      | audio ref_audio_t => rfl
      | image latent_h latent_w =>
        rw [hitem] at hshape
        cases hshape
      | video with_audio ref_audio_t latent_t latent_h latent_w =>
        rw [hitem] at hshape
        cases hshape
    | some rows =>
      rw [hshape, hv] at hvisual
      cases hvisual
  | some shape =>
    rw [length_of_block_shape hshape]
    cases hv : s.visual with
    | none =>
      rw [hshape, hv] at hvisual
      cases hvisual
    | some rows =>
      rw [hshape, hv] at hvisual
      cases hvisual with
      | cons hgood _ => exact hgood.2.symm

theorem slices_bound (h : ∀ s ∈ sources, s.Fits) (cursor : ℕ) :
    (List.zipWith (fun (slice : BlockSlice) s => (slice.visual_pos, s.visual.getD []))
        (block_slices cursor (sources.map Source.item)) sources).flatMap Prod.snd
        = (sources.filterMap Source.visual).flatten
      ∧ (List.zipWith (fun (slice : BlockSlice) s => (slice.visual_pos, s.visual.getD []))
        (block_slices cursor (sources.map Source.item)) sources).flatMap Prod.fst
        = (block_slices cursor (sources.map Source.item)).flatMap BlockSlice.visual_pos
      ∧ (∀ b ∈ List.zipWith (fun (slice : BlockSlice) s => (slice.visual_pos, s.visual.getD []))
        (block_slices cursor (sources.map Source.item)) sources, b.1.length = b.2.length)
      ∧ (List.zipWith (fun (slice : BlockSlice) s => (slice.audio_pos, s.audio))
        (block_slices cursor (sources.map Source.item)) sources).flatMap Prod.snd
        = (sources.map Source.audio).flatten
      ∧ (List.zipWith (fun (slice : BlockSlice) s => (slice.audio_pos, s.audio))
        (block_slices cursor (sources.map Source.item)) sources).flatMap Prod.fst
        = (block_slices cursor (sources.map Source.item)).flatMap BlockSlice.audio_pos
      ∧ (∀ b ∈ List.zipWith (fun (slice : BlockSlice) s => (slice.audio_pos, s.audio))
        (block_slices cursor (sources.map Source.item)) sources, b.1.length = b.2.length) := by
  induction sources generalizing cursor with
  | nil => simp [block_slices]
  | cons s sources ih =>
    obtain ⟨h1, h2, h3, h4, h5, h6⟩ := ih (fun s' hs' => h s' (by simp [hs']))
      (cursor + s.item.audio_rows + s.item.visual_rows)
    have hfits := h s (by simp)
    have hvisual : (s :: sources).filterMap Source.visual
        = s.visual.toList ++ sources.filterMap Source.visual := by
      rw [filterMap_cons]
      cases s.visual <;> rfl
    have hflat : s.visual.toList.flatten = s.visual.getD [] := by
      cases s.visual <;> simp
    simp only [map_cons, block_slices, zipWith_cons_cons, flatMap_cons,
      forall_mem_cons, h1, h2, h4, h5, hvisual, flatten_append, hflat, flatten_cons, true_and]
    refine ⟨⟨?_, h3⟩, ?_, h6⟩
    · rw [BlockSlice.visual_pos, length_range']
      exact hfits.visual_length
    · rw [BlockSlice.audio_pos, length_range']
      exact hfits.audio.symm

end Alignment
section Request

variable {keyframes : List (KeyframeEntry ρ)}

theorem keyframes_bound {shape : TargetShape}
    (h : ∀ k ∈ keyframes, k.rows.length = frame_rows shape) (text_len : ℕ) :
    (keyframes.mapIdx (fun i k => (List.range' (text_len + i * frame_rows shape) (frame_rows shape),
        k.rows))).flatMap Prod.snd = keyframes.flatMap KeyframeEntry.rows
      ∧ (keyframes.mapIdx (fun i k => (List.range' (text_len + i * frame_rows shape)
        (frame_rows shape), k.rows))).flatMap Prod.fst
        = List.range' text_len (keyframes.length * frame_rows shape)
      ∧ ∀ b ∈ keyframes.mapIdx (fun i k => (List.range' (text_len + i * frame_rows shape)
        (frame_rows shape), k.rows)), b.1.length = b.2.length := by
  induction keyframes generalizing text_len with
  | nil => simp
  | cons k keyframes ih =>
    obtain ⟨h1, h2, h3⟩ := ih (fun k' hk' => h k' (by simp [hk'])) (text_len + frame_rows shape)
    have hshift : (fun (i : ℕ) (k : KeyframeEntry ρ) =>
        (List.range' (text_len + (i + 1) * frame_rows shape) (frame_rows shape), k.rows))
        = fun i k => (List.range' (text_len + frame_rows shape + i * frame_rows shape)
          (frame_rows shape), k.rows) := by
      funext i k
      rw [Nat.add_mul, Nat.one_mul, Nat.add_comm (i * _), Nat.add_assoc]
    rw [mapIdx_cons, hshift]
    simp only [flatMap_cons, forall_mem_cons, h1, h2, length_cons,
      Nat.zero_mul, Nat.add_zero, length_range', true_and]
    refine ⟨?_, (h k (by simp)).symm, h3⟩
    rw [range'_append_1, Nat.add_mul, Nat.one_mul, Nat.add_comm (frame_rows shape)]

@[simp] theorem cat_optional_getD (parts : List (List ρ)) :
    (cat_optional parts).getD [] = parts.flatten := by
  unfold cat_optional
  split
  · rename_i hnil
    rw [hnil]
    rfl
  · rfl

theorem flatten_toList_cat_optional (parts : List (List ρ)) :
    (cat_optional parts).toList.flatten = parts.flatten := by
  unfold cat_optional
  split
  · rename_i hnil
    rw [hnil]
    rfl
  · simp

theorem cat_optional_of_ne_nil {parts : List (List ρ)} (h : parts ≠ []) :
    cat_optional parts = some parts.flatten := if_neg h

theorem map_snd_visual_parts (keyframes : List (KeyframeEntry ρ))
    (h : ∀ s ∈ sources, s.Fits) : (visual_parts keyframes sources).map Prod.snd
      = keyframes.map KeyframeEntry.rows ++ sources.filterMap Source.visual := by
  unfold visual_parts
  rw [map_append, map_map, map_flatMap]
  congr 1
  rw [filterMap_eq_flatMap_toList]
  refine flatMap_congr (fun s hs => ?_)
  rw [map_snd_zip]
  exact ((h s hs).visual.length_eq).ge

theorem map_fst_visual_parts
    (h : ∀ s ∈ sources, s.Fits) : (visual_parts keyframes sources).map Prod.fst
      = keyframes.map (fun k => (1, k.latent_h, k.latent_w))
        ++ (sources.map Source.item).filterMap block_shape := by
  unfold visual_parts
  rw [map_append, map_map, map_flatMap]
  congr 1
  rw [filterMap_map, filterMap_eq_flatMap_toList]
  refine flatMap_congr (fun s hs => ?_)
  rw [map_fst_zip]
  · rfl
  · exact ((h s hs).visual.length_eq).le

theorem visual_parts_fit
    (hk : ∀ k ∈ keyframes, GoodShape (1, k.latent_h, k.latent_w)
      ∧ k.rows.length = shape_rows (1, k.latent_h, k.latent_w))
    (h : ∀ s ∈ sources, s.Fits) : ∀ p ∈ visual_parts keyframes sources, FitsShape p := by
  intro p hp
  rcases mem_append.mp hp with hp | hp
  · obtain ⟨k, hmem, rfl⟩ := mem_map.mp hp
    exact hk k hmem
  · obtain ⟨s, hs, hp⟩ := mem_flatMap.mp hp
    exact (forall₂_iff_zip.mp (h s hs).visual).2 hp

theorem audio_parts_cons {s : Source ρ α} :
    audio_parts (s :: sources) = ((block_audio_t s.item).toList.map (fun t => (t, s.audio))).filter
      (fun p => 0 < p.1) ++ audio_parts sources := by
  unfold audio_parts
  rw [flatMap_cons, filter_append]

theorem audio_parts_spec (h : ∀ s ∈ sources, s.Fits) :
    (audio_parts sources).map Prod.fst = condition_audio_lengths (sources.map Source.item)
      ∧ (audio_parts sources).map Prod.snd
        = (sources.map Source.audio).filter (fun rows => !rows.isEmpty)
      ∧ ∀ p ∈ audio_parts sources, 0 < p.1 ∧ p.2.length = audio_channel * p.1 := by
  induction sources with
  | nil => simp [audio_parts, condition_audio_lengths]
  | cons s sources ih =>
    obtain ⟨h1, h2, h3⟩ := ih (fun s' hs' => h s' (by simp [hs']))
    have haudio := (h s (by simp)).audio
    rw [audio_parts_cons]
    cases ht : block_audio_t s.item with
    | none =>
      have hnil : s.audio = [] := by
        rw [← length_eq_zero_iff, haudio]
        cases hitem : s.item with
        | image latent_h latent_w => rfl
        | audio ref_audio_t =>
          rw [hitem] at ht
          cases ht
        | video with_audio ref_audio_t latent_t latent_h latent_w =>
          rw [hitem] at ht
          cases ht
      refine ⟨?_, ?_, ?_⟩
      · simpa [condition_audio_lengths, ht] using h1
      · simpa [hnil] using h2
      · simpa using h3
    | some t =>
      have hlen : s.audio.length = t * audio_channel := by
        rw [haudio]
        cases hitem : s.item with
        | image latent_h latent_w =>
          rw [hitem] at ht
          cases ht
        | audio ref_audio_t =>
          rw [hitem] at ht
          cases ht
          rfl
        | video with_audio ref_audio_t latent_t latent_h latent_w =>
          rw [hitem] at ht
          cases ht
          rfl
      by_cases hpos : 0 < t
      · have hne : s.audio ≠ [] := by
          rw [← length_pos_iff, hlen]
          exact Nat.mul_pos hpos (by decide)
        refine ⟨?_, ?_, ?_⟩
        · simpa [condition_audio_lengths, ht, hpos] using h1
        · simpa [hpos, hne] using h2
        · simp only [Option.toList_some, map_cons, map_nil, filter_cons, hpos,
            decide_true, if_true, filter_nil, singleton_append, forall_mem_cons, true_and]
          exact ⟨by rw [hlen, Nat.mul_comm], h3⟩
      · have hnil : s.audio = [] := by
          rw [← length_eq_zero_iff, hlen]
          simp
          omega
        refine ⟨?_, ?_, ?_⟩
        · simpa [condition_audio_lengths, ht, hpos] using h1
        · simpa [hpos, hnil] using h2
        · simpa [hpos] using h3

/-- **The keyframes of a request**, with the frames the layout is given. -/
structure KeyframesOk (enc : Encoders σ ρ α) (plan : ResolvedPlan σ) (extras : Extras ρ α)
    (keyframes : List (KeyframeEntry ρ)) (frames : Option (List ℤ × ℤ)) : Prop where
  encoded : (plan.materials.filter is_keyframe).mapM (encode_keyframe enc plan.shape) = .ok keyframes
  valid : validate_keyframe_payload extras.keyframe = .ok ()
  grid : ∀ k ∈ keyframes, k.latent_h = plan.shape.height / 16 ∧ k.latent_w = plan.shape.width / 16
    ∧ k.rows.length = shape_rows (1, k.latent_h, k.latent_w)
  indices : extras.keyframe.map KeyframePayload.semantic_frame_indices = frames.map Prod.fst
  frame_count : extras.keyframe.bind KeyframePayload.frame_count = frames.map Prod.snd
  signature : ∀ f ∈ frames, f.1 ∈ keyframe_signatures ∧ 1 < f.2
  count : ((frames.map Prod.fst).getD []).length = keyframes.length
  rows : (extras.keyframe.map KeyframePayload.rows).toList.flatten
    = keyframes.flatMap KeyframeEntry.rows
  no_rows : (extras.keyframe.map KeyframePayload.rows).toList = [] → keyframes = []
  shapes : keyframe_shapes extras.keyframe
    = .ok (keyframes.map (fun k => (1, k.latent_h, k.latent_w)))

theorem keyframes_ok {enc : Encoders σ ρ α} (henc : enc.Faithful) {plan : ResolvedPlan σ}
    {extras : Extras ρ α} (hext : ExtrasSpec enc plan extras) :
    ∃ keyframes frames, KeyframesOk enc plan extras keyframes frames := by
  by_cases hnil : plan.materials.filter is_keyframe = []
  · have hnone := hext.no_keyframe hnil
    refine ⟨[], none, ?_, ?_, by simp, ?_, ?_, by simp, rfl, ?_, by simp, ?_⟩
    · rw [hnil]
      rfl
    · rw [hnone]
      rfl
    · rw [hnone]
      rfl
    · rw [hnone]
      rfl
    · rw [hnone]
      rfl
    · rw [hnone]
      rfl
  · obtain ⟨p, hp, hkey⟩ := hext.keyframe hnil
    have hspec := encode_target_keyframes_spec henc hp
    obtain ⟨n, hcount, hn⟩ := hspec.frame_count
    have hne : p.keyframes ≠ [] := by
      intro hnone
      have hlen := (mapM_eq_ok.mp hspec.encoded).length_eq
      rw [hnone] at hlen
      exact hnil (length_eq_zero_iff.mp hlen)
    refine ⟨p.keyframes, some (p.semantic_frame_indices, n), hspec.encoded, ?_, hspec.grid, ?_, ?_,
      ?_, hspec.count.symm, ?_, ?_, ?_⟩
    · rw [hkey]
      exact hspec.valid
    · rw [hkey]
      rfl
    · rw [hkey]
      exact hcount
    · intro f hf
      cases hf
      exact ⟨hspec.semantic, hn⟩
    · rw [hkey]
      simpa using hspec.rows
    · rw [hkey]
      intro h
      cases h
    · rw [hkey]
      simp only [keyframe_shapes]
      rw [if_pos (by simpa using hne)]

/-- **Reference rows are bound to their own positions.** For every request that is planned and
encoded and has a reference: the keyframes pass their check, the rows are gathered, the
layout is built, rows and positions are aligned, and so are the cuts of the augmentation. -/
theorem reference_rows_aligned (N : Numeric π) {enc : Encoders σ ρ α} (henc : enc.Faithful)
    {shape : TargetShape} {conditions : List (Condition σ)} {plan : ResolvedPlan σ}
    {extras : Extras ρ α} (hplan : resolve_plan shape conditions = .ok plan)
    (href : ∃ c ∈ conditions, c.role = .reference)
    (hextras : encode_conditions enc plan = .ok extras) (text_len : ℕ) (include_video_pos : Bool) :
    ∃ keyframes sources ctx packed,
      (plan.materials.filter is_keyframe).mapM (encode_keyframe enc shape) = .ok keyframes
      ∧ (plan.materials.filter (fun m => !is_keyframe m)).mapM (encoded_source enc) = .ok sources
      ∧ validate_keyframe_payload extras.keyframe = .ok ()
      ∧ assemble_condition_rows plan extras = .ok ctx
      ∧ build_packed_layout N plan extras ctx text_len include_video_pos = .ok packed
      ∧ Aligned shape text_len keyframes sources ctx packed
      ∧ CutAligned shape keyframes sources extras ctx := by
  obtain ⟨hshape, hspec⟩ := resolve_plan_spec hplan
  have hext := encode_conditions_spec henc hspec hextras
  obtain ⟨keyframes, frames, hkeys⟩ := keyframes_ok henc hext
  -- there is a reference among the materials
  have hisref : extras.is_ref2va = true := by
    refine hext.is_ref2va ?_
    obtain ⟨c, hc, hrole⟩ := href
    have hmem : false ∈ plan.materials.map is_keyframe := by
      rw [hspec.keyframes]
      exact mem_map.mpr ⟨c, hc, by simp [hrole]⟩
    obtain ⟨m, hm, hkey⟩ := mem_map.mp hmem
    exact ⟨m, hm, hkey⟩
  obtain ⟨sources, hsources, hgathered⟩ := ordered_blocks_and_rows_spec hext
  have hfits : ∀ s ∈ sources, s.Fits := by
    intro s hs
    obtain ⟨m, -, hm⟩ := exists_of_mem_mapM hsources hs
    exact encoded_source_fits henc hm
  subst hshape
  have hgrid := shape_grid plan.shape
  have hkgood : ∀ k ∈ keyframes, GoodShape (1, k.latent_h, k.latent_w)
      ∧ k.rows.length = shape_rows (1, k.latent_h, k.latent_w) := by
    intro k hk
    obtain ⟨hh, hw, hlen⟩ := hkeys.grid k hk
    refine ⟨?_, hlen⟩
    exact ⟨⟨Nat.one_pos, by simp only; omega, by simp only; omega⟩, by simp only; omega,
      by simp only; omega⟩
  have hkrows : ∀ k ∈ keyframes, k.rows.length = frame_rows plan.shape := by
    intro k hk
    obtain ⟨hh, hw, hlen⟩ := hkeys.grid k hk
    rw [hlen, hh, hw, shape_rows, Nat.one_mul]
    rfl
  have hblocks : ∀ item ∈ sources.map Source.item, GoodBlock item := by
    intro item hitem
    obtain ⟨s, hs, rfl⟩ := mem_map.mp hitem
    exact (hfits s hs).good_block
  obtain ⟨packed, hpacked, hvpos, mask, hmask, hapos⟩ := @layout_ok _ N plan.shape _ frames
    keyframes.length hblocks hkeys.signature hkeys.count text_len include_video_pos
  obtain ⟨hk1, hk2, hk3⟩ := keyframes_bound hkrows text_len
  obtain ⟨hs1, hs2, hs3, hs4, hs5, hs6⟩ :=
    slices_bound hfits (text_len + keyframes.length * frame_rows plan.shape)
  obtain ⟨ha1, ha2, ha3⟩ := audio_parts_spec hfits
  set condition_parts := (extras.keyframe.map KeyframePayload.rows).toList
    ++ (cat_optional (sources.filterMap Source.visual)).toList with hcondition
  have hflat : condition_parts.flatten
      = keyframes.flatMap KeyframeEntry.rows ++ (sources.filterMap Source.visual).flatten := by
    rw [hcondition, flatten_append, hkeys.rows, flatten_toList_cat_optional]
  have hparts := map_snd_visual_parts keyframes hfits
  have hclean : condition_parts.flatten = (visual_parts keyframes sources).flatMap Prod.snd := by
    rw [hflat, flatMap_def (l := visual_parts keyframes sources), hparts,
      flatten_append, flatMap_def]
  have hcond_ne : visual_parts keyframes sources ≠ [] → condition_parts ≠ [] := by
    intro hne hnil
    rw [hcondition, append_eq_nil_iff] at hnil
    have hvisual : sources.filterMap Source.visual = [] := by
      by_contra hvis
      rw [cat_optional_of_ne_nil hvis] at hnil
      cases hnil.2
    rw [hvisual, hkeys.no_rows hnil.1] at hparts
    rw [hkeys.no_rows hnil.1] at hne
    exact hne (map_eq_nil_iff.mp hparts)
  have hshapes : imgvid_condition_shapes (some (sources.map Source.item)) extras.keyframe
      extras.is_ref2va = .ok ((visual_parts keyframes sources).map Prod.fst) := by
    unfold imgvid_condition_shapes
    rw [hkeys.shapes, ok_bind, map_fst_visual_parts hfits]
  refine ⟨keyframes, sources, ⟨some (sources.map Source.item), cat_optional condition_parts,
    cat_optional ((sources.map Source.audio).filter (fun rows => !rows.isEmpty)),
    (cat_optional condition_parts).isSome,
    extras.keyframe.map KeyframePayload.semantic_frame_indices,
    extras.keyframe.bind KeyframePayload.frame_count⟩, packed, hkeys.encoded, hsources, hkeys.valid,
    ?_, ?_, ?_, ?_⟩
  · unfold assemble_condition_rows
    simp only [hisref, if_true, hgathered, ok_bind]
    rfl
  · unfold build_packed_layout
    simp only [hisref, if_true, hkeys.indices, hkeys.frame_count]
    unfold layout_args at hpacked
    rw [hpacked]
    rfl
  · refine ⟨rfl, ?_, ?_, ?_, ?_, ?_, hs6⟩
    · simp only [cat_optional_getD, visual_bindings, flatMap_append]
      rw [hflat, hk1, hs1]
    · rw [hvpos, visual_bindings, flatMap_append, hk2, hs2]
    · intro b hb
      rcases mem_append.mp hb with hb | hb
      · exact hk3 b hb
      · exact hs3 b hb
    · simp only [cat_optional_getD]
      rw [audio_bindings, hs4, flatten_filter_not_isEmpty]
    · rw [hmask, Option.getD_some, hapos, audio_bindings, hs5]
  · refine ⟨hshapes, hparts, fun p hp => (visual_parts_fit hkgood hfits p hp).2, ?_, ha1.symm, ha2,
      fun p hp => (ha3 p hp).2, ?_⟩
    · intro R seed noise_aug h0 h1 hne
      unfold augment_visual
      simp only [cat_optional_of_ne_nil (hcond_ne hne), if_pos h1, hshapes, ok_bind]
      rw [if_neg (by simpa using hne), hclean, imgvid_noise_aug_eq R
        (visual_parts_fit hkgood hfits) hne plan.shape.video_latent_t_pos h0 h1]
      cases ((visual_parts keyframes sources).map Prod.fst).find? (fun s =>
        plan.shape.video_latent_t + (visual_parts keyframes sources).length < s.1) with
      | some s => rfl
      | none => rfl
    · intro R seed noise_aug h0 h1 hne
      have haudio_ne : (sources.map Source.audio).filter (fun rows => !rows.isEmpty) ≠ [] := by
        rw [← ha2]
        simpa using hne
      unfold augment_audio
      simp only [cat_optional_of_ne_nil haudio_ne, if_pos h1, Option.getD_some]
      rw [← ha1, if_neg (by simpa using hne), ← ha2, ← flatMap_def,
        audio_noise_aug_eq R ha3 hne h0 h1]
      rfl

/-- Encoders that write the condition into every row: videos of two frames and no sound, sounds
of three steps. -/
def numbered : Encoders Unit ℕ ℕ where
  material_shape m := if m.role = .keyframe then (64, 32) else (32, 96)
  encode_images m width height :=
    .ok ⟨1, height / 16, width / 16, fun _ _ _ => m.condition_index⟩
  encode_videos m := .ok ⟨2, 2, 4, fun _ _ _ => m.condition_index⟩
  has_audio _ := false
  encode_audio m := .ok ⟨3, fun _ _ => m.condition_index⟩

theorem numbered_faithful : numbered.Faithful where
  image_grid := by
    intro m width height z _ _ _ _ h
    cases h
    exact ⟨rfl, rfl, rfl⟩
  video_pos := by
    intro m z h
    cases h
    exact ⟨Nat.two_pos, Nat.two_pos, Nat.zero_lt_succ 3⟩

theorem wide_canvas : CanvasShape.minimax_h3_resolve_spatial_shape id (fun _ : ℚ => "") (some 2)
    (some 1) 32 = .ok (CanvasShape.shape_of_sides CanvasShape.MINIMAX_H3_MAX_PIXELS 32
      (.short_edge, (64 : ℚ), 32)) := by
  decide +kernel

/-- A silent video, a keyframe, a sound and an image. -/
theorem reference_rows_aligned_four : let shape : TargetShape := .resolved wide_canvas 22 37
    let conditions : List (Condition Unit) := [⟨.reference, .video, none, ()⟩,
      ⟨.keyframe, .image, some 0, ()⟩, ⟨.reference, .audio, none, ()⟩,
      ⟨.reference, .image, none, ()⟩]
    let plan : ResolvedPlan Unit := ⟨[
      ⟨0, .reference, .video, (), .video_reference_preserve, none, none⟩,
      ⟨1, .keyframe, .image, (), .image_target_canvas, some 0, some 0⟩,
      ⟨2, .reference, .audio, (), .audio, none, none⟩,
      ⟨3, .reference, .image, (), .image_reference_preserve, none, none⟩], [0, 1, 3], [0, 2], shape⟩
    resolve_plan shape conditions = .ok plan
      ∧ (∃ c ∈ conditions, c.role = .reference)
      ∧ ∃ extras, encode_conditions numbered plan = .ok extras
        ∧ ∃ keyframes sources ctx packed, assemble_condition_rows plan extras = .ok ctx
          ∧ build_packed_layout CubeMetadata.exact_numeric plan extras ctx 5 true = .ok packed
          ∧ Aligned shape 5 keyframes sources ctx packed
          ∧ CutAligned shape keyframes sources extras ctx := by
  intro shape conditions plan
  have hplan : resolve_plan shape conditions = .ok plan := rfl
  have href : ∃ c ∈ conditions, c.role = .reference := ⟨_, mem_cons_self, rfl⟩
  have hok : (encode_conditions numbered plan).toBool = true := by decide +kernel
  refine ⟨hplan, href, ?_⟩
  cases hextras : encode_conditions numbered plan with
  | error e =>
    rw [hextras] at hok
    cases hok
  | ok extras =>
    obtain ⟨keyframes, sources, ctx, packed, -, -, -, hctx, hpacked, haligned, hcut⟩ :=
      reference_rows_aligned CubeMetadata.exact_numeric numbered_faithful hplan href hextras 5 true
    exact ⟨extras, rfl, keyframes, sources, ctx, packed, hctx, hpacked, haligned, hcut⟩

end Request

end LightningH3.ReferenceRows
