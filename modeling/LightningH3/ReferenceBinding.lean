/-
Every condition row of a reference request stands at a position of its own condition.

The plan numbers its materials, so looking an encoded material up by its condition finds the
one that was encoded from it. Blocks and rows are gathered in plan order, the layout hands
out positions in the order of the blocks, and the noise augmentation reads the sizes of its
cuts off the same blocks: the three lists are aligned condition by condition.
-/
import LightningH3.PackedRows
import LightningH3.ReferenceRows

set_option autoImplicit false

namespace LightningH3.ReferenceRows

open PackedSequence Fallible List

variable {σ ρ α π : Type}

/-! ## The plan -/

def is_keyframe (m : MaterialPlanItem σ) : Bool := m.material_chain = .image_target_canvas

/-- The materials that the audio encoder is asked for. -/
def is_audible (m : MaterialPlanItem σ) : Bool :=
  m.material_chain = .audio ∨ is_video_chain m.material_chain

/-- What the condition loop keeps, over the conditions it has seen. -/
structure PlanInv (front : List (Condition σ × ℕ)) (st : PlanState σ) : Prop where
  indices : st.materials.map MaterialPlanItem.condition_index = front.map Prod.snd
  keyframes : st.materials.map is_keyframe = front.map (fun e => decide (e.1.role = .keyframe))
  visual : ∀ k, k ∈ st.visual_encode
    ↔ ∃ m ∈ st.materials, m.condition_index = k ∧ m.material_chain ≠ .audio
  audio : ∀ k, k ∈ st.audio_encode ↔ ∃ m ∈ st.materials, m.condition_index = k ∧ is_audible m

theorem plan_step_inv {frame_count : Option ℤ} {front : List (Condition σ × ℕ)}
    {entry : Condition σ × ℕ} {st st' : PlanState σ} (hinv : PlanInv front st)
    (h : plan_step frame_count st entry = .ok st') : PlanInv (front ++ [entry]) st' := by
  obtain ⟨rule, hrule, h⟩ := bind_eq_ok.mp h
  obtain ⟨resolved, -, h⟩ := bind_eq_ok.mp h
  cases h
  have hmaterial : ((rule.material_chain = .image_target_canvas) ↔ entry.1.role = .keyframe)
      ∧ (rule.visual_tokenizer_encode = true ↔ rule.material_chain ≠ .audio)
      ∧ (rule.audio_tokenizer_encode = true
        ↔ (rule.material_chain = .audio ∨ is_video_chain rule.material_chain = true)) := by
    obtain ⟨⟨role, type, frame_index, source⟩, index⟩ := entry
    cases role <;> cases type <;> cases hrule <;> simp [is_video_chain]
  obtain ⟨hkey, hvis, haud⟩ := hmaterial
  refine ⟨?_, ?_, ?_, ?_⟩
  · rw [map_append, map_append, hinv.indices]
    rfl
  · rw [map_append, map_append, hinv.keyframes]
    simp only [map_cons, map_nil, is_keyframe, hkey]
  · intro k
    simp only [mem_append, mem_singleton, or_and_right, exists_or]
    rw [exists_eq_left]
    by_cases hv : rule.visual_tokenizer_encode = true
    · rw [if_pos hv, mem_append, hinv.visual, mem_singleton]
      have hne := hvis.mp hv
      constructor
      · rintro (h | rfl)
        · exact Or.inl h
        · exact Or.inr ⟨rfl, hne⟩
      · rintro (h | ⟨rfl, -⟩)
        · exact Or.inl h
        · exact Or.inr rfl
    · rw [if_neg hv, hinv.visual]
      constructor
      · exact Or.inl
      · rintro (h | ⟨-, hne⟩)
        · exact h
        · exact absurd (hvis.mpr hne) hv
  · intro k
    simp only [mem_append, mem_singleton, or_and_right, exists_or]
    rw [exists_eq_left]
    by_cases ha : rule.audio_tokenizer_encode = true
    · rw [if_pos ha, mem_append, hinv.audio, mem_singleton]
      have hsound := haud.mp ha
      constructor
      · rintro (h | rfl)
        · exact Or.inl h
        · exact Or.inr ⟨rfl, by simpa [is_audible] using hsound⟩
      · rintro (h | ⟨rfl, -⟩)
        · exact Or.inl h
        · exact Or.inr rfl
    · rw [if_neg ha, hinv.audio]
      constructor
      · exact Or.inl
      · rintro (h | ⟨-, hsound⟩)
        · exact h
        · exact absurd (haud.mpr (by simpa [is_audible] using hsound)) ha

/-- **What a resolved plan is**: its materials have different conditions, all but sounds are
routed to the visual encoders, sounds and videos to the audio encoder. -/
structure PlanSpec (conditions : List (Condition σ)) (plan : ResolvedPlan σ) : Prop where
  nodup : (plan.materials.map MaterialPlanItem.condition_index).Nodup
  keyframes : plan.materials.map is_keyframe
    = conditions.map (fun c => decide (c.role = .keyframe))
  visual : ∀ m ∈ plan.materials,
    (m.condition_index ∈ plan.visual_encode ↔ m.material_chain ≠ .audio)
  audio : ∀ m ∈ plan.materials, (m.condition_index ∈ plan.audio_encode ↔ is_audible m)

variable {materials : List (MaterialPlanItem σ)}

theorem eq_of_condition_index
    (hnd : (materials.map MaterialPlanItem.condition_index).Nodup) {m m' : MaterialPlanItem σ}
    (hm : m ∈ materials) (hm' : m' ∈ materials) (h : m.condition_index = m'.condition_index) :
    m = m' :=
  inj_on_of_nodup_map hnd hm hm' h

theorem resolve_plan_spec {shape : TargetShape} {conditions : List (Condition σ)}
    {plan : ResolvedPlan σ} (h : resolve_plan shape conditions = .ok plan) :
    plan.shape = shape ∧ PlanSpec conditions plan := by
  obtain ⟨-, -, h⟩ := bind_eq_ok.mp h
  obtain ⟨st, hst, h⟩ := bind_eq_ok.mp h
  cases h
  have hinv := foldlM_invariant (I := PlanInv) conditions.zipIdx []
    (⟨rfl, rfl, by simp, by simp⟩ : PlanInv [] (⟨[], [], [], []⟩ : PlanState σ))
    (fun front x s t hs hstep => plan_step_inv hs hstep) hst
  rw [nil_append] at hinv
  have hnd : (st.materials.map MaterialPlanItem.condition_index).Nodup := by
    rw [hinv.indices, zipIdx_map_snd]
    exact nodup_range'
  refine ⟨rfl, hnd, ?_, ?_, ?_⟩
  · rw [hinv.keyframes]
    conv_rhs => rw [← zipIdx_map_fst 0 conditions, map_map]
    rfl
  · intro m hm
    rw [hinv.visual]
    constructor
    · rintro ⟨m', hm', hidx, hne⟩
      rwa [eq_of_condition_index hnd hm' hm hidx] at hne
    · intro hne
      exact ⟨m, hm, rfl, hne⟩
  · intro m hm
    rw [hinv.audio]
    constructor
    · rintro ⟨m', hm', hidx, hsound⟩
      rwa [eq_of_condition_index hnd hm' hm hidx] at hsound
    · intro hsound
      exact ⟨m, hm, rfl, hsound⟩
/-! ## Encoded materials -/

section Encoded

variable (enc : Encoders σ ρ α)

/-- **What the stages rely on**: the image encoder keeps the grid of an aligned image, in one
frame, and a video has a frame and a place. -/
structure Encoders.Faithful : Prop where
  image_grid : ∀ m width height z, 32 ∣ width → 32 ∣ height → 0 < width → 0 < height →
    enc.encode_images m width height = .ok z →
    z.latent_t = 1 ∧ z.latent_h = height / 16 ∧ z.latent_w = width / 16
  video_pos : ∀ m z, enc.encode_videos m = .ok z →
    0 < z.latent_t ∧ 0 < z.latent_h ∧ 0 < z.latent_w

/-- A block with the rows of its own material. -/
structure Source (ρ α : Type) where
  item : RefItem
  visual : Option (List ρ)
  audio : List α

/-- The block and the rows of a reference, from nothing but its own material. -/
def encoded_source (m : MaterialPlanItem σ) : Except RefError (Source ρ α) :=
  match m.material_chain with
  | .image_target_canvas => .error (.value_error "a keyframe has no block")
  | .image_reference_preserve => do
      let entry ← encode_image enc m
      .ok ⟨.image entry.latent_h entry.latent_w, some entry.rows, []⟩
  | .audio => do
      let entry ← encode_audio_entry enc m
      .ok ⟨.audio entry.ref_audio_t, none, entry.rows⟩
  | .video_reference_preserve | .video_audio_reference_preserve => do
      let video ← encode_video enc m
      let audio ← encode_audio_entry enc m
      .ok ⟨.video (decide (m.material_chain = .video_audio_reference_preserve)) audio.ref_audio_t
        video.latent_t video.latent_h video.latent_w, some video.rows, audio.rows⟩

theorem length_flatMap_const {β γ : Type} {xs : List β} {f : β → List γ} {n : ℕ}
    (h : ∀ x ∈ xs, (f x).length = n) : (xs.flatMap f).length = xs.length * n := by
  rw [length_flatMap, map_congr_left h, map_const', sum_replicate_nat]

theorem length_latent_rows (z : Latent ρ) :
    z.rows.length = z.latent_t * (z.latent_h / 2) * (z.latent_w / 2) := by
  unfold Latent.rows
  rw [length_flatMap_const (n := z.latent_h / 2 * (z.latent_w / 2)), length_range, Nat.mul_assoc]
  intro t _
  rw [length_flatMap_const (n := z.latent_w / 2), length_range]
  intro h _
  rw [length_map, length_range]

theorem length_audio_latent_rows (z : AudioLatent α) :
    z.rows.length = z.audio_t * audio_channel := by
  unfold AudioLatent.rows
  rw [length_flatMap_const (n := z.audio_t), length_range, Nat.mul_comm]
  intro channel _
  rw [length_map, length_range]

theorem patchify_eq_ok {z : Latent ρ} {rows : List ρ} (h : patchify_video_latent z = .ok rows) :
    z.latent_h % 2 = 0 ∧ z.latent_w % 2 = 0 ∧ rows = z.rows := by
  unfold patchify_video_latent at h
  split at h
  · cases h
  · cases h
    exact ⟨by omega, by omega, rfl⟩

/-- A shape that the noise augmentation accepts. -/
def GoodShape (shape : ℕ × ℕ × ℕ) : Prop :=
  (0 < shape.1 ∧ 0 < shape.2.1 ∧ 0 < shape.2.2) ∧ shape.2.1 % 2 = 0 ∧ shape.2.2 % 2 = 0

variable {enc}

variable {m : MaterialPlanItem σ}

theorem encode_image_spec (henc : enc.Faithful) {entry : ImageEntry ρ}
    (h : encode_image enc m = .ok entry) : entry.condition_index = some m.condition_index
      ∧ GoodShape (1, entry.latent_h, entry.latent_w)
      ∧ entry.rows.length = shape_rows (1, entry.latent_h, entry.latent_w) := by
  unfold encode_image at h
  simp only at h
  split at h
  · cases h
  · split at h
    · cases h
    · obtain ⟨z, hz, h⟩ := bind_eq_ok.mp h
      obtain ⟨rows, hrows, h⟩ := bind_eq_ok.mp h
      cases h
      obtain ⟨ht, hh, hw⟩ := henc.image_grid m _ _ z (by omega) (by omega) (by omega) (by omega) hz
      obtain ⟨heven_h, heven_w, rfl⟩ := patchify_eq_ok hrows
      refine ⟨rfl, ⟨⟨Nat.one_pos, ?_, ?_⟩, ?_, ?_⟩, ?_⟩
      · show 0 < (enc.material_shape m).2 / 16
        omega
      · show 0 < (enc.material_shape m).1 / 16
        omega
      · show (enc.material_shape m).2 / 16 % 2 = 0
        omega
      · show (enc.material_shape m).1 / 16 % 2 = 0
        omega
      · rw [length_latent_rows, ht, hh, hw]
        rfl

theorem encode_video_spec (henc : enc.Faithful) {entry : VideoEntry ρ}
    (h : encode_video enc m = .ok entry) : entry.condition_index = some m.condition_index
      ∧ GoodShape (entry.latent_t, entry.latent_h, entry.latent_w)
      ∧ entry.rows.length = shape_rows (entry.latent_t, entry.latent_h, entry.latent_w) := by
  obtain ⟨z, hz, h⟩ := bind_eq_ok.mp h
  obtain ⟨rows, hrows, h⟩ := bind_eq_ok.mp h
  cases h
  obtain ⟨heven_h, heven_w, rfl⟩ := patchify_eq_ok hrows
  refine ⟨rfl, ⟨henc.video_pos m z hz, heven_h, heven_w⟩, ?_⟩
  rw [length_latent_rows]
  rfl

theorem encode_audio_entry_spec {entry : AudioEntry α} (h : encode_audio_entry enc m = .ok entry) :
    entry.condition_index = some m.condition_index
      ∧ entry.rows.length = entry.ref_audio_t * audio_channel := by
  unfold encode_audio_entry at h
  split at h
  · cases h
    exact ⟨rfl, by simp⟩
  · obtain ⟨z, -, h⟩ := bind_eq_ok.mp h
    cases h
    exact ⟨rfl, length_audio_latent_rows z⟩

/-- The rows of a source fit its block. -/
structure Source.Fits (s : Source ρ α) : Prop where
  visual : List.Forall₂ (fun shape rows => GoodShape shape ∧ rows.length = shape_rows shape)
    (block_shape s.item).toList s.visual.toList
  audio : s.audio.length = s.item.audio_rows

theorem encoded_source_fits (henc : enc.Faithful) {s : Source ρ α}
    (h : encoded_source enc m = .ok s) : s.Fits := by
  unfold encoded_source at h
  cases hchain : m.material_chain with
  | image_target_canvas =>
    rw [hchain] at h
    cases h
  | image_reference_preserve =>
    rw [hchain] at h
    obtain ⟨entry, hentry, h⟩ := bind_eq_ok.mp h
    cases h
    obtain ⟨-, hshape, hlen⟩ := encode_image_spec henc hentry
    exact ⟨List.Forall₂.cons ⟨hshape, hlen⟩ List.Forall₂.nil, rfl⟩
  | audio =>
    rw [hchain] at h
    obtain ⟨entry, hentry, h⟩ := bind_eq_ok.mp h
    cases h
    exact ⟨List.Forall₂.nil, (encode_audio_entry_spec hentry).2⟩
  | video_reference_preserve | video_audio_reference_preserve =>
    rw [hchain] at h
    obtain ⟨video, hvideo, h⟩ := bind_eq_ok.mp h
    obtain ⟨audio, haudio, h⟩ := bind_eq_ok.mp h
    cases h
    obtain ⟨-, hshape, hlen⟩ := encode_video_spec henc hvideo
    exact ⟨List.Forall₂.cons ⟨hshape, hlen⟩ List.Forall₂.nil, (encode_audio_entry_spec haudio).2⟩

/-! ### Looking an encoded material up -/

/-- **The entry of a condition is the one encoded from its material.** -/
theorem payload_entry_of_mem {ε : Type} {index_of : ε → Option ℕ}
    {encode : MaterialPlanItem σ → Except RefError ε}
    (hindex : ∀ m e, encode m = .ok e → index_of e = some m.condition_index)
    {entries : List ε} {top : Option ε}
    (hnd : (materials.map MaterialPlanItem.condition_index).Nodup)
    (henc : materials.mapM encode = .ok entries) (hm : m ∈ materials) (list_key path : String) :
    ∃ e, encode m = .ok e ∧ ref2va_payload_entry index_of (some ⟨top, some entries⟩) list_key
      m.condition_index path = .ok (some e) := by
  have hfind : ∃ e, encode m = .ok e
      ∧ entries.find? (fun entry => index_of entry = some m.condition_index) = some e := by
    have hall := mapM_eq_ok.mp henc
    clear henc
    induction hall with
    | nil => simp at hm
    | @cons m' e materials entries hme _ ih =>
      rw [map_cons, nodup_cons] at hnd
      rcases mem_cons.mp hm with rfl | hm
      · refine ⟨e, hme, ?_⟩
        rw [find?_cons_of_pos]
        simpa using hindex m e hme
      · obtain ⟨e', he', hfind⟩ := ih hnd.2 hm
        refine ⟨e', he', ?_⟩
        rw [find?_cons_of_neg, hfind]
        rw [hindex m' e hme]
        have hne : m'.condition_index ≠ m.condition_index := by
          intro heq
          exact hnd.1 (heq ▸ mem_map_of_mem hm)
        simpa using hne
  obtain ⟨e, he, hfind⟩ := hfind
  refine ⟨e, he, ?_⟩
  unfold ref2va_payload_entry
  simp only [hfind]

end Encoded
/-! ## The encoding stages -/

section Stages

variable {enc : Encoders σ ρ α}

/-- **What the encoding stages leave**: every lookup finds what was encoded from its own
material, and the keyframes are encoded when there are any. -/
structure ExtrasSpec (enc : Encoders σ ρ α) (plan : ResolvedPlan σ) (extras : Extras ρ α) :
    Prop where
  image : ∀ m ∈ plan.materials, m.material_chain = .image_reference_preserve →
    ∃ e, encode_image enc m = .ok e ∧ image_entry_of extras m = .ok (some e)
  video : ∀ m ∈ plan.materials, is_video_chain m.material_chain = true →
    ∃ e, encode_video enc m = .ok e ∧ video_entry_of extras m = .ok (some e)
  audio : ∀ m ∈ plan.materials, is_audible m = true →
    ∃ e, encode_audio_entry enc m = .ok e ∧ audio_entry_of extras m = .ok (some e)
  no_keyframe : plan.materials.filter is_keyframe = [] → extras.keyframe = none
  keyframe : plan.materials.filter is_keyframe ≠ [] →
    ∃ p, encode_target_keyframes enc plan = .ok p ∧ extras.keyframe = some p
  is_ref2va : (∃ m ∈ plan.materials, is_keyframe m = false) → extras.is_ref2va = true

theorem encode_when_eq_ok {ε : Type} {wanted : Bool} {payload : Except RefError ε} {out : Option ε}
    (h : encode_when wanted payload = .ok out) :
    (wanted = true → ∃ p, payload = .ok p ∧ out = some p) ∧ (wanted = false → out = none) := by
  cases wanted with
  | true =>
    cases payload with
    | error e => cases h
    | ok p =>
      cases h
      exact ⟨fun _ => ⟨p, rfl, rfl⟩, fun hfalse => Bool.noConfusion hfalse⟩
  | false =>
    cases h
    exact ⟨fun htrue => Bool.noConfusion htrue, fun _ => rfl⟩

theorem nodup_filter_indices
    (hnd : (materials.map MaterialPlanItem.condition_index).Nodup) (p : MaterialPlanItem σ → Bool) :
    ((materials.filter p).map MaterialPlanItem.condition_index).Nodup :=
  hnd.sublist (filter_sublist.map _)

variable {conditions : List (Condition σ)} {plan : ResolvedPlan σ}

theorem encode_visual_spec {out : Option (KeyframePayload ρ) × Option (Payload (ImageEntry ρ))
      × Option (Payload (VideoEntry ρ))} (hplan : PlanSpec conditions plan)
    (h : encode_visual enc plan = .ok out) :
    encode_when (!(plan.materials.filter is_keyframe).isEmpty) (encode_target_keyframes enc plan)
        = .ok out.1
      ∧ encode_when (plan.materials.any (fun m => m.material_chain = .image_reference_preserve))
        (encode_reference_image enc plan) = .ok out.2.1
      ∧ encode_when (plan.materials.any (fun m => is_video_chain m.material_chain))
        (encode_reference_video enc plan) = .ok out.2.2 := by
  -- a chain that is not a sound is routed
  have hrouted : ∀ p : MaterialChain → Bool, p .audio = false → ∀ m ∈ plan.materials,
      ((plan.visual_encode.contains m.condition_index && p m.material_chain)
        = p m.material_chain) := by
    intro p hp m hm
    by_cases hchain : m.material_chain = .audio
    · rw [hchain, hp, Bool.and_false]
    · rw [contains_iff_mem.mpr ((hplan.visual m hm).mpr hchain), Bool.true_and]
  have hkeyframes : (plan.materials.filter (fun m =>
      plan.visual_encode.contains m.condition_index)).filter
        (fun m => m.material_chain = .image_target_canvas) = plan.materials.filter is_keyframe := by
    rw [filter_filter]
    refine filter_congr (fun m hm => ?_)
    rw [Bool.and_comm]
    exact hrouted (fun c => c = .image_target_canvas) (by decide) m hm
  have hany : ∀ p : MaterialChain → Bool, p .audio = false →
      ((plan.materials.filter (fun m => plan.visual_encode.contains m.condition_index)).map
        MaterialPlanItem.material_chain).any p = plan.materials.any (fun m => p m.material_chain) := by
    intro p hp
    rw [any_map, any_filter, Bool.eq_iff_iff, any_eq_true, any_eq_true]
    refine exists_congr (fun m => and_congr_right (fun hm => ?_))
    rw [Function.comp_apply, hrouted p hp m hm]
  have himage := hany (fun c => c = .image_reference_preserve) (by decide)
  have hvideo := hany is_video_chain (by decide)
  have hcontains : ∀ chains : List MaterialChain, chains.contains .image_reference_preserve
      = chains.any (fun c => c = .image_reference_preserve) := by
    intro chains
    rw [contains_eq_any_beq, Bool.eq_iff_iff, any_eq_true, any_eq_true]
    refine exists_congr (fun c => and_congr_right (fun _ => ?_))
    rw [beq_iff_eq, decide_eq_true_iff, eq_comm]
  unfold encode_visual at h
  simp only [hkeyframes, hcontains, himage, hvideo] at h
  split at h
  · rename_i hnil
    cases h
    -- nothing is routed: there is no visual material
    have hnone : ∀ p : MaterialChain → Bool, p .audio = false →
        plan.materials.any (fun m => p m.material_chain) = false := by
      intro p hp
      rw [any_eq_false]
      intro m hm
      have hr := hrouted p hp m hm
      rw [hnil, contains_nil] at hr
      rw [← hr]
      exact Bool.false_ne_true
    have hkey : plan.materials.filter is_keyframe = [] := by
      rw [filter_eq_nil_iff]
      exact fun m hm hkey => any_eq_false.mp
        (hnone (fun c => c = .image_target_canvas) (by decide)) m hm hkey
    rw [hkey, hnone (fun c => c = .image_reference_preserve) (by decide),
      hnone is_video_chain (by decide)]
    exact ⟨rfl, rfl, rfl⟩
  · split at h
    · cases h
    · split at h
      · cases h
      · obtain ⟨keyframe, hkeyframe, h⟩ := bind_eq_ok.mp h
        obtain ⟨ref_image, hi, h⟩ := bind_eq_ok.mp h
        obtain ⟨ref_video, hv, h⟩ := bind_eq_ok.mp h
        cases h
        exact ⟨hkeyframe, hi, hv⟩

theorem encode_audio_spec {out : Option (Payload (AudioEntry α))} (hplan : PlanSpec conditions plan)
    (h : encode_audio_references enc plan = .ok out)
    (haud : ∃ m ∈ plan.materials, is_audible m = true) :
    ∃ top entries, (plan.materials.filter is_audible).mapM (encode_audio_entry enc) = .ok entries
      ∧ out = some ⟨top, some entries⟩ := by
  obtain ⟨m, hm, hsound⟩ := haud
  have hmem := (hplan.audio m hm).mpr hsound
  have hfilter : plan.materials.filter (fun m => plan.audio_encode.contains m.condition_index)
      = plan.materials.filter is_audible := by
    refine filter_congr (fun m' hm' => ?_)
    rw [Bool.eq_iff_iff, contains_iff_mem]
    exact hplan.audio m' hm'
  unfold encode_audio_references at h
  simp only [hfilter] at h
  rw [if_neg (ne_nil_of_mem hmem)] at h
  split at h
  · cases h
  · obtain ⟨entries, hentries, h⟩ := bind_eq_ok.mp h
    cases h
    exact ⟨_, entries, hentries, rfl⟩

theorem not_keyframe_cases {m : MaterialPlanItem σ} (h : is_keyframe m = false) :
    m.material_chain = .image_reference_preserve ∨ is_video_chain m.material_chain = true
      ∨ m.material_chain = .audio := by
  unfold is_keyframe at h
  cases hchain : m.material_chain with
  | image_target_canvas =>
    rw [hchain] at h
    simp at h
  | image_reference_preserve => exact Or.inl rfl
  | video_reference_preserve | video_audio_reference_preserve =>
    exact Or.inr (Or.inl (by decide))
  | audio => exact Or.inr (Or.inr rfl)

theorem encode_conditions_spec (henc : enc.Faithful) {extras : Extras ρ α}
    (hplan : PlanSpec conditions plan) (h : encode_conditions enc plan = .ok extras) :
    ExtrasSpec enc plan extras := by
  obtain ⟨visual, hvisual, h⟩ := bind_eq_ok.mp h
  obtain ⟨ref_audio, haudio, h⟩ := bind_eq_ok.mp h
  cases h
  obtain ⟨hkeyframe, himage, hvideo⟩ := encode_visual_spec hplan hvisual
  have himg : ∀ m ∈ plan.materials, m.material_chain = .image_reference_preserve →
      ∃ top entries, (plan.materials.filter (fun m =>
        m.material_chain = .image_reference_preserve)).mapM (encode_image enc) = .ok entries
        ∧ visual.2.1 = some ⟨top, some entries⟩ := by
    intro m hm hchain
    obtain ⟨p, hp, hout⟩ := (encode_when_eq_ok himage).1
      (any_eq_true.mpr ⟨m, hm, by simpa using hchain⟩)
    obtain ⟨entries, hentries, hp⟩ := bind_eq_ok.mp hp
    cases hp
    exact ⟨_, entries, hentries, hout⟩
  have hvid : ∀ m ∈ plan.materials, is_video_chain m.material_chain = true →
      ∃ top entries, (plan.materials.filter (fun m =>
        is_video_chain m.material_chain)).mapM (encode_video enc) = .ok entries
        ∧ visual.2.2 = some ⟨top, some entries⟩ := by
    intro m hm hchain
    obtain ⟨p, hp, hout⟩ := (encode_when_eq_ok hvideo).1
      (any_eq_true.mpr ⟨m, hm, hchain⟩)
    obtain ⟨entries, hentries, hp⟩ := bind_eq_ok.mp hp
    cases hp
    exact ⟨_, entries, hentries, hout⟩
  refine ⟨?_, ?_, ?_, ?_, ?_, ?_⟩
  · intro m hm hchain
    obtain ⟨top, entries, hentries, hout⟩ := himg m hm hchain
    rw [hout]
    exact payload_entry_of_mem (fun m e he => (encode_image_spec henc he).1)
      (nodup_filter_indices hplan.nodup _) hentries
      (mem_filter.mpr ⟨hm, by simpa using hchain⟩) _ _
  · intro m hm hchain
    obtain ⟨top, entries, hentries, hout⟩ := hvid m hm hchain
    rw [hout]
    exact payload_entry_of_mem (fun m e he => (encode_video_spec henc he).1)
      (nodup_filter_indices hplan.nodup _) hentries (mem_filter.mpr ⟨hm, hchain⟩) _ _
  · intro m hm hsound
    obtain ⟨top, entries, hentries, hout⟩ := encode_audio_spec hplan haudio ⟨m, hm, hsound⟩
    rw [hout]
    exact payload_entry_of_mem (fun m e he => (encode_audio_entry_spec he).1)
      (nodup_filter_indices hplan.nodup _) hentries (mem_filter.mpr ⟨hm, hsound⟩) _ _
  · intro hnil
    exact (encode_when_eq_ok hkeyframe).2 (by rw [hnil]; rfl)
  · intro hne
    refine (encode_when_eq_ok hkeyframe).1 ?_
    cases hfilter : plan.materials.filter is_keyframe with
    | nil => exact absurd hfilter hne
    | cons m ms => rfl
  · rintro ⟨m, hm, hkey⟩
    unfold Extras.is_ref2va
    rcases not_keyframe_cases hkey with hchain | hchain | hchain
    · obtain ⟨top, entries, -, hout⟩ := himg m hm hchain
      simp [hout]
    · obtain ⟨top, entries, -, hout⟩ := hvid m hm hchain
      simp [hout]
    · obtain ⟨top, entries, -, hout⟩ := encode_audio_spec hplan haudio
        ⟨m, hm, by simp [is_audible, hchain]⟩
      simp [hout]

end Stages
/-! ## Gathering -/

section Gather

variable {enc : Encoders σ ρ α}

theorem mapM_concat {ε β γ : Type} {f : β → Except ε γ} {xs : List β} {ys : List γ} {x : β} {y : γ}
    (hxs : xs.mapM f = .ok ys) (hx : f x = .ok y) : (xs ++ [x]).mapM f = .ok (ys ++ [y]) := by
  rw [mapM_eq_ok] at hxs ⊢
  exact rel_append hxs (List.Forall₂.cons hx List.Forall₂.nil)

/-- What the gathering loop has after some materials: their blocks and rows, each from its own
material. -/
structure GatherInv (enc : Encoders σ ρ α) (front : List (MaterialPlanItem σ))
    (acc : Gathered ρ α) (sources : List (Source ρ α)) : Prop where
  encoded : (front.filter (fun m => !is_keyframe m)).mapM (encoded_source enc) = .ok sources
  blocks : acc.blocks = sources.map Source.item
  visual : acc.visual_rows = sources.filterMap Source.visual
  audio : acc.audio_rows = (sources.map Source.audio).filter (fun rows => !rows.isEmpty)

theorem keep_audio {entry : AudioEntry α} {kept : List (List α)}
    (h : entry.rows.length = entry.ref_audio_t * audio_channel) :
    (if 0 < entry.ref_audio_t then kept ++ [entry.rows] else kept)
      = kept ++ [entry.rows].filter (fun rows => !rows.isEmpty) := by
  by_cases ht : 0 < entry.ref_audio_t
  · have hne : entry.rows.isEmpty = false := by
      rw [isEmpty_eq_false_iff, ← length_pos_iff, h]
      exact Nat.mul_pos ht (by decide)
    rw [if_pos ht, filter_cons_of_pos (by simp [hne]), filter_nil]
  · have hnil : entry.rows = [] := by
      rw [← length_eq_zero_iff, h]
      simp
      omega
    rw [if_neg ht, hnil]
    simp

section

variable {plan : ResolvedPlan σ} {extras : Extras ρ α} (hext : ExtrasSpec enc plan extras)
include hext

theorem GatherInv.step {front : List (MaterialPlanItem σ)} {acc : Gathered ρ α}
    {sources : List (Source ρ α)} (h : GatherInv enc front acc sources) {m : MaterialPlanItem σ}
    (hm : m ∈ plan.materials) : ∃ acc', gather_step extras acc m = .ok acc'
      ∧ ∃ sources', GatherInv enc (front ++ [m]) acc' sources' := by
  have hfilter : ∀ {b : Bool}, is_keyframe m = b → (front ++ [m]).filter (fun m => !is_keyframe m)
      = front.filter (fun m => !is_keyframe m) ++ if b then [] else [m] := by
    rintro b rfl
    cases hb : is_keyframe m <;> simp [hb]
  -- a material with its own source
  have hadd : ∀ {acc' : Gathered ρ α} {s : Source ρ α}, is_keyframe m = false →
      encoded_source enc m = .ok s → acc'.blocks = acc.blocks ++ [s.item] →
      acc'.visual_rows = acc.visual_rows ++ s.visual.toList →
      acc'.audio_rows = acc.audio_rows ++ [s.audio].filter (fun rows => !rows.isEmpty) →
      GatherInv enc (front ++ [m]) acc' (sources ++ [s]) := by
    intro acc' s hkey hs hblocks hvisual haudio
    refine ⟨?_, ?_, ?_, ?_⟩
    · rw [hfilter hkey]
      exact mapM_concat h.encoded hs
    · rw [hblocks, h.blocks, map_append]
      rfl
    · rw [hvisual, h.visual]
      cases hv : s.visual <;> simp [hv]
    · rw [haudio, h.audio, map_append, filter_append]
      rfl
  unfold gather_step
  cases hchain : m.material_chain with
  | image_target_canvas =>
    refine ⟨acc, rfl, sources, ?_⟩
    have hkey : is_keyframe m = true := by simp [is_keyframe, hchain]
    refine ⟨?_, h.blocks, h.visual, h.audio⟩
    rw [hfilter hkey]
    simpa using h.encoded
  | image_reference_preserve =>
    obtain ⟨e, he, hentry⟩ := hext.image m hm hchain
    refine ⟨_, bind_eq_ok.mpr ⟨e, hentry, rfl⟩, _, hadd (by simp [is_keyframe, hchain])
      (s := ⟨.image e.latent_h e.latent_w, some e.rows, []⟩) ?_ rfl rfl (by simp)⟩
    simp only [encoded_source, hchain]
    exact bind_eq_ok.mpr ⟨e, he, rfl⟩
  | audio =>
    obtain ⟨e, he, hentry⟩ := hext.audio m hm (by simp [is_audible, hchain])
    refine ⟨_, bind_eq_ok.mpr ⟨e, hentry, rfl⟩, _, hadd (by simp [is_keyframe, hchain])
      (s := ⟨.audio e.ref_audio_t, none, e.rows⟩) ?_ rfl (by simp)
      (keep_audio (encode_audio_entry_spec he).2)⟩
    simp only [encoded_source, hchain]
    exact bind_eq_ok.mpr ⟨e, he, rfl⟩
  | video_reference_preserve | video_audio_reference_preserve =>
    obtain ⟨v, hv, hventry⟩ := hext.video m hm (by simp [is_video_chain, hchain])
    obtain ⟨a, ha, haentry⟩ := hext.audio m hm (by simp [is_audible, is_video_chain, hchain])
    refine ⟨_, bind_eq_ok.mpr ⟨v, hventry, bind_eq_ok.mpr ⟨a, haentry, rfl⟩⟩, _,
      hadd (by simp [is_keyframe, hchain])
      (s := ⟨.video _ a.ref_audio_t v.latent_t v.latent_h v.latent_w, some v.rows, a.rows⟩) ?_
      rfl rfl (keep_audio (encode_audio_entry_spec ha).2)⟩
    simp only [encoded_source, hchain]
    exact bind_eq_ok.mpr ⟨v, hv, bind_eq_ok.mpr ⟨a, ha, rfl⟩⟩

/-- **Gathering.** It succeeds, and what it returns is what each reference's own material was
encoded to, in plan order. -/
theorem ordered_blocks_and_rows_spec :
    ∃ sources, (plan.materials.filter (fun m => !is_keyframe m)).mapM (encoded_source enc)
        = .ok sources
      ∧ ref2va_ordered_blocks_and_rows plan extras
        = .ok (sources.map Source.item, cat_optional (sources.filterMap Source.visual),
          cat_optional ((sources.map Source.audio).filter (fun rows => !rows.isEmpty))) := by
  obtain ⟨acc, hacc, sources, hinv⟩ := foldlM_total
    (I := fun front acc => ∃ sources, GatherInv enc front acc sources) plan.materials []
    (⟨[], rfl, rfl, rfl, rfl⟩ : ∃ sources, GatherInv enc [] (⟨[], [], []⟩ : Gathered ρ α) sources)
    (fun front' m back acc heq hI => by
      obtain ⟨sources, hinv⟩ := hI
      exact hinv.step hext (by rw [nil_append] at heq; rw [heq]; simp))
  refine ⟨sources, hinv.encoded, ?_⟩
  unfold ref2va_ordered_blocks_and_rows
  rw [hacc, ok_bind, hinv.blocks, hinv.visual, hinv.audio]

end

end Gather

end LightningH3.ReferenceRows
