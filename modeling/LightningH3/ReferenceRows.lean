/-
The condition rows of a reference request, from its conditions to the denoising loop.

Five loops go over the conditions: the plan turns each into a material and routes it to the
encoders, the encoding stages collect the encoded materials of one kind each, the denoising
stage gathers blocks and rows in plan order, the packed layout is built from the blocks, and
the noise augmentation cuts the rows apart again.

What the encoders compute is a parameter: a latent grid for an image or a video, a sequence
for a sound. A row of a visual latent is one patch, a row of an audio latent is one step of
one channel; the checks on the width of a row are left out. The strength of the noise is a
rational, as every finite float is.
-/
import LightningH3.CanvasShape
import LightningH3.PackedSequence

set_option autoImplicit false

namespace LightningH3.ReferenceRows

open PackedSequence

/-- What the stages raise. -/
inductive RefError where
  | value_error (message : String)
  | not_implemented (message : String)
  | key_error (key : String)
  /-- `noise_aug must be in [0, 1], got …`, where Python prints the number. -/
  | noise_aug_range (noise_aug : ℚ)
  | packed (error : PackedError)
  deriving DecidableEq

/-! ## The plan -/

inductive Role where
  | keyframe
  | reference
  deriving DecidableEq, Repr

inductive ConditionType where
  | image
  | video
  | video_audio
  | audio
  deriving DecidableEq, Repr

inductive MaterialChain where
  | image_target_canvas
  | image_reference_preserve
  | video_reference_preserve
  | video_audio_reference_preserve
  | audio
  deriving DecidableEq, Repr

def Role.name : Role → String
  | .keyframe => "keyframe"
  | .reference => "reference"

def ConditionType.name : ConditionType → String
  | .image => "image"
  | .video => "video"
  | .video_audio => "video_audio"
  | .audio => "audio"

/-- `MiniMaxH3ConditionRule`, without the role and the type it is found by. -/
structure ConditionRule where
  material_chain : MaterialChain
  requires_frame_index : Bool
  visual_tokenizer_encode : Bool
  audio_tokenizer_encode : Bool
  deriving DecidableEq, Repr

/-- `rule_for` of the reference task. -/
def rule_for : Role → ConditionType → Except RefError ConditionRule
  | .keyframe, .image => .ok ⟨.image_target_canvas, true, true, false⟩
  | .reference, .image => .ok ⟨.image_reference_preserve, false, true, false⟩
  | .reference, .video => .ok ⟨.video_reference_preserve, false, true, true⟩
  | .reference, .video_audio => .ok ⟨.video_audio_reference_preserve, false, true, true⟩
  | .reference, .audio => .ok ⟨.audio, false, false, true⟩
  | role, condition_type => .error (.value_error ("task 'ref2va' does not allow condition role='"
      ++ role.name ++ "' type='" ++ condition_type.name ++ "'"))

/-- A condition of the request; `source` is its file and where to start in it. -/
structure Condition (σ : Type) where
  role : Role
  type : ConditionType
  frame_index : Option ℤ
  source : σ

/-- `MiniMaxH3MaterialPlanItem`. -/
structure MaterialPlanItem (σ : Type) where
  condition_index : ℕ
  role : Role
  condition_type : ConditionType
  source : σ
  material_chain : MaterialChain
  frame_index : Option ℤ
  resolved_frame_index : Option ℤ

/-- The resolved target shape: a canvas on the 32-pixel grid, the number of frames and the
lengths of the two latents. -/
structure TargetShape where
  width : ℕ
  height : ℕ
  frame_count : Option ℤ
  video_latent_t : ℕ
  audio_latent_t : ℕ
  width_pos : 0 < width
  height_pos : 0 < height
  width_aligned : 32 ∣ width
  height_aligned : 32 ∣ height
  video_latent_t_pos : 0 < video_latent_t

/-- `minimax_h3_video_latent_t`. -/
def minimax_h3_video_latent_t (frame_count : ℤ) : ℕ :=
  if frame_count ≤ 5 then 2 else ((frame_count - 5) / 17).toNat * 5 + 2

/-- `_resolve_shape`: what the resolver of the canvas accepts stands on the grid. -/
def TargetShape.resolved {K : Type} [Field K] [LinearOrder K] [FloorRing K] [IsStrictOrderedRing K]
    {sqrt : K → K} {text : K → String} {width height : Option K} {base : K}
    {canvas : CanvasShape.SpatialShape}
    (h : CanvasShape.minimax_h3_resolve_spatial_shape sqrt text width height base = .ok canvas)
    (frame_count : ℤ) (audio_latent_t : ℕ) : TargetShape where
  width := canvas.width.toNat
  height := canvas.height.toNat
  frame_count := some frame_count
  video_latent_t := minimax_h3_video_latent_t frame_count
  audio_latent_t := audio_latent_t
  width_pos := Int.pos_iff_toNat_pos.mp (CanvasShape.resolve_grid h).1.1
  height_pos := Int.pos_iff_toNat_pos.mp (CanvasShape.resolve_grid h).2.1
  width_aligned := by
    have hgrid : (32 : ℤ) ∣ canvas.width := (CanvasShape.resolve_grid h).1.2
    omega
  height_aligned := by
    have hgrid : (32 : ℤ) ∣ canvas.height := (CanvasShape.resolve_grid h).2.2
    omega
  video_latent_t_pos := by
    unfold minimax_h3_video_latent_t
    split <;> omega

/-- What the stages read of the resolved plan of a reference request. -/
structure ResolvedPlan (σ : Type) where
  materials : List (MaterialPlanItem σ)
  visual_encode : List ℕ
  audio_encode : List ℕ
  shape : TargetShape

section Plan

variable {σ : Type}

/-- `repr` of an optional frame index. -/
def py_index : Option ℤ → String
  | none => "None"
  | some n => toString n

/-- `repr` of a tuple of optional numbers. -/
def py_tuple : List (Option ℤ) → String
  | [item] => "(" ++ py_index item ++ ",)"
  | items => "(" ++ String.intercalate ", " (items.map py_index) ++ ")"

/-- The accumulators of the condition loop; `seen` has the keyframes' pixel indices. -/
structure PlanState (σ : Type) where
  materials : List (MaterialPlanItem σ)
  visual_encode : List ℕ
  audio_encode : List ℕ
  seen : List (ℤ × ℕ)

/-- The pixel frame of a keyframe, not bound twice. -/
def resolve_frame_index (frame_count : Option ℤ) (seen : List (ℤ × ℕ)) (index : ℕ)
    (frame_index : Option ℤ) : Except RefError ℤ :=
  let path := "conditions[" ++ toString index ++ "].frame_index"
  match frame_index, frame_count with
  | none, _ => .error (.value_error (path ++ " is required"))
  | some _, none => .error (.key_error "frame_count")
  | some semantic, some frame_count =>
    if semantic ≠ -1 ∧ ¬ (0 ≤ semantic ∧ semantic < frame_count) then
      .error (.value_error (path ++ " must be -1 or in [0, " ++ toString frame_count
        ++ ") after 17n+5 frame alignment, got " ++ toString semantic))
    else
      let resolved := if semantic = -1 then frame_count - 1 else semantic
      match seen.lookup resolved with
      | some previous => .error (.value_error (path ++ " resolves to " ++ toString resolved
          ++ ", already bound by conditions[" ++ toString previous ++ "]"))
      | none => .ok resolved

/-- One turn of the condition loop. -/
def plan_step (frame_count : Option ℤ) (st : PlanState σ) (entry : Condition σ × ℕ) :
    Except RefError (PlanState σ) := do
  let cond := entry.1
  let index := entry.2
  let rule ← rule_for cond.role cond.type
  let resolved ← (if rule.requires_frame_index then
      (resolve_frame_index frame_count st.seen index cond.frame_index).map some
    else .ok none : Except RefError (Option ℤ))
  .ok {
    materials := st.materials ++ [{
      condition_index := index
      role := cond.role
      condition_type := cond.type
      source := cond.source
      material_chain := rule.material_chain
      frame_index := cond.frame_index
      resolved_frame_index := resolved }]
    visual_encode := if rule.visual_tokenizer_encode then st.visual_encode ++ [index]
      else st.visual_encode
    audio_encode := if rule.audio_tokenizer_encode then st.audio_encode ++ [index]
      else st.audio_encode
    seen := match resolved with
      | some pixel => st.seen ++ [(pixel, index)]
      | none => st.seen }

def check_keyframes (conditions : List (Condition σ)) : Except RefError Unit :=
  let keyframes := conditions.filter (fun c => c.role = .keyframe)
  if keyframes = [] then .ok ()
  else if keyframes.any (fun c => c.type ≠ .image)
      ∨ keyframes.map Condition.frame_index ∉ keyframe_signatures.map (·.map some) then
    .error (.value_error ("ref2va ResolvedPlan requires one or two ordered image/keyframe "
      ++ "conditions with frame_index [0], [-1], or [0, -1], got ["
      ++ String.intercalate ", " (keyframes.map (fun c => "('" ++ c.type.name ++ "', '"
        ++ c.role.name ++ "', " ++ py_index c.frame_index ++ ")")) ++ "]"))
  else .ok ()

/-- `minimax_h3_resolve_plan`, for a reference request whose target shape is resolved. -/
def resolve_plan (shape : TargetShape) (conditions : List (Condition σ)) :
    Except RefError (ResolvedPlan σ) := do
  check_keyframes conditions
  let st ← conditions.zipIdx.foldlM (plan_step shape.frame_count) ⟨[], [], [], []⟩
  .ok ⟨st.materials, st.visual_encode, st.audio_encode, shape⟩

end Plan

/-! ## Encoding -/

/-- A latent video of patches. -/
structure Latent (ρ : Type) where
  latent_t : ℕ
  latent_h : ℕ
  latent_w : ℕ
  patch : ℕ → ℕ → ℕ → ρ

/-- The patches of a latent, frame by frame and line by line. -/
def Latent.rows {ρ : Type} (z : Latent ρ) : List ρ :=
  (List.range z.latent_t).flatMap (fun t => (List.range (z.latent_h / 2)).flatMap (fun h =>
    (List.range (z.latent_w / 2)).map (fun w => z.patch t h w)))

/-- `minimax_h3_patchify_video_latent` with patches of two by two. -/
def patchify_video_latent {ρ : Type} (z : Latent ρ) : Except RefError (List ρ) :=
  if z.latent_h % 2 ≠ 0 ∨ z.latent_w % 2 ≠ 0 then
    .error (.value_error ("video latent spatial/time dims must be divisible by patch_size: "
      ++ "shape=" ++ CubeMask.py_list [1, 24, z.latent_t, z.latent_h, z.latent_w]
      ++ ", patch_size=[1, 2, 2]"))
  else .ok z.rows

/-- An audio latent of two channels. -/
structure AudioLatent (α : Type) where
  audio_t : ℕ
  row : ℕ → ℕ → α

/-- The rows of an audio latent, channel by channel. -/
def AudioLatent.rows {α : Type} (z : AudioLatent α) : List α :=
  (List.range audio_channel).flatMap (fun channel => (List.range z.audio_t).map (z.row channel))

/-- What the stages ask of the encoders and of the material files. -/
structure Encoders (σ ρ α : Type) where
  /-- The width and the height a material was admitted with. -/
  material_shape : MaterialPlanItem σ → ℕ × ℕ
  /-- The latent of a material's image, brought to a width and a height. -/
  encode_images : MaterialPlanItem σ → ℕ → ℕ → Except RefError (Latent ρ)
  /-- The latent of a material's video. -/
  encode_videos : MaterialPlanItem σ → Except RefError (Latent ρ)
  has_audio : MaterialPlanItem σ → Bool
  /-- The latent of a material's sound. -/
  encode_audio : MaterialPlanItem σ → Except RefError (AudioLatent α)

structure ImageEntry (ρ : Type) where
  rows : List ρ
  latent_h : ℕ
  latent_w : ℕ
  condition_index : Option ℕ

structure VideoEntry (ρ : Type) where
  rows : List ρ
  latent_t : ℕ
  latent_h : ℕ
  latent_w : ℕ
  condition_index : Option ℕ

structure AudioEntry (α : Type) where
  rows : List α
  ref_audio_t : ℕ
  condition_index : Option ℕ

/-- A payload of encoded references: the keys of an entry at the top, where there are any, and
the list of all entries, where there is one. -/
structure Payload (ε : Type) where
  top : Option ε
  entries : Option (List ε)

structure KeyframeEntry (ρ : Type) where
  rows : List ρ
  latent_h : ℕ
  latent_w : ℕ
  frame_index : Option ℤ
  resolved_frame_index : Option ℤ
  condition_index : ℕ

structure KeyframePayload (ρ : Type) where
  rows : List ρ
  latent_h : ℕ
  latent_w : ℕ
  keyframes : List (KeyframeEntry ρ)
  semantic_frame_indices : List ℤ
  pixel_frame_indices : List ℤ
  frame_count : Option ℤ

/-- What the encoding stages leave in the batch. -/
structure Extras (ρ α : Type) where
  keyframe : Option (KeyframePayload ρ)
  ref_image : Option (Payload (ImageEntry ρ))
  ref_video : Option (Payload (VideoEntry ρ))
  ref_audio : Option (Payload (AudioEntry α))

section Encode

variable {σ ρ α : Type} (enc : Encoders σ ρ α)

def is_video_chain (chain : MaterialChain) : Bool :=
  chain = .video_reference_preserve ∨ chain = .video_audio_reference_preserve

def validate_keyframe_materials (shape : TargetShape) (keyframes : List (MaterialPlanItem σ)) :
    Except RefError ℤ :=
  if keyframes.map MaterialPlanItem.frame_index ∉ keyframe_signatures.map (·.map some) then
    .error (.value_error ("MiniMax H3 keyframes must use one of the ordered frame_index "
      ++ "signatures ((0,), (-1,), (0, -1)), got "
      ++ py_tuple (keyframes.map MaterialPlanItem.frame_index)))
  else match shape.frame_count with
    | none => .error (.value_error "keyframe preparation requires an integer frame_count")
    | some frame_count =>
      if frame_count ≤ 1 then
        .error (.value_error "keyframe preparation requires frame_count > 1")
      else
        let expected_pixels := keyframes.map (fun m =>
          m.frame_index.map (fun index => if index = -1 then frame_count - 1 else index))
        let resolved_pixels := keyframes.map MaterialPlanItem.resolved_frame_index
        if resolved_pixels ≠ expected_pixels then
          .error (.value_error ("keyframe resolved_frame_index values disagree with semantic "
            ++ "anchors: expected " ++ py_tuple expected_pixels ++ ", got "
            ++ py_tuple resolved_pixels))
        else .ok frame_count

/-- The encoded keyframe of one material, on the target canvas. -/
def encode_keyframe (shape : TargetShape) (m : MaterialPlanItem σ) :
    Except RefError (KeyframeEntry ρ) :=
  if enc.material_shape m ≠ (shape.width, shape.height) then
    .error (.value_error ("fl2va keyframe material shape disagrees with the resolved target: "
      ++ "condition=" ++ toString m.condition_index ++ ", material="
      ++ toString (enc.material_shape m).1 ++ "x" ++ toString (enc.material_shape m).2
      ++ ", target=" ++ toString shape.width ++ "x" ++ toString shape.height))
  else do
    let z ← enc.encode_images m shape.width shape.height
    let rows ← patchify_video_latent z
    .ok ⟨rows, shape.height / 16, shape.width / 16, m.frame_index, m.resolved_frame_index,
      m.condition_index⟩

/-- `_encode_target_keyframes`, with the preparation of the keyframes. -/
def encode_target_keyframes (plan : ResolvedPlan σ) : Except RefError (KeyframePayload ρ) := do
  let keyframes := plan.materials.filter (fun m => m.material_chain = .image_target_canvas)
  let frame_count ← validate_keyframe_materials plan.shape keyframes
  let encoded ← keyframes.mapM (encode_keyframe enc plan.shape)
  .ok {
    rows := encoded.flatMap KeyframeEntry.rows
    latent_h := plan.shape.height / 16
    latent_w := plan.shape.width / 16
    keyframes := encoded
    semantic_frame_indices := keyframes.filterMap MaterialPlanItem.frame_index
    pixel_frame_indices := keyframes.filterMap MaterialPlanItem.resolved_frame_index
    frame_count := some frame_count }

/-- The encoded reference image of one material, on its own grid. -/
def encode_image (m : MaterialPlanItem σ) : Except RefError (ImageEntry ρ) :=
  let size := enc.material_shape m
  if size.1 = 0 ∨ size.2 = 0 then
    .error (.value_error "reference image target dimensions must be positive")
  else if size.1 % 32 ≠ 0 ∨ size.2 % 32 ≠ 0 then
    .error (.value_error "reference image target dimensions must be aligned to 32")
  else do
    let z ← enc.encode_images m size.1 size.2
    let rows ← patchify_video_latent z
    .ok ⟨rows, size.2 / 16, size.1 / 16, some m.condition_index⟩

def encode_reference_image (plan : ResolvedPlan σ) :
    Except RefError (Payload (ImageEntry ρ)) := do
  let images := plan.materials.filter (fun m => m.material_chain = .image_reference_preserve)
  let entries ← images.mapM (encode_image enc)
  .ok ⟨entries.head?, some entries⟩

/-- The encoded reference video of one material. -/
def encode_video (m : MaterialPlanItem σ) : Except RefError (VideoEntry ρ) := do
  let z ← enc.encode_videos m
  let rows ← patchify_video_latent z
  .ok ⟨rows, z.latent_t, z.latent_h, z.latent_w, some m.condition_index⟩

def encode_reference_video (plan : ResolvedPlan σ) :
    Except RefError (Payload (VideoEntry ρ)) := do
  let videos := plan.materials.filter (fun m => is_video_chain m.material_chain)
  let entries ← videos.mapM (encode_video enc)
  .ok ⟨entries.head?, some entries⟩

/-- A payload that is encoded when there are materials for it. -/
def encode_when {ε : Type} (wanted : Bool) (payload : Except RefError ε) :
    Except RefError (Option ε) :=
  if wanted then payload.map some else .ok none

/-- `_encode_keyframes_from_plan`: all visual materials. -/
def encode_visual (plan : ResolvedPlan σ) :
    Except RefError (Option (KeyframePayload ρ) × Option (Payload (ImageEntry ρ))
      × Option (Payload (VideoEntry ρ))) :=
  let materials := plan.materials.filter (fun m => plan.visual_encode.contains m.condition_index)
  let chains := materials.map MaterialPlanItem.material_chain
  let keyframes := materials.filter (fun m => m.material_chain = .image_target_canvas)
  if plan.visual_encode = [] then .ok (none, none, none)
  else if !keyframes.isEmpty
      ∧ keyframes.map MaterialPlanItem.frame_index ∉ keyframe_signatures.map (·.map some) then
    .error (.value_error ("MiniMax H3 visual encoding requires an ordered keyframe signature in "
      ++ "((0,), (-1,), (0, -1)), got " ++ py_tuple (keyframes.map MaterialPlanItem.frame_index)))
  else if chains.contains .audio then
    .error (.not_implemented "MiniMaxH3VisualEncodingStage cannot encode material chains ['audio']")
  else do
    let keyframe ← encode_when (!keyframes.isEmpty) (encode_target_keyframes enc plan)
    let ref_image ← encode_when (chains.contains .image_reference_preserve)
      (encode_reference_image enc plan)
    let ref_video ← encode_when (chains.any is_video_chain) (encode_reference_video enc plan)
    .ok (keyframe, ref_image, ref_video)

/-- The encoded sound of one material; a silent video has no rows. -/
def encode_audio_entry (m : MaterialPlanItem σ) : Except RefError (AudioEntry α) :=
  if m.material_chain = .video_reference_preserve ∧ enc.has_audio m = false then
    .ok ⟨[], 0, some m.condition_index⟩
  else do
    let z ← enc.encode_audio m
    .ok ⟨z.rows, z.audio_t, some m.condition_index⟩

/-- `_encode_references_from_plan` of the audio stage. The keys of a single entry stand at the
top too. -/
def encode_audio_references (plan : ResolvedPlan σ) :
    Except RefError (Option (Payload (AudioEntry α))) :=
  let materials := plan.materials.filter (fun m => plan.audio_encode.contains m.condition_index)
  if plan.audio_encode = [] then .ok none
  else if materials.isEmpty then
    .error (.value_error "ref2va audio routing selected no reference materials")
  else do
    let entries ← materials.mapM (encode_audio_entry enc)
    .ok (some ⟨if entries.length = 1 then entries.head? else none, some entries⟩)

/-- Both encoding stages. -/
def encode_conditions (plan : ResolvedPlan σ) : Except RefError (Extras ρ α) := do
  let visual ← encode_visual enc plan
  let ref_audio ← encode_audio_references enc plan
  .ok ⟨visual.1, visual.2.1, visual.2.2, ref_audio⟩

end Encode

/-! ## Gathering blocks and rows -/

section Gather

variable {σ ρ α : Type}

/-- `_ref2va_payload_entry`: the entry of a condition, or the only entry; none is a payload
without the keys of an entry. -/
def ref2va_payload_entry {ε : Type} (index_of : ε → Option ℕ) (payload : Option (Payload ε))
    (list_key : String) (condition_index : ℕ) (path : String) :
    Except RefError (Option ε) :=
  let missing := RefError.value_error (path ++ "." ++ list_key
    ++ " missing entry for condition_index=" ++ toString condition_index)
  match payload with
  | none => .error (.value_error (path ++ " is required for ref2va condition rows"))
  | some payload =>
    match payload.entries with
    | some entries =>
      match entries.find? (fun entry => index_of entry = some condition_index) with
      | some entry => .ok (some entry)
      | none =>
        match entries with
        | [entry] => .ok (some entry)
        | _ => .error missing
    | none =>
      match payload.top with
      | none => .ok none
      | some entry =>
        if index_of entry = none ∨ index_of entry = some condition_index then .ok (some entry)
        else .error missing

/-- The first of an entry's keys that is read. -/
def entry_with {ε : Type} (key : String) : Option ε → Except RefError ε
  | some entry => .ok entry
  | none => .error (.key_error key)

def cat_optional {ρ : Type} (rows : List (List ρ)) : Option (List ρ) :=
  if rows = [] then none else some rows.flatten

def image_entry_of (extras : Extras ρ α) (m : MaterialPlanItem σ) :
    Except RefError (Option (ImageEntry ρ)) :=
  ref2va_payload_entry ImageEntry.condition_index extras.ref_image "images" m.condition_index
    "batch.extra.minimax_h3_reference_image_rows"

def video_entry_of (extras : Extras ρ α) (m : MaterialPlanItem σ) :
    Except RefError (Option (VideoEntry ρ)) :=
  ref2va_payload_entry VideoEntry.condition_index extras.ref_video "videos" m.condition_index
    "batch.extra.minimax_h3_reference_video_rows"

def audio_entry_of (extras : Extras ρ α) (m : MaterialPlanItem σ) :
    Except RefError (Option (AudioEntry α)) :=
  ref2va_payload_entry AudioEntry.condition_index extras.ref_audio "audios" m.condition_index
    "batch.extra.minimax_h3_reference_audio_rows"

/-- The accumulators of the gathering loop. -/
structure Gathered (ρ α : Type) where
  blocks : List RefItem
  visual_rows : List (List ρ)
  audio_rows : List (List α)

/-- One turn of the gathering loop. -/
def gather_step (extras : Extras ρ α) (acc : Gathered ρ α) (m : MaterialPlanItem σ) :
    Except RefError (Gathered ρ α) :=
  match m.material_chain with
  | .image_target_canvas => .ok acc
  | .image_reference_preserve => do
      let entry ← image_entry_of extras m
      let entry ← entry_with "latent_h" entry
      .ok { acc with
        blocks := acc.blocks ++ [.image entry.latent_h entry.latent_w]
        visual_rows := acc.visual_rows ++ [entry.rows] }
  | .audio => do
      let entry ← audio_entry_of extras m
      let entry ← entry_with "ref_audio_t" entry
      .ok { acc with
        blocks := acc.blocks ++ [.audio entry.ref_audio_t]
        audio_rows := if 0 < entry.ref_audio_t then acc.audio_rows ++ [entry.rows]
          else acc.audio_rows }
  | .video_reference_preserve | .video_audio_reference_preserve => do
      let video_entry ← video_entry_of extras m
      let audio_entry ← audio_entry_of extras m
      let audio_entry ← entry_with "ref_audio_t" audio_entry
      let video_entry ← entry_with "latent_t" video_entry
      .ok {
        blocks := acc.blocks ++ [.video
          (decide (m.material_chain = .video_audio_reference_preserve)) audio_entry.ref_audio_t
          video_entry.latent_t video_entry.latent_h video_entry.latent_w]
        visual_rows := acc.visual_rows ++ [video_entry.rows]
        audio_rows := if 0 < audio_entry.ref_audio_t then acc.audio_rows ++ [audio_entry.rows]
          else acc.audio_rows }

def ref2va_ordered_blocks_and_rows (plan : ResolvedPlan σ) (extras : Extras ρ α) :
    Except RefError (List RefItem × Option (List ρ) × Option (List α)) := do
  let acc ← plan.materials.foldlM (gather_step extras) ⟨[], [], []⟩
  .ok (acc.blocks, cat_optional acc.visual_rows, cat_optional acc.audio_rows)

local instance lawful_signatures : LawfulBEq (List ℤ) := inferInstance

/-- `_validate_keyframe_payload` for a reference request. -/
def validate_keyframe_payload (keyframe : Option (KeyframePayload ρ)) : Except RefError Unit :=
  match keyframe with
  | none => .ok ()
  | some keyframe =>
    let semantic_indices := keyframe.semantic_frame_indices
    if semantic_indices ∉ keyframe_signatures then
      .error (.value_error ("keyframe denoising requires semantic_frame_indices in "
        ++ "((0,), (-1,), (0, -1)), got " ++ py_tuple (semantic_indices.map some)))
    else match keyframe.frame_count with
      | none => .error (.value_error "keyframe payload requires an integer frame_count")
      | some frame_count =>
        let expected_pixel_indices := semantic_indices.map (fun index =>
          if index = -1 then frame_count - 1 else index)
        let expected_rows :=
          semantic_indices.length * (keyframe.latent_h / 2) * (keyframe.latent_w / 2)
        if frame_count ≤ 1 then
          .error (.value_error "keyframe payload frame_count must be greater than one")
        else if keyframe.pixel_frame_indices ≠ expected_pixel_indices then
          .error (.value_error ("keyframe denoising requires pixel_frame_indices resolved "
            ++ "from the semantic anchors, got "
            ++ CubeMask.py_list keyframe.pixel_frame_indices ++ " for frame_count="
            ++ toString frame_count))
        else if keyframe.keyframes.length ≠ semantic_indices.length then
          .error (.value_error
            "keyframe denoising requires one encoded keyframe per semantic anchor")
        else if keyframe.keyframes.map KeyframeEntry.frame_index
            ≠ semantic_indices.map some then
          .error (.value_error "encoded keyframes must remain in semantic anchor order")
        else if keyframe.keyframes.map KeyframeEntry.resolved_frame_index
            ≠ expected_pixel_indices.map some then
          .error (.value_error "encoded keyframes must carry matching resolved_frame_index values")
        else if keyframe.latent_h = 0 ∨ keyframe.latent_w = 0
            ∨ keyframe.rows.length ≠ expected_rows then
          .error (.value_error ("encoded keyframe rows do not match target-canvas blocks: "
            ++ "expected=" ++ toString expected_rows ++ ", actual="
            ++ toString keyframe.rows.length))
        else .ok ()

/-- What `_assemble_condition_rows` fills in. -/
structure LoopContext (ρ α : Type) where
  ref2va_positive_blocks : Option (List RefItem)
  cond_rows : Option (List ρ)
  audio_ref_rows : Option (List α)
  include_cond : Bool
  keyframe_frame_indices : Option (List ℤ)
  keyframe_frame_count : Option ℤ

def Extras.is_ref2va (extras : Extras ρ α) : Bool :=
  extras.ref_image.isSome || extras.ref_audio.isSome || extras.ref_video.isSome

def assemble_condition_rows (plan : ResolvedPlan σ) (extras : Extras ρ α) :
    Except RefError (LoopContext ρ α) :=
  let keyframe_frame_indices := extras.keyframe.map KeyframePayload.semantic_frame_indices
  let keyframe_frame_count := extras.keyframe.bind KeyframePayload.frame_count
  if extras.is_ref2va then do
    let gathered ← ref2va_ordered_blocks_and_rows plan extras
    let condition_parts := (extras.keyframe.map KeyframePayload.rows).toList ++ gathered.2.1.toList
    let cond_rows := cat_optional condition_parts
    .ok ⟨some gathered.1, cond_rows, gathered.2.2, cond_rows.isSome, keyframe_frame_indices,
      keyframe_frame_count⟩
  else
    .ok ⟨none, extras.keyframe.map KeyframePayload.rows, none, extras.keyframe.isSome,
      keyframe_frame_indices, keyframe_frame_count⟩

/-- A block as the mapping the packed layout is given. -/
def raw_block : RefItem → RawBlock
  | .image latent_h latent_w => some
      [("kind", .str "image"), ("latent_h", .int latent_h), ("latent_w", .int latent_w)]
  | .audio ref_audio_t => some [("kind", .str "audio"), ("ref_audio_t", .int ref_audio_t)]
  | .video with_audio ref_audio_t latent_t latent_h latent_w => some
      [("kind", .str (if with_audio then "video_audio" else "video")),
        ("ref_audio_t", .int ref_audio_t), ("latent_t", .int latent_t),
        ("latent_h", .int latent_h), ("latent_w", .int latent_w)]

/-- `_build_packed_layout`: the target's latent grid has a place for every 16 pixels. -/
def build_packed_layout {π : Type} (N : Numeric π) (plan : ResolvedPlan σ) (extras : Extras ρ α)
    (ctx : LoopContext ρ α) (text_len : ℕ) (include_video_pos : Bool) :
    Except RefError (Packed π) :=
  let latent_h := plan.shape.height / 16
  let latent_w := plan.shape.width / 16
  if extras.is_ref2va then
    match ctx.ref2va_positive_blocks with
    | none => .error (.value_error "ref2va ordered reference blocks missing")
    | some blocks => (minimax_h3_packed_sequence_ref2va_blocks N {
        text_len := text_len
        latent_t := plan.shape.video_latent_t
        latent_h := latent_h
        latent_w := latent_w
        audio_t := plan.shape.audio_latent_t
        ref_blocks := blocks.map raw_block
        keyframe_frame_indices := ctx.keyframe_frame_indices
        frame_count := ctx.keyframe_frame_count
        seq_len := none
        include_video_pos := include_video_pos }).mapError RefError.packed
  else (minimax_h3_packed_sequence N {
    text_len := text_len
    latent_t := plan.shape.video_latent_t
    latent_h := latent_h
    latent_w := latent_w
    audio_t := plan.shape.audio_latent_t
    include_keyframe_cond := ctx.include_cond
    keyframe_frame_indices := if ctx.include_cond then ctx.keyframe_frame_indices else none
    frame_count := ctx.keyframe_frame_count
    include_video_pos := include_video_pos }).mapError RefError.packed

end Gather

/-! ## Noise augmentation -/

/-- The random draws and the mixing of the augmentation. -/
structure Noise (ρ α : Type) where
  /-- The patch of a seeded draw of a full latent shape at a place. -/
  draw : ℤ → (full_t latent_h latent_w : ℕ) → ℕ → ℕ → ℕ → ρ
  /-- The row of a seeded draw of a number of rows at a place. -/
  draw_audio : ℤ → (rows : ℕ) → ℕ → α
  /-- `timestep * clean + (1 - timestep) * noise`. -/
  mix : ℚ → ρ → ρ → ρ
  mix_audio : ℚ → α → α → α

section Augment

variable {ρ α : Type}

/-- The shapes of the keyframes; a payload without entries is cut into frames. -/
def keyframe_shapes (keyframe : Option (KeyframePayload ρ)) :
    Except RefError (List (ℕ × ℕ × ℕ)) :=
  match keyframe with
  | none => .ok []
  | some keyframe =>
    let frame_rows := (keyframe.latent_h / 2) * (keyframe.latent_w / 2)
    if !keyframe.keyframes.isEmpty then
      .ok (keyframe.keyframes.map (fun entry => (1, entry.latent_h, entry.latent_w)))
    else if frame_rows = 0 ∨ keyframe.rows.length % frame_rows ≠ 0 then
      .error (.value_error "legacy keyframe rows cannot be split into visual-condition frames")
    else .ok (List.replicate (keyframe.rows.length / frame_rows)
      (1, keyframe.latent_h, keyframe.latent_w))

/-- The shape of a block with visual rows. -/
def block_shape : RefItem → Option (ℕ × ℕ × ℕ)
  | .image latent_h latent_w => some (1, latent_h, latent_w)
  | .audio _ => none
  | .video _ _ latent_t latent_h latent_w => some (latent_t, latent_h, latent_w)

def imgvid_condition_shapes (ref2va_blocks : Option (List RefItem))
    (keyframe : Option (KeyframePayload ρ)) (is_ref2va : Bool) :
    Except RefError (List (ℕ × ℕ × ℕ)) := do
  let shapes ← keyframe_shapes keyframe
  match ref2va_blocks with
  | some blocks => .ok (shapes ++ blocks.filterMap block_shape)
  | none =>
    if is_ref2va then
      .error (.value_error "ref2va visual-condition shapes require ordered blocks")
    else .ok shapes

/-- The length of a block's sound; an image has none. -/
def block_audio_t : RefItem → Option ℕ
  | .image _ _ => none
  | .audio ref_audio_t => some ref_audio_t
  | .video _ ref_audio_t _ _ _ => some ref_audio_t

def condition_audio_lengths (blocks : List RefItem) : List ℕ :=
  (blocks.filterMap block_audio_t).filter (0 < ·)

/-- The rows a condition shape stands for. -/
def shape_rows (shape : ℕ × ℕ × ℕ) : ℕ := shape.1 * (shape.2.1 / 2) * (shape.2.2 / 2)

def shape_list (shape : ℕ × ℕ × ℕ) : List ℤ := [shape.1, shape.2.1, shape.2.2]

/-- One turn of the loop that checks the shapes, with the rows they add up to. -/
def check_shape (expected_rows : ℕ) (shape : ℕ × ℕ × ℕ) : Except RefError ℕ :=
  if shape.1 = 0 ∨ shape.2.1 = 0 ∨ shape.2.2 = 0 then
    .error (.value_error ("imgvid condition shape must be positive, got "
      ++ CubeMask.py_list (shape_list shape)))
  else if shape.2.1 % 2 ≠ 0 ∨ shape.2.2 % 2 ≠ 0 then
    .error (.value_error ("imgvid condition spatial dimensions must be divisible by 2, got "
      ++ py_tuple ((shape_list shape).map some)))
  else .ok (expected_rows + shape_rows shape)

/-- One turn of the mixing loop: the rows from the offset on are mixed with the prefix of a
fresh draw. -/
def mix_step (R : Noise ρ α) (clean_rows : List ρ) (full_t : ℕ) (seed : ℤ) (noise_aug : ℚ)
    (st : ℕ × List ρ) (shape : ℕ × ℕ × ℕ) : Except RefError (ℕ × List ρ) :=
  if full_t < shape.1 then
    .error (.value_error ("condition latent_t " ++ toString shape.1
      ++ " exceeds the noise draw length " ++ toString full_t))
  else do
    let noise_rows ← patchify_video_latent (⟨shape.1, shape.2.1, shape.2.2,
      R.draw seed full_t shape.2.1 shape.2.2⟩ : Latent ρ)
    let row_count := noise_rows.length
    let clean_part := (clean_rows.drop st.1).take row_count
    .ok (st.1 + row_count, st.2 ++ List.zipWith (R.mix noise_aug) clean_part noise_rows)

/-- `minimax_h3_imgvid_cond_noise_aug_rows`. -/
def imgvid_cond_noise_aug_rows (R : Noise ρ α) (clean_rows : List ρ)
    (condition_shapes : List (ℕ × ℕ × ℕ)) (target_latent_t imgvid_cond_num_frames : ℕ) (seed : ℤ)
    (noise_aug : ℚ) : Except RefError (List ρ) :=
  if ¬ (0 ≤ noise_aug ∧ noise_aug ≤ 1) then
    .error (.noise_aug_range noise_aug)
  else if noise_aug = 1 then .ok clean_rows
  else if target_latent_t = 0 then
    .error (.value_error "target_latent_t must be positive, got 0")
  else if imgvid_cond_num_frames = 0 then
    .error (.value_error "imgvid_cond_num_frames must be positive when condition rows exist, got 0")
  else do
    let expected_rows ← condition_shapes.foldlM check_shape 0
    let out ← (if condition_shapes = [] then
        .error (.value_error "condition_shapes must not be empty")
      else if clean_rows.length ≠ expected_rows then
        .error (.value_error ("clean imgvid condition rows " ++ toString clean_rows.length
          ++ " != shape-derived rows " ++ toString expected_rows))
      else condition_shapes.foldlM (mix_step R clean_rows
        (target_latent_t + imgvid_cond_num_frames) seed noise_aug) (0, []) :
      Except RefError (ℕ × List ρ))
    .ok out.2

/-- One turn of the audio mixing loop. -/
def mix_audio_step (R : Noise ρ α) (clean_rows : List α) (seed : ℤ) (noise_aug : ℚ)
    (st : ℕ × List α) (audio_t : ℕ) : ℕ × List α :=
  let row_count := audio_channel * audio_t
  let clean_part := (clean_rows.drop st.1).take row_count
  let noise := (List.range clean_part.length).map (R.draw_audio (seed + 1) clean_part.length)
  (st.1 + row_count, st.2 ++ List.zipWith (R.mix_audio noise_aug) clean_part noise)

/-- `minimax_h3_audio_cond_noise_aug_rows`. -/
def audio_cond_noise_aug_rows (R : Noise ρ α) (clean_rows : List α) (condition_audio_t : List ℕ)
    (seed : ℤ) (noise_aug : ℚ) : Except RefError (List α) :=
  let expected_rows := audio_channel * condition_audio_t.sum
  if ¬ (0 ≤ noise_aug ∧ noise_aug ≤ 1) then
    .error (.noise_aug_range noise_aug)
  else if noise_aug = 1 then .ok clean_rows
  else if condition_audio_t = [] then
    .error (.value_error "condition_audio_t must not be empty")
  else if condition_audio_t.any (· = 0) then
    .error (.value_error ("condition audio latent lengths must be positive, got "
      ++ CubeMask.py_list (condition_audio_t.map Int.ofNat)))
  else if clean_rows.length ≠ expected_rows then
    .error (.value_error ("clean audio condition rows " ++ toString clean_rows.length
      ++ " != shape-derived rows " ++ toString expected_rows))
  else .ok (condition_audio_t.foldl (mix_audio_step R clean_rows seed noise_aug) (0, [])).2

/-- The visual half of `_apply_condition_noise_aug`. -/
def augment_visual (R : Noise ρ α) (extras : Extras ρ α) (ctx : LoopContext ρ α)
    (target_latent_t : ℕ) (seed : ℤ) (imgvid_noise_aug : ℚ) : Except RefError (Option (List ρ)) :=
  match ctx.cond_rows with
  | none => .ok none
  | some cond_rows =>
    if imgvid_noise_aug < 1 then do
      let condition_shapes ← imgvid_condition_shapes ctx.ref2va_positive_blocks extras.keyframe
        extras.is_ref2va
      if condition_shapes = [] then
        .error (.value_error "imgvid condition rows are missing shape metadata")
      else
        (imgvid_cond_noise_aug_rows R cond_rows condition_shapes target_latent_t
          condition_shapes.length seed imgvid_noise_aug).map some
    else .ok (some cond_rows)

/-- The audio half of `_apply_condition_noise_aug`, for a request with reference blocks. -/
def augment_audio (R : Noise ρ α) (ctx : LoopContext ρ α) (seed : ℤ) (audio_noise_aug : ℚ) :
    Except RefError (Option (List α)) :=
  match ctx.audio_ref_rows with
  | none => .ok none
  | some audio_rows =>
    if audio_noise_aug < 1 then
      let condition_audio_t := condition_audio_lengths (ctx.ref2va_positive_blocks.getD [])
      if condition_audio_t = [] then
        .error (.value_error "audio condition rows are missing length metadata")
      else (audio_cond_noise_aug_rows R audio_rows condition_audio_t seed audio_noise_aug).map some
    else .ok (some audio_rows)

end Augment

end LightningH3.ReferenceRows
