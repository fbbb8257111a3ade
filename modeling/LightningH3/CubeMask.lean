/-
The request-static layout of cube sparse attention: `mask.py` of
`runtime/layers/attention/backends/cube_sparse_attn`.

The packed tokens are regrouped by semantic label. Text, audio and dense condition
streams are cut into runs of one block's worth of tokens; visual streams are cut into 3D
cubes, either on their own grid or on the grid of the float positions they share with the
target. Every label is then padded to whole physical blocks, and the layout records the
regrouping as index tensors.

Tensors of token indices, labels and counts are lists; a boolean matrix over labels is a
function. Positions live in any linear order. An operation that raises returns the
exception, and a freshly allocated tensor's contents are an argument.
-/
import Mathlib.Data.Rat.Floor
import LightningH3.Lib.Segments
import LightningH3.Lib.IndexOps

set_option autoImplicit false

namespace LightningH3.CubeMask

open Segments IndexOps

/-! ## Errors and their texts -/

/-- What the mask layer raises. -/
inductive CubeError where
  | value_error (message : String)
  | index_error
  | runtime_error
  deriving DecidableEq

/-- `str(tuple)`. -/
def py_tuple (xs : List ℤ) : String :=
  match xs with
  | [x] => "(" ++ toString x ++ ",)"
  | _ => "(" ++ String.intercalate ", " (xs.map toString) ++ ")"

/-- `str(list)` of numbers. -/
def py_list (xs : List ℤ) : String := "[" ++ String.intercalate ", " (xs.map toString) ++ "]"

/-- `str(sorted(set(names)))`. -/
def py_sorted_names (names : List String) : String :=
  let quoted := (names.dedup.insertionSort (· ≤ ·)).map (fun name => "\x27" ++ name ++ "\x27")
  "[" ++ String.intercalate ", " quoted ++ "]"

/-! ## Inputs -/

/-- A positive 3D shape. -/
abbrev Shape := ℕ × (ℕ × ℕ)

def Shape.prod (shape : Shape) : ℕ := shape.1 * (shape.2.1 * shape.2.2)

def Shape.dims (shape : Shape) : List ℤ := [shape.1, shape.2.1, shape.2.2]

/-- The role of a condition visual stream. -/
inductive CondRole where
  | joint_cube
  | independent_cube
  | densePrefix
  deriving DecidableEq

def cond_role? : String → Option CondRole
  | "joint_cube" => some .joint_cube
  | "independent_cube" => some .independent_cube
  | "dense_prefix" => some .densePrefix
  | _ => none

/-- A condition event as the caller lists it: type, index and hash. -/
abbrev RawEvent := String × (ℤ × String)

/-- `PackedStreams`. -/
structure PackedStreams where
  text : List ℕ
  cond_image : List ℕ
  latent : List ℕ
  cond_audio : List ℕ
  audio : List ℕ
  cond_image_shapes : Option (List (Option (List (List ℤ))))
  cond_image_roles : Option (List (Option (List String)))
  cond_event_orders : Option (List (Option (List RawEvent)))
  cond_audio_stream_lens : Option (List (Option (List ℤ)))

inductive EventType where
  | imgvid
  | audio
  deriving DecidableEq

def normalize_condition_event_order (events : List RawEvent) (visual_count audio_count : ℕ)
    (allow_audio_subset : Bool) : Except CubeError (List (EventType × (ℤ × String))) :=
  let unsupported := (events.map Prod.fst).filter (fun t => t ≠ "imgvid" && t ≠ "audio")
  let imgvid_indices : List ℤ := (events.filter (fun e => e.1 = "imgvid")).map (fun e => e.2.1)
  let audio_indices : List ℤ := (events.filter (fun e => e.1 = "audio")).map (fun e => e.2.1)
  let out_of_range := audio_indices.filter
    (fun i => !(decide (0 ≤ i) && decide (i < (audio_count : ℤ))))
  if unsupported ≠ [] then
    .error (.value_error ("unsupported condition event types: " ++ py_sorted_names unsupported))
  else if imgvid_indices ≠ (List.range visual_count).map (fun (n : ℕ) => (n : ℤ)) then
    .error (.value_error ("condition imgvid indices " ++ py_list imgvid_indices
      ++ " do not cover " ++ toString visual_count ++ " tensors"))
  else if allow_audio_subset && decide (out_of_range ≠ []) then
    .error (.value_error ("condition audio indices " ++ py_list out_of_range
      ++ " out of range for " ++ toString audio_count ++ " tensors"))
  else if allow_audio_subset && decide (¬ audio_indices.Nodup) then
    .error (.value_error ("condition audio indices " ++ py_list audio_indices
      ++ " contain duplicates"))
  else if !allow_audio_subset
      && decide (audio_indices ≠ (List.range audio_count).map (fun (n : ℕ) => (n : ℤ))) then
    .error (.value_error ("condition audio indices " ++ py_list audio_indices
      ++ " do not cover " ++ toString audio_count ++ " tensors"))
  else
    .ok (events.map (fun e => (if e.1 = "audio" then EventType.audio else EventType.imgvid, e.2)))

def ceil_div (value divisor : ℕ) : ℕ := (value + divisor - 1) / divisor

/-- Three positive numbers, or nothing. -/
def positive_3d? : List ℤ → Option Shape
  | [a, b, c] =>
    if 0 < a ∧ 0 < b ∧ 0 < c then some (a.toNat, (b.toNat, c.toNat)) else none
  | _ => none

/-- `_cube_token_size`, with the normalised cube size. -/
def cube_token_size (cube_size : List ℤ) : Except CubeError (ℕ × Shape) :=
  match positive_3d? cube_size with
  | none =>
    .error (.value_error ("local_cube_size must be a positive 3D size, got " ++ py_tuple cube_size))
  | some size =>
    let token_size := size.prod
    if token_size &&& (token_size - 1) ≠ 0 then
      .error (.value_error ("local_cube_size product must be a power of two for FlexAttention, got "
        ++ py_tuple cube_size ++ " (" ++ toString token_size ++ " tokens)"))
    else .ok (token_size, size)

def normalize_cube_visual_shape (shape : List ℤ) : Except CubeError Shape :=
  match positive_3d? shape with
  | none =>
    .error (.value_error ("cube attention visual shapes must be positive 3D shapes, got "
      ++ py_tuple shape))
  | some s => .ok s

def normalize_cond_image_roles (roles : List String) (visual_count sample_idx : ℕ) :
    Except CubeError (List CondRole) :=
  if roles.length ≠ visual_count then
    .error (.value_error ("cube attention sample " ++ toString sample_idx ++ " has "
      ++ toString visual_count ++ " condition visual streams but " ++ toString roles.length
      ++ " condition roles"))
  else
    match roles.mapM cond_role? with
    | none =>
      .error (.value_error ("cube attention sample " ++ toString sample_idx
        ++ " has unsupported condition visual roles: "
        ++ py_sorted_names (roles.filter (fun r => (cond_role? r).isNone))))
    | some parsed => .ok parsed

/-! ## Grouping one stream -/

/-- `indices[start:end]`. -/
def slice {α : Type} (xs : List α) (bounds : ℕ × ℕ) : List α := (xs.take bounds.2).drop bounds.1

/-- `_cube_sample_segments`: one slice of the stream for each sample. -/
def cube_sample_segments (indices cu_seqlens : List ℕ) : List (List ℕ) :=
  let bounds := cu_seqlens.map (searchsorted indices)
  (bounds.zip bounds.tail).map (slice indices)

/-- Tokens of one segment in cube order, their local labels, and the number of labels. -/
structure Segment where
  ordered : List ℕ
  labels : List ℕ
  num_blocks : ℕ
  sparse : Bool

/-- The mixed-radix label of a cube coordinate. -/
def cube_label (counts extents coordinate : Shape) : ℕ :=
  ((coordinate.1 / extents.1) * counts.2.1 + coordinate.2.1 / extents.2.1) * counts.2.2
    + coordinate.2.2 / extents.2.2

/-- Tokens in the stable order of their labels. -/
def sort_by_label (indices labels : List ℕ) (num_blocks : ℕ) (sparse : Bool) : Segment :=
  let sorted := stable_sort labels
  { ordered := sorted.map (fun p => indices.getD p.2 0)
    labels := sorted.map Prod.fst
    num_blocks := num_blocks
    sparse := sparse }

/-- `torch.unravel_index` of a linear index. -/
def unravel_index (shape : Shape) (linear : ℕ) : Shape :=
  (linear / (shape.2.1 * shape.2.2), (linear / shape.2.2 % shape.2.1, linear % shape.2.2))

def group_cube_visual_segment (indices : List ℕ) (shape cube_size : Shape) (sample_idx : ℕ)
    (segment_name : String) : Except CubeError Segment :=
  let expected := shape.prod
  if indices.length ≠ expected then
    .error (.value_error ("cube attention " ++ segment_name ++ " for sample "
      ++ toString sample_idx ++ " has " ++ toString indices.length ++ " tokens, expected "
      ++ toString expected ++ " for shape " ++ py_tuple shape.dims))
  else
    let cube_counts : Shape := (ceil_div shape.1 cube_size.1,
      (ceil_div shape.2.1 cube_size.2.1, ceil_div shape.2.2 cube_size.2.2))
    let block_labels := (List.range expected).map
      (fun linear => cube_label cube_counts cube_size (unravel_index shape linear))
    .ok (sort_by_label indices block_labels cube_counts.prod true)

/-- Where a sorted axis changes value, as 0 and 1; the first entry counts as a change. -/
def changes {π : Type} [DecidableEq π] (sorted : List π) : List ℕ :=
  match sorted with
  | [] => []
  | _ :: rest => 1 :: (sorted.zip rest).map (fun p => if p.2 ≠ p.1 then 1 else 0)

def rank_position_axis {π : Type} [LinearOrder π] (values : List π) : List ℕ :=
  let sorted := stable_sort values
  let sorted_ranks := (cumsum (changes (sorted.map Prod.fst))).map (fun c => c - 1)
  scatter (List.replicate values.length 0) (sorted.map Prod.snd) sorted_ranks

/-- `x.max()` of a rank tensor. -/
def max_of (xs : List ℕ) : ℕ := xs.foldl max 0

/-- `position_ids.index_select(0, indices)`. -/
def index_select {α : Type} (rows : List α) (indices : List ℕ) : Except CubeError (List α) :=
  match indices.mapM (fun i => rows[i]?) with
  | none => .error .index_error
  | some selected => .ok selected

def group_joint_cube_visual_segment {π : Type} [LinearOrder π] (indices : List ℕ)
    (position_ids : List (π × (π × π))) (cube_size : Shape) (sample_idx : ℕ) :
    Except CubeError Segment :=
  if indices = [] then
    .error (.value_error ("cube attention joint visual stream for sample "
      ++ toString sample_idx ++ " is empty"))
  else do
    let positions ← index_select position_ids indices
    let t_axis := rank_position_axis (positions.map (fun p => p.1))
    let x_axis := rank_position_axis (positions.map (fun p => p.2.1))
    let y_axis := rank_position_axis (positions.map (fun p => p.2.2))
    let cube_counts : Shape := (max_of t_axis / cube_size.1 + 1,
      (max_of x_axis / cube_size.2.1 + 1, max_of y_axis / cube_size.2.2 + 1))
    let block_labels := (t_axis.zip (x_axis.zip y_axis)).map (cube_label cube_counts cube_size)
    .ok (sort_by_label indices block_labels cube_counts.prod true)

def group_cube_1d_segment (indices : List ℕ) (cube_token_size : ℕ) : Segment where
  ordered := indices
  labels := (List.range indices.length).map (fun i => i / cube_token_size)
  num_blocks := ceil_div indices.length cube_token_size
  sparse := false

def normalize_cube_sample_metadata {α : Type} (values : Option (List (Option (List α))))
    (num_samples : ℕ) (name : String) : Except CubeError (List (List α)) :=
  match values with
  | none => .ok (List.replicate num_samples [])
  | some entries =>
    if entries.length ≠ num_samples then
      .error (.value_error ("cube attention received " ++ toString entries.length ++ " " ++ name
        ++ " entries for " ++ toString num_samples ++ " samples"))
    else .ok (entries.map (fun value => value.getD []))

/-- The loop of `_split_cube_streams`, from an offset on. -/
def split_from (indices : List ℕ) (stream_name : String) :
    ℕ → List ℤ → Except CubeError (List (List ℕ) × ℕ)
  | offset, [] => .ok ([], offset)
  | offset, size :: sizes =>
    if size < 0 then
      .error (.value_error ("cube attention " ++ stream_name
        ++ " stream sizes must be nonnegative"))
    else do
      let rest ← split_from indices stream_name (offset + size.toNat) sizes
      .ok (slice indices (offset, offset + size.toNat) :: rest.1, rest.2)

def split_cube_streams (indices : List ℕ) (stream_sizes : List ℤ) (sample_idx : ℕ)
    (stream_name : String) : Except CubeError (List (List ℕ)) := do
  let split ← split_from indices stream_name 0 stream_sizes
  if split.2 ≠ indices.length then
    .error (.value_error ("cube attention " ++ stream_name ++ " streams for sample "
      ++ toString sample_idx ++ " cover " ++ toString split.2 ++ " tokens, but packing contains "
      ++ toString indices.length ++ " tokens"))
  else .ok split.1

/-! ## The segment layout -/

/-- The accumulators of `_build_cube_segment_layout`. An unassigned token has label -1. -/
structure SegmentState where
  cube_labels : List ℤ
  label_offset : ℕ
  sparse_labels : List Bool
  ordered_segments : List (List ℕ)

def add_segment (st : SegmentState) (seg : Segment) : Except CubeError SegmentState :=
  if seg.ordered = [] then .ok st
  else if seg.ordered.any (fun i => decide (st.cube_labels.length ≤ i)) then .error .index_error
  else
    .ok
      { cube_labels := scatter st.cube_labels seg.ordered
          (seg.labels.map (fun label => ((label + st.label_offset : ℕ) : ℤ)))
        label_offset := st.label_offset + seg.num_blocks
        sparse_labels := st.sparse_labels ++ List.replicate seg.num_blocks seg.sparse
        ordered_segments := st.ordered_segments ++ [seg.ordered] }

/-- One sample's part of every stream and of the condition metadata. -/
structure Sample where
  sample_idx : ℕ
  text : List ℕ
  cond_image : List ℕ
  latent : List ℕ
  cond_audio : List ℕ
  target_audio : List ℕ
  target_shape : Shape
  cond_image_shapes : List (List ℤ)
  cond_image_roles : List String
  cond_event_order : List RawEvent
  cond_audio_stream_lens : List ℤ

/-- The segment of one condition event; a joint stream adds none of its own. Segments are
grouped lazily: an error is raised when the loop reaches its event. -/
def event_segment (cube_size : Shape) (token_size : ℕ) (sample_idx : ℕ)
    (audio_streams visual_streams : List (List ℕ)) (shapes : List Shape) (roles : List CondRole)
    (event : EventType × (ℤ × String)) : Option (Except CubeError Segment) :=
  let idx := event.2.1.toNat
  match event.1 with
  | .audio => some (.ok (group_cube_1d_segment (audio_streams.getD idx []) token_size))
  | .imgvid =>
    let shape := shapes.getD idx (0, (0, 0))
    match roles.getD idx .densePrefix with
    | .joint_cube => none
    | .independent_cube =>
      if shape.1 ≤ 1 then
        some (.error (.value_error ("independent_cube condition visual streams must have "
          ++ "a genuine 3D shape, got " ++ py_tuple shape.dims)))
      else
        some (group_cube_visual_segment (visual_streams.getD idx []) shape cube_size sample_idx
          ("condition visual stream " ++ toString idx))
    | .densePrefix => some (.ok (group_cube_1d_segment (visual_streams.getD idx []) token_size))

/-- The target's segment: the joint condition streams and the latent on one grid. -/
def target_segment {π : Type} [LinearOrder π] (position_ids : List (π × (π × π)))
    (cube_size : Shape) (sample : Sample) (visual_streams : List (List ℕ))
    (roles : List CondRole) : Except CubeError Segment :=
  if sample.latent.length ≠ sample.target_shape.prod then
    .error (.value_error ("cube attention target visual for sample " ++ toString sample.sample_idx
      ++ " has " ++ toString sample.latent.length ++ " tokens, expected "
      ++ toString sample.target_shape.prod ++ " for shape " ++ py_tuple sample.target_shape.dims))
  else
    let joint_streams := ((visual_streams.zip roles).filter (fun p => p.2 = .joint_cube)).map Prod.fst
    group_joint_cube_visual_segment (joint_streams.flatten ++ sample.latent) position_ids cube_size
      sample.sample_idx

/-- The segments of one sample in the order they are added: text, the listed condition
events, the audio streams no event lists, target audio, target visual. -/
def sample_segments {π : Type} [LinearOrder π] (position_ids : List (π × (π × π)))
    (cube_size : Shape) (token_size : ℕ) (sample : Sample) :
    Except CubeError (List (Except CubeError Segment)) := do
  let audio_streams ← split_cube_streams sample.cond_audio sample.cond_audio_stream_lens
    sample.sample_idx "condition audio"
  let shapes ← sample.cond_image_shapes.mapM normalize_cube_visual_shape
  let visual_streams ← split_cube_streams sample.cond_image
    (shapes.map (fun shape => (shape.prod : ℤ))) sample.sample_idx "condition visual"
  let roles ← normalize_cond_image_roles sample.cond_image_roles shapes.length sample.sample_idx
  let events ← normalize_condition_event_order sample.cond_event_order visual_streams.length
    audio_streams.length true
  let listed_audio := (events.filter (fun e => e.1 = .audio)).map (fun e => e.2.1.toNat)
  let unlisted := ((List.range audio_streams.length).filter (fun i => i ∉ listed_audio)).map
    (fun i => audio_streams.getD i [])
  .ok ([.ok (group_cube_1d_segment sample.text token_size)]
    ++ events.filterMap (event_segment cube_size token_size sample.sample_idx audio_streams
        visual_streams shapes roles)
    ++ unlisted.map (fun stream => .ok (group_cube_1d_segment stream token_size))
    ++ [.ok (group_cube_1d_segment sample.target_audio token_size),
        target_segment position_ids cube_size sample visual_streams roles])

/-- Add a sample's segments one after the other. -/
def add_segments (st : SegmentState) (segments : List (Except CubeError Segment)) :
    Except CubeError SegmentState :=
  segments.foldlM (fun st seg => do add_segment st (← seg)) st

/-- One turn of the sample loop: the new state and the sample's label range. -/
def add_sample {π : Type} [LinearOrder π] (position_ids : List (π × (π × π)))
    (cube_size : Shape) (token_size : ℕ) (acc : SegmentState × List (ℕ × ℕ)) (sample : Sample) :
    Except CubeError (SegmentState × List (ℕ × ℕ)) := do
  let segments ← sample_segments position_ids cube_size token_size sample
  let st ← add_segments acc.1 segments
  .ok (st, acc.2 ++ [(acc.1.label_offset, st.label_offset)])

/-- The result of `_build_cube_segment_layout`. -/
structure SegmentLayout where
  cube_labels : List ℤ
  sort_idx : List ℕ
  sample_label_ranges : List (ℕ × ℕ)
  sparse_labels : List Bool

/-- The samples of a packed batch. -/
def samples_of (sample_shapes : List Shape) (cu_seqlens : List ℕ) (streams : PackedStreams) :
    Except CubeError (List Sample) := do
  let num_samples := sample_shapes.length
  let cond_image_shapes ←
    normalize_cube_sample_metadata streams.cond_image_shapes num_samples "condition-shape"
  let cond_image_roles ←
    normalize_cube_sample_metadata streams.cond_image_roles num_samples "condition-role"
  let cond_event_orders ←
    normalize_cube_sample_metadata streams.cond_event_orders num_samples "condition-event"
  let cond_audio_stream_lens ←
    normalize_cube_sample_metadata streams.cond_audio_stream_lens num_samples "condition-audio"
  .ok ((List.range num_samples).map fun i =>
    { sample_idx := i
      text := (cube_sample_segments streams.text cu_seqlens).getD i []
      cond_image := (cube_sample_segments streams.cond_image cu_seqlens).getD i []
      latent := (cube_sample_segments streams.latent cu_seqlens).getD i []
      cond_audio := (cube_sample_segments streams.cond_audio cu_seqlens).getD i []
      target_audio := (cube_sample_segments streams.audio cu_seqlens).getD i []
      target_shape := sample_shapes.getD i (0, (0, 0))
      cond_image_shapes := cond_image_shapes.getD i []
      cond_image_roles := cond_image_roles.getD i []
      cond_event_order := cond_event_orders.getD i []
      cond_audio_stream_lens := cond_audio_stream_lens.getD i [] })

def build_cube_segment_layout {π : Type} [LinearOrder π] (sample_shapes : List Shape)
    (cu_seqlens : List ℕ) (real_total_len : ℕ) (cube_size : Shape) (token_size : ℕ)
    (streams : PackedStreams) (position_ids : List (π × (π × π))) :
    Except CubeError SegmentLayout := do
  if cu_seqlens.length ≠ sample_shapes.length + 1 then
    .error (.value_error ("cube attention received " ++ toString ((cu_seqlens.length : ℤ) - 1)
      ++ " packed sequences for " ++ toString sample_shapes.length ++ " target shapes"))
  else
    let samples ← samples_of sample_shapes cu_seqlens streams
    let init : SegmentState :=
      { cube_labels := List.replicate real_total_len (-1)
        label_offset := 0
        sparse_labels := []
        ordered_segments := [] }
    let acc ← samples.foldlM (add_sample position_ids cube_size token_size) (init, [])
    if acc.1.ordered_segments = [] then .error .runtime_error
    else
      let sort_idx := acc.1.ordered_segments.flatten
      if sort_idx.length ≠ real_total_len then
        match (List.range real_total_len).find? (fun i => acc.1.cube_labels.getD i (-1) < 0) with
        | none => .error .index_error
        | some first_token =>
          .error (.value_error ("cube attention modality segments cover "
            ++ toString sort_idx.length ++ " of " ++ toString real_total_len
            ++ " packed tokens; first unassigned token " ++ toString first_token ++ " in sample "
            ++ toString ((searchsorted_right cu_seqlens first_token : ℤ) - 1)))
      else
        .ok
          { cube_labels := acc.1.cube_labels
            sort_idx := sort_idx
            sample_label_ranges := acc.2
            sparse_labels := acc.1.sparse_labels }

/-- `cube_labels[sort_idx]`. -/
def sorted_labels_of (seg : SegmentLayout) : List ℤ :=
  seg.sort_idx.map (fun i => seg.cube_labels.getD i (-1))

/-- The number of labels the samples allocated. -/
def num_labels_of (seg : SegmentLayout) : ℕ :=
  (seg.sample_label_ranges.map (fun r => r.2 - r.1)).sum

end LightningH3.CubeMask
