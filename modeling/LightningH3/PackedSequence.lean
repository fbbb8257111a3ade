/-
The packed sequence of one request: `packed_sequence.py` of the MiniMax-H3 stages.

Both builders lay rows out one segment after the other and describe the condition rows a
second time in `stream_layout`, for the sparse attention layout to cut them up again.
The keyframe builder packs `[text | keyframes | audio | video | pad]`; the reference
builder packs `[text | keyframes | reference blocks | audio | video | pad]`, a video block
being its audio rows followed by its video rows.

Row numbers, lengths and grid sizes are naturals. The float64 operations of the position
grids, and the library functions behind them, are the fields of `Numeric`: nothing here
depends on how they round. The number of audio channels is the builders' default, which
no caller changes.
-/
import LightningH3.Lib.Fallible
import LightningH3.CubeMask

set_option autoImplicit false

namespace LightningH3.PackedSequence

open CubeMask (Shape py_list)

/-! ## Errors and values -/

/-- What the builders raise. The message for an unsupported kind ends with the kind's
`repr`, so the kind is kept as it is. -/
inductive PackedError where
  | value_error (message : String)
  | unsupported_kind (path kind : String)
  | index_error
  deriving DecidableEq

/-- A value of a reference block's mapping. -/
inductive PyValue where
  | none
  | bool (b : Bool)
  | int (n : ℤ)
  | str (s : String)
  | other
  deriving DecidableEq

/-- A reference block as the request has it; what is not a mapping is nothing. -/
abbrev RawBlock := Option (List (String × PyValue))

/-- The float64 operations and the library functions the position grids are built with:
`np.sqrt`, `np.linspace` without its end point, `np.sum`, and the built-in `sum`. -/
structure Numeric (π : Type) where
  of_nat : ℕ → π
  add : π → π → π
  sub : π → π → π
  mul : π → π → π
  div : π → π → π
  max : π → π → π
  sqrt : π → π
  linspace : π → π → ℕ → List π
  np_sum : List π → π
  py_sum : List π → π
  length_linspace : ∀ left right n, (linspace left right n).length = n

/-! ## Keyframes -/

/-- `MINIMAX_H3_FL2VA_KEYFRAME_SIGNATURES`. -/
def keyframe_signatures : List (List ℤ) := [[0], [-1], [0, -1]]

def keyframe_cond_frame_indices (include_keyframe_cond : Bool)
    (keyframe_frame_indices : Option (List ℤ)) : Except PackedError (List ℤ) :=
  match include_keyframe_cond, keyframe_frame_indices with
  | false, some _ => .error (.value_error
      "keyframe_frame_indices must be omitted when keyframe cond is not included")
  | false, none => .ok []
  | true, none => .error (.value_error "strict fl2va packed layout requires keyframe_frame_indices")
  | true, some out =>
    if out ∉ keyframe_signatures then
      .error (.value_error ("strict fl2va packed layout requires keyframe_frame_indices in "
        ++ "((0,), (-1,), (0, -1)), got " ++ py_list out))
    else .ok out

/-- The loop of `_resolve_keyframe_frame_indices`, with the indices resolved so far. -/
def resolve_from (frame_count : ℤ) : List ℤ → List ℤ → Except PackedError (List ℤ)
  | resolved, [] => .ok resolved
  | resolved, semantic_index :: rest =>
    if semantic_index ≠ -1 ∧ ¬ (0 ≤ semantic_index ∧ semantic_index < frame_count) then
      .error (.value_error ("keyframe frame index " ++ toString semantic_index
        ++ " must be -1 or in [0, " ++ toString frame_count ++ ")"))
    else
      let resolved_index := if semantic_index = -1 then frame_count - 1 else semantic_index
      match resolved.idxOf? resolved_index with
      | some previous => .error (.value_error ("keyframe frame index at block "
          ++ toString resolved.length ++ " resolves to " ++ toString resolved_index
          ++ ", already bound by block " ++ toString previous))
      | none => resolve_from frame_count (resolved ++ [resolved_index]) rest

def resolve_keyframe_frame_indices (frame_indices : List ℤ) (frame_count : Option ℤ) :
    Except PackedError (List ℤ) :=
  match frame_count with
  | none =>
    if frame_indices ≠ [] then
      .error (.value_error "frame_count is required when keyframe_frame_indices are provided")
    else .ok []
  | some count =>
    if count ≤ 0 then .error (.value_error "frame_count must be positive")
    else resolve_from count [] frame_indices

/-! ## Position grids -/

section Grids

variable {π : Type} (N : Numeric π)

/-- `_FRAME_PER_TOKEN`, at a token index modulo `_T_GROUP`. -/
def frame_per_token (k : ℕ) : ℕ := if k % 5 = 0 then 1 else 4

/-- `_FRAME_RESCALE`. -/
def frame_rescale : π := N.div (N.of_nat 5) (N.of_nat 3)

def temporal_position_span (temporal_length : ℕ) : π :=
  N.np_sum ((List.range temporal_length).map (fun k =>
    N.mul (N.mul (N.of_nat 1) (frame_rescale N)) (N.of_nat (frame_per_token k))))

def token_spans (n : ℕ) : List π :=
  (List.range n).map (fun k => N.mul (frame_rescale N) (N.of_nat (frame_per_token k)))

def video_t_span (n : ℕ) : π := N.py_sum (token_spans N n)

/-- `cumsum`, from a running sum. -/
def running_sums (acc : π) : List π → List π
  | [] => []
  | x :: xs => N.add acc x :: running_sums (N.add acc x) xs

def video_t_grid (n : ℕ) (origin : π) : List π :=
  (N.of_nat 0 :: running_sums N (N.of_nat 0) (token_spans N n).dropLast).map (N.add origin)

def axis_from_sqrt_area (dim patch : ℕ) (sqrt_area : π) : List π :=
  let ratio := N.div (N.of_nat dim) sqrt_area
  let left := N.div (N.mul (N.sub (N.of_nat 1) ratio) (N.of_nat 1)) (N.of_nat 2)
  let right := N.add left (N.mul ratio (N.of_nat 1))
  (N.linspace left right (dim / patch)).map (fun x => N.mul x (N.of_nat 32))

/-- The height axis of a latent grid. -/
def h_grid (latent_h latent_w : ℕ) : List π :=
  axis_from_sqrt_area N latent_h 2 (N.sqrt (N.of_nat (latent_h * latent_w)))

/-- The width axis of a latent grid. -/
def w_grid (latent_h latent_w : ℕ) : List π :=
  axis_from_sqrt_area N latent_w 2 (N.sqrt (N.of_nat (latent_h * latent_w)))

/-- The rows of one frame: the two axes, meshed. -/
def frame_grid (latent_h latent_w : ℕ) : List (π × π) :=
  (h_grid N latent_h latent_w).flatMap (fun h =>
    (w_grid N latent_h latent_w).map (fun w => (h, w)))

def text_positions (text_len : ℕ) : List (π × (π × π)) :=
  (List.range text_len).map (fun i => (N.of_nat i, (N.of_nat 0, N.of_nat 0)))

def image_positions (latent_h latent_w : ℕ) (t : π) : List (π × (π × π)) :=
  (frame_grid N latent_h latent_w).map (fun p => (t, p))

/-- Positions of a video from a temporal origin on. -/
def video_positions (latent_t latent_h latent_w : ℕ) (origin : π) : List (π × (π × π)) :=
  (List.range latent_t).flatMap (fun i =>
    image_positions N latent_h latent_w ((video_t_grid N latent_t origin).getD i origin))

/-- The builders' `audio_channel`. -/
def audio_channel : ℕ := 2

/-- Positions of audio rows, channel by channel, pinned to the ends of a width axis. -/
def audio_positions (audio_t : ℕ) (origin w_first w_last : π) : List (π × (π × π)) :=
  (List.range audio_channel).flatMap (fun channel => (List.range audio_t).map (fun i =>
    (N.add origin (N.of_nat i), (N.of_nat 0, if channel = 0 then w_first else w_last))))

/-- `float(grid[0])` and `float(grid[-1])`. -/
def grid_ends (grid : List π) : Except PackedError (π × π) :=
  match grid.head?, grid.getLast? with
  | some first, some last => .ok (first, last)
  | _, _ => .error .index_error

/-- The temporal position of a keyframe; only the first and the last frame have one. -/
def keyframe_t (message : String) (latent_t : ℕ) (origin : π) (frame_count : Option ℤ)
    (pixel_index : ℤ) : Except PackedError π :=
  if pixel_index = 0 then .ok origin
  else if frame_count = some (pixel_index + 1) then
    .ok (N.sub (N.add origin (temporal_position_span N latent_t)) (frame_rescale N))
  else .error (.value_error (message ++ toString pixel_index))

end Grids

/-! ## The packed layout -/

/-- `stream_layout`. -/
structure StreamLayout where
  target_shape : Shape
  cond_image_shapes : List Shape
  cond_image_roles : List String
  cond_event_orders : List (String × ℕ)
  cond_audio_stream_lens : List ℕ
  deriving DecidableEq

structure Packed (π : Type) where
  seq_len : ℕ
  img_pos : List ℕ
  audio_pos : List ℕ
  text_pos : List ℕ
  update_mask : List Bool
  audio_update_mask : Option (List Bool)
  img_position_ids : List (π × (π × π))
  token_tags : List ℤ
  cu_seqlens : List ℕ
  stream_layout : Option StreamLayout
  video_pos : Option (List ℕ)

/-- Used rows rounded up to `MINIMAX_H3_PACKED_SEQUENCE_ALIGNMENT`. -/
def aligned (used : ℕ) : ℕ := (used + 64 - 1) / 64 * 64

/-- `mask = zeros(n); mask[skip:] = True`. -/
def suffix_mask (n skip : ℕ) : List Bool := (List.range n).map (fun i => decide (skip ≤ i))

/-- `tags[rows] = tag`. -/
def set_tags (tags : List ℤ) (rows : List ℕ) (tag : ℤ) : List ℤ :=
  IndexOps.scatter tags rows (List.replicate rows.length tag)

/-- `token_tags`: padding -1, text 1, audio 2, visual 0. -/
def token_tags_of (seq_len : ℕ) (text_pos audio_pos img_pos : List ℕ) : List ℤ :=
  set_tags (set_tags (set_tags (List.replicate seq_len (-1)) text_pos 1) audio_pos 2) img_pos 0

/-- The rows that are positioned, padded with zero positions. -/
def padded_positions {π : Type} (N : Numeric π) (seq_len used : ℕ)
    (positions : List (π × (π × π))) : List (π × (π × π)) :=
  positions ++ List.replicate (seq_len - used) (N.of_nat 0, (N.of_nat 0, N.of_nat 0))

/-- The arguments of `minimax_h3_packed_sequence`. -/
structure KeyframeArgs where
  text_len : ℕ
  latent_t : ℕ
  latent_h : ℕ
  latent_w : ℕ
  audio_t : ℕ
  include_keyframe_cond : Bool
  keyframe_frame_indices : Option (List ℤ)
  frame_count : Option ℤ
  include_video_pos : Bool

/-- The layout `minimax_h3_packed_sequence` returns, from the keyframe indices as given and
as resolved, their temporal positions and the ends of the width axis. -/
def keyframe_packed {π : Type} (N : Numeric π) (args : KeyframeArgs)
    (cond_frame_indices resolved : List ℤ) (keyframes : List π) (ends : π × π) : Packed π :=
  let ph := args.latent_h / 2
  let pw := args.latent_w / 2
  let frame_rows := ph * pw
  let cond_rows := cond_frame_indices.length * frame_rows
  let video_rows := args.latent_t * frame_rows
  let audio_rows := args.audio_t * audio_channel
  let used := args.text_len + cond_rows + audio_rows + video_rows
  let seq_len := aligned used
  let audio_start := args.text_len + cond_rows
  let video_start := audio_start + audio_rows
  let target_img_pos := List.range' video_start video_rows
  let img_pos := List.range' args.text_len cond_rows ++ target_img_pos
  let audio_pos := List.range' audio_start audio_rows
  let text_pos := List.range args.text_len
  let origin := N.of_nat args.text_len
  let positions := text_positions N args.text_len
    ++ (keyframes.flatMap (image_positions N args.latent_h args.latent_w)
    ++ (audio_positions N args.audio_t origin ends.1 ends.2
    ++ video_positions N args.latent_t args.latent_h args.latent_w origin))
  { seq_len := seq_len
    img_pos := img_pos
    audio_pos := audio_pos
    text_pos := text_pos
    update_mask := suffix_mask img_pos.length cond_rows
    audio_update_mask := none
    img_position_ids := padded_positions N seq_len used positions
    token_tags := token_tags_of seq_len text_pos audio_pos img_pos
    cu_seqlens := [0, used, seq_len]
    stream_layout := some
      { target_shape := (args.latent_t, (ph, pw))
        cond_image_shapes := resolved.map (fun _ => (1, (ph, pw)))
        cond_image_roles := resolved.map (fun _ => "joint_cube")
        cond_event_orders := (List.range resolved.length).map (fun index => ("imgvid", index))
        cond_audio_stream_lens := [] }
    video_pos := if args.include_video_pos then some target_img_pos else none }

def minimax_h3_packed_sequence {π : Type} (N : Numeric π) (args : KeyframeArgs) :
    Except PackedError (Packed π) := do
  let cond_frame_indices ←
    keyframe_cond_frame_indices args.include_keyframe_cond args.keyframe_frame_indices
  let resolved ← resolve_keyframe_frame_indices cond_frame_indices args.frame_count
  let keyframes ← resolved.mapM (keyframe_t N
    "fl2va packed layout only supports first/last keyframe anchors, got resolved frame index "
    args.latent_t (N.of_nat args.text_len) args.frame_count)
  let ends ← grid_ends (w_grid N args.latent_h args.latent_w)
  .ok (keyframe_packed N args cond_frame_indices resolved keyframes ends)

/-! ## Reference blocks -/

/-- `block.get(key)`. -/
def block_get (block : List (String × PyValue)) (key : String) : PyValue :=
  (block.lookup key).getD .none

/-- `_positive_int`. A `bool` is not an integer here. -/
def positive_int (block : List (String × PyValue)) (key path : String) (allow_zero : Bool) :
    Except PackedError ℕ :=
  match block_get block key with
  | .int value =>
    if value < 0 ∨ (value = 0 ∧ allow_zero = false) then
      .error (.value_error (path ++ "." ++ key ++ " must be "
        ++ (if allow_zero then "non-negative" else "positive")))
    else .ok value.toNat
  | _ => .error (.value_error (path ++ "." ++ key ++ " must be an integer"))

/-- A parsed reference block; a video-bearing block keeps which of the two kinds it had. -/
inductive RefItem where
  | image (latent_h latent_w : ℕ)
  | audio (ref_audio_t : ℕ)
  | video (with_audio : Bool) (ref_audio_t latent_t latent_h latent_w : ℕ)
  deriving DecidableEq

/-- One turn of the parsing loop. -/
def parse_ref_block (index : ℕ) (raw : RawBlock) : Except PackedError RefItem :=
  let path := "ref_blocks[" ++ toString index ++ "]"
  match raw with
  | none => .error (.value_error (path ++ " must be an object"))
  | some block =>
    match (block.lookup "kind").getD (block_get block "type") with
    | .str kind =>
      if kind = "" then .error (.value_error (path ++ ".kind must be a non-empty string"))
      else if kind = "image" then do
        let rh ← positive_int block "latent_h" path false
        let rw ← positive_int block "latent_w" path false
        .ok (.image rh rw)
      else if kind = "audio" then do
        let rt ← positive_int block "ref_audio_t" path true
        .ok (.audio rt)
      else if kind = "video" ∨ kind = "video_audio" then do
        let rt ← positive_int block "ref_audio_t" path true
        let vt ← positive_int block "latent_t" path false
        let vh ← positive_int block "latent_h" path false
        let vw ← positive_int block "latent_w" path false
        .ok (.video (decide (kind = "video_audio")) rt vt vh vw)
      else .error (.unsupported_kind path kind)
    | _ => .error (.value_error (path ++ ".kind must be a non-empty string"))

/-- The parsing loop. -/
def parse_ref_blocks (ref_blocks : List RawBlock) : Except PackedError (List RefItem) :=
  ref_blocks.zipIdx.mapM (fun p => parse_ref_block p.2 p.1)

/-- The patch grid of a block's visual rows. -/
def RefItem.visual_shape : RefItem → Shape
  | .image latent_h latent_w => (1, (latent_h / 2, latent_w / 2))
  | .audio _ => (0, (0, 0))
  | .video _ _ latent_t latent_h latent_w => (latent_t, (latent_h / 2, latent_w / 2))

def RefItem.visual_rows (item : RefItem) : ℕ := item.visual_shape.prod

def RefItem.audio_rows : RefItem → ℕ
  | .image _ _ => 0
  | .audio ref_audio_t => ref_audio_t * audio_channel
  | .video _ ref_audio_t _ _ _ => ref_audio_t * audio_channel

/-- A block with the rows it got: its audio rows, then its visual rows. -/
structure BlockSlice where
  item : RefItem
  audio_start : ℕ
  visual_start : ℕ

def BlockSlice.audio_pos (block : BlockSlice) : List ℕ :=
  List.range' block.audio_start block.item.audio_rows

def BlockSlice.visual_pos (block : BlockSlice) : List ℕ :=
  List.range' block.visual_start block.item.visual_rows

/-- The cursor loop that hands out rows. -/
def block_slices : ℕ → List RefItem → List BlockSlice
  | _, [] => []
  | cursor, item :: items =>
    { item := item
      audio_start := cursor
      visual_start := cursor + item.audio_rows }
    :: block_slices (cursor + item.audio_rows + item.visual_rows) items

/-- Positions of a block's audio rows. An empty width axis fails only when there are rows. -/
def ref_audio_positions {π : Type} (N : Numeric π) (ref_audio_t : ℕ) (t_cursor : π)
    (grid : List π) : Except PackedError (List (π × (π × π))) :=
  if ref_audio_t = 0 then .ok []
  else do
    let ends ← grid_ends grid
    .ok (audio_positions N ref_audio_t t_cursor ends.1 ends.2)

/-- One turn of the positioning loop: the rows' positions and the advanced cursor. -/
def block_positions {π : Type} (N : Numeric π) (target_w_grid : List π) (t_cursor : π)
    (item : RefItem) : Except PackedError (List (π × (π × π)) × π) :=
  match item with
  | .image latent_h latent_w =>
    .ok (image_positions N latent_h latent_w t_cursor, N.add t_cursor (N.of_nat 1))
  | .audio ref_audio_t => do
      let audio ← ref_audio_positions N ref_audio_t t_cursor target_w_grid
      .ok (audio, N.add t_cursor (N.of_nat ref_audio_t))
  | .video _ ref_audio_t latent_t latent_h latent_w => do
      let audio ← ref_audio_positions N ref_audio_t t_cursor (w_grid N latent_h latent_w)
      .ok (audio ++ video_positions N latent_t latent_h latent_w t_cursor,
        N.add t_cursor (N.max (N.of_nat ref_audio_t) (video_t_span N latent_t)))

/-- The positioning loop: all blocks' positions and the target's temporal origin. -/
def blocks_positions {π : Type} (N : Numeric π) (target_w_grid : List π) (t_cursor : π)
    (items : List RefItem) : Except PackedError (List (π × (π × π)) × π) :=
  items.foldlM (fun acc item => do
    let block ← block_positions N target_w_grid acc.2 item
    .ok (acc.1 ++ block.1, block.2)) ([], t_cursor)

/-- The accumulators of the description loop. -/
structure Description where
  cond_image_shapes : List Shape
  cond_image_roles : List String
  cond_event_orders : List (String × ℕ)
  cond_audio_stream_lens : List ℕ

/-- One turn of the description loop. -/
def describe (acc : Description) (item : RefItem) : Description :=
  match item with
  | .image _ _ =>
    { acc with
      cond_event_orders := acc.cond_event_orders ++ [("imgvid", acc.cond_image_shapes.length)]
      cond_image_shapes := acc.cond_image_shapes ++ [item.visual_shape]
      cond_image_roles := acc.cond_image_roles ++ ["dense_prefix"] }
  | .audio _ =>
    { acc with
      cond_event_orders := acc.cond_event_orders
        ++ [("audio", acc.cond_audio_stream_lens.length)]
      cond_audio_stream_lens := acc.cond_audio_stream_lens ++ [item.audio_rows] }
  | .video _ _ _ _ _ =>
    { cond_event_orders := acc.cond_event_orders
        ++ [("audio", acc.cond_audio_stream_lens.length), ("imgvid", acc.cond_image_shapes.length)]
      cond_audio_stream_lens := acc.cond_audio_stream_lens ++ [item.audio_rows]
      cond_image_shapes := acc.cond_image_shapes ++ [item.visual_shape]
      cond_image_roles := acc.cond_image_roles ++ ["independent_cube"] }

def describe_blocks (items : List RefItem) : Description := items.foldl describe ⟨[], [], [], []⟩

/-- The arguments of `minimax_h3_packed_sequence_ref2va_blocks`. -/
structure RefArgs where
  text_len : ℕ
  latent_t : ℕ
  latent_h : ℕ
  latent_w : ℕ
  audio_t : ℕ
  ref_blocks : List RawBlock
  keyframe_frame_indices : Option (List ℤ)
  frame_count : Option ℤ
  seq_len : Option ℕ
  include_video_pos : Bool

/-- The rows the reference builder uses. -/
def RefArgs.used (args : RefArgs) (parsed : List RefItem) (keyframe_indices : List ℤ) : ℕ :=
  let frame_rows := (args.latent_h / 2) * (args.latent_w / 2)
  args.text_len + keyframe_indices.length * frame_rows
    + ((parsed.map RefItem.visual_rows).sum + (parsed.map RefItem.audio_rows).sum)
    + args.audio_t * audio_channel + args.latent_t * frame_rows

/-- The layout `minimax_h3_packed_sequence_ref2va_blocks` returns, from its parsed blocks and
keyframe indices, the blocks' positions with the target's origin, the temporal positions
of the keyframes and the ends of the width axis. -/
def reference_packed {π : Type} (N : Numeric π) (args : RefArgs) (seq_len : ℕ)
    (parsed : List RefItem) (keyframe_indices : List ℤ) (located : List (π × (π × π)) × π)
    (keyframes : List π) (ends : π × π) : Packed π :=
  let ph := args.latent_h / 2
  let pw := args.latent_w / 2
  let frame_rows := ph * pw
  let ref_visual_rows := (parsed.map RefItem.visual_rows).sum
  let ref_audio_rows := (parsed.map RefItem.audio_rows).sum
  let keyframe_rows := keyframe_indices.length * frame_rows
  let video_rows := args.latent_t * frame_rows
  let audio_rows := args.audio_t * audio_channel
  let used := args.used parsed keyframe_indices
  let blocks := block_slices (args.text_len + keyframe_rows) parsed
  let audio_start := args.text_len + keyframe_rows + (ref_visual_rows + ref_audio_rows)
  let video_start := audio_start + audio_rows
  let positions := text_positions N args.text_len
    ++ (keyframes.flatMap (image_positions N args.latent_h args.latent_w) ++ (located.1
    ++ (audio_positions N args.audio_t located.2 ends.1 ends.2
    ++ video_positions N args.latent_t args.latent_h args.latent_w located.2)))
  let target_img_pos := List.range' video_start video_rows
  let img_pos := List.range' args.text_len keyframe_rows
    ++ (blocks.flatMap BlockSlice.visual_pos ++ target_img_pos)
  let audio_pos := blocks.flatMap BlockSlice.audio_pos ++ List.range' audio_start audio_rows
  let text_pos := List.range args.text_len
  let description := describe_blocks parsed
  { seq_len := seq_len
    img_pos := img_pos
    audio_pos := audio_pos
    text_pos := text_pos
    update_mask := suffix_mask img_pos.length (keyframe_rows + ref_visual_rows)
    audio_update_mask := some (suffix_mask audio_pos.length ref_audio_rows)
    img_position_ids := padded_positions N seq_len used positions
    token_tags := token_tags_of seq_len text_pos audio_pos img_pos
    cu_seqlens := [0, used, seq_len]
    stream_layout := some
      { target_shape := (args.latent_t, (ph, pw))
        cond_image_shapes := description.cond_image_shapes
        cond_image_roles := description.cond_image_roles
        cond_event_orders := description.cond_event_orders
        cond_audio_stream_lens := description.cond_audio_stream_lens }
    video_pos :=
      if args.include_video_pos then
        some ((blocks.filter (fun block => match block.item with
          | .video _ _ _ _ _ => true
          | _ => false)).flatMap BlockSlice.visual_pos ++ target_img_pos)
      else none }

def minimax_h3_packed_sequence_ref2va_blocks {π : Type} (N : Numeric π) (args : RefArgs) :
    Except PackedError (Packed π) := do
  let parsed ← parse_ref_blocks args.ref_blocks
  let keyframe_indices ←
    keyframe_cond_frame_indices args.keyframe_frame_indices.isSome args.keyframe_frame_indices
  let resolved ← resolve_keyframe_frame_indices keyframe_indices args.frame_count
  let used := args.used parsed keyframe_indices
  let seq_len := args.seq_len.getD (aligned used)
  if seq_len < used then
    .error (.value_error ("seq_len " ++ toString seq_len ++ " < used rows " ++ toString used))
  else
    let target_w_grid := w_grid N args.latent_h args.latent_w
    let located ← blocks_positions N target_w_grid (N.of_nat args.text_len) parsed
    let ends ← grid_ends target_w_grid
    let keyframes ← resolved.mapM (keyframe_t N
      "hybrid ref2va layout only supports first/last keyframe anchors, got resolved frame index "
      args.latent_t located.2 args.frame_count)
    .ok (reference_packed N args seq_len parsed keyframe_indices located keyframes ends)

end LightningH3.PackedSequence
