/-
The temporal chunking of the visual VAE.

A video is encoded clip by clip, `clip_length` frames each, and decoded chunk by chunk,
`tokens_chunk_size` tokens each and the tokens of an overlap behind them. Only the time axis
is modelled: a tensor is the list of its frames (or tokens), and the neural coder, the mixing
of two frames and the cast to the dtype of the output are parameters.

`decode_temporal` has two ways to put the decoded chunks together. One collects them and
concatenates at the end; the other plans the number of frames first, allocates the output and
writes into it as the chunks come.
-/
import Mathlib.Algebra.BigOperators.Group.List.Basic
import Mathlib.Tactic.Ring
import Mathlib.Tactic.Zify
import LightningH3.Lib.Fallible

set_option autoImplicit false

namespace LightningH3.VaeTemporal

open Fallible

/-! ## Configuration -/

/-- The settings of `setup_forward` that concern time. It divides by the two lengths, so none
of them is zero. -/
structure Vae where
  clip_length : ℕ
  vae_ratio_t : ℕ
  token_drop : ℕ
  isolated_first_frame : Bool
  isolated_last_frame : Bool
  isolated_key_frame : Bool
  training : Bool
  clip_length_pos : 0 < clip_length
  vae_ratio_t_pos : 0 < vae_ratio_t

namespace Vae

variable (vae : Vae)

def frame_drop : ℕ := vae.token_drop * vae.vae_ratio_t

/-- `(-clip_length) % vae_ratio_t`. -/
def frame_pre_padding : ℕ := (-(vae.clip_length : ℤ) % vae.vae_ratio_t).toNat

/-- `math.ceil(clip_length / vae_ratio_t)`; the quotient of two integers below `2 ^ 53` has
the same ceiling as a float. -/
def tokens_chunk_size : ℕ := (vae.clip_length + vae.vae_ratio_t - 1) / vae.vae_ratio_t

/-- `(-token_drop) % tokens_chunk_size`. -/
def token_overlap : ℕ := (-(vae.token_drop : ℤ) % vae.tokens_chunk_size).toNat

/-- `max(token_overlap * vae_ratio_t - frame_pre_padding, 0)`. -/
def frame_overlap : ℕ := vae.token_overlap * vae.vae_ratio_t - vae.frame_pre_padding

/-- The first frame has a token of its own in front. -/
def has_head : Bool := vae.isolated_first_frame && vae.frame_pre_padding == 0

/-- `int(token_drop > 0)`. -/
def dropping : ℕ := if vae.token_drop > 0 then 1 else 0

/-- `int(token_drop > 0) + 1`. -/
def split_count : ℕ := vae.dropping + 1

def chunk_dec : ℕ := vae.tokens_chunk_size * vae.vae_ratio_t

end Vae

/-- The parts of the VAE that are not about time. -/
structure Coder (Frame Token : Type) where
  /-- `_adaptive_encode`. -/
  encode : List Frame → List Token
  /-- `_adaptive_decode`. -/
  decode : List Token → List Frame
  /-- Frame `a` faded into frame `b`, at a position of an extent. -/
  mix : ℕ → ℕ → Frame → Frame → Frame
  /-- The cast to `temporal_cat_dtype` and the move to the device of the tokens. -/
  cast : Frame → Frame

inductive VaeError where
  | value_error (message : String)
  | runtime_error (message : String)
  | index_error
deriving DecidableEq, Repr

/-! ## Slices -/

/-- `xs[start:stop]` for bounds that count from the front. -/
def slice {α : Type} (xs : List α) (start stop : ℕ) : List α := (xs.take stop).drop start

/-- `xs[:-n]` for a positive `n`. -/
def drop_back {α : Type} (xs : List α) (n : ℕ) : List α := xs.take (xs.length - n)

/-- `xs[-1:]`. -/
def last_one {α : Type} (xs : List α) : List α := xs.drop (xs.length - 1)

variable {Frame Token : Type}

/-! ## Encoding -/

/-- Clip `i` of a video, filled up with its last frame. -/
def encode_clip (vae : Vae) (x : List Frame) (offset_frame i : ℕ) : List Frame :=
  let frame_num := x.length
  let start_idx := i * vae.clip_length + offset_frame
  let end_idx := (i + 1) * vae.clip_length + offset_frame
  let clip_x := slice x start_idx (min end_idx frame_num)
  if end_idx > frame_num then
    clip_x ++ (List.replicate (end_idx - frame_num) (last_one x)).flatten
  else clip_x

/-- The tokens of a clip; an isolated key frame is encoded alone. -/
def encode_clip_tokens (vae : Vae) (coder : Coder Frame Token) (clip_x : List Frame) : List Token :=
  if vae.isolated_key_frame then
    let z_key := coder.encode (clip_x.take 1)
    if clip_x.length > 1 then z_key ++ coder.encode (clip_x.drop 1) else z_key
  else coder.encode clip_x

def encode_temporal (vae : Vae) (coder : Coder Frame Token) (x : List Frame) : List Token :=
  let offset_frame : ℕ := if vae.has_head then 1 else 0
  let frame_num := x.length
  let pad_size := (((offset_frame : ℤ) - frame_num) % vae.clip_length).toNat
  let padded_frame_num := frame_num + pad_size
  let num_chunks := (padded_frame_num - offset_frame) / vae.clip_length
  let z := (List.range num_chunks).flatMap
    (fun i => encode_clip_tokens vae coder (encode_clip vae x offset_frame i))
  let z := if vae.token_drop > 0 then drop_back z vae.token_drop else z
  let z :=
    if vae.isolated_first_frame then
      let z_first_frame := coder.encode (x.take 1)
      if vae.frame_pre_padding == 0 then z_first_frame ++ z else z_first_frame ++ z.drop 1
    else z
  if vae.isolated_last_frame then
    let last_frame_idx : ℤ := (padded_frame_num : ℤ) - vae.frame_drop + offset_frame
    let input_last_frame :=
      if last_frame_idx ≥ frame_num then last_one x
      else slice x last_frame_idx.toNat (last_frame_idx.toNat + 1)
    z ++ coder.encode input_last_frame
  else z

/-! ## The plan of a decode -/

/-- The tokens to decode, with the isolated ones taken off and the tail filled up. -/
structure Split (Token : Type) where
  z : List Token
  z_head : Option (List Token)
  z_tail : Option (List Token)
  num_chunks : ℤ
  pad_tokens : ℕ

/-- `z.shape[2] - isolated_token_num + token_drop`. -/
def pseudo_total_tokens (vae : Vae) (z_len : ℕ) : ℤ :=
  let isolated_token_num : ℤ :=
    (if vae.has_head then 1 else 0) + (if vae.isolated_last_frame then 1 else 0)
  z_len - isolated_token_num + vae.token_drop

/-- The tokens that fill up the last chunk. -/
def pad_tokens (vae : Vae) (z_len : ℕ) : ℕ :=
  let remainder := pseudo_total_tokens vae z_len % vae.tokens_chunk_size
  if remainder ≠ 0 then (vae.tokens_chunk_size - remainder).toNat else 0

/-- `z[:, :, 1:]` behind an isolated first token. -/
def without_head (vae : Vae) (z : List Token) : List Token := if vae.has_head then z.drop 1 else z

/-- `z[:, :, :-1]` in front of an isolated last token. -/
def without_tail (vae : Vae) (z : List Token) : List Token :=
  if vae.isolated_last_frame then drop_back z 1 else z

/-- The first half of `decode_temporal`. -/
def split_tokens (vae : Vae) (z : List Token) : Except VaeError (Split Token) :=
  if pseudo_total_tokens vae z.length % vae.tokens_chunk_size ≠ 0 ∧ vae.training then
    .error (.value_error s!"Temporal token length {z.length} is wrong!")
  else
    let pad_tokens := pad_tokens vae z.length
    let pseudo_num_chunks :=
      (pseudo_total_tokens vae z.length + pad_tokens) / vae.tokens_chunk_size
    let num_chunks := pseudo_num_chunks - vae.dropping
    let z_head := if vae.has_head then some (z.take 1) else none
    let z := without_head vae z
    let z_tail := if vae.isolated_last_frame then some (last_one z) else none
    let z := without_tail vae z
    let z := if pad_tokens > 0 then z ++ (List.replicate pad_tokens (last_one z)).flatten else z
    .ok { z, z_head, z_tail, num_chunks, pad_tokens }

def decode_temporal_pad_frames (vae : Vae) (z_len pad_tokens : ℕ) : ℕ :=
  if pad_tokens = 0 then 0
  else
    let intra_tail := vae.clip_length % vae.vae_ratio_t
    if intra_tail = 0 then pad_tokens * vae.vae_ratio_t
    else
      let z_len_before_pad := z_len - pad_tokens
      ((List.range pad_tokens).map (fun k =>
        if (z_len_before_pad + k) % vae.tokens_chunk_size = 0 then intra_tail
        else vae.vae_ratio_t)).sum

/-- The isolated first token goes in front of chunk `0`. -/
def cat_head (s : Split Token) (i : ℕ) (clip_z : List Token) : List Token :=
  match s.z_head with
  | some z_head => if i = 0 then z_head ++ clip_z else clip_z
  | none => clip_z

/-- The isolated last token goes behind the last chunk. -/
def cat_tail (s : Split Token) (num_chunks i : ℕ) (clip_z : List Token) : List Token :=
  match s.z_tail with
  | some z_tail => if i = num_chunks - 1 then clip_z ++ z_tail else clip_z
  | none => clip_z

/-- The tokens of chunk `i`. -/
def clip_z (vae : Vae) (s : Split Token) (num_chunks i : ℕ) : List Token :=
  let t_start_idx := i * vae.tokens_chunk_size
  let t_end_idx := t_start_idx + vae.tokens_chunk_size + vae.token_overlap
  let clip_z := slice s.z t_start_idx t_end_idx
  cat_tail s num_chunks i (cat_head s i clip_z)

/-- Part `j` of the decoded frames of a chunk. -/
def clip_dec_chunk (vae : Vae) (clip_dec : List Frame) (j : ℕ) : List Frame :=
  let f_start_idx := j * vae.chunk_dec
  let f_end_idx := min (f_start_idx + vae.chunk_dec) clip_dec.length
  (slice clip_dec f_start_idx f_end_idx).drop vae.frame_pre_padding

/-- `blend` along time: the last frames of `a` fade into the first ones of `b`. -/
def blend (coder : Coder Frame Token) (a b : List Frame) (blend_extent : ℕ) : List Frame :=
  let blend_extent := min (min a.length b.length) blend_extent
  let a_overlap := if blend_extent = 0 then a else a.drop (a.length - blend_extent)
  let b_overlap := b.take blend_extent
  let blended := ((List.range blend_extent).zip (a_overlap.zip b_overlap)).map
    (fun p => coder.mix p.1 blend_extent p.2.1 p.2.2)
  if blend_extent < b.length then blended ++ b.drop blend_extent else blended

/-! ## Concatenating -/

/-- The state of the loop over the decoded chunks. -/
structure Collected (Frame : Type) where
  dec_list : List (List Frame)
  dec_overlap : Option (List Frame)

/-- Part `j` of chunk `i`. -/
def collect_part (vae : Vae) (coder : Coder Frame Token) (clip_dec : List Frame)
    (st : Collected Frame) (j : ℕ) : Collected Frame :=
  let chunk := clip_dec_chunk vae clip_dec j
  if j = 0 then
    let chunk := match st.dec_overlap with
      | some dec_overlap => blend coder dec_overlap chunk vae.frame_overlap
      | none => chunk
    { st with dec_list := st.dec_list ++ [chunk] }
  else { st with dec_overlap := some chunk }

/-- The concatenating half of `decode_temporal`. -/
def decode_temporal_concat (vae : Vae) (coder : Coder Frame Token) (s : Split Token) :
    Except VaeError (List Frame) :=
  let num_chunks := s.num_chunks.toNat
  let clip_dec_list := (List.range num_chunks).map
    (fun i => (coder.decode (clip_z vae s num_chunks i)).map coder.cast)
  if clip_dec_list = [] ∧ (s.z_head.isSome ∨ s.z_tail.isSome) then .error .index_error
  else
    let dec_head :=
      if s.z_head.isSome then [slice (clip_dec_list.headD []) (vae.vae_ratio_t - 1) vae.vae_ratio_t]
      else []
    let clip_dec_list :=
      if s.z_head.isSome then
        clip_dec_list.modify 0 (fun clip_dec => clip_dec.drop vae.vae_ratio_t)
      else clip_dec_list
    let dec_tail := if s.z_tail.isSome then [last_one (clip_dec_list.getLastD [])] else []
    let clip_dec_list :=
      if s.z_tail.isSome then
        clip_dec_list.modify (clip_dec_list.length - 1)
          (fun clip_dec => drop_back clip_dec vae.vae_ratio_t)
      else clip_dec_list
    let st := clip_dec_list.foldl
      (fun st clip_dec => (List.range vae.split_count).foldl (collect_part vae coder clip_dec) st)
      (⟨dec_head, none⟩ : Collected Frame)
    let dec := (st.dec_list ++ st.dec_overlap.toList ++ dec_tail).flatten
    let pad_frames := decode_temporal_pad_frames vae s.z.length s.pad_tokens
    .ok (if pad_frames > 0 then drop_back dec pad_frames else dec)

/-! ## Streaming -/

/-- `_decode_temporal_output_frame_plan`: frames in all, frames of the padding, frames of the
output. -/
structure FramePlan where
  total_frames : ℕ
  pad_frames : ℕ
  output_frames : ℤ
deriving DecidableEq, Repr

/-- The planned length of a decoded chunk without the isolated frames. -/
def planned_clip_frames (vae : Vae) (s : Split Token) (num_chunks i : ℕ) : ℕ :=
  let t_start_idx := i * vae.tokens_chunk_size
  let t_end_idx := t_start_idx + vae.tokens_chunk_size + vae.token_overlap
  let clip_token_len := min t_end_idx s.z.length - min t_start_idx s.z.length
  let head := if i = 0 then s.z_head.map List.length else none
  let tail := if i = num_chunks - 1 then s.z_tail.map List.length else none
  let clip_token_len := clip_token_len + head.getD 0 + tail.getD 0
  let clip_frame_len := clip_token_len * vae.vae_ratio_t
  let clip_frame_len := if head.isSome then clip_frame_len - vae.vae_ratio_t else clip_frame_len
  if tail.isSome then clip_frame_len - vae.vae_ratio_t else clip_frame_len

/-- The planned length of part `j` of a chunk. -/
def planned_chunk_frames (vae : Vae) (clip_frame_len j : ℕ) : ℕ :=
  let f_start_idx := j * vae.chunk_dec
  let f_end_idx := min (f_start_idx + vae.chunk_dec) clip_frame_len
  f_end_idx - f_start_idx - vae.frame_pre_padding

/-- One part of the planning loop: frames so far and frames of the last overlap. -/
def plan_part (vae : Vae) (clip_frame_len : ℕ) (st : ℕ × ℕ) (j : ℕ) : ℕ × ℕ :=
  if j = 0 then (st.1 + planned_chunk_frames vae clip_frame_len j, st.2)
  else (st.1, planned_chunk_frames vae clip_frame_len j)

def decode_temporal_output_frame_plan (vae : Vae) (s : Split Token) (num_chunks : ℕ) : FramePlan :=
  let st := (List.range num_chunks).foldl
    (fun st i => (List.range vae.split_count).foldl
      (plan_part vae (planned_clip_frames vae s num_chunks i)) st)
    (if s.z_head.isSome then 1 else 0, 0)
  let total_frames := st.1 + st.2 + (if s.z_tail.isSome then 1 else 0)
  let pad_frames := decode_temporal_pad_frames vae s.z.length s.pad_tokens
  { total_frames, pad_frames, output_frames := total_frames - pad_frames }

/-- The output under construction: `none` is a frame that is allocated and not written. -/
structure Written (Frame : Type) where
  dec : Option (List (Option Frame))
  write_pos : ℕ
  logical_frames : ℕ
  dropped_frames : ℕ

def write_part (output_frames : ℕ) (st : Written Frame) (part : List Frame) : Written Frame :=
  if part.length = 0 then st
  else
    let dec := st.dec.getD (List.replicate output_frames none)
    let remaining := dec.length - st.write_pos
    let copy_frames := min part.length remaining
    let dec := dec.take st.write_pos ++ (part.take copy_frames).map some
      ++ dec.drop (st.write_pos + copy_frames)
    { dec := some dec
      write_pos := st.write_pos + copy_frames
      logical_frames := st.logical_frames + part.length
      dropped_frames := st.dropped_frames + (part.length - copy_frames) }

/-- The state of the streaming loop. -/
structure Streamed (Frame : Type) where
  out : Written Frame
  dec_overlap : Option (List Frame)

/-- Part `j` of a chunk. -/
def stream_part (vae : Vae) (coder : Coder Frame Token) (output_frames : ℕ) (clip_dec : List Frame)
    (st : Streamed Frame) (j : ℕ) : Streamed Frame :=
  let chunk := clip_dec_chunk vae clip_dec j
  if j = 0 then
    match st.dec_overlap with
    | some dec_overlap =>
      ⟨write_part output_frames st.out (blend coder dec_overlap chunk vae.frame_overlap), none⟩
    | none => ⟨write_part output_frames st.out chunk, none⟩
  else ⟨st.out, some chunk⟩

/-- The end of the last chunk: the overlap that waits, then the isolated last frame. -/
def finish_stream (output_frames : ℕ) (st : Streamed Frame) (dec_tail : Option (List Frame)) :
    Streamed Frame :=
  let st := match st.dec_overlap with
    | some dec_overlap => ⟨write_part output_frames st.out dec_overlap, none⟩
    | none => st
  match dec_tail with
  | some dec_tail => ⟨write_part output_frames st.out dec_tail, st.dec_overlap⟩
  | none => st

/-- Chunk `i` of the streaming loop. -/
def stream_chunk (vae : Vae) (coder : Coder Frame Token) (s : Split Token)
    (num_chunks output_frames : ℕ) (st : Streamed Frame) (i : ℕ) : Streamed Frame :=
  let clip_dec := (coder.decode (clip_z vae s num_chunks i)).map coder.cast
  let has_head := s.z_head.isSome && i == 0
  let has_tail := s.z_tail.isSome && i == num_chunks - 1
  let out := if has_head then
      write_part output_frames st.out (slice clip_dec (vae.vae_ratio_t - 1) vae.vae_ratio_t)
    else st.out
  let clip_dec := if has_head then clip_dec.drop vae.vae_ratio_t else clip_dec
  let dec_tail := if has_tail then some (last_one clip_dec) else none
  let clip_dec := if has_tail then drop_back clip_dec vae.vae_ratio_t else clip_dec
  let st := (List.range vae.split_count).foldl (stream_part vae coder output_frames clip_dec)
    ⟨out, st.dec_overlap⟩
  if i = num_chunks - 1 then finish_stream output_frames st dec_tail else st

def decode_temporal_streaming (vae : Vae) (coder : Coder Frame Token) (s : Split Token) :
    Except VaeError (List (Option Frame)) :=
  let num_chunks := s.num_chunks.toNat
  let plan := decode_temporal_output_frame_plan vae s num_chunks
  if plan.output_frames ≤ 0 then
    .error (.value_error (s!"decode_temporal streaming planned non-positive "
      ++ s!"output_frames={plan.output_frames} total_frames={plan.total_frames} pad_frames={plan.pad_frames}"))
  else
    let output_frames := plan.output_frames.toNat
    let st := (List.range num_chunks).foldl (stream_chunk vae coder s num_chunks output_frames)
      (⟨⟨none, 0, 0, 0⟩, none⟩ : Streamed Frame)
    match st.out.dec with
    | none => .error (.runtime_error "decode_temporal streaming produced no output tensor")
    | some dec =>
      if st.out.logical_frames ≠ plan.total_frames ∨ st.out.dropped_frames ≠ plan.pad_frames
          ∨ st.out.write_pos ≠ output_frames then
        .error (.runtime_error (s!"decode_temporal streaming frame plan mismatch: "
          ++ s!"logical_frames={st.out.logical_frames} total_frames={plan.total_frames} "
          ++ s!"dropped_frames={st.out.dropped_frames} pad_frames={plan.pad_frames} "
          ++ s!"write_pos={st.out.write_pos} output_frames={output_frames}"))
      else .ok dec

/-- `decode_temporal`; `stream` is the switch of the environment. -/
def decode_temporal (vae : Vae) (coder : Coder Frame Token) (stream : Bool) (z : List Token) :
    Except VaeError (List (Option Frame)) := do
  let s ← split_tokens vae z
  if !vae.training && stream then decode_temporal_streaming vae coder s
  else
    let dec ← decode_temporal_concat vae coder s
    pure (dec.map some)

/-! ## Lengths -/

/-- `_align_target_token`; the mode is `pad` or `trim`. -/
def align_target_token (vae : Vae) (T : ℤ) (pad : Bool) : ℤ :=
  let clip_length : ℤ := vae.clip_length
  let vae_ratio_t : ℤ := vae.vae_ratio_t
  let intra_tail := clip_length % vae_ratio_t
  let min_frames := if intra_tail = 0 then vae_ratio_t else intra_tail
  let full_chunks := T / clip_length
  let remainder := T % clip_length
  if remainder = 0 then max T min_frames
  else if pad then
    let aligned_r := -(-(remainder - intra_tail) / vae_ratio_t) * vae_ratio_t + intra_tail
    if aligned_r > clip_length then (full_chunks + 1) * clip_length + intra_tail
    else full_chunks * clip_length + aligned_r
  else
    let k := (remainder - intra_tail) / vae_ratio_t
    if k ≥ 0 then max (full_chunks * clip_length + k * vae_ratio_t + intra_tail) min_frames
    else if full_chunks > 0 then full_chunks * clip_length
    else min_frames

inductive Granularity where
  | chunk
  | token
deriving DecidableEq, Repr

def Granularity.name : Granularity → String
  | .chunk => "chunk"
  | .token => "token"

def align_target (vae : Vae) (T : ℤ) (pad : Bool) (granularity : Granularity) : ℤ :=
  match granularity with
  | .chunk =>
    let step : ℤ := vae.clip_length
    let tail : ℤ := vae.frame_overlap + (if vae.isolated_last_frame then 1 else 0)
    let k := if pad then -(-(T - tail) / step) else (T - tail) / step
    max k 1 * step + tail
  | .token =>
    let isolated_extra : ℤ := if vae.isolated_last_frame then 1 else 0
    align_target_token vae (T - isolated_extra) pad + isolated_extra

def align_video_length (vae : Vae) (video_length : ℤ) (pad : Bool) (granularity : Granularity) :
    Except VaeError ℤ :=
  let target := align_target vae video_length pad granularity
  let delta := target - video_length
  if delta > 0 ∧ !pad then
    .error (.value_error (s!"Cannot trim {video_length} frames to valid length {target}: "
      ++ s!"not enough frames (granularity={granularity.name})"))
  else .ok delta

def get_suitable_video_length (vae : Vae) (video_length : ℤ) : Except VaeError ℤ := do
  let delta ← align_video_length vae video_length false .chunk
  pure (video_length + delta)

def get_latent_length (vae : Vae) (video_length : ℤ) : Except VaeError ℤ := do
  let extra : ℤ := if vae.isolated_last_frame then 1 else 0
  let tail_frame : ℤ := vae.frame_overlap + extra
  let tail_token : ℤ := vae.token_overlap + extra
  let video_length ← get_suitable_video_length vae video_length
  pure ((video_length - tail_frame) / vae.clip_length * vae.tokens_chunk_size + tail_token)

end LightningH3.VaeTemporal
