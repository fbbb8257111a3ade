/-
`MiniMaxH3DenoiseBranch` and `minimax_h3_denoise_loop`, as far as rows and buffers go.

The loop keeps the rows of each modality, condition rows first, and the branch keeps a
packed buffer for each. The first step writes all rows into the buffer, later steps only
the target rows. The Euler update changes the target rows in place.

Video and audio are handled alike, so one `Modality` serves both. Rows are values of an
arbitrary type, and the float operations on them are parameters. The model's outputs are
any sequence; what the branch passes on unchanged (timesteps, AdaLN slots, layouts) is
left out.
-/
import LightningH3.PackedSequence

set_option autoImplicit false

namespace LightningH3.DenoiseLoop

open IndexOps PackedSequence

/-! ## The branch -/

/-- What the branch and the loop raise. -/
inductive DenoiseError where
  | value_error (message : String)
  | index_error
  | shape_error
  deriving DecidableEq

/-- The row lists of one modality, by its update mask. -/
structure Modality where
  pos : List ℕ
  target_start : ℕ
  cond_seq_idx : List ℕ
  target_seq_idx : List ℕ
  cond_row_idx : List ℕ
  deriving DecidableEq

/-- `xs[mask]` of a mask that fits. -/
def masked {α : Type} (xs : List α) (mask : List Bool) : List α :=
  ((xs.zip mask).filter Prod.snd).map Prod.fst

/-- The row sets the branch resolves for one modality. -/
def modality (pos : List ℕ) (mask : List Bool) : Except DenoiseError Modality :=
  if pos.length ≠ mask.length then .error .index_error
  else .ok
    { pos := pos
      target_start := (mask.map not).count true
      cond_seq_idx := masked pos (mask.map not)
      target_seq_idx := masked pos mask
      cond_row_idx := masked (List.range mask.length) (mask.map not) }

/-- The branch's row data. -/
structure Branch where
  seq_len : ℕ
  video : Modality
  audio : Modality
  deriving DecidableEq

/-- `MiniMaxH3DenoiseBranch.__init__`, from the shapes of the text embeddings and the tags. -/
def denoise_branch {π : Type} (packed : Packed π) (text_shape : List ℕ) (num_tags : ℕ) :
    Except DenoiseError Branch :=
  if text_shape.headD 0 ≠ packed.text_pos.length then
    .error (.value_error ("text_embeddings rows "
      ++ CubeMask.py_list (text_shape.map (fun (n : ℕ) => (n : ℤ)))
      ++ " != packed text_len " ++ toString packed.text_pos.length))
  else if num_tags ≠ packed.seq_len then
    .error (.value_error ("token_tags length " ++ toString num_tags ++ " != seq_len "
      ++ toString packed.seq_len))
  else do
    let video ← modality packed.img_pos packed.update_mask
    let audio ← modality packed.audio_pos
      (packed.audio_update_mask.getD (packed.audio_pos.map (fun _ => true)))
    .ok { seq_len := packed.seq_len
          video := video
          audio := audio }

/-! ## Buffers -/

section Buffers

variable {R V A : Type}

/-- `xs.index_copy_(0, idx, rows)`. -/
def index_copy (xs : List R) (idx : List ℕ) (rows : List R) : Except DenoiseError (List R) :=
  if idx.length ≠ rows.length then .error .shape_error
  else if idx.any (fun i => decide (xs.length ≤ i)) then .error .index_error
  else .ok (scatter xs idx rows)

/-- The persistent buffers of a branch. -/
structure Buffers (V A : Type) where
  x : List V
  audio_x : List A
  primed : Bool

/-- A branch's buffers before the first step. -/
def zero_buffers [Zero V] [Zero A] (branch : Branch) : Buffers V A where
  x := List.replicate branch.seq_len 0
  audio_x := List.replicate branch.seq_len 0
  primed := false

/-- One modality's write: every row at first, then the target rows. -/
def write_rows (m : Modality) (primed : Bool) (buffer rows : List R) :
    Except DenoiseError (List R) :=
  if primed then index_copy buffer m.target_seq_idx (rows.drop m.target_start)
  else index_copy buffer m.pos rows

/-- `forward_kwargs`: the buffers the model is called with. -/
def forward_kwargs (branch : Branch) (buffers : Buffers V A) (video_rows : List V)
    (audio_rows : List A) : Except DenoiseError (Buffers V A) := do
  let x ← write_rows branch.video buffers.primed buffers.x video_rows
  let audio_x ← write_rows branch.audio buffers.primed buffers.audio_x audio_rows
  .ok { x := x
        audio_x := audio_x
        primed := true }

end Buffers

/-! ## The update -/

section Update

variable {F S R : Type}

/-- Python floats and fp32 scalars, as the schedule uses them. -/
structure Scalars (F S : Type) where
  one_minus : F → F
  is_zero : F → Bool
  to_fp32 : F → S
  fp32_one_minus : S → S
  fp32_div : S → S → S

/-- fp32 rows. -/
structure RowOps (S R : Type) where
  scale : S → R → R
  add : R → R → R

/-- One step of one schedule. -/
structure StepCoeffs (S : Type) where
  sigma_t : S
  sigma_curr_is_zero : Bool
  sigma_ratio : S
  one_minus_sigma_ratio : S

/-- The coefficients of every step of a sigma schedule. -/
def step_coeffs (fl : Scalars F S) (sigmas : List F) : List (StepCoeffs S) :=
  (sigmas.zip sigmas.tail).map (fun p =>
    let sigma_ratio := fl.fp32_div (fl.to_fp32 p.2) (fl.to_fp32 p.1)
    { sigma_t := fl.fp32_one_minus (fl.to_fp32 (fl.one_minus p.1))
      sigma_curr_is_zero := fl.is_zero p.1
      sigma_ratio := sigma_ratio
      one_minus_sigma_ratio := fl.fp32_one_minus sigma_ratio })

/-- The rows of a velocity against a number of target rows; a single row is broadcast. -/
def broadcast_rows (count : ℕ) (rows : List R) : Except DenoiseError (List R) :=
  if rows.length = count then .ok rows
  else
    match rows with
    | [row] => .ok (List.replicate count row)
    | _ => .error .shape_error

/-- `_minimax_h3_update_target_rows_`. -/
def update_target_rows (ops : RowOps S R) (c : StepCoeffs S) (state velocity : List R) :
    Except DenoiseError (List R) := do
  let velocity ← broadcast_rows state.length velocity
  let denoised := List.zipWith ops.add state (velocity.map (ops.scale c.sigma_t))
  if c.sigma_curr_is_zero then .ok state
  else .ok (List.zipWith ops.add (state.map (ops.scale c.sigma_ratio))
    (denoised.map (ops.scale c.one_minus_sigma_ratio)))

/-- The update of the target rows in place. -/
def update_rows (ops : RowOps S R) (m : Modality) (c : StepCoeffs S) (rows velocity : List R) :
    Except DenoiseError (List R) := do
  let target ← update_target_rows ops c (rows.drop m.target_start) velocity
  .ok (rows.take m.target_start ++ target)

end Update

/-! ## The loop -/

section Loop

variable {F S V A : Type} [Zero V] [Zero A]

/-- The arguments of `minimax_h3_denoise_loop` that reach rows and buffers, with the
branch's own state left out. -/
structure LoopArgs (F V A : Type) where
  initial_video_rows : List V
  initial_audio_rows : List A
  keyframe_cond_rows : Option (List V)
  audio_ref_rows : Option (List A)
  sigmas_video : List F
  sigmas_audio : List F

/-- The arithmetic of the loop. -/
structure LoopOps (F S V A : Type) where
  scalars : Scalars F S
  video : RowOps S V
  audio : RowOps S A

/-- The loop's variables at the start of a step. -/
structure LoopState (V A : Type) where
  video_rows : List V
  audio_rows : List A
  buffers : Buffers V A

/-- The check that anchors and layout agree. -/
def check_anchors {R : Type} (anchors : Option (List R)) (count : ℕ) (missing : String)
    (mismatch : ℕ → String) : Except DenoiseError Unit :=
  match anchors with
  | none => if count ≠ 0 then .error (.value_error missing) else .ok ()
  | some rows =>
    if rows.length ≠ count then .error (.value_error (mismatch rows.length)) else .ok ()

/-- `rows.index_copy_(0, cond_row_idx, anchors)`, when there are anchors. -/
def pin_rows {R : Type} (m : Modality) (rows : List R) (anchors : Option (List R)) :
    Except DenoiseError (List R) :=
  match anchors with
  | none => .ok rows
  | some anchor => index_copy rows m.cond_row_idx anchor

/-- The loop's checks, and its variables before the first step. -/
def start_loop (branch : Branch) (args : LoopArgs F V A) :
    Except DenoiseError (LoopState V A) := do
  if args.sigmas_video.length ≠ args.sigmas_audio.length then
    .error (.value_error "video/audio sigma schedules must have equal length")
  else if args.sigmas_video.length < 2 then
    .error (.value_error "sigma schedules need at least 2 entries")
  else
    let n_cond := branch.video.target_start
    check_anchors args.keyframe_cond_rows n_cond
      ("layout has " ++ toString n_cond ++ " cond rows but keyframe_cond_rows is None")
      (fun rows => "keyframe_cond_rows " ++ toString rows ++ " != layout cond rows "
        ++ toString n_cond)
    if args.initial_video_rows.length ≠ branch.video.pos.length then
      .error (.value_error ("initial video rows " ++ toString args.initial_video_rows.length
        ++ " != positive layout rows " ++ toString branch.video.pos.length))
    else if args.initial_audio_rows.length ≠ branch.audio.pos.length then
      .error (.value_error ("initial audio rows " ++ toString args.initial_audio_rows.length
        ++ " != positive layout rows " ++ toString branch.audio.pos.length))
    else
      let n_audio_ref := branch.audio.target_start
      check_anchors args.audio_ref_rows n_audio_ref
        ("layout has " ++ toString n_audio_ref ++ " audio ref rows but audio_ref_rows is None")
        (fun rows => "audio_ref_rows " ++ toString rows ++ " != layout audio ref rows "
          ++ toString n_audio_ref)
      let video_rows ← pin_rows branch.video args.initial_video_rows args.keyframe_cond_rows
      let audio_rows ← pin_rows branch.audio args.initial_audio_rows args.audio_ref_rows
      .ok { video_rows := video_rows
            audio_rows := audio_rows
            buffers := zero_buffers branch }

/-- One step of the loop, with what the model returned in it. -/
def denoise_step (ops : LoopOps F S V A) (branch : Branch) (s : LoopState V A)
    (coeffs : StepCoeffs S × StepCoeffs S) (output : List V × List A) :
    Except DenoiseError (LoopState V A) := do
  let buffers ← forward_kwargs branch s.buffers s.video_rows s.audio_rows
  let video_rows ← update_rows ops.video branch.video coeffs.1 s.video_rows output.1
  let audio_rows ← update_rows ops.audio branch.audio coeffs.2 s.audio_rows
    (output.2.drop branch.audio.target_start)
  .ok { video_rows := video_rows
        audio_rows := audio_rows
        buffers := buffers }

/-- The steps' coefficients. -/
def plan (ops : LoopOps F S V A) (args : LoopArgs F V A) :
    List (StepCoeffs S × StepCoeffs S) :=
  (step_coeffs ops.scalars args.sigmas_video).zip (step_coeffs ops.scalars args.sigmas_audio)

/-- The loop's variables at the start of step `k`, or after the last step. -/
def state_at (ops : LoopOps F S V A) (branch : Branch) (args : LoopArgs F V A)
    (outputs : ℕ → List V × List A) (k : ℕ) : Except DenoiseError (LoopState V A) := do
  let s ← start_loop branch args
  ((plan ops args).take k).zipIdx.foldlM
    (fun s p => denoise_step ops branch s p.1 (outputs p.2)) s

def minimax_h3_denoise_loop (ops : LoopOps F S V A) (branch : Branch) (args : LoopArgs F V A)
    (outputs : ℕ → List V × List A) : Except DenoiseError (List V × List A) := do
  let s ← state_at ops branch args outputs (args.sigmas_video.length - 1)
  .ok (s.video_rows, s.audio_rows)

end Loop

end LightningH3.DenoiseLoop
