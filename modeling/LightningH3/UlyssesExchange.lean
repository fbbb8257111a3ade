/-
The Ulysses exchanges of `usp.py`, seen from all ranks at once.

A rank's tensor is the value of a function at its number, and a collective maps such
functions to each other. `all_to_all_single` delivers the chunks; the exchange code around
it permutes and reshapes. The uniform exchanges receive into a staging buffer, so they take
the memory of their rank and return a handle. The two-rank path writes straight into a
staging slot of the peer: a slot holds what the peer wrote and is stale elsewhere.
-/
import LightningH3.UlyssesStaging

set_option autoImplicit false

namespace LightningH3.Ulysses

open Segments Tensors

variable {α : Type}

/-- A failed assertion, or a shape that does not unpack. -/
inductive UspError where
  | assertion (message : String)
  | shape_error
  deriving DecidableEq

/-! ## The collectives -/

/-- What `all_to_all_single` delivers to a rank, in the shape that the rank sent. -/
def delivered (world_size : ℕ) (xs : ℕ → Tensor α) (rank : ℕ) : Tensor α :=
  let splits := fun j => List.replicate world_size ((xs j).numel / world_size)
  (all_to_all_single splits splits (fun j => (xs j).reshape [(xs j).numel]) rank).reshape
    (xs rank).shape

/-- `_usp_all_to_all_single`: the buffer of the role that it received into. -/
def usp_all_to_all_single (env : Env) (role : Role) (xs : ℕ → Tensor α) (rank : ℕ)
    (m : Memory α) : ℕ × Memory α :=
  let x := delivered env.world_size xs rank
  let (output, m) := m.a2a_staging_buffer env role x.numel
  (output, m.write output x.numel x.flat)

def usp_all_to_all_single_varlen (xs : ℕ → Tensor α) (output_split_sizes : ℕ → List ℕ)
    (input_split_sizes : ℕ → List ℕ) (rank : ℕ) : Tensor α :=
  all_to_all_single output_split_sizes input_split_sizes
    (fun j => (xs j).reshape [(xs j).numel]) rank

/-! ## The two-rank path

A staging slot of rank `r` starts stale; the peer `1 - r` writes into it. -/

/-- `IPC_A2A.exchange`: what the peer sent, viewed in the expected shape. -/
def ipc_exchange (stale : ℕ → α) (peer_send : Tensor α) (recv_shape : List ℕ) : Tensor α :=
  Tensor.of_flat recv_shape
    (fun k => if k < peer_send.numel then peer_send.flat k else stale k)

/-- The half of the heads that goes to a rank: `x[:, :, r * half : (r + 1) * half]`. -/
def head_half (x : Tensor α) (r half : ℕ) : Tensor α := x.narrow 2 (r * half) half

/-- The start of a rank's rows: `off = [0, seq_lens[0]]`. -/
def ipc_offset (seq_lens : List ℕ) (r : ℕ) : ℕ := [0, seq_lens.getD 0 0].getD r 0

/-- `_ipc_varlen_fast` with `direction == "input"`. -/
def ipc_varlen_input (seq_lens : List ℕ) (xs : ℕ → Tensor α) (r : ℕ) (stale : ℕ → α) :
    Except UspError (Tensor α) :=
  match (xs r).shape, (xs (1 - r)).shape with
  | [b, _, h_global, d], [_, _, h_global', _] =>
    let half := h_global / 2
    let peer_len := seq_lens.getD (1 - r) 0
    let out := Tensor.of_flat [b, seq_lens.getD 0 0 + seq_lens.getD 1 0, half, d] stale
    let out := out.copy_into 1 (ipc_offset seq_lens r) (head_half (xs r) r half)
    let theirs := ipc_exchange stale (head_half (xs (1 - r)) r (h_global' / 2))
      [b, peer_len, half, d]
    .ok (out.copy_into 1 (ipc_offset seq_lens (1 - r)) theirs)
  | _, _ => .error .shape_error

/-- `_ipc_varlen_fast` with `direction == "output"`: the slot is the result. -/
def ipc_varlen_output (seq_lens : List ℕ) (xs : ℕ → Tensor α) (r : ℕ) (stale : ℕ → α) :
    Except UspError (Tensor α) :=
  match (xs r).shape, (xs (1 - r)).shape with
  | [b, _, h_local, d], [_, _, h_local', _] =>
    let my_len := seq_lens.getD r 0
    let slot := Tensor.of_flat [b, my_len, 2 * h_local, d] stale
    -- the peer writes its half of the heads, for the rows of this rank
    let slot := slot.copy_into 2 ((1 - r) * h_local')
      ((xs (1 - r)).narrow 1 (ipc_offset seq_lens r) my_len)
    .ok (slot.copy_into 2 (r * h_local) ((xs r).narrow 1 (ipc_offset seq_lens r) my_len))
  | _, _ => .error .shape_error

/-- The three operands of one attention. -/
structure Qkv (β : Type) where
  q : β
  k : β
  v : β

/-- One operand, by its number. -/
def Qkv.part {β : Type} (x : Qkv β) : ℕ → β
  | 0 => x.q
  | 1 => x.k
  | _ => x.v

/-- The slot after a peer wrote three parts of `n` entries, one after the other. -/
def ipc_slot (stale : ℕ → α) (n : ℕ) (parts : ℕ → Tensor α) : Tensor α :=
  (List.range 3).foldl (fun slot i => slot.copy_into 0 (i * n) ((parts i).reshape [n]))
    (Tensor.of_flat [3 * n] stale)

/-- Part `i` of a slot. -/
def ipc_part (slot : Tensor α) (n i : ℕ) (shape : List ℕ) : Tensor α :=
  (slot.narrow 0 (i * n) n).reshape shape

/-- `_ipc_input_a2a_qkv`: `none` for shapes it leaves to the general exchange. -/
def ipc_input_a2a_qkv (env : Env) (xs : ℕ → Qkv (Tensor α)) (r : ℕ) (stale : ℕ → α) :
    Except UspError (Option (Qkv (Tensor α))) :=
  if env.world_size ≠ 2 then .ok none
  else if (xs r).q.shape ≠ (xs r).k.shape ∨ (xs r).q.shape ≠ (xs r).v.shape then .ok none
  else if !env.ipc then .ok none
  else match (xs r).q.shape with
  | [b, s_local, h_global, d] =>
    let half := h_global / 2
    let n := b * s_local * half * d
    let slot := ipc_slot stale n (fun i => head_half ((xs (1 - r)).part i) r half)
    let gathered := fun i =>
      let out := Tensor.of_flat [b, 2 * s_local, half, d] stale
      let out := out.copy_into 1 (r * s_local) (head_half ((xs r).part i) r half)
      out.copy_into 1 ((1 - r) * s_local) (ipc_part slot n i [b, s_local, half, d])
    .ok (some ⟨gathered 0, gathered 1, gathered 2⟩)
  | _ => .error .shape_error

/-- A text segment and an image segment of one operand, with the padded tail of the text. -/
structure Joint (β : Type) where
  txt : β
  img : β

/-- The pieces of `join_seqs` with a padded tail. -/
def padded_pieces (x : Joint (Tensor α)) (real local_pad : ℕ) : ℕ → Tensor α
  | 0 => x.txt.narrow 1 0 real
  | 1 => x.img
  | _ => x.txt.narrow 1 real local_pad

def plain_pieces (x : Joint (Tensor α)) : ℕ → Tensor α
  | 0 => x.txt
  | _ => x.img

/-- `join_seqs`: the text, the image, and behind it the padded tail of the text. -/
def join_seqs (x : Joint (Tensor α)) (local_pad : ℕ) : Tensor α :=
  let real := x.txt.shape.getD 1 0 - local_pad
  if 0 < local_pad then Tensor.cat 1 3 (padded_pieces x real local_pad)
  else Tensor.cat 1 2 (plain_pieces x)

/-- The rows of a rank written into one part of a slot, from the halves of its segments. -/
def ipc_write_span (part : Tensor α) (x : Joint (Tensor α)) (dest half base local_pad : ℕ) :
    Tensor α :=
  let txt := head_half x.txt dest half
  let img := head_half x.img dest half
  let real := txt.shape.getD 1 0 - local_pad
  let img_len := img.shape.getD 1 0
  let part := part.copy_into 1 base (txt.narrow 1 0 real)
  let part := part.copy_into 1 (base + real) img
  if local_pad ≠ 0 then part.copy_into 1 (base + (real + img_len)) (txt.narrow 1 real local_pad)
  else part

/-- `_ipc_input_a2a_qkv_segmented`: the slot is the gathered result, written by both ranks. -/
def ipc_input_a2a_qkv_segmented (env : Env) (xs : ℕ → Qkv (Joint (Tensor α)))
    (local_pad : ℕ → ℕ) (r : ℕ) (stale : ℕ → α) :
    Except UspError (Option (Qkv (Tensor α))) :=
  if env.world_size ≠ 2 then .ok none
  else if !env.ipc then .ok none
  else match (xs r).q.txt.shape, (xs r).q.img.shape with
  | [b, txt_len, h_global, d], _ :: img_len :: _ =>
    let half := h_global / 2
    let span := txt_len + img_len
    let n := b * (2 * span) * half * d
    let gathered := fun i =>
      let part := ipc_part (Tensor.of_flat [3 * n] stale) n i [b, 2 * span, half, d]
      let part := ipc_write_span part ((xs (1 - r)).part i) r half ((1 - r) * span)
        (local_pad (1 - r))
      ipc_write_span part ((xs r).part i) r half (r * span) (local_pad r)
    .ok (some ⟨gathered 0, gathered 1, gathered 2⟩)
  | _, _ => .error .shape_error

/-! ## The uniform exchanges -/

/-- The message of `assert x.ndim == 4`. -/
def not_4d (x : Tensor α) : UspError :=
  .assertion ("x must have 4 dimensions, got " ++ toString x.shape.length)

def bad_head_dim (head_dim : ℕ) : UspError :=
  .assertion ("head_dim must be 1 or 2, got " ++ toString head_dim)

def indivisible (name : String) (size world_size : ℕ) : UspError :=
  .assertion (name ++ " (" ++ toString size ++ ") must be divisible by world_size ("
    ++ toString world_size ++ ")")

/-- The collective path of `_usp_input_all_to_all`. -/
def input_collective (env : Env) (head_dim : ℕ) (xs : ℕ → Tensor α) (rank : ℕ) (m : Memory α) :
    Except UspError (Handle α × Memory α) :=
  match (xs rank).shape with
  | [b, n₁, n₂, d] =>
    if head_dim ≠ 1 ∧ head_dim ≠ 2 then .error (bad_head_dim head_dim)
    else
      let h_global := if head_dim = 1 then n₁ else n₂
      let s_local := if head_dim = 1 then n₂ else n₁
      let permute_order := if head_dim = 1 then [1, 0, 2, 3] else [2, 0, 1, 3]
      if h_global % env.world_size ≠ 0 then
        .error (indivisible "h_global" h_global env.world_size)
      else
        let h_local := h_global / env.world_size
        let s_global := s_local * env.world_size
        let (buffer, m) := usp_all_to_all_single env .usp_input
          (fun j => (xs j).permute permute_order) rank m
        let shape := [env.world_size, h_local, b, s_local, d]
        .ok (if head_dim = 1 then
            m.contiguous buffer shape [2, 1, 0, 3, 4] [b, h_local, s_global, d]
          else m.contiguous buffer shape [2, 0, 3, 1, 4] [b, s_global, h_local, d])
  | _ => .error (not_4d (xs rank))

def usp_input_all_to_all (env : Env) (head_dim : ℕ) (xs : ℕ → Tensor α) (rank : ℕ)
    (m : Memory α) : Except UspError (Handle α × Memory α) :=
  if env.world_size ≤ 1 then .ok (m.alloc (xs rank))
  else if env.world_size = 2 ∧ head_dim = 2 ∧ env.ipc then do
    let s_local := (xs rank).shape.getD 1 0
    let out ← ipc_varlen_input [s_local, s_local] xs rank m.stale
    return m.alloc out
  else input_collective env head_dim xs rank m

/-- `usp_merge_heads(x).reshape(out)`: `[W, S, B, H, D]` to `[B, S, W, H, D]`. -/
def usp_merge_heads (env : Env) (m : Memory α) (buffer : ℕ) (shape out : List ℕ) :
    Handle α × Memory α :=
  if !env.compiling && env.merge_kernel && env.is_cuda && shape.prod != 0 then
    m.alloc (((Tensor.of_flat shape (m.cells buffer)).permute [2, 1, 0, 3, 4]).reshape out)
  else m.contiguous buffer shape [2, 1, 0, 3, 4] out

/-- The collective path of `_usp_output_all_to_all`. -/
def output_collective (env : Env) (head_dim : ℕ) (xs : ℕ → Tensor α) (rank : ℕ)
    (m : Memory α) : Except UspError (Handle α × Memory α) :=
  match (xs rank).shape with
  | [b, n₁, n₂, d] =>
    if head_dim ≠ 1 ∧ head_dim ≠ 2 then .error (bad_head_dim head_dim)
    else
      let h_local := if head_dim = 1 then n₁ else n₂
      let s_global := if head_dim = 1 then n₂ else n₁
      let permute_order := if head_dim = 1 then [2, 0, 1, 3] else [1, 0, 2, 3]
      if s_global % env.world_size ≠ 0 then
        .error (indivisible "s_global" s_global env.world_size)
      else
        let s_local := s_global / env.world_size
        let h_global := h_local * env.world_size
        let (buffer, m) := usp_all_to_all_single env .usp_output
          (fun j => (xs j).permute permute_order) rank m
        let shape := [env.world_size, s_local, b, h_local, d]
        .ok (if head_dim = 1 then
            m.contiguous buffer shape [2, 0, 3, 1, 4] [b, h_global, s_local, d]
          else usp_merge_heads env m buffer shape [b, s_local, h_global, d])
  | _ => .error (not_4d (xs rank))

def usp_output_all_to_all (env : Env) (head_dim : ℕ) (xs : ℕ → Tensor α) (rank : ℕ)
    (m : Memory α) : Except UspError (Handle α × Memory α) :=
  let s_global := (xs rank).shape.getD 1 0
  if env.world_size ≤ 1 then .ok (m.alloc (xs rank))
  else if env.world_size = 2 ∧ head_dim = 2 ∧ s_global % 2 = 0 ∧ env.ipc then do
    let half_len := s_global / 2
    let out ← ipc_varlen_output [half_len, half_len] xs rank m.stale
    return m.alloc out
  else output_collective env head_dim xs rank m

/-! ## The variable-length exchanges -/

/-- A check both variable-length exchanges make first. -/
def check_lens (world_size head_dim : ℕ) (seq_lens : List ℕ) : Except UspError Unit :=
  if head_dim ≠ 1 ∧ head_dim ≠ 2 then .error (bad_head_dim head_dim)
  else if seq_lens.length ≠ world_size then
    .error (.assertion ("seq_lens must have length " ++ toString world_size ++ ", got "
      ++ toString seq_lens.length))
  else .ok ()

/-- The heads moved to the front: `[h, b, s, d]`. -/
def heads_first (head_dim : ℕ) (x : Tensor α) : Tensor α :=
  x.permute (if head_dim = 1 then [1, 0, 2, 3] else [2, 0, 1, 3])

/-- The heads moved back from `[h, b, s, d]`. -/
def heads_back (head_dim : ℕ) (x : Tensor α) : Tensor α :=
  x.permute (if head_dim = 1 then [1, 0, 2, 3] else [1, 2, 0, 3])

/-- The chunks of a flat tensor, one after the other, each given a shape. -/
def received_chunk (x : Tensor α) (split_sizes : List ℕ) (shapes : ℕ → List ℕ) (j : ℕ) :
    Tensor α :=
  (x.narrow 0 (start split_sizes j) (split_sizes.getD j 0)).reshape (shapes j)

/-- What a rank sends in `_usp_input_all_to_all_varlen`, from its tensor with the heads in
front. -/
def input_send (world_size : ℕ) (x : Tensor α) : Tensor α :=
  match x.shape with
  | [h_global, b, s_local, d] => x.reshape [world_size, h_global / world_size, b, s_local, d]
  | _ => x

def input_split_sizes (world_size : ℕ) (x : Tensor α) : List ℕ :=
  match x.shape with
  | [h_global, b, s_local, d] =>
    List.replicate world_size (h_global / world_size * b * s_local * d)
  | _ => []

/-- The collective path of `_usp_input_all_to_all_varlen`. -/
def input_collective_varlen (world_size head_dim : ℕ) (seq_lens : List ℕ) (xs : ℕ → Tensor α)
    (rank : ℕ) : Except UspError (Tensor α) :=
  match (xs rank).shape with
  | [b, n₁, n₂, d] => do
      check_lens world_size head_dim seq_lens
      let h_global := if head_dim = 1 then n₁ else n₂
      let s_local := if head_dim = 1 then n₂ else n₁
      if s_local ≠ seq_lens.getD rank 0 then
        .error (.assertion ("s_local (" ++ toString s_local ++ ") must equal seq_lens["
          ++ toString rank ++ "] (" ++ toString (seq_lens.getD rank 0) ++ ")"))
      else if h_global % world_size ≠ 0 then
        .error (indivisible "h_global" h_global world_size)
      else
        let h_local := h_global / world_size
        let output_split_sizes := seq_lens.map (fun seq_len => h_local * b * seq_len * d)
        let x := usp_all_to_all_single_varlen
          (fun j => input_send world_size (heads_first head_dim (xs j)))
          (fun _ => output_split_sizes)
          (fun j => input_split_sizes world_size (heads_first head_dim (xs j))) rank
        .ok (heads_back head_dim (Tensor.cat 2 world_size (received_chunk x output_split_sizes
          (fun j => [h_local, b, seq_lens.getD j 0, d]))))
  | _ => .error (not_4d (xs rank))

/-- What a rank sends in `_usp_output_all_to_all_varlen`: the chunks of the sequence. -/
def output_send (world_size : ℕ) (seq_lens : List ℕ) (x : Tensor α) : Tensor α :=
  Tensor.cat 0 world_size (fun i =>
    let chunk := x.narrow 2 (start seq_lens i) (seq_lens.getD i 0)
    chunk.reshape [chunk.numel])

def output_split_sizes (seq_lens : List ℕ) (x : Tensor α) : List ℕ :=
  match x.shape with
  | [h_local, b, _, d] => seq_lens.map (fun seq_len => h_local * b * seq_len * d)
  | _ => []

/-- The collective path of `_usp_output_all_to_all_varlen`. -/
def output_collective_varlen (world_size head_dim : ℕ) (seq_lens : List ℕ) (xs : ℕ → Tensor α)
    (rank : ℕ) : Except UspError (Tensor α) :=
  match (xs rank).shape with
  | [b, n₁, n₂, d] => do
      check_lens world_size head_dim seq_lens
      let h_local := if head_dim = 1 then n₁ else n₂
      let s_global := if head_dim = 1 then n₂ else n₁
      if s_global ≠ seq_lens.sum then
        .error (.assertion ("s_global (" ++ toString s_global ++ ") must equal sum(seq_lens) ("
          ++ toString seq_lens.sum ++ ")"))
      else
        let s_local := seq_lens.getD rank 0
        let x := usp_all_to_all_single_varlen
          (fun j => output_send world_size seq_lens (heads_first head_dim (xs j)))
          (fun r => List.replicate world_size (h_local * b * seq_lens.getD r 0 * d))
          (fun j => output_split_sizes seq_lens (heads_first head_dim (xs j))) rank
        .ok (heads_back head_dim (Tensor.cat 0 world_size (received_chunk x
          (List.replicate world_size (h_local * b * s_local * d))
          (fun _ => [h_local, b, s_local, d]))))
  | _ => .error (not_4d (xs rank))

def usp_input_all_to_all_varlen (env : Env) (head_dim : ℕ) (seq_lens : List ℕ)
    (xs : ℕ → Tensor α) (rank : ℕ) (stale : ℕ → α) : Except UspError (Tensor α) :=
  if env.world_size ≤ 1 then .ok (xs rank)
  else if env.world_size = 2 ∧ head_dim = 2 ∧ env.ipc then
    ipc_varlen_input seq_lens xs rank stale
  else input_collective_varlen env.world_size head_dim seq_lens xs rank

def usp_output_all_to_all_varlen (env : Env) (head_dim : ℕ) (seq_lens : List ℕ)
    (xs : ℕ → Tensor α) (rank : ℕ) (stale : ℕ → α) : Except UspError (Tensor α) :=
  if env.world_size ≤ 1 then .ok (xs rank)
  else if env.world_size = 2 ∧ head_dim = 2 ∧ env.ipc then
    ipc_varlen_output seq_lens xs rank stale
  else output_collective_varlen env.world_size head_dim seq_lens xs rank

end LightningH3.Ulysses
