/-
Loading the fused QKV projection of the attention under tensor parallelism.

A checkpoint interleaves the rows by query group: the query rows of a group, its key rows,
its value rows. The layer keeps `[Q; K; V]` and each rank keeps its contiguous share of each
of the three. The slow path reorders the whole tensor and lets the merged linear layer shard
it; the fast path copies the rank's rows directly. A block-quantized scale has one row per
block of weight rows and is reordered with the head dimension counted in blocks.

Both paths are compared through one function, `source_row`: the checkpoint row that a row of
the reordered tensor comes from.
-/
import LightningH3.Lib.Fallible
import LightningH3.Lib.Tensor

set_option autoImplicit false

namespace LightningH3.QkvLoader

open Tensors Fallible

variable {α : Type}

/-! ## Data -/

inductive Dtype where
  | bfloat16 | float16 | float32 | float8_e4m3fn | uint8 | int8
deriving DecidableEq, Repr

inductive LoadError where
  | value_error (message : String)
  | assertion
  | narrow_out_of_range
deriving DecidableEq, Repr

/-- A tensor read from the checkpoint. -/
structure Loaded (α : Type) where
  tensor : Tensor α
  dtype : Dtype
  is_contiguous : Bool

/-- A parameter with the attributes the loaders look at. -/
structure Param (α : Type) where
  data : Tensor α
  dtype : Dtype
  is_contiguous : Bool
  output_dim : Option ℕ
  is_sharded_weight : Bool
  packed_dim : Option ℕ
  /-- Rows of the checkpoint in one row of a packed parameter. -/
  packed_factor : ℕ
  needs_scalar_to_array : Bool

/-- The merged column-parallel layer: the sizes of the logical matrices and the rank. -/
structure Layer where
  output_sizes : List ℕ
  tp_size : ℕ
  tp_rank : ℕ

/-! ## The reordering -/

/-- The query, key and value rows out of the grouped view, one matrix each. -/
def qkv_part (grouped : Tensor α) (num_query_groups heads_per_group head_dim : ℕ)
    (rest_shape : List ℕ) : ℕ → Tensor α
  | 0 => (grouped.narrow 1 0 (heads_per_group * head_dim)).reshape
      (num_query_groups * heads_per_group * head_dim :: rest_shape)
  | 1 => (grouped.narrow 1 (heads_per_group * head_dim) head_dim).reshape
      (num_query_groups * head_dim :: rest_shape)
  | _ => (grouped.narrow 1 (heads_per_group * head_dim + head_dim) head_dim).reshape
      (num_query_groups * head_dim :: rest_shape)

def reorder_grouped_qkv_to_qkv (weight : Tensor α) (num_query_groups heads_per_group head_dim : ℕ) :
    Except LoadError (Tensor α) :=
  let per_group := (heads_per_group + 2) * head_dim
  let expected_out := num_query_groups * per_group
  if weight.shape.head? ≠ some expected_out then
    .error (.value_error (s!"qkv weight has incompatible output dim for grouped checkpoint layout: "
      ++ s!"got {weight.shape}, expected first dim {expected_out}."))
  else
    let rest_shape := weight.shape.tail
    let grouped := weight.reshape (num_query_groups :: per_group :: rest_shape)
    .ok (Tensor.cat 0 3 (qkv_part grouped num_query_groups heads_per_group head_dim rest_shape))

/-! ## The fast path -/

/-- `x[:, index]`. -/
def select_second (x : Tensor α) (index : ℕ) : Tensor α where
  shape := x.shape.eraseIdx 1
  get idx := x.get (idx.insertIdx 1 index)

/-- `dst[index].copy_(src)`. -/
def copy_select (dst : Tensor α) (index : ℕ) (src : Tensor α) : Tensor α where
  shape := dst.shape
  get idx := if idx.head? = some index then src.get idx.tail else dst.get idx

/-- The cases in which `_copy_grouped_qkv_tp_shard` leaves the work to the slow path. -/
def declines (param : Param α) (loaded : Loaded α) (num_query_groups tp_rank tp_size : ℕ) : Bool :=
  tp_size == 0 || !decide (tp_rank < tp_size) || num_query_groups % tp_size != 0
    || param.output_dim != some 0 || param.is_sharded_weight || param.packed_dim.isSome
    || param.dtype != loaded.dtype
    || !(param.dtype == .bfloat16 || param.dtype == .float8_e4m3fn)
    || !param.is_contiguous || !loaded.is_contiguous

/-- `_copy_grouped_qkv_tp_shard`: the data of the parameter after the copy, or `none` where
the source returns `False` and has copied nothing. -/
def copy_grouped_qkv_tp_shard (param : Param α) (loaded : Loaded α)
    (num_query_groups head_dim tp_rank tp_size : ℕ) : Option (Tensor α) :=
  if declines param loaded num_query_groups tp_rank tp_size then none
  else
    let expected_rows := num_query_groups * 3 * head_dim
    let local_groups := num_query_groups / tp_size
    let rest_shape := loaded.tensor.shape.tail
    if loaded.tensor.shape.head? ≠ some expected_rows
        ∨ param.data.shape ≠ 3 * local_groups * head_dim :: rest_shape then none
    else
      let grouped := loaded.tensor.reshape (num_query_groups :: 3 :: head_dim :: rest_shape)
      let grouped := grouped.narrow 0 (tp_rank * local_groups) local_groups
      let target := param.data.reshape (3 :: local_groups :: head_dim :: rest_shape)
      let target := (List.range 3).foldl
        (fun target index => copy_select target index (select_second grouped index)) target
      some (target.reshape param.data.shape)

/-! ## The merged column-parallel layer -/

/-- `x.narrow(dim, first, len)` with its range check. -/
def narrow_checked (x : Tensor α) (dim first len : ℕ) : Except LoadError (Tensor α) :=
  if dim < x.shape.length ∧ first + len ≤ x.shape.getD dim 0 then .ok (x.narrow dim first len)
  else .error .narrow_out_of_range

/-- The assertion and the copy at the end of every loader, into `data.narrow(dim, first, len)`. -/
def copy_checked (data : Tensor α) (dim first len : ℕ) (loaded : Tensor α) :
    Except LoadError (Tensor α) :=
  if (data.narrow dim first len).shape = loaded.shape then .ok (data.copy_into dim first loaded)
  else .error .assertion

/-- `(shard_id, shard_offset, shard_size)` of the logical matrices on disk. -/
def shard_offsets (sizes : List ℕ) : List (ℕ × ℕ × ℕ) :=
  (List.range sizes.length).map (fun i => (i, Segments.start sizes i, sizes.getD i 0))

/-- `MergedColumnParallelLinear.weight_loader(param, loaded_weight, loaded_shard_id)` for a
parameter with an output dimension. -/
def weight_loader_shard (layer : Layer) (param : Param α) (dim : ℕ) (data loaded : Tensor α)
    (loaded_shard_id : ℕ) : Except LoadError (Tensor α) := do
  let shard_offset := (layer.output_sizes.take loaded_shard_id).sum / layer.tp_size
  let shard_size := layer.output_sizes.getD loaded_shard_id 0 / layer.tp_size
  let _ ← narrow_checked data dim shard_offset shard_size
  let start_idx := layer.tp_rank * shard_size
  let loaded ←
    if param.is_sharded_weight then pure loaded
    else narrow_checked loaded dim start_idx shard_size
  copy_checked data dim shard_offset shard_size loaded

/-- `adjust_scalar_to_fused_array(param, loaded_weight, 0)` and the copy behind it. -/
def load_scalar_to_fused_array (data loaded : Tensor α) : Except LoadError (Tensor α) := do
  let loaded ←
    match loaded.shape with
    | [] => pure loaded
    | n :: _ => if n = 1 then pure (loaded.select 0) else throw .assertion
  if (data.select 0).shape = loaded.shape then .ok (copy_select data 0 loaded)
  else .error .assertion

/-- `MergedColumnParallelLinear.weight_loader` of a tensor that is fused on disk. -/
def weight_loader (layer : Layer) (param : Param α) (loaded : Tensor α) :
    Except LoadError (Tensor α) :=
  match param.output_dim with
  | none =>
    if param.needs_scalar_to_array then load_scalar_to_fused_array param.data loaded
    else if param.data.shape = loaded.shape then .ok loaded
    else .error .assertion
  | some dim =>
    (shard_offsets layer.output_sizes).foldlM (fun data shard => do
      let loaded_weight_shard ← narrow_checked loaded dim shard.2.1 shard.2.2
      weight_loader_shard layer param dim data loaded_weight_shard shard.1) param.data

/-- `adjust_shard_indexes_for_packing` where the packed axis is the output axis. -/
def adjust_for_packing (param : Param α) (dim n : ℕ) : ℕ :=
  if param.packed_dim = some dim then n / param.packed_factor else n

def load_merged_column_weight (layer : Layer) (param : Param α) (dim : ℕ) (data loaded : Tensor α)
    (shard_offset shard_size : ℕ) : Except LoadError (Tensor α) := do
  let shard_size := adjust_for_packing param dim shard_size
  let shard_offset := adjust_for_packing param dim shard_offset
  let _ ← narrow_checked data dim shard_offset shard_size
  let loaded ← narrow_checked loaded dim (layer.tp_rank * shard_size) shard_size
  copy_checked data dim shard_offset shard_size loaded

/-- `MergedColumnParallelLinear.weight_loader_v2` of a weight that is fused on disk: the
loader of the quantized methods, for a parameter split along `dim`. -/
def weight_loader_v2 (layer : Layer) (param : Param α) (dim : ℕ) (loaded : Tensor α) :
    Except LoadError (Tensor α) :=
  (shard_offsets layer.output_sizes).foldlM (fun data shard => do
    let loaded_weight_shard ← narrow_checked loaded dim (adjust_for_packing param dim shard.2.1)
      (adjust_for_packing param dim shard.2.2)
    load_merged_column_weight layer param dim data loaded_weight_shard
      ((layer.output_sizes.take shard.1).sum / layer.tp_size)
      (layer.output_sizes.getD shard.1 0 / layer.tp_size)) param.data

/-- `divide`: division with its divisibility assertion. -/
def divide (numerator denominator : ℕ) : Except LoadError ℕ :=
  if denominator ∣ numerator then .ok (numerator / denominator) else .error .assertion

/-- `_weight_loader_v2_block_quant_scale` with a shard id. -/
def block_quant_scale_shard (layer : Layer) (block_n dim : ℕ) (data loaded : Tensor α)
    (loaded_shard_id : ℕ) : Except LoadError (Tensor α) := do
  let shard_offset ← divide (layer.output_sizes.take loaded_shard_id).sum layer.tp_size
  let shard_size ← divide (layer.output_sizes.getD loaded_shard_id 0) layer.tp_size
  let block_shard_offset ← divide shard_offset block_n
  let block_shard_size ← divide shard_size block_n
  let _ ← narrow_checked data dim block_shard_offset block_shard_size
  let start_idx := layer.tp_rank * block_shard_size
  let loaded ← narrow_checked loaded dim start_idx block_shard_size
  copy_checked data dim block_shard_offset block_shard_size loaded

/-- One logical matrix of the loop below; the offset in blocks is carried along. -/
def block_quant_scale_step (layer : Layer) (block_n dim : ℕ) (loaded : Tensor α)
    (state : Tensor α × ℕ) (shard_id : ℕ) : Except LoadError (Tensor α × ℕ) := do
  let block_size ← divide (layer.output_sizes.getD shard_id 0) block_n
  let loaded_weight_shard ← narrow_checked loaded dim state.2 block_size
  let data ← block_quant_scale_shard layer block_n dim state.1 loaded_weight_shard shard_id
  pure (data, state.2 + block_size)

/-- `_weight_loader_v2_block_quant_scale` of a scale that is fused on disk. -/
def weight_loader_v2_block_quant_scale (layer : Layer) (block_n dim : ℕ) (data loaded : Tensor α) :
    Except LoadError (Tensor α) :=
  if data.shape = loaded.shape then .ok loaded
  else do
    let state ← (List.range layer.output_sizes.length).foldlM
      (block_quant_scale_step layer block_n dim loaded) (data, 0)
    pure state.1

/-! ## The installed loaders -/

/-- The fields of the architecture that the loaders read. -/
structure Arch where
  num_attention_heads : ℕ
  attention_head_dim : ℕ

/-- The fused projection of the attention: three matrices of `num_heads * head_dim` rows. -/
def Arch.qkv_proj (arch : Arch) (tp_size tp_rank : ℕ) : Layer where
  output_sizes := List.replicate 3 (arch.num_attention_heads * arch.attention_head_dim)
  tp_size := tp_size
  tp_rank := tp_rank

/-- Which of its two loaders the quantization method of the layer takes. -/
inductive BaseLoader where
  | weight_loader
  | weight_loader_v2
deriving DecidableEq, Repr

/-- The loader that the layer itself gives the weight; the second one is used with column
parameters, which have an output dimension. -/
def base_loader (which : BaseLoader) (layer : Layer) (param : Param α) (loaded : Tensor α) :
    Except LoadError (Tensor α) :=
  match which with
  | .weight_loader => weight_loader layer param loaded
  | .weight_loader_v2 => weight_loader_v2 layer param (param.output_dim.getD 0) loaded

/-- The slow path for any number of query heads in a group. -/
def reorder_and_shard (which : BaseLoader) (layer : Layer) (param : Param α) (loaded : Tensor α)
    (num_query_groups heads_per_group head_dim : ℕ) : Except LoadError (Tensor α) := do
  let reordered ← reorder_grouped_qkv_to_qkv loaded num_query_groups heads_per_group head_dim
  base_loader which layer param reordered

/-- The weight loader of `_install_qkv_weight_loader`. -/
def installed_weight_loader (which : BaseLoader) (arch : Arch) (tp_size tp_rank : ℕ)
    (param : Param α) (loaded : Loaded α) : Except LoadError (Tensor α) :=
  match copy_grouped_qkv_tp_shard param loaded arch.num_attention_heads arch.attention_head_dim
      tp_rank tp_size with
  | some data => .ok data
  | none => reorder_and_shard which (arch.qkv_proj tp_size tp_rank) param loaded.tensor
      arch.num_attention_heads 1 arch.attention_head_dim

/-- `_qkv_scale_block_rows`: `none` stands for a method without `weight_block_size`. -/
def qkv_scale_block_rows (weight_block_size : Option (ℕ × ℕ)) (head_dim : ℕ) :
    Except LoadError ℕ :=
  match weight_block_size with
  | none => .ok 1
  | some (block_rows, block_cols) =>
    if head_dim % block_rows ≠ 0 then
      .error (.value_error (s!"block-quantized qkv needs a block size that divides the head dim: "
        ++ s!"head_dim={head_dim}, weight_block_size=[{block_rows}, {block_cols}]."))
    else .ok block_rows

/-- `_maybe_reorder` of `_install_qkv_row_reorder`. -/
def maybe_reorder (num_query_groups head_dim qkv_rows : ℕ) (loaded : Tensor α) :
    Except LoadError (Tensor α) :=
  if 2 ≤ loaded.shape.length ∧ loaded.shape.head? = some qkv_rows then
    reorder_grouped_qkv_to_qkv loaded num_query_groups 1 head_dim
  else .ok loaded

/-- The loader installed on a block-quantized scale. -/
def installed_scale_loader (arch : Arch) (tp_size tp_rank : ℕ) (weight_block_size : ℕ × ℕ)
    (data loaded : Tensor α) : Except LoadError (Tensor α) := do
  let block_rows ← qkv_scale_block_rows (some weight_block_size) arch.attention_head_dim
  let qkv_rows := 3 * arch.num_attention_heads * arch.attention_head_dim
  let reordered ← maybe_reorder arch.num_attention_heads (arch.attention_head_dim / block_rows)
    (qkv_rows / block_rows) loaded
  weight_loader_v2_block_quant_scale (arch.qkv_proj tp_size tp_rank) weight_block_size.1 0 data
    reordered

end LightningH3.QkvLoader
