/-
Staging tensors in the transfer buffer
(`multimodal_gen/runtime/disaggregation/transport/buffer.py`, class `TransferTensorBuffer`, and
`stage_tensors_async` of `manager.py`, class `DiffusionTransferManager`).

A tensor is its dtype, shape, strides and the bytes of its elements in index order. `contiguous` and
`view` follow torch's own rules: a tensor whose strides read its elements in order is returned as it
is, whatever the stride of an axis of length one says, and a view as another element size needs an
axis and a last stride of one. The scalar fields, the streams, the events and the devices are left
out: they carry no bytes of the slot.

A failed call leaves the buffer as far as it got, so the writing functions hand the pool back with
the fault.
-/
import LightningH3.BuddyAllocatorRuns
import LightningH3.Lib.OrderedDict

set_option autoImplicit false

namespace LightningH3.TransferBuffer

open BuddyAllocator (Allocator)

/-! ## 1. Dtypes -/

inductive DType
  | float16 | float32 | float64 | bfloat16 | int8 | int16 | int32 | int64 | uint8 | bool
  | complex64 | complex128
  deriving DecidableEq, Repr

/-- `element_size()`, in bytes. -/
def DType.element_size : DType → ℕ
  | .int8 | .uint8 | .bool => 1
  | .float16 | .bfloat16 | .int16 => 2
  | .float32 | .int32 => 4
  | .float64 | .int64 | .complex64 => 8
  | .complex128 => 16

theorem DType.element_size_pos (d : DType) : 0 < d.element_size := by
  cases d <;> decide

/-- `_DTYPE_TO_STR` of `codec.py`. -/
def DTYPE_TO_STR : List (DType × String) :=
  [(.float16, "float16"), (.float32, "float32"), (.float64, "float64"), (.bfloat16, "bfloat16"),
    (.int8, "int8"), (.int16, "int16"), (.int32, "int32"), (.int64, "int64"), (.uint8, "uint8"),
    (.bool, "bool"), (.complex64, "complex64"), (.complex128, "complex128")]

inductive Fault
  | none_has_no_nelement
  | write_exceeds_slot
  | view_of_scalar
  | view_of_strided
  | view_unaligned
  | size_mismatch
  | unknown_dtype
  | no_list_index
  | index_out_of_range
  | pool_too_large
  | allocator (f : BuddyAllocator.Fault)
  deriving DecidableEq, Repr

/-- `str(dtype).replace("torch.", "")`. -/
def dtype_str : DType → String
  | .float16 => "float16"
  | .float32 => "float32"
  | .float64 => "float64"
  | .bfloat16 => "bfloat16"
  | .int8 => "int8"
  | .int16 => "int16"
  | .int32 => "int32"
  | .int64 => "int64"
  | .uint8 => "uint8"
  | .bool => "bool"
  | .complex64 => "complex64"
  | .complex128 => "complex128"

/-- `str_to_dtype`, with `_STR_TO_DTYPE` the table read backwards. -/
def str_to_dtype (s : String) : Except Fault DType :=
  match DTYPE_TO_STR.find? fun entry => entry.2 = s with
  | some entry => .ok entry.1
  | none => .error .unknown_dtype

theorem str_to_dtype_dtype_str (d : DType) : str_to_dtype (dtype_str d) = .ok d := by
  cases d <;> decide

/-! ## 2. Tensors -/

/-- A tensor: `data` holds the elements in index order. -/
structure Tensor where
  dtype : DType
  shape : List ℕ
  strides : List ℕ
  data : List UInt8
  rank : strides.length = shape.length
  full : data.length = shape.prod * dtype.element_size

/-- The strides of a fresh tensor. -/
def row_major : List ℕ → List ℕ
  | [] => []
  | _ :: ns => (ns.map (max 1)).prod :: row_major ns

theorem length_row_major : ∀ shape : List ℕ, (row_major shape).length = shape.length
  | [] => rfl
  | _ :: ns => congrArg Nat.succ (length_row_major ns)

/-- The loop of torch's contiguity test, from the last axis to the first: an axis of length one has
any stride. -/
def contiguous_from : List ℕ → List ℕ → ℕ → Bool
  | n :: ns, k :: ks, expected =>
    if n = 1 then contiguous_from ns ks expected
    else decide (k = expected) && contiguous_from ns ks (expected * n)
  | _, _, _ => true

namespace Tensor

def nelement (t : Tensor) : ℕ := t.shape.prod

def element_size (t : Tensor) : ℕ := t.dtype.element_size

def nbytes (t : Tensor) : ℕ := t.nelement * t.element_size

def is_contiguous (t : Tensor) : Bool :=
  t.nelement = 0 || contiguous_from t.shape.reverse t.strides.reverse 1

/-- `contiguous()`. -/
def contiguous (t : Tensor) : Tensor :=
  if t.is_contiguous then t
  else { t with strides := row_major t.shape, rank := length_row_major t.shape }

/-- `view(torch.uint8).reshape(-1)`. -/
def view_uint8 (t : Tensor) : Except Fault (List UInt8) :=
  if t.element_size = 1 then .ok t.data
  else if t.shape = [] then .error .view_of_scalar
  else if t.strides.getLast? = some 1 then .ok t.data
  else .error .view_of_strided

/-- The same values, whatever the strides. -/
def Same (t u : Tensor) : Prop := t.dtype = u.dtype ∧ t.shape = u.shape ∧ t.data = u.data

end Tensor

/-- What a field of the dictionary holds. -/
inductive Value
  | tensor (t : Tensor)
  | list (ts : List (Option Tensor))

/-- `tensor_fields`. -/
abbrev Fields := OrderedDict String (Option Value)

/-! ## 3. The buffer -/

structure TransferTensorBuffer where
  allocator : Allocator
  pool : List UInt8

structure SlotHandle where
  request_id : String
  offset : ℕ
  size : ℕ

/-- `pool[a : b]`. -/
def slice (pool : List UInt8) (a b : ℕ) : List UInt8 := (pool.take b).drop a

/-- `__init__`: `torch.empty` takes a size of 63 bits, and the memory holds anything. -/
def TransferTensorBuffer.init (pool_size : ℤ) (min_block_size : ℕ) (memory : ℕ → UInt8) :
    Except Fault TransferTensorBuffer :=
  match BuddyAllocator.init pool_size min_block_size with
  | .error f => .error (.allocator f)
  | .ok allocator =>
    if allocator.pool_size < 2 ^ 63 then
      .ok ⟨allocator, (List.range allocator.pool_size).map memory⟩
    else .error .pool_too_large

def TransferTensorBuffer.allocate (b : TransferTensorBuffer) (size : ℕ) (request_id : String) :
    Except Fault (TransferTensorBuffer × Option SlotHandle) :=
  match BuddyAllocator.allocate b.allocator size (some request_id) with
  | .error f => .error (.allocator f)
  | .ok (allocator, none) => .ok ({ b with allocator := allocator }, none)
  | .ok (allocator, some offset) =>
    .ok ({ b with allocator := allocator },
      some ⟨request_id, offset, ((allocator.blocks offset).map BuddyAllocator.Block.size).getD size⟩)

/-- `write_tensor`, into the pool: the pool afterwards and the bytes written. -/
def write_tensor (pool : List UInt8) (handle : SlotHandle) (tensor : Tensor) (byte_offset : ℕ) :
    Except (Fault × List UInt8) (List UInt8 × ℕ) :=
  let src_tensor := tensor.contiguous
  let nbytes := src_tensor.nelement * src_tensor.element_size
  if byte_offset + nbytes > handle.size then .error (.write_exceeds_slot, pool)
  else
    let start := handle.offset + byte_offset
    match src_tensor.view_uint8 with
    | .error f => .error (f, pool)
    | .ok src_bytes =>
      if (slice pool start (start + nbytes)).length = src_bytes.length then
        .ok (pool.take start ++ src_bytes ++ pool.drop (start + nbytes), nbytes)
      else .error (.size_mismatch, pool)

/-- `read_tensor`: a fresh tensor of the bytes there. -/
def read_tensor (pool : List UInt8) (handle : SlotHandle) (shape : List ℕ) (dtype : DType)
    (byte_offset : ℕ) : Except Fault Tensor :=
  let nbytes := shape.prod * dtype.element_size
  let start := handle.offset + byte_offset
  let raw := slice pool start (start + nbytes)
  if min start pool.length % dtype.element_size ≠ 0 then .error .view_unaligned
  else if h : raw.length = shape.prod * dtype.element_size then
    .ok ⟨dtype, shape, row_major shape, raw, length_row_major shape, h⟩
  else .error .size_mismatch

structure Entry where
  offset : ℕ
  shape : List ℕ
  dtype : String
  list_index : Option ℕ
  deriving DecidableEq

abbrev Manifest := OrderedDict String (List Entry)

/-- `(byte_offset + 511) & ~511`. -/
def align_512 (n : ℕ) : ℕ := (n + 511) / 512 * 512

/-- The entry of a tensor written at an offset. -/
def Entry.of (byte_offset : ℕ) (t : Tensor) (list_index : Option ℕ) : Entry :=
  ⟨byte_offset, t.shape, dtype_str t.dtype, list_index⟩

/-- The loop of `write_tensors_from_gpu` over a list, from position `i` on. -/
def write_list (handle : SlotHandle) : List (Option Tensor) → ℕ → List UInt8 → ℕ → List Entry →
    Except (Fault × List UInt8) (List UInt8 × ℕ × List Entry)
  | [], _, pool, byte_offset, entries => .ok (pool, byte_offset, entries)
  | none :: rest, i, pool, byte_offset, entries =>
    write_list handle rest (i + 1) pool byte_offset entries
  | some t :: rest, i, pool, byte_offset, entries => do
      let written ← write_tensor pool handle t byte_offset
      write_list handle rest (i + 1) written.1 (align_512 (byte_offset + written.2))
        (entries ++ [Entry.of byte_offset t (some i)])

/-- One field of `write_tensors_from_gpu`. -/
def write_value (handle : SlotHandle) (pool : List UInt8) (byte_offset : ℕ) :
    Value → Except (Fault × List UInt8) (List UInt8 × ℕ × List Entry)
  | .tensor t => do
      let written ← write_tensor pool handle t byte_offset
      return (written.1, align_512 (byte_offset + written.2), [Entry.of byte_offset t none])
  | .list ts => write_list handle ts 0 pool byte_offset []

/-- `write_tensors_from_gpu`, from the field it has come to. -/
def write_fields (handle : SlotHandle) : List (String × Option Value) → List UInt8 → ℕ → Manifest →
    Except (Fault × List UInt8) (List UInt8 × Manifest)
  | [], pool, _, manifest => .ok (pool, manifest)
  | (_, none) :: rest, pool, byte_offset, manifest =>
    write_fields handle rest pool byte_offset manifest
  | (name, some value) :: rest, pool, byte_offset, manifest => do
      let written ← write_value handle pool byte_offset value
      write_fields handle rest written.1 written.2.1
        (if written.2.2.isEmpty then manifest else manifest.set name written.2.2)

def write_tensors_from_gpu (pool : List UInt8) (handle : SlotHandle) (tensors : Fields) :
    Except (Fault × List UInt8) (List UInt8 × Manifest) :=
  write_fields handle tensors.items pool 0 .empty

/-- The loop over the entries of a list field in `read_tensors_from_manifest`. -/
def read_entries (pool : List UInt8) (handle : SlotHandle) :
    List Entry → List (Option Tensor) → Except Fault (List (Option Tensor))
  | [], tensors => .ok tensors
  | entry :: rest, tensors => do
      let dtype ← str_to_dtype entry.dtype
      let t ← read_tensor pool handle entry.shape dtype entry.offset
      match entry.list_index with
      | none => .error .no_list_index
      | some i =>
        if i < tensors.length then read_entries pool handle rest (tensors.set i (some t))
        else .error .index_out_of_range

/-- One field of `read_tensors_from_manifest`. -/
def read_value (pool : List UInt8) (handle : SlotHandle) (entries : List Entry) :
    Except Fault (Option Value) :=
  match entries with
  | [] => .ok none
  | entry :: _ =>
    if entries.any fun e => e.list_index.isSome then do
      let max_idx := (entries.map fun e => e.list_index.getD 0).foldl max 0 + 1
      let tensors ← read_entries pool handle entries (List.replicate max_idx none)
      return some (.list tensors)
    else do
      let dtype ← str_to_dtype entry.dtype
      let t ← read_tensor pool handle entry.shape dtype entry.offset
      return some (.tensor t)

/-- `read_tensors_from_manifest`, from the field it has come to. -/
def read_fields (pool : List UInt8) (handle : SlotHandle) :
    List (String × List Entry) → OrderedDict String Value → Except Fault (OrderedDict String Value)
  | [], result => .ok result
  | (name, entries) :: rest, result => do
      match ← read_value pool handle entries with
      | none => read_fields pool handle rest result
      | some value => read_fields pool handle rest (result.set name value)

def read_tensors_from_manifest (pool : List UInt8) (handle : SlotHandle) (manifest : Manifest) :
    Except Fault (OrderedDict String Value) :=
  read_fields pool handle manifest.items .empty

/-! ## 4. Staging -/

structure StagedTransfer where
  request_id : String
  slot : Option SlotHandle
  manifest : Manifest

structure TransferManager where
  buffer : TransferTensorBuffer
  staged : OrderedDict String StagedTransfer

/-- The loop that sizes a list: a `None` has no `nelement`. -/
def size_list : List (Option Tensor) → ℕ → Except Fault ℕ
  | [], total_size => .ok total_size
  | none :: _, _ => .error .none_has_no_nelement
  | some t :: rest, total_size => size_list rest (total_size + t.nelement * t.element_size)

/-- The loop that sizes the slot. -/
def size_fields : List (String × Option Value) → ℕ → Except Fault ℕ
  | [], total_size => .ok total_size
  | (_, none) :: rest, total_size => size_fields rest total_size
  | (_, some (.list ts)) :: rest, total_size => do
      let total_size ← size_list ts total_size
      size_fields rest total_size
  | (_, some (.tensor t)) :: rest, total_size =>
    size_fields rest (total_size + t.nelement * t.element_size)

/-- `stage_tensors_async`: the manager afterwards, and the staged transfer, `None` or what was
raised. -/
def stage_tensors_async (m : TransferManager) (request_id : String) (tensor_fields : Fields) :
    TransferManager × Except Fault (Option StagedTransfer) :=
  match size_fields tensor_fields.items 0 with
  | .error f => (m, .error f)
  | .ok total_size =>
    if total_size = 0 then
      let staged : StagedTransfer := ⟨request_id, none, .empty⟩
      ({ m with staged := m.staged.set request_id staged }, .ok (some staged))
    else
      match m.buffer.allocate total_size request_id with
      | .error f => (m, .error f)
      | .ok (buffer, none) => ({ m with buffer := buffer }, .ok none)
      | .ok (buffer, some slot) =>
        match write_tensors_from_gpu buffer.pool slot tensor_fields with
        | .error (f, pool) => ({ m with buffer := { buffer with pool := pool } }, .error f)
        | .ok (pool, manifest) =>
          let staged : StagedTransfer := ⟨request_id, some slot, manifest⟩
          ({ buffer := { buffer with pool := pool }
             staged := m.staged.set request_id staged }, .ok (some staged))

end LightningH3.TransferBuffer
