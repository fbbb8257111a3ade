/-
Tensor fields in a multipart message (`multimodal_gen/runtime/disaggregation/transport/codec.py`,
`pack_tensors` and `unpack_tensors`) and in a broadcast to the ranks of a group
(`scheduler_mixin.py`, `_pack_tensor_fields_for_broadcast` and its inverse).

Both flatten the lists among the fields. The message describes every tensor with its position in the
list and reserves as many places as the largest position asks for; the broadcast keys every tensor
with its position, sorts the keys and keeps the order alone.

Frame 0 is the JSON document itself, which `json.dumps` writes and `json.loads` reads; a number that
is no integer stands as its literal. The devices are left out: a copy between them keeps the bytes.
-/
import Mathlib.Algebra.BigOperators.Ring.List
import Mathlib.Data.List.Sort
import LightningH3.TransferBufferStaging

set_option autoImplicit false

namespace LightningH3.TensorCodec

open TransferBuffer (Tensor DType Value Fields DTYPE_TO_STR row_major length_row_major)

/-! ## 1. Documents -/

/-- A JSON document; the keys of an object in their order. -/
inductive Json
  | null
  | bool (b : Bool)
  | int (n : ℤ)
  | float (literal : String)
  | str (s : String)
  | arr (items : List Json)
  | obj (fields : List (String × Json))

inductive Fault
  | unsupported_dtype
  | unknown_dtype
  | missing_key
  | wrong_type
  | wrong_frame_count
  | not_a_buffer
  | size_mismatch
  | not_a_list
  | index_out_of_range
  | not_an_index
  deriving DecidableEq, Repr

namespace Json

/-- `d.get(key)`. -/
def get? : Json → String → Option Json
  | .obj fields, key => (fields.find? fun entry => entry.1 = key).map Prod.snd
  | _, _ => none

/-- `d[key]`. -/
def item (d : Json) (key : String) : Except Fault Json :=
  (d.get? key).elim (.error .missing_key) .ok

def as_str : Json → Except Fault String
  | .str s => .ok s
  | _ => .error .wrong_type

def as_int : Json → Except Fault ℤ
  | .int n => .ok n
  | _ => .error .wrong_type

def as_arr : Json → Except Fault (List Json)
  | .arr items => .ok items
  | _ => .error .wrong_type

def as_size (j : Json) : Except Fault ℕ := do
  let n ← j.as_int
  if 0 ≤ n then .ok n.toNat else .error .wrong_type

end Json

/-! ## 2. Descriptors -/

def dtype_to_str (dtype : DType) : Except Fault String :=
  match DTYPE_TO_STR.find? fun entry => entry.1 = dtype with
  | some entry => .ok entry.2
  | none => .error .unsupported_dtype

def str_to_dtype (s : String) : Except Fault DType :=
  match DTYPE_TO_STR.find? fun entry => entry.2 = s with
  | some entry => .ok entry.1
  | none => .error .unknown_dtype

/-- `TensorDescriptor`: a `list_index` of -1 means not part of a list. -/
structure TensorDescriptor where
  field_name : String
  shape : List ℕ
  dtype : String
  list_index : ℤ

namespace TensorDescriptor

def to_dict (desc : TensorDescriptor) : Json :=
  .obj [("field_name", .str desc.field_name), ("shape", .arr (desc.shape.map fun n : ℕ => .int n)),
    ("dtype", .str desc.dtype), ("list_index", .int desc.list_index)]

/-- `from_dict`; an entry of another type is rejected here, where the source fails on its first
use. -/
def from_dict (d : Json) : Except Fault TensorDescriptor := do
  let field_name ← (← d.item "field_name").as_str
  let shape ← (← (← d.item "shape").as_arr).mapM Json.as_size
  let dtype ← (← d.item "dtype").as_str
  let list_index ← ((d.get? "list_index").getD (.int (-1))).as_int
  return ⟨field_name, shape, dtype, list_index⟩

end TensorDescriptor

/-! ## 3. The message -/

/-- The buffer of a `TensorWrapper`: the memory of the contiguous tensor. -/
def wrap (tensor : Tensor) : List UInt8 := tensor.contiguous.data

/-- The loop of `pack_tensors` over a list, from position `i` on. -/
def pack_list (field_name : String) : List (Option Tensor) → ℕ → List TensorDescriptor →
    List (List UInt8) → Except Fault (List TensorDescriptor × List (List UInt8))
  | [], _, descriptors, buffers => .ok (descriptors, buffers)
  | none :: rest, i, descriptors, buffers => pack_list field_name rest (i + 1) descriptors buffers
  | some t :: rest, i, descriptors, buffers => do
      let dtype ← dtype_to_str t.dtype
      pack_list field_name rest (i + 1) (descriptors ++ [⟨field_name, t.shape, dtype, i⟩])
        (buffers ++ [wrap t])

/-- The loop of `pack_tensors` over the fields. -/
def pack_fields : List (String × Option Value) → List TensorDescriptor → List (List UInt8) →
    Except Fault (List TensorDescriptor × List (List UInt8))
  | [], descriptors, buffers => .ok (descriptors, buffers)
  | (_, none) :: rest, descriptors, buffers => pack_fields rest descriptors buffers
  | (field_name, some (.tensor t)) :: rest, descriptors, buffers => do
      let dtype ← dtype_to_str t.dtype
      pack_fields rest (descriptors ++ [⟨field_name, t.shape, dtype, -1⟩]) (buffers ++ [wrap t])
  | (field_name, some (.list ts)) :: rest, descriptors, buffers => do
      let packed ← pack_list field_name ts 0 descriptors buffers
      pack_fields rest packed.1 packed.2

/-- `pack_tensors`: the metadata frame and the tensor frames. -/
def pack_tensors (tensor_fields : Fields) (scalar_fields : Option (OrderedDict String Json)) :
    Except Fault (Json × List (List UInt8)) := do
  let packed ← pack_fields tensor_fields.items [] []
  return (.obj [("tensor_descriptors", .arr (packed.1.map TensorDescriptor.to_dict)),
    ("scalar_fields", .obj (scalar_fields.elim [] OrderedDict.items))], packed.2)

def list_sizes : List TensorDescriptor → OrderedDict String ℕ → OrderedDict String ℕ
  | [], sizes => sizes
  | desc :: rest, sizes =>
    if 0 ≤ desc.list_index then
      list_sizes rest (sizes.set desc.field_name
        (max ((sizes.get? desc.field_name).getD 0) (desc.list_index.toNat + 1)))
    else list_sizes rest sizes

/-- The loop that reserves their places. -/
def reserve : List (String × ℕ) → OrderedDict String Value → OrderedDict String Value
  | [], tensor_fields => tensor_fields
  | (field_name, size) :: rest, tensor_fields =>
    reserve rest (tensor_fields.set field_name (.list (List.replicate size none)))

/-- The tensor of a frame: `torch.empty` when it has no element, and else `torch.frombuffer`, which
refuses an empty buffer and a torn element, and `reshape`. -/
def from_frame (frame : List UInt8) (dtype : DType) (shape : List ℕ) : Except Fault Tensor :=
  if h : 0 ∈ shape then
    .ok ⟨dtype, shape, row_major shape, [], length_row_major shape, by
      rw [List.prod_eq_zero h, Nat.zero_mul, List.length_nil]⟩
  else if frame = [] ∨ frame.length % dtype.element_size ≠ 0 then .error .not_a_buffer
  else if h : frame.length = shape.prod * dtype.element_size then
    .ok ⟨dtype, shape, row_major shape, frame, length_row_major shape, h⟩
  else .error .size_mismatch

/-- The assignment of an unpacked tensor. -/
def assign (tensor_fields : OrderedDict String Value) (desc : TensorDescriptor) (tensor : Tensor) :
    Except Fault (OrderedDict String Value) :=
  if 0 ≤ desc.list_index then
    match tensor_fields.get? desc.field_name with
    | some (.list ts) =>
      if desc.list_index.toNat < ts.length then
        .ok (tensor_fields.set desc.field_name (.list (ts.set desc.list_index.toNat (some tensor))))
      else .error .index_out_of_range
    | _ => .error .not_a_list
  else .ok (tensor_fields.set desc.field_name (.tensor tensor))

/-- The loop of `unpack_tensors` over the descriptors and their frames. -/
def fill : List (TensorDescriptor × List UInt8) → OrderedDict String Value →
    Except Fault (OrderedDict String Value)
  | [], tensor_fields => .ok tensor_fields
  | (desc, frame) :: rest, tensor_fields => do
      let dtype ← str_to_dtype desc.dtype
      let tensor ← from_frame frame dtype desc.shape
      let tensor_fields ← assign tensor_fields desc tensor
      fill rest tensor_fields

/-- `unpack_tensors`, of the metadata frame and the tensor frames. -/
def unpack_tensors (metadata : Json) (frames : List (List UInt8)) :
    Except Fault (OrderedDict String Value × Json) := do
  let descriptors ← (← (← metadata.item "tensor_descriptors").as_arr).mapM
    TensorDescriptor.from_dict
  let scalar_fields := (metadata.get? "scalar_fields").getD (.obj [])
  if frames.length ≠ descriptors.length then .error .wrong_frame_count
  else do
    let tensor_fields ← fill (descriptors.zip frames)
      (reserve (list_sizes descriptors .empty).items .empty)
    return (tensor_fields, scalar_fields)

/-! ## 4. The broadcast -/

def LIST_MARKER_KEY : String := "__is_list__"

/-- What a nested dictionary holds: `True` or a tensor. -/
inductive Item
  | true
  | tensor (t : Tensor)

/-- A value of the packed dictionary. -/
inductive Packed
  | tensor (t : Tensor)
  | dict (d : OrderedDict String Item)

/-- A value of the unpacked dictionary. -/
inductive Unpacked
  | tensor (t : Tensor)
  | dict (d : OrderedDict String Item)
  | list (items : List Item)

/-- The loop of `_pack_tensor_fields_for_broadcast` over a list, from position `i` on. -/
def pack_items : List (Option Tensor) → ℕ → OrderedDict String Item → OrderedDict String Item
  | [], _, sub => sub
  | none :: rest, i, sub => pack_items rest (i + 1) sub
  | some t :: rest, i, sub => pack_items rest (i + 1) (sub.set (Nat.repr i) (.tensor t))

/-- The loop of `_pack_tensor_fields_for_broadcast` over the fields. -/
def pack_broadcast : List (String × Option Value) → OrderedDict String Packed →
    OrderedDict String Packed
  | [], packed => packed
  | (_, none) :: rest, packed => pack_broadcast rest packed
  | (key, some (.tensor t)) :: rest, packed => pack_broadcast rest (packed.set key (.tensor t))
  | (key, some (.list ts)) :: rest, packed =>
    pack_broadcast rest
      (packed.set key (.dict (pack_items ts 0 (OrderedDict.empty.set LIST_MARKER_KEY .true))))

def pack_tensor_fields_for_broadcast (tensor_fields : Fields) : OrderedDict String Packed :=
  pack_broadcast tensor_fields.items .empty

/-- `int(k)`, of a string of digits; the signs, blanks and underscores that it takes too are in no
key. -/
def int (k : String) : Except Fault ℕ :=
  if k.toList ≠ [] ∧ k.toList.all Char.isDigit then .ok (Nat.ofDigitChars 10 k.toList 0)
  else .error .not_an_index

/-- `indexed`, before it is sorted. -/
def indexed (value : OrderedDict String Item) : Except Fault (List (ℕ × Item)) :=
  (value.items.filter fun kv => kv.1 ≠ LIST_MARKER_KEY).mapM fun kv => do
    let k ← int kv.1
    return (k, kv.2)

/-- One value of `_unpack_tensor_fields_from_broadcast`. -/
def unpack_value : Packed → Except Fault Unpacked
  | .tensor t => .ok (.tensor t)
  | .dict value =>
    match value.get? LIST_MARKER_KEY with
    | some .true => do
        let entries ← indexed value
        return .list ((entries.mergeSort fun a b => a.1 ≤ b.1).map Prod.snd)
    | _ => .ok (.dict value)

/-- The loop of `_unpack_tensor_fields_from_broadcast`. -/
def unpack_broadcast : List (String × Packed) → OrderedDict String Unpacked →
    Except Fault (OrderedDict String Unpacked)
  | [], out => .ok out
  | (key, value) :: rest, out => do
      let value ← unpack_value value
      unpack_broadcast rest (out.set key value)

def unpack_tensor_fields_from_broadcast (packed : OrderedDict String Packed) :
    Except Fault (OrderedDict String Unpacked) :=
  unpack_broadcast packed.items .empty

end LightningH3.TensorCodec
