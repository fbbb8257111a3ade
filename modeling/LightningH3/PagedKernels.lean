/-
The kernels behind the paged allocation (`kernels/ops/memory/allocator.py`, `alloc_extend_kernel`
and `alloc_decode_kernel`) and the vectorised reference (`alloc_extend_naive` of
`srt/mem_cache/allocator/paged.py`).

A launch runs one program for each request. A program loads the lengths of the requests up to its
own, with the other lanes masked to zero, sums them up, and knows from the sums where its slots
begin in the output and where its pages begin among the free ones. Its stores are a list of places
and values; the stores of all programs are made in any order.

The reference finds the request of each output position by a search in the prefix sums and computes
all three phases for each position. A position reads a page of a phase that is not its own too, so
the page numbers are clamped into the list.
-/
import Mathlib.Data.Nat.Size
import LightningH3.Lib.IndexOps
import LightningH3.Lib.Segments
import LightningH3.UnifiedPool

set_option autoImplicit false

namespace LightningH3.PagedKernels

open IndexOps (scatter searchsorted_right)
open UnifiedPool (ExtendRequest pages_of)

/-! ## 1. The kernels -/

def next_power_of_2 (n : ℕ) : ℕ := if n > 0 then 2 ^ Nat.size (n - 1) else 1

/-- `tl.load(ptr + load_offset, mask=load_offset <= pid)` -/
def load (bs_upper pid : ℕ) (xs : List ℤ) : List ℤ :=
  (List.range bs_upper).map fun load_offset => if load_offset ≤ pid then xs.getD load_offset 0 else 0

/-- The lanes of an offset range that a mask `offset < bound` keeps. -/
def masked (offsets : List ℕ) (bound : ℤ) : List ℕ := offsets.filter fun offset => (offset : ℤ) < bound

def BLOCK_EXTEND : ℕ := 4096

/-- `alloc_extend_kernel`: the stores of program `pid` into `out_indices`. -/
def alloc_extend_kernel (pre_lens seq_lens last_locs free_pages : List ℤ) (bs_upper page_size : ℕ)
    (pid : ℕ) : List (ℤ × ℤ) :=
  let seq_lanes := load bs_upper pid seq_lens
  let pre_lanes := load bs_upper pid pre_lens
  let extend_lens := List.zipWith (· - ·) seq_lanes pre_lanes
  let seq_len := seq_lens.getD pid 0
  let pre_len := pre_lens.getD pid 0
  let extend_len := seq_len - pre_len
  let output_start_loc := extend_lens.sum - extend_len
  let num_new_pages := List.zipWith (· - ·) (seq_lanes.map (pages_of page_size))
    (pre_lanes.map (pages_of page_size))
  let num_page_start_loc_self := pages_of page_size seq_len - pages_of page_size pre_len
  let new_page_start_loc := num_new_pages.sum - num_page_start_loc_self
  -- the old partial page
  let last_loc := last_locs.getD pid 0
  let num_part1 := min seq_len (pages_of page_size pre_len * page_size) - pre_len
  let part1 := (masked (List.range page_size) num_part1).map fun offset : ℕ =>
    (output_start_loc + offset, last_loc + 1 + offset)
  if pre_len + num_part1 = seq_len then part1
  else
    -- the new full pages, block by block
    let num_part2 := seq_len / page_size * page_size - pages_of page_size pre_len * page_size
    let num_blocks := (num_part2 + BLOCK_EXTEND - 1) / BLOCK_EXTEND
    let part2 := (List.range num_blocks.toNat).flatMap fun block_id =>
      (masked ((List.range BLOCK_EXTEND).map fun offset_in_block =>
          block_id * BLOCK_EXTEND + offset_in_block) num_part2).map fun offset : ℕ =>
        (output_start_loc + num_part1 + offset,
          free_pages.getD (new_page_start_loc + offset / page_size).toNat 0 * page_size
            + offset % page_size)
    if pre_len + num_part1 + num_part2 = seq_len then part1 ++ part2
    else
      -- the new partial page
      let num_part3 := seq_len - seq_len / page_size * page_size
      let start_loc :=
        free_pages.getD (new_page_start_loc + num_page_start_loc_self - 1).toNat 0
      part1 ++ part2 ++ (masked (List.range page_size) num_part3).map fun offset : ℕ =>
        (output_start_loc + num_part1 + num_part2 + offset, start_loc * page_size + offset)

/-- `alloc_decode_kernel`: the store of program `pid`. -/
def alloc_decode_kernel (seq_lens last_locs free_pages : List ℤ) (bs_upper page_size : ℕ)
    (pid : ℕ) : ℤ × ℤ :=
  let seq_lanes := load bs_upper pid seq_lens
  let pre_lanes := seq_lanes.mapIdx fun load_offset s => if load_offset ≤ pid then s - 1 else s
  let seq_len := seq_lens.getD pid 0
  let pre_len := seq_len - 1
  let num_new_pages := List.zipWith (· - ·) (seq_lanes.map (pages_of page_size))
    (pre_lanes.map (pages_of page_size))
  let num_page_start_loc_self := pages_of page_size seq_len - pages_of page_size pre_len
  let new_page_start_loc := num_new_pages.sum - num_page_start_loc_self
  if num_page_start_loc_self = 0 then (pid, last_locs.getD pid 0 + 1)
  else (pid, free_pages.getD new_page_start_loc.toNat 0 * page_size)

/-- The output after stores, in their order. -/
def stored (out_indices : List ℤ) (stores : List (ℤ × ℤ)) : List ℤ :=
  scatter out_indices (stores.map fun s => s.1.toNat) (stores.map Prod.snd)

/-- The stores of the launch of `alloc_extend_kernel` for a batch, program after program. -/
def extend_launch (page_size : ℕ) (reqs : List ExtendRequest) (free_pages : List ℤ) :
    List (ℤ × ℤ) :=
  (List.range reqs.length).flatMap
    (alloc_extend_kernel (reqs.map ExtendRequest.prefix_len) (reqs.map ExtendRequest.seq_len)
      (reqs.map ExtendRequest.last_loc) free_pages (next_power_of_2 reqs.length) page_size)

/-- The stores of the launch of `alloc_decode_kernel`. -/
def decode_launch (page_size : ℕ) (reqs : List ExtendRequest) (free_pages : List ℤ) :
    List (ℤ × ℤ) :=
  (List.range reqs.length).map
    (alloc_decode_kernel (reqs.map ExtendRequest.seq_len) (reqs.map ExtendRequest.last_loc)
      free_pages (next_power_of_2 reqs.length) page_size)

/-! ## 2. The reference -/

inductive Fault
  | pool_too_small
  deriving DecidableEq, Repr

/-- `torch.cumsum(xs, 0)` -/
def cumsum (xs : List ℤ) : List ℤ := (List.range xs.length).map fun i => (xs.take (i + 1)).sum

/-- `torch.clamp(x, min=0, max=hi)`, of an index. -/
def clamp (x hi : ℤ) : ℕ := (min (max x 0) hi).toNat

/-- The tokens that a request adds. -/
def extend_len (r : ExtendRequest) : ℕ := (r.seq_len - r.prefix_len).toNat

section naive

variable (page_size : ℕ) (reqs : List ExtendRequest) (free_pages : List ℤ)

def ceil_prefix (r : ExtendRequest) : ℤ := pages_of page_size r.prefix_len * page_size

def ceil_seq (r : ExtendRequest) : ℤ := pages_of page_size r.seq_len * page_size

def floor_seq (r : ExtendRequest) : ℤ := r.seq_len / page_size * page_size

def num1 (r : ExtendRequest) : ℤ := min r.seq_len ( ceil_prefix page_size r) - r.prefix_len

def done_after_1 (r : ExtendRequest) : Bool := decide (r.prefix_len + num1 page_size r = r.seq_len)

def num2 (r : ExtendRequest) : ℤ :=
  if done_after_1 page_size r then 0 else floor_seq page_size r - ceil_prefix page_size r

def num3 (r : ExtendRequest) : ℤ :=
  if done_after_1 page_size r then 0 else r.seq_len - floor_seq page_size r

def pages_per_req (r : ExtendRequest) : ℤ :=
  num2 page_size r / page_size + if num3 page_size r > 0 then 1 else 0

def end_pos : List ℕ := Segments.cumsum (reqs.map extend_len)

def start_pos : List ℕ := List.zipWith (· - ·) (end_pos reqs) (reqs.map extend_len)

/-- `owner[j]` -/
def owner (j : ℕ) : ℕ := searchsorted_right (end_pos reqs) j

/-- `local[j]` -/
def offset_in_req (j : ℕ) : ℤ := j - ((start_pos reqs).getD (owner reqs j) 0 : ℕ)

/-- `val_phase1[j]` -/
def val_phase1 (j : ℕ) : ℤ :=
  (reqs.map ExtendRequest.last_loc).getD (owner reqs j) 0 + 1 + offset_in_req reqs j

def end_new_pages : List ℤ := cumsum (reqs.map (pages_per_req page_size))

def start_new_pages : List ℤ :=
  List.zipWith (· - ·) (end_new_pages page_size reqs) (reqs.map (pages_per_req page_size))

/-- `out[j]` when there are free pages. -/
def naive_slot (j : ℕ) : ℤ :=
  let last := (free_pages.length : ℤ) - 1
  let num1_g := (reqs.map (num1 page_size)).getD (owner reqs j) 0
  let num2_g := (reqs.map (num2 page_size)).getD (owner reqs j) 0
  let start_new_pages_g := (start_new_pages page_size reqs).getD (owner reqs j) 0
  let end_new_pages_g := (end_new_pages page_size reqs).getD (owner reqs j) 0
  let is_phase1 := decide (offset_in_req reqs j < num1_g)
  let is_phase2 := !is_phase1 && decide (offset_in_req reqs j < num1_g + num2_g)
  let rel2 := max (offset_in_req reqs j - num1_g) 0
  let page_idx2 := clamp (start_new_pages_g + rel2 / page_size) last
  let val_phase2 := free_pages.getD page_idx2 0 * page_size + rel2 % page_size
  let rel3 := max (offset_in_req reqs j - num1_g - num2_g) 0
  let page_idx3 := clamp (end_new_pages_g - 1) last
  let val_phase3 := free_pages.getD page_idx3 0 * page_size + rel3
  if is_phase1 then val_phase1 reqs j else if is_phase2 then val_phase2 else val_phase3

/-- `alloc_extend_naive`: the output that replaces `out_indices`. -/
def alloc_extend_naive (out_indices : List ℤ) : Except Fault (List ℤ) :=
  if out_indices.length = 0 then .ok out_indices
  else if free_pages.length = 0 then
    if reqs.all fun r => ceil_seq page_size r = ceil_prefix page_size r then
      .ok ((List.range out_indices.length).map (val_phase1 reqs))
    else .error .pool_too_small
  else .ok ((List.range out_indices.length).map (naive_slot page_size reqs free_pages))

end naive

end LightningH3.PagedKernels
