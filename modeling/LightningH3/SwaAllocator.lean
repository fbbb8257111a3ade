/-
The allocator of the hybrid KV cache (`srt/mem_cache/allocator/swa.py`, class
`SWATokenToKVPoolAllocator`) at page size above one, and the requests that use it.

Full attention and sliding window attention (SWA) have a pool each. One `alloc_extend` or
`alloc_decode` takes pages from both, and `full_to_swa_index_mapping` leads from a full slot to its
SWA peer; an entry that reads `0` has none. The mapping is read as a function: what is proved
includes that the slots in use lie in its range. With a per-request ring only the full pool is
paged. The debug assertions, which are off by default, and `free_swa` with its set-shaped frees are
left out; the group switch of the base class has nothing to defer without it. The tail allocation and
page size one are in `SwaAllocatorAtomic`.

A request's row lists the slots of its tokens. Which of its pages a request still owns, and which of
these have their SWA peer, the callers keep track of; here `live` and `paired` do.
-/
import LightningH3.PagedAllocator

set_option autoImplicit false

namespace LightningH3.SwaAllocator

open PageTable (assign)
open UnifiedPool (ExtendRequest num_new_pages_extend)
open PagedAllocator (Paged PagedConfig stride)

inductive Fault
  | nested_group
  | unaligned_segment
  | peer_unmapped
  | peer_not_released
  | pools_out_of_step
  | over_capacity
  deriving DecidableEq, Repr

structure SwaConfig where
  size_full : ℕ
  size_swa : ℕ
  page_size : ℕ
  need_sort : Bool
  swa_req_ring : Bool
  page_gt : 1 < page_size

namespace SwaConfig

variable (c : SwaConfig)

theorem page_pos : 0 < c.page_size := Nat.lt_of_succ_lt c.page_gt

def full : PagedConfig := ⟨c.size_full, c.page_size, c.need_sort, c.page_pos⟩

def swa : PagedConfig := ⟨c.size_swa, c.page_size, c.need_sort, c.page_pos⟩

end SwaConfig

structure Swa where
  full_attn_allocator : Paged
  swa_attn_allocator : Paged
  full_to_swa_index_mapping : ℤ → ℤ
  in_free_group : Bool
  swa_page_ids_group : List (List ℤ)

section ops

variable (c : SwaConfig) (s : Swa)

/-- What the paged allocators raise. -/
def lift {α : Type} : Except PagedAllocator.Fault α → Except Fault α
  | .ok a => .ok a
  | .error .nested_group => .error .nested_group
  | .error .unaligned_segment => .error .unaligned_segment

def new_pages_available (num_full_pages num_swa_pages : ℤ) : Bool :=
  decide (num_full_pages
      ≤ (PagedAllocator.available_size c.full s.full_attn_allocator / c.page_size : ℕ)) &&
    (c.swa_req_ring || decide (num_swa_pages
      ≤ (PagedAllocator.available_size c.swa s.swa_attn_allocator / c.page_size : ℕ)))

/-- The requests as the SWA allocator sees them: `translate_loc_from_full_to_swa` of the last
slots. -/
def swa_requests (reqs : List ExtendRequest) : List ExtendRequest :=
  reqs.map fun r => { r with last_loc := s.full_to_swa_index_mapping r.last_loc }

def alloc_extend (reqs : List ExtendRequest) : Except Fault (Swa × Option (List ℤ)) :=
  let num_new_pages := num_new_pages_extend c.page_size reqs
  if !new_pages_available c s num_new_pages num_new_pages then .ok (s, none)
  else
    let full := PagedAllocator.alloc_extend c.full s.full_attn_allocator reqs
    if c.swa_req_ring then .ok ({ s with full_attn_allocator := full.1 }, full.2)
    else
      let swa := PagedAllocator.alloc_extend c.swa s.swa_attn_allocator (swa_requests s reqs)
      match full.2, swa.2 with
      | some alloc_full_indices, some alloc_swa_indices =>
        .ok ({ s with
          full_attn_allocator := full.1
          swa_attn_allocator := swa.1
          full_to_swa_index_mapping :=
            assign s.full_to_swa_index_mapping (alloc_full_indices.zip alloc_swa_indices) },
          some alloc_full_indices)
      | _, _ => .error .pools_out_of_step

/-- `alloc_decode`, over pairs of a sequence length and the last slot. -/
def alloc_decode (reqs : List (ℤ × ℤ)) : Swa × Option (List ℤ) :=
  let full := PagedAllocator.alloc_decode c.full s.full_attn_allocator reqs
  if c.swa_req_ring then ({ s with full_attn_allocator := full.1 }, full.2)
  else
    let swa := PagedAllocator.alloc_decode c.swa s.swa_attn_allocator
      (reqs.map fun r => (r.1, s.full_to_swa_index_mapping r.2))
    match full.2, swa.2 with
    | some alloc_full_indices, some alloc_swa_indices =>
      ({ s with
        full_attn_allocator := full.1
        swa_attn_allocator := swa.1
        full_to_swa_index_mapping :=
          assign s.full_to_swa_index_mapping (alloc_full_indices.zip alloc_swa_indices) },
        some alloc_full_indices)
    -- one side may have handed out its pages all the same
    | _, _ => ({ s with full_attn_allocator := full.1, swa_attn_allocator := swa.1 }, none)

def expand_to_full_pages (indices : List ℤ) : List ℤ :=
  indices.flatMap fun slot => (List.range c.page_size).map fun o : ℕ =>
    slot / c.page_size * c.page_size + (o : ℤ)

def clear_full_to_swa_mapping (full_indices : List ℤ) : Swa :=
  { s with full_to_swa_index_mapping :=
      assign s.full_to_swa_index_mapping (full_indices.map fun slot => (slot, 0)) }

/-- The pages of a segment's SWA peers, with their entries cleared. -/
def free_swa_pages_of (full_page_representatives : List ℤ) : Except Fault (Swa × List ℤ) :=
  let swa_tokens := full_page_representatives.map s.full_to_swa_index_mapping
  if swa_tokens.all fun t => decide (0 < t) then
    .ok (clear_full_to_swa_mapping s (expand_to_full_pages c full_page_representatives),
      swa_tokens.map fun t => t / c.page_size)
  else .error .peer_unmapped

/-- The assertion that a pool never has more than it was made with. -/
def check_capacity (pc : PagedConfig) (p : Paged) : Except Fault Unit :=
  if PagedAllocator.available_size pc p ≤ pc.size then .ok () else .error .over_capacity

def free_swa_pages (free_index : List ℤ) (start_pos : ℕ) : Except Fault Swa :=
  if start_pos % c.page_size ≠ 0 then .error .unaligned_segment
  else do
    let (s, swa_pages) ← free_swa_pages_of c s (stride c.page_size free_index)
    if s.in_free_group then
      pure { s with swa_page_ids_group := s.swa_page_ids_group ++ [swa_pages] }
    else
      let swa := PagedAllocator.free_page_ids c.swa s.swa_attn_allocator swa_pages
      check_capacity c.swa swa
      pure { s with swa_attn_allocator := swa }

def free_swa_segment (free_index : List ℤ) (start_pos : ℕ) : Except Fault Swa :=
  if c.swa_req_ring || free_index.isEmpty then .ok s else free_swa_pages c s free_index start_pos

def free_full_side (free_index : List ℤ) (start_pos : ℕ) : Except Fault Swa := do
  let full ← lift (PagedAllocator.free_segment c.full s.full_attn_allocator free_index start_pos)
  pure { s with full_attn_allocator := full }

def free_segment (free_index : List ℤ) (start_pos : ℕ) : Except Fault Swa :=
  if free_index.isEmpty then .ok s
  else do
    let s ← free_swa_segment c s free_index start_pos
    free_full_side c s free_index start_pos

def free_full_segment (free_index : List ℤ) (start_pos : ℕ) : Except Fault Swa :=
  if free_index.isEmpty then .ok s
  else if free_index.all fun slot => decide (s.full_to_swa_index_mapping slot = 0) then
    free_full_side c s free_index start_pos
  else .error .peer_not_released

def free_group_begin : Except Fault Swa :=
  if s.in_free_group then .error .nested_group
  else do
    let full ← lift (PagedAllocator.free_group_begin s.full_attn_allocator)
    pure { s with in_free_group := true, swa_page_ids_group := [], full_attn_allocator := full }

def free_group_end : Except Fault Swa := do
  let swa :=
    if s.swa_page_ids_group = [] ∨ c.swa_req_ring = true then s.swa_attn_allocator
    else PagedAllocator.free_page_ids c.swa s.swa_attn_allocator s.swa_page_ids_group.flatten
  let full := PagedAllocator.free_group_end c.full s.full_attn_allocator
  check_capacity c.full full
  check_capacity c.swa swa
  pure { s with
    in_free_group := false
    swa_page_ids_group := []
    swa_attn_allocator := swa
    full_attn_allocator := full }

end ops

/-- `clear`: the entry that a last slot of `-1` reads stays `-1`. -/
def clear (c : SwaConfig) : Swa where
  full_attn_allocator := PagedAllocator.clear c.full
  swa_attn_allocator := PagedAllocator.clear c.swa
  full_to_swa_index_mapping := fun slot => if slot = -1 then -1 else 0
  in_free_group := false
  swa_page_ids_group := []

/-! ## Requests -/

/-- A request: the slots of its tokens, the pages it owns and those of them that have their peer. -/
structure Req where
  row : List ℤ
  live : ℕ → Bool
  paired : ℕ → Bool

namespace Req

variable (c : SwaConfig) (q : Req)

/-- A request that begins with a cached prefix of whole pages, which it does not own. -/
def accept (prefix_indices : List ℤ) : Req := ⟨prefix_indices, fun _ => false, fun _ => false⟩

/-- Its next `extra` tokens as the allocator is asked for them; without a token the last slot is
`-1`. -/
def extend (extra : ℕ) : ExtendRequest where
  prefix_len := q.row.length
  seq_len := q.row.length + extra
  last_loc := q.row.getLastD (-1)
  prefix_nonneg := Int.natCast_nonneg _
  prefix_le_seq := Int.le_add_of_nonneg_right (Int.natCast_nonneg _)

/-- The pages that `extra` more tokens open. -/
def opens (extra j : ℕ) : Bool :=
  decide (page_count c.page_size q.row.length ≤ j) &&
    decide (j < page_count c.page_size (q.row.length + extra))

/-- New slots at the end of the row. -/
def grow (slots : List ℤ) : Req where
  row := q.row ++ slots
  live := fun j => q.live j || q.opens c slots.length j
  paired := fun j => q.paired j || (q.opens c slots.length j && !c.swa_req_ring)

/-- Whether page `j` begins in the range. -/
def within (start stop j : ℕ) : Bool :=
  decide (start ≤ j * c.page_size) && decide (j * c.page_size < stop)

/-- The peers of a range given up. -/
def unpair (start stop : ℕ) : Req :=
  { q with paired := fun j => q.paired j && !within c start stop j }

/-- The full pages of a range given up. -/
def unown (start stop : ℕ) : Req :=
  { q with live := fun j => q.live j && !within c start stop j }

end Req

/-- `row[start:stop]` -/
def segment (q : Req) (start stop : ℕ) : List ℤ := (q.row.drop start).take (stop - start)

/-- The allocator and its requests. -/
structure System where
  alloc : Swa
  reqs : ℕ → Req

inductive Op
  | accept (r : ℕ) (prefix_indices : List ℤ)
  | alloc_extend (batch : List (ℕ × ℕ))
  | alloc_decode (batch : List ℕ)
  | free_segment (r start stop : ℕ)
  | free_swa_segment (r start stop : ℕ)
  | free_full_segment (r start stop : ℕ)
  | free_group_begin
  | free_group_end
  | clear

/-- The slots of a batch written to the rows, request after request. -/
def write_rows (c : SwaConfig) : (ℕ → Req) → List (ℕ × ℕ) → List ℤ → ℕ → Req
  | reqs, [], _ => reqs
  | reqs, (r, extra) :: batch, out =>
    write_rows c (Function.update reqs r ((reqs r).grow c (out.take extra))) batch (out.drop extra)

def step (c : SwaConfig) (y : System) : Op → Except Fault System
  | .accept r prefix_indices =>
    .ok { y with reqs := Function.update y.reqs r (.accept prefix_indices) }
  | .alloc_extend batch => do
      let (a, out) ← alloc_extend c y.alloc (batch.map fun b => (y.reqs b.1).extend b.2)
      match out with
      | none => pure { y with alloc := a }
      | some out => pure ⟨a, write_rows c y.reqs batch out⟩
  | .alloc_decode batch =>
    let r := alloc_decode c y.alloc (batch.map fun b =>
      (((y.reqs b).extend 1).seq_len, ((y.reqs b).extend 1).last_loc))
    match r.2 with
    | none => .ok { y with alloc := r.1 }
    | some out => .ok ⟨r.1, write_rows c y.reqs (batch.map fun b => (b, 1)) out⟩
  | .free_segment r start stop => do
      let a ← free_segment c y.alloc (segment (y.reqs r) start stop) start
      pure ⟨a, Function.update y.reqs r (((y.reqs r).unpair c start stop).unown c start stop)⟩
  | .free_swa_segment r start stop => do
      let a ← free_swa_segment c y.alloc (segment (y.reqs r) start stop) start
      pure ⟨a, Function.update y.reqs r ((y.reqs r).unpair c start stop)⟩
  | .free_full_segment r start stop => do
      let a ← free_full_segment c y.alloc (segment (y.reqs r) start stop) start
      pure ⟨a, Function.update y.reqs r ((y.reqs r).unown c start stop)⟩
  | .free_group_begin => do
      let a ← free_group_begin y.alloc
      pure { y with alloc := a }
  | .free_group_end => do
      let a ← free_group_end c y.alloc
      pure { y with alloc := a }
  | .clear => .ok ⟨clear c, fun _ => .accept []⟩

end LightningH3.SwaAllocator
