/-
An end pool of the unified memory pool (`MultiEndedAllocator`).

One byte buffer is shared by a grow-up pool at its bottom and a grow-down pool at its top.
An end pool owns the pages between its base and its watermark, and hands them out under
virtual page ids: `virtual_to_physical` and `physical_to_virtual` are the only record of
where a virtual page lives, so pages may be moved behind its back.

A **lazy** pool leaves freed pages as holes inside its band. `_flush` closes them: holes at
the watermark are absorbed, and pages next to the watermark are moved into the holes next
to the base. A page that was moved away may still be read by the forward pass in flight, so
it waits in `_pending_reuse` under that pass's event until the event has fired. An **eager**
pool compacts on every free and has neither holes nor pending pages.

What the rest of the chain contributes is one number, the byte frontier of the nearest
opaque neighbour on the growth side; every operation that extends the band takes it as an
argument. Events fire behind the program's back: an operation that queries events is given
the answers, and a flush, which asks at three moments, is given a `FlushClock`.

Counters for statistics, the inverse history of moves and the streams are left out: no
modelled function reads them.
-/
import Mathlib.Algebra.Ring.Int.Defs
import Mathlib.Data.Finset.Basic
import Mathlib.Data.List.Sort
import LightningH3.Lib.OrderedDict
import LightningH3.Lib.PageTable

set_option autoImplicit false

namespace LightningH3.UnifiedPool

/-- `grow_direction` of an end pool. -/
inductive GrowDirection where
  | up
  | down
deriving DecidableEq, Repr

/-- The assertions of the allocators. -/
inductive Fault where
  | not_id_owner
  | unaligned_size
  | unaligned_segment
  | nested_group
  | stale_slot
  | move_gate_installed
  | watermark_past_base
  | freed_outside_band
  | survivors_holes_mismatch
  | invalid_p2v
  | out_of_physical_room
  | internal_state_inconsistency
deriving DecidableEq, Repr

/-- What the constructor fixes. `page_size` counts the virtual tokens of a page,
`pool_page_size` the rows it occupies here; they differ by the number of ranks the tokens
are sharded over. Page `0` is the padding sink, so the first page of the pool is at least
`1`. -/
structure EndConfig where
  grow_direction : GrowDirection
  num_pages : ℤ
  min_page_index : ℤ
  entry_bytes : ℤ
  pool_page_size : ℤ
  dcp_size : ℤ
  num_virtual_ids : ℤ
  lazy_compaction : Bool
  is_id_owner : Bool
  one_le_min_page_index : 1 ≤ min_page_index
  entry_bytes_pos : 0 < entry_bytes
  pool_page_size_pos : 0 < pool_page_size
  dcp_size_pos : 0 < dcp_size

/-- `page_size * dcp_size`. -/
def EndConfig.page_size (c : EndConfig) : ℤ := c.pool_page_size * c.dcp_size

/-- `entry_bytes * pool_page_size`. -/
def EndConfig.entry_bytes_per_page (c : EndConfig) : ℤ := c.entry_bytes * c.pool_page_size

theorem EndConfig.page_size_pos (c : EndConfig) : 0 < c.page_size :=
  Int.mul_pos c.pool_page_size_pos c.dcp_size_pos

/-- The mutable state. `table` is the pair `virtual_to_physical`, `physical_to_virtual`
over the page contents. A pending batch is kept once: the source keeps the same pages as a
host list and as a device tensor. A gate is `some b` when installed and answering `b`.
`zero_page` is what `_maybe_zero_pages` writes, in a pool that does so. -/
structure EndPool (E β : Type) where
  watermark_physical : ℤ
  table : PageTable β
  free_virtual_ids : List ℤ
  free_phys_pages : List ℤ
  pending_reuse : OrderedDict E (List ℤ)
  pending_reuse_pages_cpu : Finset ℤ
  live_page_count : ℤ
  latest_forward_done_event : Option E
  inflight_forward : Option (E × List ℤ)
  disagg_move_gate : Option Bool
  host_transfer_move_gate : Option Bool
  free_group : Option (List (List ℤ))
  free_page_reps_group : Option (List (List ℤ))
  zero_page : Option β

/-- The answers a flush gets when it asks whether an event has fired: while it drains
pending pages, when it first has to classify a survivor, and when it disposes of the moved
pages. What has fired stays fired. -/
structure FlushClock (E : Type) where
  drain : E → Bool
  write : E → Bool
  commit : E → Bool
  drain_le : ∀ e, drain e = true → write e = true
  write_le : ∀ e, write e = true → commit e = true

/-- `torch.arange(a, b)`. -/
def arange (a b : ℤ) : List ℤ := (List.range (b - a).toNat).map (fun i : ℕ => a + (i : ℤ))

/-- `torch.arange(a, b, -1)`. -/
def arange_down (a b : ℤ) : List ℤ := (List.range (a - b).toNat).map (fun i : ℕ => a - (i : ℤ))

/-- `torch.sort`, values only. -/
def sorted (l : List ℤ) : List ℤ := l.insertionSort (· ≤ ·)

def unique (l : List ℤ) : List ℤ := sorted l.dedup

variable {E β : Type}

/-! ## Reading the state -/

section Read

variable (c : EndConfig) (s : EndPool E β)

/-- `_reset_watermarks`. -/
def initial_watermark : ℤ :=
  match c.grow_direction with
  | .up => c.min_page_index
  | .down => c.num_pages - 1

/-- `clear`, on page contents `mem`. Virtual page `0` is backed by physical page `0`. -/
def cleared (mem : ℤ → β) (zero_page : Option β) : EndPool E β where
  watermark_physical := initial_watermark c
  table :=
    { v2p := Function.update (fun _ => -1) 0 0
      p2v := Function.update (fun _ => -1) 0 0
      mem := mem }
  free_virtual_ids := if c.is_id_owner then arange c.min_page_index c.num_pages else []
  free_phys_pages := []
  pending_reuse := OrderedDict.empty
  pending_reuse_pages_cpu := ∅
  live_page_count := 0
  latest_forward_done_event := none
  inflight_forward := none
  disagg_move_gate := none
  host_transfer_move_gate := none
  free_group := none
  free_page_reps_group := none
  zero_page := zero_page

def allocated_pages : ℤ :=
  match c.grow_direction with
  | .up => max 0 (s.watermark_physical - c.min_page_index)
  | .down => max 0 (c.num_pages - 1 - s.watermark_physical)

def byte_high_frontier : ℤ :=
  match c.grow_direction with
  | .up => s.watermark_physical * c.entry_bytes_per_page
  | .down => c.num_pages * c.entry_bytes_per_page

def byte_low_frontier : ℤ :=
  match c.grow_direction with
  | .up => c.min_page_index * c.entry_bytes_per_page
  | .down => (s.watermark_physical + 1) * c.entry_bytes_per_page

/-- `_current_gap_bytes`, where `frontier` is the frontier of the growth-side neighbour:
`_chain_low_frontier_above_bytes` for a grow-up pool, `_chain_high_frontier_below_bytes`
for a grow-down one. -/
def current_gap_bytes (frontier : ℤ) : ℤ :=
  match c.grow_direction with
  | .up => max 0 (frontier - byte_high_frontier c s)
  | .down => max 0 (byte_low_frontier c s - frontier)

def available_tokens (frontier extra_gap_bytes : ℤ) : ℤ :=
  let gap_bytes := current_gap_bytes c s frontier + extra_gap_bytes
  let pages_by_bytes := gap_bytes / c.entry_bytes_per_page
  let pages_by_index_space := c.num_pages - c.min_page_index - allocated_pages c s
  let pages_extend := min pages_by_bytes pages_by_index_space
  let pages_drain := if c.lazy_compaction then (s.free_phys_pages.length : ℤ) else 0
  (pages_extend + pages_drain) * c.page_size

/-- `available_size`. The memo of the source holds this value: every field it depends on
invalidates it when rebound. -/
def available_size (frontier : ℤ) : ℤ := available_tokens c s frontier 0

def moves_blocked : Bool :=
  s.disagg_move_gate == some false || s.host_transfer_move_gate == some false

end Read

/-! ## Taking physical pages -/

section Take

variable (c : EndConfig) (s : EndPool E β) (frontier : ℤ)

def extend_watermark (num_pages : ℤ) : Option (EndPool E β) :=
  match c.grow_direction with
  | .up =>
    let new_wm := s.watermark_physical + num_pages
    if c.num_pages < new_wm then none
    else if frontier / c.entry_bytes_per_page < new_wm then none
    else some { s with watermark_physical := new_wm }
  | .down =>
    let new_wm := s.watermark_physical - num_pages
    if new_wm < c.min_page_index - 1 then none
    else if new_wm + 1 < frontier / c.entry_bytes_per_page then none
    else some { s with watermark_physical := new_wm }

def take_physical_arange (num_pages : ℤ) : List ℤ :=
  match c.grow_direction with
  | .up => arange (s.watermark_physical - num_pages) s.watermark_physical
  | .down => arange (s.watermark_physical + 1) (s.watermark_physical + num_pages + 1)

/-- The watermark move of an eager pool: only the index space is checked. -/
def extend_watermark_eager (num_pages : ℤ) : Option (EndPool E β) :=
  match c.grow_direction with
  | .up =>
    let new_wm := s.watermark_physical + num_pages
    if c.num_pages < new_wm then none else some { s with watermark_physical := new_wm }
  | .down =>
    let new_wm := s.watermark_physical - num_pages
    if new_wm < c.min_page_index - 1 then none else some { s with watermark_physical := new_wm }

def take_physical_eager (num_pages : ℤ) : Option (EndPool E β × List ℤ) :=
  (extend_watermark_eager c s num_pages).map fun s' => (s', take_physical_arange c s' num_pages)

/-- The pages of a mixed take that extend the band. -/
def take_physical_extended (need_more : ℤ) : List ℤ :=
  match c.grow_direction with
  | .up => arange (s.watermark_physical - need_more) s.watermark_physical
  | .down => arange_down (s.watermark_physical + need_more) s.watermark_physical

/-- The lazy part of `take_physical`: extend first, then drain holes. -/
def take_physical_lazy (num_pages : ℤ) : Option (EndPool E β × List ℤ) :=
  let n_drain := min num_pages s.free_phys_pages.length
  let need_more := num_pages - n_drain
  let extended := if 0 < need_more then extend_watermark c s frontier need_more else some s
  extended.map fun s₁ =>
    let s₂ :=
      { s₁ with
        free_phys_pages := s.free_phys_pages.drop n_drain.toNat
        live_page_count := s.live_page_count + num_pages }
    if n_drain ≤ 0 then (s₂, take_physical_arange c s₂ num_pages)
    else if need_more = 0 then (s₂, s.free_phys_pages.take n_drain.toNat)
    else (s₂, s.free_phys_pages.take n_drain.toNat ++ take_physical_extended c s₂ need_more)

def take_physical (need_size : ℤ) : Except Fault (Option (EndPool E β × List ℤ)) :=
  if need_size ≤ 0 then .ok (some (s, []))
  else if need_size % c.page_size ≠ 0 then .error .unaligned_size
  else if c.lazy_compaction then
    .ok (take_physical_lazy c s frontier (need_size / c.page_size))
  else .ok (take_physical_eager c s (need_size / c.page_size))

def take_physical_pages (num_pages : ℤ) : Except Fault (Option (EndPool E β × List ℤ)) :=
  take_physical c s frontier (num_pages * c.page_size)

def maybe_zero_pages (phys_pages : List ℤ) : EndPool E β :=
  match s.zero_page with
  | none => s
  | some z =>
    { s with
      table := { s.table with
        mem := PageTable.assign s.table.mem (phys_pages.map (fun p => (p, z))) } }

/-- `bind`. -/
def bind_pages (v_pages phys_pages : List ℤ) : EndPool E β :=
  { s with table := s.table.bind (v_pages.zip phys_pages) }

/-- The lowest page of the range that extends the band by `n` pages. -/
def start_phys (n : ℤ) : ℤ :=
  match c.grow_direction with
  | .up => s.watermark_physical
  | .down => s.watermark_physical - n + 1

/-- The fused path of `_alloc_bind_fast_or_slow`, for a pool without holes: the new pages
are the ascending range between the two watermarks. -/
def alloc_bind_fast (v_pages : List ℤ) (n : ℤ) : Option (EndPool E β × List ℤ) :=
  let extended :=
    if c.lazy_compaction then extend_watermark c s frontier n else extend_watermark_eager c s n
  extended.map fun s₁ =>
    let phys_pages := arange (start_phys c s n) (start_phys c s n + v_pages.length)
    let s₂ := bind_pages s₁ v_pages phys_pages
    let s₃ :=
      if c.lazy_compaction then { s₂ with live_page_count := s₂.live_page_count + n } else s₂
    (maybe_zero_pages s₃ phys_pages, phys_pages)

def alloc_bind_fast_or_slow (v_pages : List ℤ) (n : ℤ) :
    Except Fault (Option (EndPool E β × List ℤ)) :=
  if n = 0 then .ok (some (s, []))
  else if !c.lazy_compaction || s.free_phys_pages.isEmpty then
    .ok (alloc_bind_fast c s frontier v_pages n)
  else
    match take_physical_pages c s frontier n with
    | .error e => .error e
    | .ok none => .ok none
    | .ok (some (s₁, phys_pages)) =>
      .ok (some (maybe_zero_pages (bind_pages s₁ v_pages phys_pages) phys_pages, phys_pages))

end Take

/-! ## Allocation -/

section Alloc

variable (c : EndConfig) (s : EndPool E β)

/-- `v_pages[:, None] * page_size + arange(page_size)`, flattened. -/
def page_tokens (v_pages : List ℤ) : List ℤ :=
  v_pages.flatMap fun v => (arange 0 c.page_size).map fun o => v * c.page_size + o

/-- The frontier an allocation of `need_tokens` goes on with: `frontier` when that leaves
enough room, and otherwise `relieved`, the frontier after the shortfall ladder
`_relieve_for_alloc` has run over the neighbours; `none` when that is not enough either. -/
def relieve (need_tokens frontier relieved : ℤ) : Option ℤ :=
  if need_tokens ≤ available_size c s frontier then some frontier
  else if need_tokens ≤ available_size c s relieved then some relieved
  else none

def alloc (need_size frontier relieved : ℤ) : Except Fault (EndPool E β × Option (List ℤ)) :=
  if !c.is_id_owner then .error .not_id_owner
  else if need_size ≤ 0 then .ok (s, some [])
  else if need_size % c.page_size ≠ 0 then .error .unaligned_size
  else
    match relieve c s need_size frontier relieved with
    | none => .ok (s, none)
    | some f =>
      let num_pages := need_size / c.page_size
      let v_pages := s.free_virtual_ids.take num_pages.toNat
      let s₁ := { s with free_virtual_ids := s.free_virtual_ids.drop num_pages.toNat }
      match alloc_bind_fast_or_slow c s₁ f v_pages num_pages with
      | .error e => .error e
      | .ok none => .ok (s, none)
      | .ok (some (s₂, _)) => .ok (s₂, some (page_tokens c v_pages))

def alloc_with_virtual (virtual_pages : List ℤ) (frontier : ℤ) : Except Fault (EndPool E β) :=
  if virtual_pages.isEmpty then .ok s
  else
    match alloc_bind_fast_or_slow c s frontier virtual_pages virtual_pages.length with
    | .error e => .error e
    | .ok none => .error .out_of_physical_room
    | .ok (some (s₁, _)) => .ok s₁

/-- One request of a paged extend: its cached prefix, its new length and the token the
prefix ends with. -/
structure ExtendRequest where
  prefix_len : ℤ
  seq_len : ℤ
  last_loc : ℤ
  prefix_nonneg : 0 ≤ prefix_len
  prefix_le_seq : prefix_len ≤ seq_len

/-- `(len + page_size - 1) // page_size`. -/
def pages_of (page_size len : ℤ) : ℤ := (len + page_size - 1) / page_size

def ExtendRequest.new_pages (r : ExtendRequest) (page_size : ℤ) : ℤ :=
  pages_of page_size r.seq_len - pages_of page_size r.prefix_len

/-- `get_num_new_pages` for an extend. -/
def num_new_pages_extend (page_size : ℤ) (reqs : List ExtendRequest) : ℤ :=
  (reqs.map (fun r => r.new_pages page_size)).sum

/-- `get_num_new_pages` for a decode step: a request that just wrapped needs a page. -/
def num_new_pages_decode (page_size : ℤ) (seq_lens : List ℤ) : ℤ :=
  (seq_lens.countP (fun n => n % page_size == 1) : ℕ)

/-- One program of `alloc_extend_kernel`, whose new pages start at `first` in `free_pages`:
the rest of the old partial page, the full new pages, the new partial page. -/
def extend_tokens (page_size : ℤ) (free_pages : List ℤ) (first : ℤ) (r : ExtendRequest) :
    List ℤ :=
  let num_part1 :=
    min r.seq_len (pages_of page_size r.prefix_len * page_size) - r.prefix_len
  let part1 := (arange 0 num_part1).map fun o => r.last_loc + 1 + o
  if r.prefix_len + num_part1 = r.seq_len then part1
  else
    let num_part2 :=
      r.seq_len / page_size * page_size - pages_of page_size r.prefix_len * page_size
    let part2 := (arange 0 num_part2).map fun o =>
      free_pages.getD (first + o / page_size).toNat 0 * page_size + o % page_size
    if r.prefix_len + num_part1 + num_part2 = r.seq_len then part1 ++ part2
    else
      let num_part3 := r.seq_len - r.seq_len / page_size * page_size
      let part3 := (arange 0 num_part3).map fun o =>
        free_pages.getD (first + r.new_pages page_size - 1).toNat 0 * page_size + o
      part1 ++ part2 ++ part3

/-- `alloc_extend_kernel` over the requests, the first of which takes its pages from
position `first` on. -/
def extend_kernel (page_size : ℤ) (free_pages : List ℤ) : ℤ → List ExtendRequest → List ℤ
  | _, [] => []
  | first, r :: rs =>
    extend_tokens page_size free_pages first r
      ++ extend_kernel page_size free_pages (first + r.new_pages page_size) rs

/-- `alloc_decode_kernel` over pairs of a sequence length and the last token. -/
def decode_kernel (page_size : ℤ) (free_pages : List ℤ) : ℤ → List (ℤ × ℤ) → List ℤ
  | _, [] => []
  | first, (seq_len, last_loc) :: rs =>
    let fresh := pages_of page_size seq_len - pages_of page_size (seq_len - 1)
    let token :=
      if fresh = 0 then last_loc + 1 else free_pages.getD first.toNat 0 * page_size
    token :: decode_kernel page_size free_pages (first + fresh) rs

/-- What `alloc_extend` and `alloc_decode` share: take and bind `num_new_pages`, and return
the tokens the kernel computes from the free virtual pages. -/
def alloc_paged (num_new_pages frontier relieved : ℤ) (out_indices : List ℤ) :
    Except Fault (EndPool E β × Option (List ℤ)) :=
  if !c.is_id_owner then .error .not_id_owner
  else if (s.free_virtual_ids.length : ℤ) < num_new_pages then .ok (s, none)
  else
    match relieve c s (num_new_pages * c.page_size) frontier relieved with
    | none => .ok (s, none)
    | some f =>
      if num_new_pages ≤ 0 then .ok (s, some out_indices)
      else
        let new_virtual_pages := s.free_virtual_ids.take num_new_pages.toNat
        match alloc_bind_fast_or_slow c s f new_virtual_pages num_new_pages with
        | .error e => .error e
        | .ok none => .ok (s, none)
        | .ok (some (s₁, _)) =>
          .ok ({ s₁ with free_virtual_ids := s₁.free_virtual_ids.drop num_new_pages.toNat },
            some out_indices)

def alloc_extend (reqs : List ExtendRequest) (frontier relieved : ℤ) :
    Except Fault (EndPool E β × Option (List ℤ)) :=
  alloc_paged c s (num_new_pages_extend c.page_size reqs) frontier relieved
    (extend_kernel c.page_size s.free_virtual_ids 0 reqs)

/-- `alloc_decode`, over pairs of a sequence length and the last token. -/
def alloc_decode (reqs : List (ℤ × ℤ)) (frontier relieved : ℤ) :
    Except Fault (EndPool E β × Option (List ℤ)) :=
  alloc_paged c s (num_new_pages_decode c.page_size (reqs.map Prod.fst)) frontier relieved
    (decode_kernel c.page_size s.free_virtual_ids 0 reqs)

end Alloc

/-! ## Freeing -/

section Free

variable (c : EndConfig) (s : EndPool E β)

/-- The virtual pages a free is about: those the caller derived, else one for each token
when a page is one token, else the distinct pages of the tokens. -/
def freed_pages (free_index : List ℤ) (pages : Option (List ℤ)) : List ℤ :=
  match pages with
  | some ps => ps
  | none =>
    if c.page_size = 1 then free_index else unique (free_index.map (· / c.page_size))

/-- `_free_lazy`, for the virtual pages `free_v_pages`. -/
def free_lazy (free_v_pages : List ℤ) : EndPool E β :=
  let freed_p_pages := free_v_pages.map s.table.v2p
  { s with
    table := s.table.unbind free_v_pages
    free_virtual_ids :=
      if c.is_id_owner then s.free_virtual_ids ++ free_v_pages else s.free_virtual_ids
    free_phys_pages := s.free_phys_pages ++ freed_p_pages
    live_page_count := s.live_page_count - freed_p_pages.length }

/-- `_compact_pending_impl`: move the survivors of the vacated band into the holes of the
kept one. -/
def compact_pending (freed_physical_pages : List ℤ) : Except Fault (EndPool E β) :=
  let freed_set := unique freed_physical_pages
  let k : ℤ := freed_set.length
  if s.disagg_move_gate.isSome || s.host_transfer_move_gate.isSome then
    .error .move_gate_installed
  else if freed_set.isEmpty then .ok s
  else
    match c.grow_direction with
    | .up =>
      let old_wm := s.watermark_physical
      let new_wm := old_wm - k
      if new_wm < c.min_page_index then .error .watermark_past_base
      else if !freed_set.all (fun h => decide (c.min_page_index ≤ h ∧ h < old_wm)) then
        .error .freed_outside_band
      else
        let src_list := (arange new_wm old_wm).filter (fun p => decide (p ∉ freed_set))
        let dst_list := freed_set.filter (fun h => decide (h < new_wm))
        if src_list.length ≠ dst_list.length then .error .survivors_holes_mismatch
        else
          let moves := src_list.zip dst_list
          .ok { s with
            watermark_physical := new_wm
            table := ((s.table.copy moves).rebind moves).vacate (arange new_wm old_wm) }
    | .down =>
      let old_wm := s.watermark_physical
      let new_wm := old_wm + k
      if c.num_pages - 1 < new_wm then .error .watermark_past_base
      else if !freed_set.all (fun h => decide (old_wm < h ∧ h < c.num_pages)) then
        .error .freed_outside_band
      else
        let src_list :=
          (arange (old_wm + 1) (new_wm + 1)).filter (fun p => decide (p ∉ freed_set))
        let dst_list := freed_set.filter (fun h => decide (new_wm < h))
        if src_list.length ≠ dst_list.length then .error .survivors_holes_mismatch
        else
          let moves := src_list.zip dst_list
          .ok { s with
            watermark_physical := new_wm
            table :=
              ((s.table.copy moves).rebind moves).vacate (arange (old_wm + 1) (new_wm + 1)) }

/-- The eager part of `free`, for the virtual pages `free_v_pages`. -/
def free_eager (free_v_pages : List ℤ) : Except Fault (EndPool E β) :=
  let freed_p_pages := free_v_pages.map s.table.v2p
  if freed_p_pages.any (fun p => decide (p < 0)) then .error .stale_slot
  else
    let s₁ :=
      { s with
        table := { s.table with
          v2p := PageTable.assign s.table.v2p (free_v_pages.map (fun v => (v, -1))) }
        free_virtual_ids :=
          if c.is_id_owner then s.free_virtual_ids ++ free_v_pages else s.free_virtual_ids }
    compact_pending c s₁ freed_p_pages

/-- `free` outside a free group, of at least one token. -/
def free_now (free_index : List ℤ) (pages : Option (List ℤ)) : Except Fault (EndPool E β) :=
  if c.lazy_compaction then .ok (free_lazy c s (freed_pages c free_index pages))
  else free_eager c s (freed_pages c free_index pages)

def free (free_index : List ℤ) (pages : Option (List ℤ)) : Except Fault (EndPool E β) :=
  if free_index.isEmpty then .ok s
  else
    match s.free_group with
    | some group => .ok { s with free_group := some (group ++ [free_index]) }
    | none => free_now c s free_index pages

/-- `xs[::k]`. -/
def every (k : ℕ) : ℕ → List ℤ → List ℤ
  | _, [] => []
  | 0, x :: xs => x :: every k (k - 1) xs
  | skip + 1, _ :: xs => every k skip xs

def free_segment (free_index : List ℤ) (start_pos : ℤ) : Except Fault (EndPool E β) :=
  if free_index.isEmpty then .ok s
  else if c.page_size = 1 then free c s free_index none
  else if start_pos % c.page_size ≠ 0 then .error .unaligned_segment
  else
    let reps := every c.page_size.toNat 0 free_index
    match s.free_page_reps_group with
    | none => free c s reps (some (reps.map (· / c.page_size)))
    | some group => .ok { s with free_page_reps_group := some (group ++ [reps]) }

def free_group_begin : Except Fault (EndPool E β) :=
  if s.free_group.isSome then .error .nested_group
  else .ok { s with free_group := some [], free_page_reps_group := some [] }

/-- `free_group_end`: first the queued tokens, then the queued page representatives. -/
def free_group_end : Except Fault (EndPool E β) :=
  let pending := s.free_page_reps_group.getD []
  let queued := s.free_group.getD []
  let s₁ := { s with free_group := none, free_page_reps_group := none }
  let freed := if queued.isEmpty then .ok s₁ else free c s₁ queued.flatten none
  match freed with
  | .error e => .error e
  | .ok s₂ =>
    if pending.isEmpty then .ok s₂
    else free c s₂ pending.flatten (some (pending.flatten.map (· / c.page_size)))

end Free

/-! ## Lazy compaction -/

section Flush

variable (c : EndConfig) (s : EndPool E β)

def set_latest_forward_done_event (event : Option E) : EndPool E β :=
  { s with latest_forward_done_event := event }

def set_inflight_forward (forward_done : E) (out_cache_loc_virtual : Option (List ℤ)) :
    EndPool E β :=
  if !c.lazy_compaction then s
  else
    match out_cache_loc_virtual with
    | none => { s with inflight_forward := none }
    | some [] => { s with inflight_forward := none }
    | some (l :: ls) => { s with inflight_forward := some (forward_done, l :: ls) }

/-- `translate_kv_loc`: a tombstone is clamped to the sink. -/
def translate_kv_loc (virt_token : ℤ) : ℤ :=
  max 0 (s.table.v2p (virt_token / c.pool_page_size) * c.pool_page_size
    + virt_token % c.pool_page_size)

/-- `_materialize_inflight_write_set`, as a list of pages: empty when no forward is in
flight or its event has fired. -/
def inflight_write_set (query : E → Bool) : List ℤ :=
  match s.inflight_forward with
  | none => []
  | some (event, oclv) =>
    if query event then []
    else oclv.map fun t => translate_kv_loc c s (t / c.dcp_size) / c.pool_page_size

/-- The slot `_materialize_inflight_write_set` leaves behind. -/
def inflight_settled (query : E → Bool) : EndPool E β :=
  match s.inflight_forward with
  | none => s
  | some (event, _) => if query event then { s with inflight_forward := none } else s

/-- The page next to `p` on the base side. -/
def inward (d : GrowDirection) (p : ℤ) : ℤ :=
  match d with
  | .up => p - 1
  | .down => p + 1

/-- `p` is nearer to the watermark than `q`. -/
def beyond (d : GrowDirection) (p q : ℤ) : Bool :=
  match d with
  | .up => decide (q < p)
  | .down => decide (p < q)

/-- An ascending list of pages, those next to the watermark first. -/
def frontier_first (d : GrowDirection) (l : List ℤ) : List ℤ :=
  match d with
  | .up => l.reverse
  | .down => l

/-- An ascending list of pages, those next to the base first. -/
def base_first (d : GrowDirection) (l : List ℤ) : List ℤ :=
  match d with
  | .up => l
  | .down => l.reverse

/-- The page of the band next to the watermark. -/
def frontier_page : ℤ :=
  match c.grow_direction with
  | .up => s.watermark_physical - 1
  | .down => s.watermark_physical + 1

/-- The watermark after `n` pages of the band are given up. -/
def retreated (n : ℤ) : ℤ :=
  match c.grow_direction with
  | .up => s.watermark_physical - n
  | .down => s.watermark_physical + n

/-- The number of pages of `pages`, taken in order, that lie at `p` and inward from it. -/
def boundary_run (d : GrowDirection) : List ℤ → ℤ → ℕ
  | [], _ => 0
  | h :: hs, p => if h = p then boundary_run d hs (inward d p) + 1 else 0

/-- `all_cpu` without its `n` entries next to the watermark. -/
def drop_frontier (d : GrowDirection) (n : ℕ) (all_cpu : List ℤ) : List ℤ :=
  match d with
  | .up => all_cpu.take (all_cpu.length - n)
  | .down => all_cpu.drop n

/-- `holes_cpu` without its `n` entries next to the base. -/
def drop_base (d : GrowDirection) (n : ℕ) (holes_cpu : List ℤ) : List ℤ :=
  match d with
  | .up => holes_cpu.drop n
  | .down => holes_cpu.take (holes_cpu.length - n)

/-- `_absorb_boundary_holes`, on a sorted free list. -/
def absorb_boundary_holes : EndPool E β :=
  let n := boundary_run c.grow_direction
    (frontier_first c.grow_direction s.free_phys_pages) (frontier_page c s)
  { s with
    watermark_physical := retreated c s n
    free_phys_pages := drop_frontier c.grow_direction n s.free_phys_pages }

/-- The number of pages of the band from `p` inward. -/
def pages_inward (p : ℤ) : ℕ :=
  match c.grow_direction with
  | .up => (p + 1 - c.min_page_index).toNat
  | .down => (c.num_pages - p).toNat

/-- The loop of `_topmost_survivor`, over the `n` pages from `p` inward. The hole cursor is
kept as the holes it has not passed, those next to the watermark first. -/
def survivor_from : ℕ → ℤ → List ℤ → Option ℤ × List ℤ
  | 0, _, ahead => (none, ahead)
  | n + 1, p, ahead =>
    let ahead := ahead.dropWhile (fun h => beyond c.grow_direction h p)
    let is_hole := decide (ahead.head? = some p)
    if is_hole || decide (p ∈ s.pending_reuse_pages_cpu) then
      survivor_from n (inward c.grow_direction p) (if is_hole then ahead.tail else ahead)
    else (some p, ahead)

def topmost_survivor (p : ℤ) (ahead : List ℤ) : Option ℤ × List ℤ :=
  survivor_from c s (pages_inward c p) p ahead

/-- The walk of `_flush`: pair the survivors next to the watermark, from `cursor` inward,
with the holes next to the base. It stops at a survivor the forward in flight writes, where
the two pointers cross, and at the move cap. (An urgent pass that finds holes has settled
the forward first, so its write set is empty and its branch for a write race is dead.) -/
def walk (write_set : List ℤ) (cap : Option ℤ) :
    List ℤ → ℤ → List ℤ → ℤ → List (ℤ × ℤ)
  | [], _, _, _ => []
  | dst :: rest, cursor, ahead, moved =>
    match topmost_survivor c s cursor ahead with
    | (none, _) => []
    | (some src, ahead') =>
      if src ∈ write_set then []
      else if beyond c.grow_direction dst src then []
      else if cap.any (fun k => decide (k ≤ moved + 1)) then [(src, dst)]
      else
        (src, dst) :: walk write_set cap rest (inward c.grow_direction src) ahead' (moved + 1)

/-- The moves of one pass over the holes `holes_cpu`. -/
def planned_moves (write_set : List ℤ) (cap : Option ℤ) (holes_cpu : List ℤ) : List (ℤ × ℤ) :=
  walk c s write_set cap (base_first c.grow_direction holes_cpu) (frontier_page c s)
    (frontier_first c.grow_direction holes_cpu) 0

def settle_inflight_forward : EndPool E β :=
  if s.latest_forward_done_event.isSome then { s with inflight_forward := none } else s

variable [DecidableEq E]

def drain_pending_reuse (urgent : Bool) (query : E → Bool) : EndPool E β :=
  let ready := s.pending_reuse.items.filter (fun entry => query entry.1 || urgent)
  { s with
    pending_reuse := s.pending_reuse.filterKeys (fun e => !(query e || urgent))
    pending_reuse_pages_cpu :=
      s.pending_reuse_pages_cpu \ (ready.map Prod.snd).flatten.toFinset
    free_phys_pages := s.free_phys_pages ++ (ready.map Prod.snd).flatten }

/-- `_commit_move_batch`; the second component is what it adds to `released_fired`. -/
def commit_move_batch (moves : List (ℤ × ℤ)) (latest_event : Option E) (query : E → Bool) :
    Except Fault (EndPool E β × List ℤ) :=
  let srcs := moves.map Prod.fst
  if moves.isEmpty then .ok (s, [])
  else if !srcs.all (fun p => decide (0 ≤ s.table.p2v p)) then .error .invalid_p2v
  else
    let s₁ := { s with table := s.table.move moves }
    match latest_event with
    | none => .ok (s₁, srcs)
    | some e =>
      if query e then .ok (s₁, srcs)
      else
        .ok ({ s₁ with
          pending_reuse := s₁.pending_reuse.set e srcs
          pending_reuse_pages_cpu := s₁.pending_reuse_pages_cpu ∪ srcs.toFinset }, [])

/-- The head of `_flush`: drain, sort, absorb. -/
def flush_prepare (urgent : Bool) (query : E → Bool) : EndPool E β :=
  let s₁ := drain_pending_reuse s urgent query
  absorb_boundary_holes c { s₁ with free_phys_pages := sorted s₁.free_phys_pages }

/-- `_flush` of an urgent pass that finds interior holes: settle the forward, pack the band
and give up everything beyond it. -/
def flush_pack (query : E → Bool) : Except Fault (EndPool E β × ℤ) :=
  let holes_cpu := s.free_phys_pages
  let s₁ := settle_inflight_forward s
  let moves := planned_moves c s₁ [] none holes_cpu
  match commit_move_batch s₁ moves none query with
  | .error e => .error e
  | .ok (s₂, _) =>
    .ok ({ s₂ with
      watermark_physical := retreated c s₂ holes_cpu.length
      free_phys_pages := [] }, moves.length)

/-- `_flush` of any other pass. -/
def flush_partial (urgent : Bool) (move_cap : ℤ) (clock : FlushClock E) :
    Except Fault (EndPool E β × ℤ) :=
  let holes_cpu := s.free_phys_pages
  let cap := if urgent then none else some move_cap
  let moves := planned_moves c s (inflight_write_set c s clock.write) cap holes_cpu
  let asked := !holes_cpu.isEmpty &&
    (topmost_survivor c s (frontier_page c s) (frontier_first c.grow_direction holes_cpu)).1.isSome
  let s₁ := if asked then inflight_settled s clock.write else s
  match commit_move_batch s₁ moves s₁.latest_forward_done_event clock.commit with
  | .error e => .error e
  | .ok (s₂, released_fired) =>
    .ok ({ s₂ with
      free_phys_pages :=
        drop_base c.grow_direction moves.length holes_cpu ++ released_fired }, moves.length)

def flush (urgent : Bool) (move_cap : ℤ) (clock : FlushClock E) :
    Except Fault (EndPool E β × ℤ) :=
  if !c.lazy_compaction then .ok (s, 0)
  else if moves_blocked s then .ok (s, 0)
  else
    let s₁ := flush_prepare c s urgent clock.drain
    if urgent && !s₁.free_phys_pages.isEmpty then flush_pack c s₁ clock.commit
    else flush_partial c s₁ urgent move_cap clock

def flush_for_allocation (clock : FlushClock E) : Except Fault (EndPool E β × ℤ) :=
  flush c s true 0 clock

/-- `flush_opportunistic`, with `move_cap` moves at most. -/
def flush_opportunistic (move_cap : ℤ) (clock : FlushClock E) :
    Except Fault (EndPool E β × ℤ) :=
  if !c.lazy_compaction then .ok (s, 0)
  else if s.free_phys_pages.isEmpty && s.pending_reuse.items.isEmpty then .ok (s, 0)
  else flush c s false move_cap clock

end Flush

end LightningH3.UnifiedPool
