/-
Runs of the hybrid allocator.

`Permitted` is what its callers see to; `Lockstep` asks of a decode step that it does not find
exactly one of the two pools short of pages, which `alloc_extend` checks beforehand and
`alloc_decode` does not. Along such runs both pools stay balanced against the rows, the mapping
leads page by page from the one to the other, and frees find the pages they are to release
(`pools_stay_in_step`). A decode step that takes pages from one side only loses them
(`decode_loses_page`).
-/
import LightningH3.SwaAllocatorSides

set_option autoImplicit false

namespace LightningH3.SwaAllocator

open PagedAllocator Nat List

open PageTable (assign)
open UnifiedPool (ExtendRequest num_new_pages_extend num_new_pages_decode extend_kernel
  decode_kernel)
open PagedAllocator (Paged PagedConfig Tidy Hands Frees Regrouped stride pool on_hand)

/-- The pages of the range that starts at `start`, page by page up to `stop`, all are such that
`ok` holds. -/
structure Range (c : SwaConfig) (q : Req) (start stop : ℕ) (ok : ℕ → Prop) : Prop where
  aligned : start % c.page_size = 0
  ended : stop % c.page_size = 0 ∨ stop = q.row.length
  inside : stop ≤ q.row.length
  all : ∀ j, Req.within c start stop j = true → ok j

/-- A batch of distinct requests that own what they have of their last pages. -/
structure Batch (c : SwaConfig) (reqs : ℕ → Req) (ids : List ℕ) : Prop where
  nodup : ids.Nodup
  last : ∀ r ∈ ids, (reqs r).row.length % c.page_size ≠ 0 →
    (reqs r).live ((reqs r).row.length / c.page_size) = true

/-- What the callers see to. -/
def Permitted (c : SwaConfig) (y : System) : Op → Prop
  | .accept r _ => ∀ j, (y.reqs r).live j = false
  | .alloc_extend batch => Batch c y.reqs (batch.map Prod.fst)
  | .alloc_decode batch => Batch c y.reqs batch
  | .free_segment r start stop => Range c (y.reqs r) start stop fun j =>
    (y.reqs r).live j = true ∧ ((y.reqs r).paired j = true ∨ c.swa_req_ring = true)
  | .free_swa_segment r start stop => Range c (y.reqs r) start stop (fun j =>
    (y.reqs r).live j = true ∧ ((y.reqs r).paired j = true ∨ c.swa_req_ring = true)) ∧
    stop ≤ ((y.reqs r).row.length - 1) / c.page_size * c.page_size
  | .free_full_segment r start stop => Range c (y.reqs r) start stop fun j =>
    (y.reqs r).live j = true ∧ (y.reqs r).paired j = false
  | .free_group_begin => y.alloc.in_free_group = false
  | .free_group_end => True
  | .clear => True

/-- The pool has too few pages for a decode step. -/
def short (pc : PagedConfig) (p : Paged) (seq_lens : List ℤ) : Bool :=
  decide ((PagedAllocator.available_size pc p / pc.page_size : ℕ)
    < num_new_pages_decode pc.page_size seq_lens)

/-- A decode step finds both pools short of pages or neither. -/
def Lockstep (c : SwaConfig) (y : System) : Op → Prop
  | .alloc_decode batch => c.swa_req_ring = true ∨
      short c.full y.alloc.full_attn_allocator (batch.map fun r => ((y.reqs r).extend 1).seq_len)
        = short c.swa y.alloc.swa_attn_allocator (batch.map fun r => ((y.reqs r).extend 1).seq_len)
  | _ => True

/-- The states of the runs in which every decode step is in lockstep. -/
inductive Reachable (c : SwaConfig) : System → Prop
  | init : Reachable c ⟨clear c, fun _ => .accept []⟩
  | step {y y' : System} {op : Op} : Reachable c y → Permitted c y op → Lockstep c y op →
      step c y op = .ok y' → Reachable c y'

/-- What the SWA side holds back, with the pages that a group defers. -/
def swa_pool (s : Swa) : List ℤ := pool s.swa_attn_allocator ++ s.swa_page_ids_group.flatten

/-- Before its last page a live page may have lost its peer; with a ring there is none. -/
def Trimmed (c : SwaConfig) (q : Req) : Prop :=
  if c.swa_req_ring = true then ∀ j, q.paired j = false
  else ∀ j, q.live j = true → q.paired j = false → (j + 1) * c.page_size < q.row.length

/-- The books of both sides. -/
structure Pools (c : SwaConfig) (y : System) : Prop where
  full_tidy : Tidy y.alloc.full_attn_allocator
  swa_tidy : Tidy y.alloc.swa_attn_allocator
  full : FullSide c (pool y.alloc.full_attn_allocator) y.reqs
  swa : SwaSide c (swa_pool y.alloc) y.reqs y.alloc.full_to_swa_index_mapping
  full_group : y.alloc.full_attn_allocator.free_group.isSome = y.alloc.in_free_group
  swa_group : y.alloc.swa_attn_allocator.free_group = none
  ungrouped : y.alloc.in_free_group = false ∨ c.swa_req_ring = true →
    y.alloc.swa_page_ids_group = []

/-- What holds between two operations. -/
structure Balanced (c : SwaConfig) (y : System) : Prop extends Pools c y where
  trimmed : ∀ r, Trimmed c (y.reqs r)

section steps

variable {c : SwaConfig} {y y' : System}

/-! ## Pools -/

theorem on_hand_le_pool {s : Paged} (h : Tidy s) : on_hand s ≤ (pool s).length := by
  unfold on_hand pool
  rw [h.counted, length_append, length_append]
  omega

theorem length_le_of_ledger {κ : Type} {n : ℕ} {pages : List ℤ} {owns : κ → ℤ → Prop}
    (h : PageLedger n pages owns) : pages.length ≤ n := by
  have hsub : pages ⊆ UnifiedPool.arange 1 (n + 1) := by
    intro p hp
    rw [PagedAllocator.mem_arange]
    have := h.pool_range hp
    omega
  have hlen := (subperm_of_subset h.nodup hsub).length_le
  have hrange : (UnifiedPool.arange 1 ((n : ℤ) + 1)).length = n := by
    simp [UnifiedPool.arange]
  omega

theorem check_capacity_ok {κ : Type} {pc : PagedConfig} {p : Paged} {pages : List ℤ}
    {owns : κ → ℤ → Prop} (ht : Tidy p) (hp : (pool p).length ≤ pages.length)
    (h : PageLedger pc.num_pages pages owns) : check_capacity pc p = .ok () := by
  unfold check_capacity
  rw [if_pos]
  have hle := on_hand_le_pool ht
  have hlen := length_le_of_ledger h
  calc PagedAllocator.available_size pc p = on_hand p * pc.page_size := rfl
    _ ≤ pc.num_pages * pc.page_size := Nat.mul_le_mul_right _ (by omega)
    _ ≤ pc.size := div_mul_le_self _ _

theorem available_pages (pc : PagedConfig) (p : Paged) :
    PagedAllocator.available_size pc p / pc.page_size = on_hand p :=
  Nat.mul_div_cancel _ pc.page_pos

/-! ## Batches -/

theorem last_slot {q : Req} (hz : q.row.length % c.page_size ≠ 0) :
    q.row[q.row.length - 1]? = some (q.row.getLastD (-1)) ∧
      (q.row.length - 1) / c.page_size = q.row.length / c.page_size := by
  have hpos : 0 < q.row.length := by
    rcases Nat.eq_zero_or_pos q.row.length with h0 | hpos
    · rw [h0] at hz
      exact absurd rfl hz
    · exact hpos
  constructor
  · rw [← getLast?_eq_getElem?,
      getLastD_eq_getLast?, getLast?_eq_some_getLast (length_pos_iff.mp hpos)]
    rfl
  · have hdm := div_add_mod' q.row.length c.page_size
    have hlt := mod_lt q.row.length c.page_pos
    apply Nat.div_eq_of_lt_le
    · omega
    · rw [Nat.add_mul]
      omega

variable {batch : List (ℕ × ℕ)} {reqs : ℕ → Req}

theorem full_asks {fpool : List ℤ}
    (h : FullSide c fpool reqs) (hb : Batch c reqs (batch.map Prod.fst)) :
    FullAsks c reqs batch (batch.map fun b => (reqs b.1).extend b.2) := by
  unfold FullAsks
  rw [forall₂_map_right_iff, forall₂_same]
  intro b hmem
  refine ⟨rfl, rfl, ?_⟩
  intro hz
  obtain ⟨hlast, hdiv⟩ := last_slot hz
  have hon := hb.last b.1 (List.mem_map_of_mem hmem) hz
  rw [← hdiv] at hon ⊢
  exact h.slot_of hon hlast

variable {mapping : ℤ → ℤ}

theorem swa_asks {spool : List ℤ}
    (hring : c.swa_req_ring = false) (h : SwaSide c spool reqs mapping)
    (ht : ∀ r, Trimmed c (reqs r)) (hb : Batch c reqs (batch.map Prod.fst)) :
    SwaAsks c reqs mapping batch ((batch.map fun b => (reqs b.1).extend b.2).map fun r =>
      { r with last_loc := mapping r.last_loc }) := by
  unfold SwaAsks
  rw [List.map_map, forall₂_map_right_iff, forall₂_same]
  intro b hmem
  refine ⟨rfl, rfl, ?_⟩
  intro hz
  obtain ⟨hlast, hdiv⟩ := last_slot hz
  have hlive := hb.last b.1 (List.mem_map_of_mem hmem) hz
  -- the last page, not yet full, has its peer
  have hpaired : (reqs b.1).paired ((reqs b.1).row.length / c.page_size) = true := by
    by_contra hn
    rw [Bool.not_eq_true] at hn
    have htrim := ht b.1
    unfold Trimmed at htrim
    rw [if_neg (by rw [hring]; exact Bool.false_ne_true)] at htrim
    have hlt := htrim _ hlive hn
    have hdm := div_add_mod' (reqs b.1).row.length c.page_size
    have hmod := mod_lt (reqs b.1).row.length c.page_pos
    rw [Nat.add_mul] at hlt
    omega
  have hon : swa_on reqs b.1 ((reqs b.1).row.length / c.page_size) = true := by
    rw [swa_on, hlive, hpaired]
    rfl
  rw [← hdiv] at hon ⊢
  apply h.rows.slot_of hon
  rw [peer, hlast]
  rfl

theorem write_rows_all {P : Req → Prop} (hgrow : ∀ q slots, P q → P (q.grow c slots))
    : ∀ {reqs : ℕ → Req} {out : List ℤ}, (∀ r, P (reqs r)) →
      ∀ r, P (write_rows c reqs batch out r) := by
  induction batch with
  | nil => exact fun h => h
  | cons b _ ih =>
    intro reqs out h
    apply ih
    intro r
    by_cases hr : r = b.1
    · subst hr
      rw [Function.update_self]
      exact hgrow _ _ (h b.1)
    · rw [Function.update_of_ne hr]
      exact h r

theorem trimmed_grow (q : Req) (slots : List ℤ) (h : Trimmed c q) : Trimmed c (q.grow c slots) := by
  unfold Trimmed at h ⊢
  split
  · rename_i hring
    rw [if_pos hring] at h
    intro j
    rw [Req.grow]
    dsimp only
    rw [h j, hring, Bool.not_true, Bool.and_false, Bool.or_false]
  · rename_i hring
    rw [if_neg hring] at h
    rw [Bool.not_eq_true] at hring
    intro j hl hp
    rw [← Bool.not_eq_true, paired_grow hring, not_or, Bool.not_eq_true] at hp
    -- a page without a peer is none of the pages opened
    have hold := (live_grow.mp hl).resolve_right hp.2
    have := h j hold hp.1
    rw [Req.grow, length_append]
    omega

theorem SwaSide.ring {spool : List ℤ} {reqs reqs' : ℕ → Req}
    (h : SwaSide c spool reqs mapping) (hr : ∀ r j, swa_on reqs r j = false)
    (hr' : ∀ r j, swa_on reqs' r j = false) : SwaSide c spool reqs' mapping := by
  refine ⟨h.rows.congr c.page_pos ?_ ?_, ?_⟩
  · intro r j
    rw [hr, hr']
  · intro r i hon
    rw [hr] at hon
    cases hon
  · intro s hs hne
    obtain ⟨r, i, hon, -⟩ := h.zero s hs hne
    rw [hr] at hon
    cases hon

theorem swa_on_ring (hring : c.swa_req_ring = true) (ht : ∀ r, Trimmed c (reqs r))
    (r j : ℕ) : swa_on reqs r j = false := by
  have htrim := ht r
  unfold Trimmed at htrim
  rw [if_pos hring] at htrim
  rw [swa_on, htrim j, Bool.and_false]

theorem SwaSide.perm {spool spool' : List ℤ}
    (h : SwaSide c spool reqs mapping) (hp : spool.Perm spool') : SwaSide c spool' reqs mapping :=
  ⟨h.rows.perm hp, h.zero⟩

theorem exists_num_new_pages (reqs : List ExtendRequest) :
    ∃ n : ℕ, num_new_pages_extend c.page_size reqs = n :=
  Int.eq_ofNat_of_zero_le
    (num_new_pages_nonneg (by exact_mod_cast c.page_pos) reqs)

def batch_requests (reqs : ℕ → Req) (batch : List (ℕ × ℕ)) : List ExtendRequest :=
  batch.map fun b => (reqs b.1).extend b.2

/-- **A batch served by both pools.** -/
theorem Balanced.grow (hring : c.swa_req_ring = false) (h : Balanced c y)
    (hb : Batch c y.reqs (batch.map Prod.fst)) {n : ℕ}
    (hn : num_new_pages_extend c.page_size (batch_requests y.reqs batch) = n) {full swa : Paged}
    {full_pages swa_pages : List ℤ} (hf : Hands y.alloc.full_attn_allocator full full_pages n)
    (hs : Hands y.alloc.swa_attn_allocator swa swa_pages n) : Balanced c ⟨{ y.alloc with
        full_attn_allocator := full
        swa_attn_allocator := swa
        full_to_swa_index_mapping := assign y.alloc.full_to_swa_index_mapping
          ((extend_kernel c.page_size full_pages 0 (batch_requests y.reqs batch)).zip
            (extend_kernel c.page_size swa_pages 0
              (swa_requests y.alloc (batch_requests y.reqs batch)))) }, write_rows c y.reqs batch
        (extend_kernel c.page_size full_pages 0 (batch_requests y.reqs batch))⟩ := by
  have hfasks := full_asks h.full hb
  have hsasks := swa_asks hring h.swa h.trimmed hb
  have hfull : FullSide c ((full_pages.drop 0).take n ++ pool full) y.reqs := by
    exact h.full.perm hf.pool.symm
  have hswa : SwaSide c ((swa_pages.drop 0).take n
      ++ (pool swa ++ y.alloc.swa_page_ids_group.flatten)) y.reqs
      y.alloc.full_to_swa_index_mapping := by
    rw [← append_assoc]
    exact h.swa.perm (hs.pool.symm.append_right _)
  have hfle : 0 + n ≤ full_pages.length := by
    rw [Nat.zero_add]
    exact hf.enough
  have hsle : 0 + n ≤ swa_pages.length := by
    rw [Nat.zero_add]
    exact hs.enough
  refine ⟨⟨hf.tidy, hs.tidy, ?_, ?_, ?_, ?_, h.ungrouped⟩, ?_⟩
  · exact FullSide.grow_batch hb.nodup hfasks hn hfle hfull
  · exact grow_batch hring hb.nodup hfasks hsasks hn hfle hsle hfull hswa
  · exact (congrArg Option.isSome hf.free_group).trans h.full_group
  · exact hs.free_group.trans h.swa_group
  · exact write_rows_all trimmed_grow h.trimmed

theorem Balanced.grow_ring (hring : c.swa_req_ring = true) (h : Balanced c y)
    (hb : Batch c y.reqs (batch.map Prod.fst)) {n : ℕ}
    (hn : num_new_pages_extend c.page_size (batch_requests y.reqs batch) = n) {full : Paged}
    {full_pages : List ℤ} (hf : Hands y.alloc.full_attn_allocator full full_pages n) :
    Balanced c ⟨{ y.alloc with full_attn_allocator := full }, write_rows c y.reqs batch
      (extend_kernel c.page_size full_pages 0 (batch_requests y.reqs batch))⟩ := by
  have hfull : FullSide c ((full_pages.drop 0).take n ++ pool full) y.reqs := by
    exact h.full.perm hf.pool.symm
  have hfle : 0 + n ≤ full_pages.length := by
    rw [Nat.zero_add]
    exact hf.enough
  have htrim : ∀ r, Trimmed c (write_rows c y.reqs batch
      (extend_kernel c.page_size full_pages 0 (batch_requests y.reqs batch)) r) :=
    write_rows_all trimmed_grow h.trimmed
  refine ⟨⟨hf.tidy, h.swa_tidy, ?_, ?_, ?_, h.swa_group, h.ungrouped⟩, htrim⟩
  · exact FullSide.grow_batch hb.nodup (full_asks h.full hb) hn hfle hfull
  · exact h.swa.ring (swa_on_ring hring h.trimmed) (swa_on_ring hring htrim)
  · exact (congrArg Option.isSome hf.free_group).trans h.full_group

theorem Balanced.regroup (h : Balanced c y) {full swa : Paged}
    (hf : Regrouped y.alloc.full_attn_allocator full)
    (hs : Regrouped y.alloc.swa_attn_allocator swa) :
    Balanced c ⟨{ y.alloc with full_attn_allocator := full, swa_attn_allocator := swa },
      y.reqs⟩ where
  full_tidy := hf.tidy
  swa_tidy := hs.tidy
  full := h.full.perm hf.pool.symm
  swa := h.swa.perm (hs.pool.symm.append_right _)
  full_group := (congrArg Option.isSome hf.free_group).trans h.full_group
  swa_group := hs.free_group.trans h.swa_group
  ungrouped := h.ungrouped
  trimmed := h.trimmed

theorem num_new_pages_swa (s : Swa) (reqs : List ExtendRequest) :
    num_new_pages_extend c.page_size (swa_requests s reqs)
      = num_new_pages_extend c.page_size reqs := by
  unfold num_new_pages_extend swa_requests
  rw [List.map_map]
  rfl

/-- **`alloc_extend`** serves a batch from both pools or leaves both as they are. -/
theorem step_alloc_extend (h : Balanced c y) (hb : Batch c y.reqs (batch.map Prod.fst)) :
    ∃ y', step c y (.alloc_extend batch) = .ok y' ∧ Balanced c y' := by
  obtain ⟨n, hn⟩ := exists_num_new_pages (c := c) (batch_requests y.reqs batch)
  have hfull := alloc_extend_spec c.full h.full_tidy hn
  have hswa := alloc_extend_spec c.swa h.swa_tidy
    ((num_new_pages_swa y.alloc (batch_requests y.reqs batch)).trans hn)
  have hcount : new_pages_available c y.alloc n n
      = (decide (n ≤ on_hand y.alloc.full_attn_allocator) &&
        (c.swa_req_ring || decide (n ≤ on_hand y.alloc.swa_attn_allocator))) := by
    unfold new_pages_available
    rw [show PagedAllocator.available_size c.full y.alloc.full_attn_allocator / c.page_size
      = on_hand y.alloc.full_attn_allocator from available_pages c.full _,
      show PagedAllocator.available_size c.swa y.alloc.swa_attn_allocator / c.page_size
        = on_hand y.alloc.swa_attn_allocator from available_pages c.swa _]
    simp only [Int.ofNat_le]
  have hstep : ∀ a out, alloc_extend c y.alloc (batch_requests y.reqs batch) = .ok (a, out) →
      step c y (.alloc_extend batch) = .ok ((out : Option (List ℤ)).elim { y with alloc := a }
        fun out => ⟨a, write_rows c y.reqs batch out⟩) := by
    intro a out hok
    change (alloc_extend c y.alloc (batch_requests y.reqs batch) >>= _) = _
    rw [hok]
    cases out with
    | none => rfl
    | some out => rfl
  by_cases hav : new_pages_available c y.alloc n n = true
  · have hboth := hav
    rw [hcount, Bool.and_eq_true, Bool.or_eq_true, decide_eq_true_eq, decide_eq_true_eq] at hboth
    obtain ⟨full, full_pages, hfok, hf⟩ := hfull hboth.1
    by_cases hring : c.swa_req_ring = true
    · refine ⟨_, hstep { y.alloc with full_attn_allocator := full } (some _) ?_,
        h.grow_ring hring hb hn hf⟩
      unfold alloc_extend
      rw [hn]
      dsimp only
      rw [hav, hfok, if_pos hring]
      rfl
    · obtain ⟨swa, swa_pages, hsok, hs⟩ := hswa (hboth.2.resolve_left hring)
      rw [Bool.not_eq_true] at hring
      refine ⟨_, hstep _ (some _) ?_, h.grow hring hb hn hf hs⟩
      unfold alloc_extend
      rw [hn]
      dsimp only
      rw [hav, hfok, hsok, if_neg (by decide), if_neg (by rw [hring]; decide)]
      rfl
  · refine ⟨y, hstep y.alloc none ?_, h⟩
    unfold alloc_extend
    rw [hn]
    dsimp only
    rw [Bool.not_eq_true] at hav
    rw [hav, if_pos (by decide)]

/-- **`alloc_decode`** in lockstep. -/
theorem step_alloc_decode (h : Balanced c y) {batch : List ℕ} (hb : Batch c y.reqs batch)
    (hl : Lockstep c y (.alloc_decode batch)) :
    ∃ y', step c y (.alloc_decode batch) = .ok y' ∧ Balanced c y' := by
  obtain ⟨batch', hbatch'⟩ : ∃ batch', batch.map (fun b => (b, 1)) = batch' := ⟨_, rfl⟩
  have hb' : Batch c y.reqs (batch'.map Prod.fst) := by
    have hids : batch'.map Prod.fst = batch := by
      rw [← hbatch', List.map_map]
      exact List.map_id _
    rw [hids]
    exact hb
  obtain ⟨reqs, hreqs⟩ : ∃ reqs, batch_requests y.reqs batch' = reqs := ⟨_, rfl⟩
  -- a decode step is an extend by one token on both sides
  have hpairs : (batch.map fun b => (((y.reqs b).extend 1).seq_len, ((y.reqs b).extend 1).last_loc))
      = reqs.map fun r => (r.seq_len, r.last_loc) := by
    rw [← hreqs, batch_requests, ← hbatch', List.map_map, List.map_map]
    rfl
  have hspairs : ((reqs.map fun r => (r.seq_len, r.last_loc)).map fun r : ℤ × ℤ =>
        (r.1, y.alloc.full_to_swa_index_mapping r.2))
      = (swa_requests y.alloc reqs).map fun r => (r.seq_len, r.last_loc) := by
    unfold swa_requests
    rw [List.map_map, List.map_map]
    rfl
  have hone : ∀ r ∈ reqs, 0 ≤ r.prefix_len ∧ r.seq_len = r.prefix_len + 1 := by
    intro r hr
    rw [← hreqs, batch_requests, ← hbatch', List.map_map] at hr
    obtain ⟨b, -, rfl⟩ := List.mem_map.mp hr
    exact ⟨Int.natCast_nonneg _, rfl⟩
  have hsone : ∀ r ∈ swa_requests y.alloc reqs, 0 ≤ r.prefix_len ∧
      r.seq_len = r.prefix_len + 1 := by
    intro r hr
    obtain ⟨r', hr', rfl⟩ := List.mem_map.mp hr
    exact hone r' hr'
  obtain ⟨n, hn⟩ := exists_num_new_pages (c := c) reqs
  have hfull := alloc_decode_requests c.full c.page_gt h.full_tidy hone hn
  have hswa := alloc_decode_requests c.swa c.page_gt h.swa_tidy hsone
    ((num_new_pages_swa y.alloc reqs).trans hn)
  have hstep : ∀ r, alloc_decode c y.alloc (reqs.map fun r => (r.seq_len, r.last_loc)) = r →
      step c y (.alloc_decode batch) = .ok ((r : Swa × Option (List ℤ)).2.elim
        { y with alloc := r.1 } fun out => ⟨r.1, write_rows c y.reqs batch' out⟩) := by
    rintro ⟨a, out⟩ hr
    unfold step
    dsimp only
    rw [hpairs, hr, hbatch']
    cases out with
    | none => rfl
    | some out => rfl
  by_cases hring : c.swa_req_ring = true
  · by_cases hhand : n ≤ on_hand y.alloc.full_attn_allocator
    · obtain ⟨full, full_pages, hfok, hf⟩ := hfull.1 hhand
      subst hreqs
      refine ⟨_, hstep ({ y.alloc with full_attn_allocator := full }, some _) ?_,
        h.grow_ring hring hb' hn hf⟩
      unfold alloc_decode
      rw [hfok, if_pos hring]
      rfl
    · obtain ⟨full, hfok, hf⟩ := hfull.2 hhand
      refine ⟨_, hstep ({ y.alloc with full_attn_allocator := full }, none) ?_,
        h.regroup hf (.refl h.swa_tidy)⟩
      unfold alloc_decode
      rw [hfok, if_pos hring]
  · have hlock : n ≤ on_hand y.alloc.full_attn_allocator ↔ n ≤ on_hand y.alloc.swa_attn_allocator := by
      have hseq : (batch.map fun r => ((y.reqs r).extend 1).seq_len)
          = (reqs.map fun r => (r.seq_len, r.last_loc)).map Prod.fst := by
        rw [← hpairs, List.map_map]
        rfl
      have hshort := hl.resolve_left hring
      unfold short at hshort
      rw [available_pages, available_pages, hseq,
        show num_new_pages_decode ((c.full.page_size : ℕ) : ℤ) _ = n from
          (num_new_pages_decode_eq c.page_gt hone).trans hn,
        show num_new_pages_decode ((c.swa.page_size : ℕ) : ℤ) _ = n from
          (num_new_pages_decode_eq c.page_gt hone).trans hn, decide_eq_decide] at hshort
      omega
    rw [Bool.not_eq_true] at hring
    by_cases hhand : n ≤ on_hand y.alloc.full_attn_allocator
    · obtain ⟨full, full_pages, hfok, hf⟩ := hfull.1 hhand
      obtain ⟨swa, swa_pages, hsok, hs⟩ := hswa.1 (hlock.mp hhand)
      subst hreqs
      refine ⟨_, hstep (_, some _) ?_, h.grow hring hb' hn hf hs⟩
      unfold alloc_decode
      rw [hspairs, hfok, hsok, if_neg (by rw [hring]; decide)]
      rfl
    · obtain ⟨full, hfok, hf⟩ := hfull.2 hhand
      obtain ⟨swa, hsok, hs⟩ := hswa.2 fun hn => hhand (hlock.mpr hn)
      refine ⟨_, hstep (_, none) ?_, h.regroup hf hs⟩
      unfold alloc_decode
      rw [hspairs, hfok, hsok, if_neg (by rw [hring]; decide)]

/-! ## Frees -/

/-- The SWA pages that a range is to release: those of the peers of its representatives. -/
def released (c : SwaConfig) (y : System) (r start stop : ℕ) : List ℤ :=
  ((stride c.page_size (segment (y.reqs r) start stop)).map
    y.alloc.full_to_swa_index_mapping).map fun t : ℤ => t / c.page_size

variable {r start stop : ℕ}

theorem within_of_nil (hs : stop ≤ (y.reqs r).row.length)
    (hnil : (segment (y.reqs r) start stop).isEmpty = true) (j : ℕ) :
    Req.within c start stop j = false := by
  have hlen : (segment (y.reqs r) start stop).length = 0 :=
    length_eq_zero_iff.mpr (List.isEmpty_iff.mp hnil)
  rw [segment, length_take, length_drop] at hlen
  unfold Req.within
  rw [← Bool.not_eq_true, Bool.and_eq_true, decide_eq_true_eq, decide_eq_true_eq]
  omega

theorem unpair_nothing {q : Req} (h : ∀ j, Req.within c start stop j = false) :
    q.unpair c start stop = q := by
  unfold Req.unpair
  simp only [h, Bool.not_false, Bool.and_true]

theorem unown_nothing {q : Req} (h : ∀ j, Req.within c start stop j = false) :
    q.unown c start stop = q := by
  unfold Req.unown
  simp only [h, Bool.not_false, Bool.and_true]

theorem stride_nil (step : ℕ) (hp : 0 < step) : stride step [] = [] := by
  unfold stride
  rw [length_nil, Nat.zero_add, div_eq_of_lt (sub_lt hp Nat.one_pos)]
  rfl

/-- **The peers of a range released.** -/
theorem Pools.unpair (hring : c.swa_req_ring = false) (h : Pools c y)
    (hr : Range c (y.reqs r) start stop fun j => swa_on y.reqs r j = true) :
    ∃ a, free_swa_segment c y.alloc (segment (y.reqs r) start stop) start = .ok a ∧
      Pools c ⟨a, Function.update y.reqs r ((y.reqs r).unpair c start stop)⟩ ∧
      (swa_pool a).Perm (released c y r start stop ++ swa_pool y.alloc) := by
  by_cases hnil : (segment (y.reqs r) start stop).isEmpty = true
  · refine ⟨y.alloc, ?_, ?_, ?_⟩
    · unfold free_swa_segment
      rw [hnil, Bool.or_true, if_pos rfl]
    · rw [unpair_nothing (within_of_nil hr.inside hnil), Function.update_eq_self]
      exact h
    · rw [released, List.isEmpty_iff.mp hnil, stride_nil _ c.page_pos]
      exact List.Perm.refl _
  · obtain ⟨hpos, hnd, hside⟩ := SwaSide.unpair h.full h.swa hr.aligned hr.inside hr.all
    obtain ⟨mapping', hmapping'⟩ : ∃ mapping', assign y.alloc.full_to_swa_index_mapping
        ((expand_to_full_pages c (stride c.page_size (segment (y.reqs r) start stop))).map
          fun s => (s, 0)) = mapping' := ⟨_, rfl⟩
    rw [hmapping'] at hside
    have hpages : free_swa_pages_of c y.alloc (stride c.page_size (segment (y.reqs r) start stop))
        = .ok ({ y.alloc with full_to_swa_index_mapping := mapping' }, released c y r start stop) := by
      unfold free_swa_pages_of
      rw [if_pos]
      · rw [clear_full_to_swa_mapping, hmapping']
        rfl
      · rw [List.all_eq_true]
        intro t ht
        exact decide_eq_true (hpos t ht)
    have hopen : free_swa_segment c y.alloc (segment (y.reqs r) start stop) start
        = free_swa_pages c y.alloc (segment (y.reqs r) start stop) start := by
      unfold free_swa_segment
      rw [Bool.not_eq_true] at hnil
      rw [hring, hnil, if_neg (by decide)]
    rw [hopen]
    unfold free_swa_pages
    rw [if_neg (not_not.mpr hr.aligned), hpages]
    dsimp only [bind, Except.bind]
    have hfull : FullSide c (pool y.alloc.full_attn_allocator)
        (Function.update y.reqs r ((y.reqs r).unpair c start stop)) := h.full.unpair
    by_cases hg : y.alloc.in_free_group = true
    · -- in a group the pages wait for its end
      have hperm : (pool y.alloc.swa_attn_allocator
          ++ (y.alloc.swa_page_ids_group ++ [released c y r start stop]).flatten).Perm
          (released c y r start stop ++ swa_pool y.alloc) := by
        rw [flatten_append, flatten_singleton, ← append_assoc]
        exact perm_append_comm
      rw [if_pos hg]
      refine ⟨_, rfl, ⟨h.full_tidy, h.swa_tidy, hfull, hside.perm hperm.symm, h.full_group,
        h.swa_group, ?_⟩, hperm⟩
      rintro (hn | hn)
      · rw [hg] at hn
        cases hn
      · rw [hring] at hn
        cases hn
    · have hf := free_page_ids_spec c.swa h.swa_tidy (released c y r start stop)
      have hperm : (swa_pool { y.alloc with
          full_to_swa_index_mapping := mapping'
          swa_attn_allocator := PagedAllocator.free_page_ids c.swa y.alloc.swa_attn_allocator
            (released c y r start stop) }).Perm
          (released c y r start stop ++ swa_pool y.alloc) := by
        unfold swa_pool
        rw [← append_assoc]
        exact hf.pool.append_right _
      have hside' := hside.perm hperm.symm
      have hcap := check_capacity_ok hf.tidy ?_ hside'.rows.ledger
      rotate_left
      · rw [swa_pool, length_append]
        exact Nat.le_add_right _ _
      rw [if_neg hg, hcap]
      exact ⟨_, rfl, ⟨h.full_tidy, hf.tidy, hfull, hside', h.full_group,
        hf.free_group.trans h.swa_group, h.ungrouped⟩, hperm⟩

/-- **The full pages of a range released.** -/
theorem Pools.unown (h : Pools c y) (hr : Range c (y.reqs r) start stop fun j =>
      full_on y.reqs r j = true ∧ swa_on y.reqs r j = false) :
    ∃ a, free_full_side c y.alloc (segment (y.reqs r) start stop) start = .ok a ∧
      Pools c ⟨a, Function.update y.reqs r ((y.reqs r).unown c start stop)⟩ ∧
      swa_pool a = swa_pool y.alloc := by
  obtain ⟨full, hok, hf⟩ := free_segment_spec c.full h.full_tidy
    (segment (y.reqs r) start stop) hr.aligned
  have hside := FullSide.unown h.full hr.aligned hr.inside fun j hj => (hr.all j hj).1
  refine ⟨{ y.alloc with full_attn_allocator := full }, ?_, ⟨hf.tidy, h.swa_tidy, ?_, ?_, ?_,
    h.swa_group, h.ungrouped⟩, rfl⟩
  · unfold free_full_side
    rw [hok]
    rfl
  · exact hside.perm hf.pool.symm
  · exact h.swa.unown fun j hj => (hr.all j hj).2
  · exact (congrArg Option.isSome hf.free_group).trans h.full_group

theorem trimmed_update {q : Req} (h : ∀ r, Trimmed c (reqs r))
    (hq : Trimmed c q) (r' : ℕ) : Trimmed c (Function.update reqs r q r') := by
  by_cases hr : r' = r
  · subst hr
    rw [Function.update_self]
    exact hq
  · rw [Function.update_of_ne hr]
    exact h r'

theorem trimmed_unown {q : Req} (h : Trimmed c q) : Trimmed c (q.unown c start stop) ∧
    Trimmed c ((q.unpair c start stop).unown c start stop) := by
  unfold Trimmed at h ⊢
  by_cases hring : c.swa_req_ring = true
  · rw [if_pos hring] at h ⊢
    rw [if_pos hring]
    refine ⟨h, ?_⟩
    intro j
    rw [Req.unown, Req.unpair]
    dsimp only
    rw [h j, Bool.false_and]
  · rw [if_neg hring] at h ⊢
    rw [if_neg hring]
    constructor
    · intro j hl hp
      exact h j (Bool.and_eq_true _ _ ▸ hl : _ ∧ _).1 hp
    · intro j hl hp
      obtain ⟨hlive, hout⟩ : q.live j = true ∧ (!Req.within c start stop j) = true :=
        Bool.and_eq_true _ _ ▸ hl
      refine h j hlive ?_
      rw [Req.unown, Req.unpair] at hp
      dsimp only at hp
      rwa [hout, Bool.and_true] at hp

theorem trimmed_unpair {q : Req} (h : Trimmed c q) {ok : ℕ → Prop} (hr : Range c q start stop ok)
    (hstop : stop ≤ (q.row.length - 1) / c.page_size * c.page_size) :
    Trimmed c (q.unpair c start stop) := by
  unfold Trimmed at h ⊢
  split
  · rename_i hring
    rw [if_pos hring] at h
    intro j
    rw [Req.unpair]
    dsimp only
    rw [h j, Bool.false_and]
  · rename_i hring
    rw [if_neg hring] at h
    intro j hl hp
    change (j + 1) * c.page_size < q.row.length
    by_cases hin : Req.within c start stop j = true
    · unfold Req.within at hin
      rw [Bool.and_eq_true, decide_eq_true_eq, decide_eq_true_eq] at hin
      have hlast := div_mul_le_self (q.row.length - 1) c.page_size
      rcases hr.ended with hz | hend
      · -- the page ends where the range does or before
        obtain ⟨b, hb⟩ := dvd_of_mod_eq_zero hz
        have hjb : j < b := by
          refine Nat.lt_of_mul_lt_mul_right (a := c.page_size) ?_
          rw [Nat.mul_comm b, ← hb]
          exact hin.2
        have hle : (j + 1) * c.page_size ≤ stop := by
          rw [hb, Nat.mul_comm c.page_size]
          exact Nat.mul_le_mul_right _ hjb
        omega
      · omega
    · refine h j hl ?_
      rw [Bool.not_eq_true] at hin
      rw [Req.unpair] at hp
      dsimp only at hp
      rwa [hin, Bool.not_false, Bool.and_true] at hp

theorem unpair_ring (hring : c.swa_req_ring = true) {q : Req} (h : Trimmed c q) :
    q.unpair c start stop = q := by
  unfold Trimmed at h
  rw [if_pos hring] at h
  unfold Req.unpair
  simp only [h, Bool.false_and]
  have hpaired : q.paired = fun _ => false := funext h
  rw [← hpaired]

theorem range_swa {q : Req} (hring : c.swa_req_ring = false) (hr : Range c q start stop fun j =>
      q.live j = true ∧ (q.paired j = true ∨ c.swa_req_ring = true)) :
    Range c q start stop fun j => (q.live j && q.paired j) = true := by
  refine ⟨hr.aligned, hr.ended, hr.inside, ?_⟩
  intro j hj
  obtain ⟨hl, hp⟩ := hr.all j hj
  rw [hl, hp.resolve_right (by rw [hring]; exact Bool.false_ne_true)]
  rfl

section

variable (h : Balanced c y)
include h

/-- **`free_swa_segment`** -/
theorem step_free_swa_segment (hp : Permitted c y (.free_swa_segment r start stop)) :
    ∃ y', step c y (.free_swa_segment r start stop) = .ok y' ∧ Balanced c y' ∧
      (c.swa_req_ring = false →
        (swa_pool y'.alloc).Perm (released c y r start stop ++ swa_pool y.alloc)) := by
  obtain ⟨hr, hstop⟩ := hp
  by_cases hring : c.swa_req_ring = true
  · refine ⟨y, ?_, h, fun hn => absurd hring (Bool.eq_false_iff.mp hn)⟩
    unfold step free_swa_segment
    dsimp only
    rw [hring, Bool.true_or, unpair_ring hring (h.trimmed r), Function.update_eq_self]
    rfl
  · rw [Bool.not_eq_true] at hring
    obtain ⟨a, hok, hpools, hperm⟩ := h.toPools.unpair hring (range_swa hring hr)
    refine ⟨_, ?_, ⟨hpools, trimmed_update h.trimmed (trimmed_unpair (h.trimmed r) hr hstop)⟩,
      fun _ => hperm⟩
    unfold step
    dsimp only
    rw [hok]
    rfl

/-- **`free_segment`** -/
theorem step_free_segment (hr : Permitted c y (.free_segment r start stop)) :
    ∃ y', step c y (.free_segment r start stop) = .ok y' ∧ Balanced c y' ∧ (c.swa_req_ring = false →
        (swa_pool y'.alloc).Perm (released c y r start stop ++ swa_pool y.alloc)) := by
  have htrim := trimmed_update (r := r) h.trimmed
    (@trimmed_unown c start stop _ (h.trimmed r)).2
  by_cases hnil : (segment (y.reqs r) start stop).isEmpty = true
  · refine ⟨y, ?_, h, fun _ => ?_⟩
    · have hnone := within_of_nil (c := c) hr.inside hnil
      unfold step free_segment
      dsimp only
      rw [hnil, unpair_nothing hnone, unown_nothing hnone, Function.update_eq_self]
      rfl
    · rw [released, List.isEmpty_iff.mp hnil, stride_nil _ c.page_pos]
      exact List.Perm.refl _
  · have hpeers : ∃ a, free_swa_segment c y.alloc (segment (y.reqs r) start stop) start = .ok a ∧
        Pools c ⟨a, Function.update y.reqs r ((y.reqs r).unpair c start stop)⟩ ∧
        (c.swa_req_ring = false →
          (swa_pool a).Perm (released c y r start stop ++ swa_pool y.alloc)) := by
      by_cases hring : c.swa_req_ring = true
      · refine ⟨y.alloc, ?_, ?_, fun hn => absurd hring (Bool.eq_false_iff.mp hn)⟩
        · unfold free_swa_segment
          rw [hring, Bool.true_or, if_pos rfl]
        · rw [unpair_ring hring (h.trimmed r), Function.update_eq_self]
          exact h.toPools
      · rw [Bool.not_eq_true] at hring
        obtain ⟨a, hok, hpools, hperm⟩ := h.toPools.unpair hring (range_swa hring hr)
        exact ⟨a, hok, hpools, fun _ => hperm⟩
    obtain ⟨a, hok, hpools, hperm⟩ := hpeers
    obtain ⟨q, hq⟩ : ∃ q, (y.reqs r).unpair c start stop = q := ⟨_, rfl⟩
    have hself : Function.update y.reqs r ((y.reqs r).unpair c start stop) r = q := by
      rw [Function.update_self, hq]
    have hrange : Range c (Function.update y.reqs r ((y.reqs r).unpair c start stop) r) start stop
        fun j => full_on (Function.update y.reqs r ((y.reqs r).unpair c start stop)) r j = true ∧
          swa_on (Function.update y.reqs r ((y.reqs r).unpair c start stop)) r j = false := by
      unfold full_on swa_on
      rw [hself, ← hq]
      refine ⟨hr.aligned, hr.ended, hr.inside, ?_⟩
      intro j hj
      refine ⟨(hr.all j hj).1, ?_⟩
      rw [Req.unpair]
      dsimp only
      rw [hj, Bool.not_true, Bool.and_false, Bool.and_false]
    obtain ⟨a', hok', hpools', hsame⟩ := hpools.unown hrange
    dsimp only at hok' hpools'
    rw [hself, Function.update_idem] at hpools'
    rw [hself, ← hq] at hok'
    have hboth : free_segment c y.alloc (segment (y.reqs r) start stop) start = .ok a' := by
      unfold free_segment
      rw [if_neg hnil, hok]
      exact hok'
    refine ⟨⟨a', _⟩, ?_, ⟨hq ▸ hpools', htrim⟩, fun hring => ?_⟩
    rotate_left
    · rw [show swa_pool a' = swa_pool a from hsame]
      exact hperm hring
    unfold step
    dsimp only
    rw [hboth]
    rfl

/-- **`free_full_segment`** -/
theorem step_free_full_segment (hr : Permitted c y (.free_full_segment r start stop)) :
    ∃ y', step c y (.free_full_segment r start stop) = .ok y' ∧ Balanced c y' := by
  have htrim := trimmed_update (r := r) h.trimmed
    (@trimmed_unown c start stop _ (h.trimmed r)).1
  by_cases hnil : (segment (y.reqs r) start stop).isEmpty = true
  · refine ⟨y, ?_, h⟩
    unfold step free_full_segment
    dsimp only
    rw [hnil, unown_nothing (within_of_nil hr.inside hnil), Function.update_eq_self]
    rfl
  · have hrange : Range c (y.reqs r) start stop fun j =>
        full_on y.reqs r j = true ∧ swa_on y.reqs r j = false := by
      refine ⟨hr.aligned, hr.ended, hr.inside, ?_⟩
      intro j hj
      obtain ⟨hl, hp⟩ := hr.all j hj
      exact ⟨hl, by rw [swa_on, hp, Bool.and_false]⟩
    obtain ⟨a, hok, hpools, -⟩ := h.toPools.unown hrange
    -- the slots of pages without a peer read `0`
    have hzero : (segment (y.reqs r) start stop).all (fun slot =>
        decide (y.alloc.full_to_swa_index_mapping slot = 0)) = true := by
      rw [List.all_eq_true]
      intro s hs
      obtain ⟨t, ht⟩ := mem_iff_getElem?.mp hs
      have hlt := (List.getElem?_eq_some_iff.mp ht).1
      rw [segment, length_take] at hlt
      rw [segment, getElem?_take_of_lt (by omega), getElem?_drop] at ht
      have hin : Req.within c start stop ((start + t) / c.page_size) = true := by
        obtain ⟨a, ha⟩ := dvd_of_mod_eq_zero hr.aligned
        have hle := div_mul_le_self (start + t) c.page_size
        have hge : start ≤ (start + t) / c.page_size * c.page_size := by
          have hmul : a ≤ (start + t) / c.page_size := by
            rw [Nat.le_div_iff_mul_le c.page_pos, Nat.mul_comm, ← ha]
            exact Nat.le_add_right _ _
          calc start = a * c.page_size := by rw [ha, Nat.mul_comm]
            _ ≤ (start + t) / c.page_size * c.page_size := Nat.mul_le_mul_right _ hmul
        unfold Req.within
        rw [Bool.and_eq_true, decide_eq_true_eq, decide_eq_true_eq]
        omega
      obtain ⟨hl, hp⟩ := hrange.all _ hin
      have hnonneg := h.full.page_le_slot hl ht
      rw [decide_eq_true_eq]
      by_contra hne
      obtain ⟨r', i, hon, hrow⟩ := h.swa.zero s (by omega) hne
      obtain ⟨rfl, rfl⟩ := h.full.slot_once c.page_pos hl ht
        (Bool.and_eq_true _ _ ▸ hon : _ ∧ _).1 hrow
      rw [hp] at hon
      cases hon
    refine ⟨_, ?_, hpools, htrim⟩
    unfold step free_full_segment
    dsimp only
    rw [if_neg hnil, if_pos hzero, hok]
    rfl

/-! ## Groups, admission and `clear` -/

theorem step_free_group_begin (hp : Permitted c y .free_group_begin) :
    ∃ y', step c y .free_group_begin = .ok y' ∧ Balanced c y' := by
  have hopen : y.alloc.in_free_group = false := hp
  have hnone : y.alloc.full_attn_allocator.free_group = none := by
    rw [← Option.not_isSome_iff_eq_none, h.full_group, hopen]
    exact Bool.false_ne_true
  obtain ⟨full, hok, htidy, hpool, hgroup⟩ :=
    free_group_begin_spec h.full_tidy hnone
  have hempty := h.ungrouped (.inl hopen)
  refine ⟨⟨{ y.alloc with in_free_group := true, swa_page_ids_group := [], full_attn_allocator := full },
    y.reqs⟩, ?_, ⟨htidy, h.swa_tidy, ?_, ?_, ?_, h.swa_group, fun _ => rfl⟩, h.trimmed⟩
  · unfold step free_group_begin
    rw [hopen, hok]
    rfl
  · rw [hpool]
    exact h.full
  · have hswa := h.swa
    unfold swa_pool at hswa ⊢
    rw [hempty] at hswa
    exact hswa
  · exact congrArg Option.isSome hgroup

theorem step_free_group_end : ∃ y', step c y .free_group_end = .ok y' ∧ Balanced c y' := by
  obtain ⟨hftidy, hfpool, hfgroup⟩ := free_group_end_spec c.full h.full_tidy
  obtain ⟨swa, hswa⟩ : ∃ swa, (if y.alloc.swa_page_ids_group = [] ∨ c.swa_req_ring = true then
      y.alloc.swa_attn_allocator
    else PagedAllocator.free_page_ids c.swa y.alloc.swa_attn_allocator
      y.alloc.swa_page_ids_group.flatten) = swa := ⟨_, rfl⟩
  -- the pages that the group deferred are in the SWA pool afterwards
  have hside : Tidy swa ∧ (pool swa).Perm (swa_pool y.alloc) ∧ swa.free_group = none := by
    rw [← hswa]
    split
    · rename_i hnone
      have hempty : y.alloc.swa_page_ids_group = [] :=
        hnone.elim id fun hring => h.ungrouped (.inr hring)
      refine ⟨h.swa_tidy, ?_, h.swa_group⟩
      rw [swa_pool, hempty, flatten_nil, append_nil]
    · have hf := free_page_ids_spec c.swa h.swa_tidy
        y.alloc.swa_page_ids_group.flatten
      exact ⟨hf.tidy, hf.pool.trans perm_append_comm, hf.free_group.trans h.swa_group⟩
  obtain ⟨hstidy, hspool, hsgroup⟩ := hside
  have hfull : FullSide c (pool (PagedAllocator.free_group_end c.full y.alloc.full_attn_allocator))
      y.reqs := h.full.perm hfpool.symm
  have hswa' : SwaSide c (pool swa) y.reqs y.alloc.full_to_swa_index_mapping :=
    h.swa.perm hspool.symm
  refine ⟨⟨{ y.alloc with
      in_free_group := false
      swa_page_ids_group := []
      swa_attn_allocator := swa
      full_attn_allocator := PagedAllocator.free_group_end c.full y.alloc.full_attn_allocator },
    y.reqs⟩, ?_, ⟨hftidy, hstidy, hfull, ?_, ?_, hsgroup, fun _ => rfl⟩, h.trimmed⟩
  · unfold step free_group_end
    dsimp only
    rw [hswa, check_capacity_ok hftidy (Nat.le_refl _) hfull.ledger,
      check_capacity_ok hstidy (Nat.le_refl _) hswa'.rows.ledger]
    rfl
  · unfold swa_pool
    rw [flatten_nil, append_nil]
    exact hswa'
  · exact congrArg Option.isSome hfgroup

theorem step_accept {prefix_indices : List ℤ} (hp : Permitted c y (.accept r prefix_indices)) :
    ∃ y', step c y (.accept r prefix_indices) = .ok y' ∧ Balanced c y' := by
  have hlive : ∀ j, (y.reqs r).live j = false := hp
  have hfon : full_on (Function.update y.reqs r (Req.accept prefix_indices)) = full_on y.reqs := by
    funext r' j
    by_cases hr : r' = r
    · subst hr
      rw [full_on, Function.update_self, full_on, hlive j]
      rfl
    · rw [full_on, Function.update_of_ne hr, full_on]
  have hson : swa_on (Function.update y.reqs r (Req.accept prefix_indices)) = swa_on y.reqs := by
    funext r' j
    by_cases hr : r' = r
    · subst hr
      rw [swa_on, Function.update_self, swa_on, hlive j]
      rfl
    · rw [swa_on, Function.update_of_ne hr, swa_on]
  have hne : ∀ r' i, full_on y.reqs r' (i / c.page_size) = true → r' ≠ r := by
    rintro r' i hon rfl
    rw [full_on, hlive] at hon
    cases hon
  refine ⟨_, rfl, ⟨h.full_tidy, h.swa_tidy, ?_, ⟨?_, ?_⟩, h.full_group, h.swa_group, h.ungrouped⟩,
    trimmed_update h.trimmed ?_⟩
  · refine h.full.congr c.page_pos ?_ ?_
    · intro r' j
      rw [hfon]
    · intro r' i hon
      rw [slot]
      dsimp only
      rw [Function.update_of_ne (hne r' i hon), slot]
  · refine h.swa.rows.congr c.page_pos ?_ ?_
    · intro r' j
      rw [hson]
    · intro r' i hon
      rw [peer]
      dsimp only
      rw [Function.update_of_ne (hne r' i (Bool.and_eq_true _ _ ▸ hon : _ ∧ _).1), peer]
  · intro s hs hset
    obtain ⟨r', i, hon, hrow⟩ := h.swa.zero s hs hset
    refine ⟨r', i, by rw [hson]; exact hon, ?_⟩
    rw [slot]
    dsimp only
    rw [Function.update_of_ne (hne r' i (Bool.and_eq_true _ _ ▸ hon : _ ∧ _).1)]
    exact hrow
  · unfold Trimmed
    split
    · exact fun _ => rfl
    · intro j hj
      cases hj

omit h in
theorem balanced_clear (c : SwaConfig) : Balanced c ⟨clear c, fun _ => .accept []⟩ where
  full_tidy := tidy_clear _
  swa_tidy := tidy_clear _
  full := by
    apply PagedRows.idle (nodup_pool_clear c.full)
    · exact mem_pool_clear c.full
    · exact fun _ _ => rfl
  swa := by
    constructor
    · have hpool : swa_pool (clear c) = pool (PagedAllocator.clear c.swa) := append_nil _
      rw [hpool]
      apply PagedRows.idle (nodup_pool_clear c.swa)
      · exact mem_pool_clear c.swa
      · exact fun _ _ => rfl
    · intro s hs hne
      have hm : (clear c).full_to_swa_index_mapping s = 0 := if_neg (by omega)
      exact absurd hm hne
  full_group := rfl
  swa_group := rfl
  ungrouped := fun _ => rfl
  trimmed r := by
    unfold Trimmed
    split
    · exact fun _ => rfl
    · intro j hj
      cases hj

/-! ## Runs -/

/-- **Every operation** that the callers may call, a decode step in lockstep, succeeds and leaves
both sides balanced. -/
theorem balanced_step {op : Op} (hp : Permitted c y op) (hl : Lockstep c y op) :
    ∃ y', step c y op = .ok y' ∧ Balanced c y' := by
  cases op with
  | accept r prefix_indices => exact step_accept h hp
  | alloc_extend batch => exact step_alloc_extend h hp
  | alloc_decode batch => exact step_alloc_decode h hp hl
  | free_segment r start stop => exact (step_free_segment h hp).imp fun _ hs => ⟨hs.1, hs.2.1⟩
  | free_swa_segment r start stop => exact (step_free_swa_segment h hp).imp fun _ hs => ⟨hs.1, hs.2.1⟩
  | free_full_segment r start stop => exact step_free_full_segment h hp
  | free_group_begin => exact step_free_group_begin h hp
  | free_group_end => exact step_free_group_end h
  | clear => exact ⟨_, rfl, balanced_clear c⟩

end

theorem balanced_of_reachable (h : Reachable c y) : Balanced c y := by
  induction h with
  | init => exact balanced_clear c
  | step _ hp hl hs ih =>
    obtain ⟨y', hok, hb⟩ := balanced_step ih hp hl
    rw [hs, Except.ok.injEq] at hok
    subst hok
    exact hb

/-- Page `p` of the full pool is page `k.2` of request `k.1`. -/
def FullPage (c : SwaConfig) (y : System) : ℕ × ℕ → ℤ → Prop :=
  page_owns c.page_size (full_on y.reqs) (slot y.reqs)

/-- Page `p` of the SWA pool is the peer of page `k.2` of request `k.1`. -/
def SwaPage (c : SwaConfig) (y : System) : ℕ × ℕ → ℤ → Prop :=
  page_owns c.page_size (swa_on y.reqs) (peer y.reqs y.alloc.full_to_swa_index_mapping)

/-- Position `i` of request `r` has the live slot `s`, and `s` has a live peer. -/
def Paired (c : SwaConfig) (y : System) (r i : ℕ) (s : ℤ) : Prop :=
  slot y.reqs r i = some s ∧ swa_on y.reqs r (i / c.page_size) = true

/-- Two pools in step. -/
structure InStep (c : SwaConfig) (y : System) : Prop where
  full_pages : PageLedger c.full.num_pages (pool y.alloc.full_attn_allocator) (FullPage c y)
  swa_pages : PageLedger c.swa.num_pages (swa_pool y.alloc) (SwaPage c y)
  settled : y.alloc.in_free_group = false →
    pool y.alloc.full_attn_allocator
      = PagedAllocator.get_all_free_pages y.alloc.full_attn_allocator ∧
    swa_pool y.alloc = PagedAllocator.get_all_free_pages y.alloc.swa_attn_allocator
  offset : ∀ r i s, Paired c y r i s →
    y.alloc.full_to_swa_index_mapping s % c.page_size = s % c.page_size ∧
    FullPage c y (r, i / c.page_size) (s / c.page_size) ∧
    SwaPage c y (r, i / c.page_size) (y.alloc.full_to_swa_index_mapping s / c.page_size)
  injective : ∀ r i s r' i' s', Paired c y r i s → Paired c y r' i' s' →
    (y.alloc.full_to_swa_index_mapping s / c.page_size
        = y.alloc.full_to_swa_index_mapping s' / c.page_size ↔ s / c.page_size = s' / c.page_size)
  zero : ∀ s, 0 ≤ s → (¬ ∃ r i, Paired c y r i s) → y.alloc.full_to_swa_index_mapping s = 0

/-- A free of the range releases each of its SWA pages once, and never page `0`. -/
structure Releases (c : SwaConfig) (y y' : System) (r start stop : ℕ) : Prop where
  nodup : (released c y r start stop).Nodup
  nonzero : 0 ∉ released c y r start stop
  owned : ∀ p ∈ released c y r start stop, (∃ k, SwaPage c y k p) ∧ p ∉ swa_pool y.alloc
  pool : (swa_pool y'.alloc).Perm (released c y r start stop ++ swa_pool y.alloc)

theorem page_owns_inj {on : ℕ → ℕ → Bool} {val : ℕ → ℕ → Option ℤ} {k : ℕ × ℕ} {p p' : ℤ}
    (h : page_owns c.page_size on val k p) (h' : page_owns c.page_size on val k p') : p = p' :=
  mul_page_inj c.page_pos (Option.some.inj (h.2.symm.trans h'.2))

theorem paired_pages (h : Balanced c y) {r i : ℕ} {s : ℤ} (hrow : slot y.reqs r i = some s)
    (hon : swa_on y.reqs r (i / c.page_size) = true) :
    y.alloc.full_to_swa_index_mapping s % c.page_size = s % c.page_size ∧
      FullPage c y (r, i / c.page_size) (s / c.page_size) ∧
      SwaPage c y (r, i / c.page_size) (y.alloc.full_to_swa_index_mapping s / c.page_size) := by
  have hlt := mod_lt i c.page_pos
  have hpeer : peer y.reqs y.alloc.full_to_swa_index_mapping r i
      = some (y.alloc.full_to_swa_index_mapping s) := by
    rw [peer, show (y.reqs r).row[i]? = some s from hrow]
    rfl
  obtain ⟨p, hfull, hs⟩ := h.full.slot_of (Bool.and_eq_true _ _ ▸ hon : _ ∧ _).1 hrow
  obtain ⟨q, hswa, hm⟩ := h.swa.rows.slot_of hon hpeer
  rw [hm, hs, slot_div c.page_pos hlt, slot_div c.page_pos hlt]
  refine ⟨?_, hfull, hswa⟩
  rw [Int.add_comm, Int.add_mul_emod_self_right, Int.add_comm, Int.add_mul_emod_self_right]

theorem in_step (h : Balanced c y) : InStep c y where
  full_pages := h.full.ledger
  swa_pages := h.swa.rows.ledger
  settled hopen := by
    have hnone : y.alloc.full_attn_allocator.free_group = none := by
      rw [← Option.not_isSome_iff_eq_none, h.full_group, hopen]
      exact Bool.false_ne_true
    unfold swa_pool pool PagedAllocator.get_all_free_pages
    rw [h.full_tidy.undeferred hnone, h.swa_tidy.undeferred h.swa_group, h.ungrouped (.inl hopen)]
    simp only [flatten_nil, append_nil, and_self]
  offset := by
    rintro r i s ⟨hrow, hon⟩
    exact paired_pages h hrow hon
  injective := by
    rintro r i s r' i' s' ⟨hrow, hon⟩ ⟨hrow', hon'⟩
    obtain ⟨-, hfull, hswa⟩ := paired_pages h hrow hon
    obtain ⟨-, hfull', hswa'⟩ := paired_pages h hrow' hon'
    -- both pages are told by the request and its page
    constructor
    · intro heq
      rw [← heq] at hswa'
      have hk := h.swa.rows.ledger.single _ _ _ hswa hswa'
      rw [← hk] at hfull'
      exact page_owns_inj hfull hfull'
    · intro heq
      rw [← heq] at hfull'
      have hk := h.full.ledger.single _ _ _ hfull hfull'
      rw [← hk] at hswa'
      exact page_owns_inj hswa hswa'
  zero s hs hnone := by
    by_contra hne
    obtain ⟨r, i, hon, hrow⟩ := h.swa.zero s hs hne
    exact hnone ⟨r, i, hrow, hon⟩

section

variable (h : Balanced c y) (hr : Range c (y.reqs r) start stop fun j => swa_on y.reqs r j = true)
include h hr

theorem released_owned : ∀ p ∈ released c y r start stop, ∃ k, SwaPage c y k p := by
  intro p hp
  unfold released at hp
  rw [stride_segment hr.aligned hr.inside, List.map_map, List.map_map] at hp
  obtain ⟨j, hj, rfl⟩ := List.mem_map.mp hp
  exact ⟨_, (h.swa.first_peer (hr.all j ((mem_range_pages hr.aligned j).mp hj))).1⟩

theorem releases (hp : (swa_pool y'.alloc).Perm (released c y r start stop ++ swa_pool y.alloc)) :
    Releases c y y' r start stop where
  nodup := (SwaSide.unpair h.full h.swa hr.aligned hr.inside hr.all).2.1
  nonzero hzero := by
    obtain ⟨k, hk⟩ := released_owned h hr 0 hzero
    have := (h.swa.rows.ledger.owned_range hk).1
    omega
  owned p hmem := by
    obtain ⟨k, hk⟩ := released_owned h hr p hmem
    exact ⟨⟨k, hk⟩, h.swa.rows.ledger.apart k p hk⟩
  pool := hp

end

/-- **Both pools stay in step.** In every run whose decode steps find both pools short of pages or
neither, in every state: the mapping leads page by page and offset by offset from the full pool to
the SWA pool, entries without a live peer are `0`, each pool's pages are shared out between its free
lists and the live pages; no permitted operation fails an assertion, and a free releases each SWA
page of its range once. -/
theorem pools_stay_in_step (h : Reachable c y) : InStep c y ∧
    (∀ op, Permitted c y op → Lockstep c y op → ∃ y', step c y op = .ok y') ∧
    (∀ r start stop y', c.swa_req_ring = false → (Permitted c y (.free_segment r start stop) ∧
          step c y (.free_segment r start stop) = .ok y' ∨
        Permitted c y (.free_swa_segment r start stop) ∧
          step c y (.free_swa_segment r start stop) = .ok y') → Releases c y y' r start stop) := by
  have hb := balanced_of_reachable h
  refine ⟨in_step hb, ?_, ?_⟩
  · intro op hp hl
    obtain ⟨y', hok, -⟩ := balanced_step hb hp hl
    exact ⟨y', hok⟩
  · rintro r start stop y' hring (⟨hp, hs⟩ | ⟨hp, hs⟩)
    · obtain ⟨y₁, hok, -, hperm⟩ := step_free_segment hb hp
      rw [hs, Except.ok.injEq] at hok
      subst hok
      exact releases hb (range_swa hring hp) (hperm hring)
    · obtain ⟨y₁, hok, -, hperm⟩ := step_free_swa_segment hb hp
      rw [hs, Except.ok.injEq] at hok
      subst hok
      exact releases hb (range_swa hring hp.1) (hperm hring)

end steps

/-- Two full pages of two slots, and one SWA page. -/
def uneven : SwaConfig := ⟨4, 2, 2, false, false, by decide⟩

/-- Three full pages of two slots, and two SWA pages. -/
def roomy : SwaConfig := ⟨6, 4, 2, false, false, by decide⟩

/-- A request takes two slots and decodes a third in lockstep; its first SWA page is freed. -/
theorem freed_segment_in_step : ∃ y₁ y₂ y₃ : System,
    step roomy ⟨clear roomy, fun _ => .accept []⟩ (.alloc_extend [(0, 2)]) = .ok y₁ ∧
    step roomy y₁ (.alloc_decode [0]) = .ok y₂ ∧ step roomy y₂ (.free_swa_segment 0 0 2) = .ok y₃ ∧
    InStep roomy y₃ ∧ Releases roomy y₂ y₃ 0 0 2 := by
  have hbatch : ∀ y : System, (y.reqs 0).row.length % 2 = 0 → Batch roomy y.reqs [0] := by
    refine fun y hlen => ⟨nodup_singleton 0, fun r hr hz => ?_⟩
    rw [List.mem_singleton] at hr
    subst hr
    exact absurd hlen hz
  have h₁ := @Reachable.step roomy _ _ (.alloc_extend [(0, 2)]) .init (hbatch _ rfl) trivial rfl
  have h₂ := @Reachable.step roomy _ _ (.alloc_decode [0]) h₁ (hbatch _ rfl) (Or.inr rfl) rfl
  have hall : ∀ j, Req.within roomy 0 2 j = true → j = 0 := by
    intro j hj
    have hlt := of_decide_eq_true (Bool.and_eq_true_iff.mp hj).2
    exact Nat.lt_one_iff.mp (Nat.lt_of_mul_lt_mul_right hlt)
  have h₃ := fun hp => @Reachable.step roomy _ _ (.free_swa_segment 0 0 2) h₂ hp trivial rfl
  refine ⟨_, _, _, rfl, rfl, rfl, (pools_stay_in_step (h₃ ?permitted)).1,
    (pools_stay_in_step h₂).2.2 0 0 2 _ rfl (Or.inr ⟨?permitted, rfl⟩)⟩
  case permitted =>
    refine ⟨⟨rfl, Or.inl rfl, by decide, fun j hj => ?_⟩, by decide⟩
    obtain rfl := hall j hj
    exact ⟨rfl, Or.inl rfl⟩

/-- **A decode step that loses a page.** The full pool has a page left and the SWA pool none. The
step fails, and full page `2` is neither free nor live afterwards. -/
theorem decode_loses_page : ∃ y₁ y₂ : System,
    Permitted uneven ⟨clear uneven, fun _ => .accept []⟩ (.alloc_extend [(0, 2)]) ∧
    step uneven ⟨clear uneven, fun _ => .accept []⟩ (.alloc_extend [(0, 2)]) = .ok y₁ ∧
    Permitted uneven y₁ (.alloc_decode [0]) ∧
    step uneven y₁ (.alloc_decode [0]) = .ok y₂ ∧ ¬ InStep uneven y₂ := by
  refine ⟨_, _, ⟨nodup_singleton 0, ?_⟩, rfl, ⟨nodup_singleton 0, ?_⟩, rfl, ?_⟩
  · intro r _ hz
    exact absurd rfl hz
  · intro r hr hz
    rw [List.mem_singleton] at hr
    subst hr
    exact absurd rfl hz
  · intro h
    rcases (h.full_pages.covers 2).mpr ⟨by decide, by decide⟩ with hp | ⟨⟨r, j⟩, -, hrow⟩
    · exact absurd hp (not_mem_nil)
    · -- the one row with slots has those of page `1`
      by_cases hr : r = 0
      · subst hr
        change ([2, 3] : List ℤ)[j * 2]? = some 4 at hrow
        have hmem := mem_of_getElem? hrow
        revert hmem
        decide
      · unfold slot at hrow
        dsimp only [write_rows] at hrow
        rw [Function.update_of_ne hr] at hrow
        cases hrow

end LightningH3.SwaAllocator
