/-
Runs of a lazy end pool.

A run applies the public operations of the pool in any order, with the rest of the chain,
the move gates and the events as its environment: every allocation is told where its
neighbour's frontier is, before and after the shortfall ladder, and events fire at any
moment, also between the queries of one flush. `Permitted` is what the callers promise: no
page is freed twice and only bound pages are freed.

`_commit_move_batch` files the pages it vacates under the latest event, and replaces what is
filed there. A second flush under the same unfired event therefore drops the batch of the
first one, and those pages are never handed out again. `no_page_lost` shows that this is the
only way to lose a page: in a run in which no flush moves pages under an event that still
has a batch (`Overwrites`), every page of the band is in exactly one place in every state.
-/
import Mathlib
import LightningH3.Lib.Fallible
import LightningH3.UnifiedPoolFlush

set_option autoImplicit false

namespace LightningH3.UnifiedPool

open List Fallible

variable {E β : Type} {c : EndConfig} {s : EndPool E β}

/-! ## The property -/

/-- The pages of the band, as a finite set. -/
noncomputable def band (c : EndConfig) (s : EndPool E β) : Finset ℤ :=
  match c.grow_direction with
  | .up => Finset.Ico c.min_page_index s.watermark_physical
  | .down => Finset.Ioo s.watermark_physical c.num_pages

/-- How often the page `p` is bound, on the free list, or in a pending batch. -/
def places (s : EndPool E β) (p : ℤ) : ℕ :=
  (if 0 ≤ s.table.p2v p then 1 else 0) + s.free_phys_pages.count p
    + (s.pending_reuse.values.map (List.count p)).sum

/-- No page of the band is lost or duplicated. -/
structure Conserved (c : EndConfig) (s : EndPool E β) : Prop where
  inverse : s.table.Inverse
  one_place : ∀ p ∈ band c s, places s p = 1
  live : s.live_page_count = ((band c s).filter (fun p => 0 ≤ s.table.p2v p)).card
  mirror : ∀ p, p ∈ s.pending_reuse_pages_cpu ↔ ∃ batch ∈ s.pending_reuse.values, p ∈ batch

theorem mem_band {p : ℤ} : p ∈ band c s ↔ InBand c s p := by
  unfold band InBand
  cases c.grow_direction with
  | up => exact Finset.mem_Ico
  | down => exact Finset.mem_Ioo

theorem card_band (h : 0 ≤ band_size c s) : ((band c s).card : ℤ) = band_size c s := by
  unfold band_size at h
  unfold band band_size
  cases hd : c.grow_direction <;> simp only [hd, Int.card_Ico, Int.card_Ioo] at h ⊢ <;> omega

theorem places_eq (s : EndPool E β) (p : ℤ) :
    places s p = (if 0 ≤ s.table.p2v p then 1 else 0) + (unbound_pages s).count p := by
  unfold places unbound_pages pending_pages
  rw [count_append, count_flatten, Nat.add_assoc]

theorem Accounted.conserved (h : Accounted c s) (hl : c.lazy_compaction = true) :
    Conserved c s where
  inverse := h.inverse
  one_place := by
    intro p hp
    have hin := mem_band.mp hp
    rw [places_eq]
    by_cases hb : 0 ≤ s.table.p2v p
    · have hnot : p ∉ unbound_pages s := by
        intro hm
        have := ((h.unbound p).mp hm).2
        omega
      rw [if_pos hb, count_eq_zero_of_not_mem hnot]
    · have hm : p ∈ unbound_pages s := (h.unbound p).mpr ⟨hin, by omega⟩
      rw [if_neg hb, count_eq_one_of_mem h.nodup hm]
  live := by
    have hfilter : (unbound_pages s).toFinset
        = (band c s).filter (fun p => ¬ 0 ≤ s.table.p2v p) := by
      ext p
      rw [mem_toFinset, Finset.mem_filter, mem_band, h.unbound]
      constructor
      · rintro ⟨h1, h2⟩
        exact ⟨h1, by omega⟩
      · rintro ⟨h1, h2⟩
        exact ⟨h1, by omega⟩
    have hsplit := Finset.card_filter_add_card_filter_not (s := band c s)
      (fun p => 0 ≤ s.table.p2v p)
    rw [← hfilter, toFinset_card_of_nodup h.nodup] at hsplit
    have hcard := card_band h.size_nonneg
    rw [h.live hl]
    unfold live_pages
    omega
  mirror := by
    intro p
    rw [h.mirror]
    unfold pending_pages
    rw [mem_flatten]

/-! ## When a flush drops a batch -/

section Condition

variable (c : EndConfig) (s : EndPool E β) (clock : FlushClock E)

/-- A page that is free, or waits in a batch whose event the drain finds fired. -/
def Reclaimable (h : ℤ) : Prop :=
  h ∈ s.free_phys_pages
    ∨ ∃ entry ∈ s.pending_reuse.items, clock.drain entry.1 = true ∧ h ∈ entry.2

/-- An opportunistic flush has a page to move: the bound page next to the watermark lies
beyond a reclaimable page, and the forward in flight does not write it. -/
def MovesPage : Prop :=
  ∃ top h, InBand c s top ∧ 0 ≤ s.table.p2v top
    ∧ (∀ q, InBand c s q → 0 ≤ s.table.p2v q → beyond c.grow_direction q top = false)
    ∧ Reclaimable s clock h ∧ beyond c.grow_direction top h = true
    ∧ top ∉ inflight_write_set c s clock.write

/-- An opportunistic flush moves pages under an event that has not fired and has a batch
already. -/
def Overwrites : Prop :=
  moves_blocked s = false ∧ MovesPage c s clock
    ∧ ∃ e, s.latest_forward_done_event = some e ∧ clock.commit e = false
      ∧ e ∈ s.pending_reuse.keys

end Condition

section Flush

variable {clock : FlushClock E}

theorem reclaimable_of_prepare {p : ℤ}
    (h : p ∈ (flush_prepare c s false clock.drain).free_phys_pages) : Reclaimable s clock p := by
  have hmem : p ∈ (drain_pending_reuse s false clock.drain).free_phys_pages := by
    have hsub : p ∈ sorted (drain_pending_reuse s false clock.drain).free_phys_pages :=
      mem_of_mem_drop_frontier h
    exact (sorted_perm _).mem_iff.mp hsub
  rcases mem_append.mp hmem with hp | hp
  · exact .inl hp
  · obtain ⟨batch, hb, hp⟩ := mem_flatten.mp hp
    obtain ⟨entry, hentry, rfl⟩ := mem_map.mp hb
    rw [mem_filter, Bool.or_false] at hentry
    exact .inr ⟨entry, hentry.1, hentry.2, hp⟩

theorem Accounted.inBand_of_p2v (h : Accounted c s) {p : ℤ} (hpos : 0 < p)
    (hb : 0 ≤ s.table.p2v p) : InBand c s p := by
  by_contra hnot
  have := h.outside p hpos hnot
  omega

theorem movesPage_of_planned (h : Accounted c s) {cap : Option ℤ}
    (hne : planned_moves c (flush_prepare c s false clock.drain)
      (inflight_write_set c s clock.write) cap
      (flush_prepare c s false clock.drain).free_phys_pages ≠ []) : MovesPage c s clock := by
  have h₁ := h.prepare false clock.drain
  have hw : WalkedFree c (flush_prepare c s false clock.drain) _ _ :=
    (planned_moves_spec c _ (inflight_write_set c s clock.write) cap
      (h.prepare_sorted false clock.drain)).1
  have htable : (flush_prepare c s false clock.drain).table = s.table := rfl
  set s₁ := flush_prepare c s false clock.drain
  set moves := planned_moves c s₁ (inflight_write_set c s clock.write) cap s₁.free_phys_pages
  obtain ⟨x, xs, hx⟩ := exists_cons_of_ne_nil hne
  have hxm : x ∈ moves := hx ▸ mem_cons_self
  have hb := h₁.src_bound hw hxm
  refine ⟨x.1, x.2, h.inBand_of_p2v (h₁.pos_of_inBand hb.1) hb.2, hb.2, ?_, ?_,
    hw.apart x hxm, (hw.src x hxm).2⟩
  · -- the first source is the outermost bound page
    intro q hq hqb
    have hq₁ : InBand c s₁ q := h₁.inBand_of_p2v (h.pos_of_inBand hq) hqb
    by_cases hqs : q ∈ moves.map Prod.fst
    · have horder := hw.srcs_order
      rw [hx] at horder hqs
      rcases mem_cons.mp hqs with rfl | hqs
      · exact beyond_irrefl _ _
      · exact beyond_asymm ((pairwise_cons.mp horder).1 q hqs)
    · refine beyond_asymm (hw.outermost q ⟨within_frontier_page.mpr hq₁, ?_, ?_⟩ hqs x hxm)
      · intro hfree
        have := (h₁.of_mem_free hfree).2
        rw [htable] at this
        omega
      · intro hmirror
        have hu := (h₁.unbound q).mp (mem_append_right _ ((h₁.mirror q).mp hmirror))
        have := hu.2
        rw [htable] at this
        omega
  · exact reclaimable_of_prepare (WalkedFree.dst_mem hw (mem_map_of_mem hxm))

variable [DecidableEq E]

/-- **Specification of `_flush`** on a pool whose pages are accounted for. -/
theorem flush_spec (h : Accounted c s) (urgent : Bool) (move_cap : ℤ) (clock : FlushClock E)
    (hfresh : urgent = false → ¬ Overwrites c s clock) :
    ∃ s' n moves, flush c s urgent move_cap clock = .ok (s', n) ∧ Flushed c s s' moves
      ∧ (c.lazy_compaction = true → moves_blocked s = false → urgent = true →
        unbound_pages s' = []) := by
  unfold flush
  by_cases hl : c.lazy_compaction = true
  swap
  · rw [if_pos (by simpa using hl)]
    exact ⟨s, 0, [], rfl, h.flushed_nil, fun hl' => absurd hl' hl⟩
  rw [if_neg (by simp [hl])]
  by_cases hgate : moves_blocked s = true
  · rw [if_pos hgate]
    refine ⟨s, 0, [], rfl, h.flushed_nil, fun _ hopen => ?_⟩
    rw [hgate] at hopen
    cases hopen
  rw [if_neg hgate]
  dsimp only
  have h₁ := h.prepare urgent clock.drain
  have hs := h.prepare_sorted urgent clock.drain
  split
  next hpack =>
    rw [Bool.and_eq_true] at hpack
    obtain ⟨rfl, -⟩ := hpack
    obtain ⟨s', n, moves, hrun, hflushed, hun⟩ :=
      flush_pack_spec h₁ hs (prepare_urgent_items c s clock.drain) clock.commit
    refine ⟨s', n, moves, hrun, ⟨hflushed.accounted, hflushed.movable, hflushed.table,
      hflushed.ids, hflushed.live_count⟩, fun _ _ _ => hun⟩
  next hpartial =>
    -- an urgent pass gets here without holes, so it moves nothing
    have hempty : urgent = true →
        (flush_prepare c s urgent clock.drain).free_phys_pages = [] := by
      intro hu
      simpa [hu] using hpartial
    have hcond : ∀ e, (flush_prepare c s urgent clock.drain).latest_forward_done_event = some e →
        clock.commit e = false →
        planned_moves c (flush_prepare c s urgent clock.drain)
          (inflight_write_set c (flush_prepare c s urgent clock.drain) clock.write)
          (if urgent then none else some move_cap)
          (flush_prepare c s urgent clock.drain).free_phys_pages ≠ [] →
        e ∉ (flush_prepare c s urgent clock.drain).pending_reuse.keys := by
      intro e he hq hne hkey
      cases urgent with
      | true =>
        have hk : (flush_prepare c s true clock.drain).pending_reuse.keys = [] := by
          unfold OrderedDict.keys
          rw [prepare_urgent_items]
          rfl
        rw [hk] at hkey
        simp at hkey
      | false =>
        refine hfresh rfl ⟨by simpa using hgate, movesPage_of_planned h hne, e, he, hq, ?_⟩
        obtain ⟨entry, hentry, rfl⟩ := mem_map.mp hkey
        exact mem_map_of_mem (mem_of_mem_filter hentry)
    obtain ⟨s', n, moves, hrun, hflushed, hsame⟩ :=
      flush_partial_spec h₁ hs urgent move_cap clock hcond
    refine ⟨s', n, moves, hrun, ⟨hflushed.accounted, hflushed.movable, hflushed.table,
      hflushed.ids, hflushed.live_count⟩, fun _ _ hu => ?_⟩
    subst hu
    obtain ⟨_, hfree, hpend⟩ := hsame (hempty rfl)
    unfold unbound_pages pending_pages OrderedDict.values
    rw [hfree, hpend, prepare_urgent_items]
    rfl

end Flush

/-! ## Runs -/

/-- The pool and the events that have fired. -/
structure Machine (E β : Type) where
  pool : EndPool E β
  fired : E → Bool

/-- One step of a run. An allocation is told the frontier of the growth-side neighbour,
before and after the shortfall ladder has run over the neighbours. -/
inductive Op (E : Type) where
  | alloc (need_size frontier relieved : ℤ)
  | alloc_extend (reqs : List ExtendRequest) (frontier relieved : ℤ)
  | alloc_decode (reqs : List (ℤ × ℤ)) (frontier relieved : ℤ)
  | alloc_with_virtual (virtual_pages : List ℤ) (frontier : ℤ)
  | free (free_index : List ℤ)
  | free_segment (free_index : List ℤ) (start_pos : ℤ)
  | free_group_begin
  | free_group_end
  | set_latest_forward_done_event (event : Option E)
  | set_inflight_forward (forward_done : E) (out_cache_loc_virtual : Option (List ℤ))
  | set_move_gates (disagg host_transfer : Option Bool)
  | flush_opportunistic (move_cap : ℤ) (clock : FlushClock E)
  | flush_for_allocation (clock : FlushClock E)
  | fire (event : E)

section Runs

variable [DecidableEq E]

/-- Apply one operation. -/
def step (c : EndConfig) (m : Machine E β) : Op E → Except Fault (Machine E β)
  | .alloc n f r => (alloc c m.pool n f r).map fun x => { m with pool := x.1 }
  | .alloc_extend reqs f r => (alloc_extend c m.pool reqs f r).map fun x => { m with pool := x.1 }
  | .alloc_decode reqs f r => (alloc_decode c m.pool reqs f r).map fun x => { m with pool := x.1 }
  | .alloc_with_virtual vs f => (alloc_with_virtual c m.pool vs f).map fun p => { m with pool := p }
  | .free idx => (free c m.pool idx none).map fun p => { m with pool := p }
  | .free_segment idx start => (free_segment c m.pool idx start).map fun p => { m with pool := p }
  | .free_group_begin => (free_group_begin m.pool).map fun p => { m with pool := p }
  | .free_group_end => (free_group_end c m.pool).map fun p => { m with pool := p }
  | .set_latest_forward_done_event e =>
    .ok { m with pool := set_latest_forward_done_event m.pool e }
  | .set_inflight_forward e locs => .ok { m with pool := set_inflight_forward c m.pool e locs }
  | .set_move_gates d h =>
    .ok { m with pool := { m.pool with disagg_move_gate := d, host_transfer_move_gate := h } }
  | .flush_opportunistic cap clock =>
    (flush_opportunistic c m.pool cap clock).map fun x => ⟨x.1, clock.commit⟩
  | .flush_for_allocation clock =>
    (flush_for_allocation c m.pool clock).map fun x => ⟨x.1, clock.commit⟩
  | .fire e => .ok { m with fired := Function.update m.fired e true }

/-- The pages `free_segment` frees: one representative token for each. -/
def segment_pages (c : EndConfig) (free_index : List ℤ) : List ℤ :=
  (every c.page_size.toNat 0 free_index).map (· / c.page_size)

/-- The pages a free group has queued: those of the tokens and those of the
representatives. -/
def group_pages (c : EndConfig) (s : EndPool E β) : List ℤ × List ℤ :=
  (freed_pages c (s.free_group.getD []).flatten none,
    (s.free_page_reps_group.getD []).flatten.map (· / c.page_size))

/-- What the callers promise, and that an event that has fired stays fired: a free applied
now is of distinct bound pages, a group that ends frees each page once, and virtual pages
handed to a pool that does not own the ids are distinct and unbound there. -/
def Permitted (c : EndConfig) (m : Machine E β) : Op E → Prop
  | .alloc_with_virtual vs _ =>
    c.is_id_owner = false ∧ vs.Nodup ∧ ∀ v ∈ vs, 0 < v ∧ m.pool.table.v2p v < 0
  | .free idx => m.pool.free_group = none → Freeable m.pool (freed_pages c idx none)
  | .free_segment idx _ =>
    m.pool.free_group = none →
      if c.page_size = 1 then Freeable m.pool (freed_pages c idx none)
      else m.pool.free_page_reps_group = none → Freeable m.pool (segment_pages c idx)
  | .free_group_end =>
    Freeable m.pool ((group_pages c m.pool).1 ++ (group_pages c m.pool).2)
  | .flush_opportunistic _ clock => ∀ e, m.fired e = true → clock.drain e = true
  | .flush_for_allocation clock => ∀ e, m.fired e = true → clock.drain e = true
  | _ => True

/-- The step drops no pending batch. -/
def KeepsBatches (c : EndConfig) (m : Machine E β) : Op E → Prop
  | .flush_opportunistic _ clock => ¬ Overwrites c m.pool clock
  | _ => True

/-- The states reached from a cleared pool by permitted steps that satisfy `cond`. -/
inductive Reachable (c : EndConfig) (cond : Machine E β → Op E → Prop) : Machine E β → Prop
  | start (mem : ℤ → β) (zero_page : Option β) :
      Reachable c cond ⟨cleared c mem zero_page, fun _ => false⟩
  | step {m m' : Machine E β} (op : Op E) (hm : Reachable c cond m) (hp : Permitted c m op)
      (hcond : cond m op) (hrun : step c m op = .ok m') : Reachable c cond m'

omit [DecidableEq E] in
theorem cleared_accounted (c : EndConfig) (mem : ℤ → β) (zero_page : Option β) :
    Accounted c (cleared c mem zero_page : EndPool E β) := by
  have hv2p : ∀ v : ℤ, v ≠ 0 → (cleared c mem zero_page : EndPool E β).table.v2p v = -1 :=
    fun v hv => by simp [cleared, hv]
  have hp2v : ∀ p : ℤ, p ≠ 0 → (cleared c mem zero_page : EndPool E β).table.p2v p = -1 :=
    fun p hp => by simp [cleared, hp]
  have hz : (cleared c mem zero_page : EndPool E β).table.v2p 0 = 0
      ∧ (cleared c mem zero_page : EndPool E β).table.p2v 0 = 0 :=
    ⟨by simp [cleared], by simp [cleared]⟩
  have hband : ∀ p, ¬ InBand c (cleared c mem zero_page : EndPool E β) p := by
    intro p
    show ¬ (match c.grow_direction with
      | .up => c.min_page_index ≤ p ∧ p < initial_watermark c
      | .down => initial_watermark c < p ∧ p < c.num_pages)
    unfold initial_watermark
    cases c.grow_direction <;> simp only <;> omega
  have hsize : band_size c (cleared c mem zero_page : EndPool E β) = 0 := by
    show (match c.grow_direction with
      | .up => initial_watermark c - c.min_page_index
      | .down => c.num_pages - 1 - initial_watermark c) = 0
    unfold initial_watermark
    cases c.grow_direction <;> simp only <;> omega
  have hlive : live_pages c (cleared c mem zero_page : EndPool E β) = 0 := by
    unfold live_pages
    rw [hsize]
    rfl
  have hids : ∀ v ∈ (cleared c mem zero_page : EndPool E β).free_virtual_ids, 0 < v := by
    intro v hv
    have hv' : v ∈ (if c.is_id_owner = true then arange c.min_page_index c.num_pages else []) := hv
    split at hv'
    · have := (mem_arange.mp hv').1
      have := c.one_le_min_page_index
      omega
    · simp at hv'
  exact
    { inverse := by
        intro v p hv hp
        by_cases h0 : v = 0
        · subst h0
          constructor
          · rintro rfl
            exact hz.2
          · intro h'
            by_contra hne
            rw [hp2v p (Ne.symm hne)] at h'
            omega
        · rw [hv2p v h0]
          constructor
          · intro h'
            omega
          · intro h'
            by_cases hp0 : p = 0
            · rw [hp0] at h'
              exact absurd h'.symm h0
            · rw [hp2v p hp0] at h'
              omega
      sink := hz
      size_nonneg := hsize.ge
      inside := fun p hp => absurd hp (hband p)
      outside := by
        intro p hpos _
        rw [hp2v p hpos.ne']
        omega
      unbound := by
        intro p
        constructor
        · intro hp
          exact absurd hp not_mem_nil
        · rintro ⟨hp, _⟩
          exact absurd hp (hband p)
      nodup := nodup_nil
      mirror := fun p => ⟨fun hp => absurd hp (Finset.notMem_empty p),
        fun hp => absurd hp not_mem_nil⟩
      batches := fun batch hb => absurd hb not_mem_nil
      live := fun _ => hlive.symm
      eager := fun _ => rfl
      owner := by
        intro ho
        show (if c.is_id_owner = true then arange c.min_page_index c.num_pages else []) = []
        rw [if_neg (by simp [ho])]
      ids_nodup := by
        show (if c.is_id_owner = true then arange c.min_page_index c.num_pages else []).Nodup
        split
        · exact nodup_arange _ _
        · exact nodup_nil
      ids := by
        intro v hv
        refine ⟨hids v hv, ?_⟩
        rw [hv2p v (hids v hv).ne']
        omega
      ids_length := by
        intro ho
        show (((if c.is_id_owner = true then arange c.min_page_index c.num_pages
          else []).length : ℕ) : ℤ) + _ = _
        rw [if_pos ho, length_arange]
        omega }

omit [DecidableEq E] in
theorem freed_pages_nil (c : EndConfig) : freed_pages c [] none = [] := by
  simp [freed_pages, unique, sorted]

omit [DecidableEq E] in
theorem Accounted.free (h : Accounted c s) (hl : c.lazy_compaction = true) {idx : List ℤ}
    {pages : Option (List ℤ)} {s' : EndPool E β}
    (hf : s.free_group = none → Freeable s (freed_pages c idx pages))
    (hrun : free c s idx pages = .ok s') : Accounted c s' ∧ (s.free_group = none →
      s' = s ∧ idx = [] ∨ s' = UnifiedPool.free_lazy c s (freed_pages c idx pages)) := by
  unfold UnifiedPool.free at hrun
  split at hrun
  next hempty =>
    cases hrun
    exact ⟨h, fun _ => .inl ⟨rfl, by simpa using hempty⟩⟩
  · split at hrun
    next group hg =>
      cases hrun
      refine ⟨{ h with }, fun hn => ?_⟩
      rw [hg] at hn
      cases hn
    next hg =>
      unfold free_now at hrun
      rw [if_pos hl] at hrun
      cases hrun
      exact ⟨h.free_lazy hl (hf hg), fun _ => .inr rfl⟩

omit [DecidableEq E] in
theorem Freeable.after {ps qs : List ℤ} (h : Freeable s (ps ++ qs)) :
    Freeable (UnifiedPool.free_lazy c s ps) qs := by
  refine ⟨List.Nodup.of_append_right h.nodup, fun v hv => ?_⟩
  have hb := h.bound v (mem_append_right _ hv)
  refine ⟨hb.1, ?_⟩
  show 0 < (s.table.unbind ps).v2p v
  rw [PageTable.v2p_unbind, if_neg]
  · exact hb.2
  · intro hps
    exact (nodup_append.mp h.nodup).2.2 v hps v hv rfl

omit [DecidableEq E] in
theorem Freeable.left {ps qs : List ℤ} (h : Freeable s (ps ++ qs)) : Freeable s ps :=
  ⟨List.Nodup.of_append_left h.nodup, fun v hv => h.bound v (mem_append_left _ hv)⟩

omit [DecidableEq E] in
theorem Accounted.free_group_end (h : Accounted c s) (hl : c.lazy_compaction = true)
    {s' : EndPool E β} (hf : Freeable s ((group_pages c s).1 ++ (group_pages c s).2))
    (hrun : free_group_end c s = .ok s') : Accounted c s' := by
  unfold UnifiedPool.free_group_end at hrun
  dsimp only at hrun
  set queued := s.free_group.getD []
  set pending := s.free_page_reps_group.getD [] with hpd
  set s₁ : EndPool E β := { s with free_group := none, free_page_reps_group := none }
  have h₁ : Accounted c s₁ := { h with }
  have hf₁ : Freeable s₁ (freed_pages c queued.flatten none
      ++ pending.flatten.map (· / c.page_size)) := ⟨hf.nodup, hf.bound⟩
  -- the first part: the queued tokens
  have hfirst : ∀ s₂, (if queued.isEmpty = true then Except.ok s₁
      else UnifiedPool.free c s₁ queued.flatten none) = .ok s₂ →
      Accounted c s₂ ∧ s₂.free_group = none
        ∧ Freeable s₂ (pending.flatten.map (· / c.page_size)) := by
    intro s₂ hfree
    have hnone : Accounted c s₁ ∧ s₁.free_group = none ∧ (freed_pages c queued.flatten none = [] →
        Freeable s₁ (pending.flatten.map (· / c.page_size))) := by
      refine ⟨h₁, rfl, fun hnil => ?_⟩
      rw [hnil] at hf₁
      exact hf₁
    split at hfree
    next hempty =>
      cases hfree
      have hqn : queued = [] := by simpa using hempty
      refine ⟨h₁, rfl, hnone.2.2 ?_⟩
      rw [hqn]
      exact freed_pages_nil c
    · obtain ⟨hacc, hcase⟩ := h₁.free hl (fun _ => hf₁.left) hfree
      rcases hcase rfl with ⟨rfl, hnil⟩ | rfl
      · refine ⟨h₁, rfl, hnone.2.2 ?_⟩
        rw [hnil]
        exact freed_pages_nil c
      · exact ⟨hacc, rfl, hf₁.after⟩
  split at hrun
  · cases hrun
  next s₂ hfree =>
    obtain ⟨hacc, hg, hfr⟩ := hfirst s₂ hfree
    split at hrun
    · cases hrun
      exact hacc
    · refine (hacc.free hl (fun _ => ?_) hrun).1
      exact hfr

/-- **One step**: a permitted step that drops no batch keeps every page of a lazy pool
accounted for. -/
theorem Accounted.step {m m' : Machine E β} (h : Accounted c m.pool)
    (hl : c.lazy_compaction = true) {op : Op E} (hp : Permitted c m op)
    (hk : KeepsBatches c m op) (hrun : step c m op = .ok m') : Accounted c m'.pool := by
  cases op with
  | alloc n f r =>
    obtain ⟨⟨s', out⟩, hres, rfl⟩ := map_eq_ok hrun
    exact h.alloc hres
  | alloc_extend reqs f r =>
    obtain ⟨⟨s', out⟩, hres, rfl⟩ := map_eq_ok hrun
    exact h.alloc_paged hres
  | alloc_decode reqs f r =>
    obtain ⟨⟨s', out⟩, hres, rfl⟩ := map_eq_ok hrun
    exact h.alloc_paged hres
  | alloc_with_virtual vs f =>
    obtain ⟨s', hres, rfl⟩ := map_eq_ok hrun
    exact h.alloc_with_virtual hp.1 hp.2.1 hp.2.2 hres
  | free idx =>
    obtain ⟨s', hres, rfl⟩ := map_eq_ok hrun
    exact (h.free hl hp hres).1
  | free_segment idx start =>
    obtain ⟨s', hres, rfl⟩ := map_eq_ok hrun
    unfold free_segment at hres
    split at hres
    · cases hres
      exact h
    split at hres
    next hps =>
      refine (h.free hl (fun hg => ?_) hres).1
      have hp' := hp hg
      rwa [if_pos hps] at hp'
    next hps =>
      split at hres
      · cases hres
      split at hres
      next hreps =>
        refine (h.free hl (fun hg => ?_) hres).1
        have hp' := hp hg
        rw [if_neg hps] at hp'
        exact hp' hreps
      · cases hres
        exact { h with }
  | free_group_begin =>
    obtain ⟨s', hres, rfl⟩ := map_eq_ok hrun
    unfold free_group_begin at hres
    split at hres
    · cases hres
    · cases hres
      exact { h with }
  | free_group_end =>
    obtain ⟨s', hres, rfl⟩ := map_eq_ok hrun
    exact h.free_group_end hl hp hres
  | set_latest_forward_done_event e =>
    cases hrun
    exact { h with }
  | set_inflight_forward e locs =>
    cases hrun
    unfold set_inflight_forward
    split
    · exact h
    · split <;> exact { h with }
  | set_move_gates d g =>
    cases hrun
    exact { h with }
  | flush_opportunistic cap clock =>
    obtain ⟨⟨s', n⟩, hres, rfl⟩ := map_eq_ok hrun
    unfold flush_opportunistic at hres
    split at hres
    · cases hres
      exact h
    split at hres
    · cases hres
      exact h
    · obtain ⟨s₁, n₁, moves, hflush, hflushed, _⟩ := flush_spec h false cap clock (fun _ => hk)
      rw [hflush] at hres
      cases hres
      exact hflushed.accounted
  | flush_for_allocation clock =>
    obtain ⟨⟨s', n⟩, hres, rfl⟩ := map_eq_ok hrun
    obtain ⟨s₁, n₁, moves, hflush, hflushed, _⟩ :=
      flush_spec h true 0 clock (fun hu => by cases hu)
    unfold flush_for_allocation at hres
    rw [hflush] at hres
    cases hres
    exact hflushed.accounted
  | fire e =>
    cases hrun
    exact h

theorem Reachable.accounted {m : Machine E β} (hl : c.lazy_compaction = true)
    (hm : Reachable c (KeepsBatches c) m) : Accounted c m.pool := by
  induction hm with
  | start mem zero_page => exact cleared_accounted c mem zero_page
  | step op _ hp hcond hrun ih => exact ih.step hl hp hcond hrun

/-- **No page is lost or duplicated**: in a run of a lazy end pool in which no flush moves
pages under an unfired event that already has a batch, every page of the band is, in every
state, in exactly one place, and the live counter and the host mirror are exact. -/
theorem no_page_lost {m : Machine E β} (hl : c.lazy_compaction = true)
    (hm : Reachable c (KeepsBatches c) m) : Conserved c m.pool :=
  (hm.accounted hl).conserved hl

end Runs

/-! ## A batch that is dropped -/

/-- A grow-up pool of nine pages. -/
def nine_pages : EndConfig where
  grow_direction := .up
  num_pages := 10
  min_page_index := 1
  entry_bytes := 1
  pool_page_size := 1
  dcp_size := 1
  num_virtual_ids := 10
  lazy_compaction := true
  is_id_owner := true
  one_le_min_page_index := by decide
  entry_bytes_pos := by decide
  pool_page_size_pos := by decide
  dcp_size_pos := by decide

/-- No event fires during the flush. -/
def quiet : FlushClock ℕ := ⟨fun _ => false, fun _ => false, fun _ => false, by simp, by simp⟩

/-- The state after a step, where the step succeeds. -/
def next (c : EndConfig) (m : Machine ℕ Unit) (op : Op ℕ) : Machine ℕ Unit :=
  match step c m op with
  | .ok m' => m'
  | .error _ => m

variable {cond : Machine ℕ Unit → Op ℕ → Prop}

theorem Reachable.next {m : Machine ℕ Unit} (op : Op ℕ)
    (hm : Reachable c cond m) (hp : Permitted c m op) (hcond : cond m op)
    (hok : (UnifiedPool.step c m op).isOk = true) : Reachable c cond (next c m op) := by
  unfold UnifiedPool.next
  cases hrun : UnifiedPool.step c m op with
  | ok m' => exact hm.step op hp hcond hrun
  | error e =>
    rw [hrun] at hok
    cases hok

theorem next_fired {m : Machine ℕ Unit} (h : m.fired = fun _ => false) (op : Op ℕ)
    (hop : (∃ n f r, op = .alloc n f r) ∨ (∃ idx, op = .free idx)
      ∨ (∃ e, op = .set_latest_forward_done_event e) ∨ ∃ cap, op = .flush_opportunistic cap quiet) :
    (next c m op).fired = fun _ => false := by
  unfold next
  split
  next m' hrun =>
    rcases hop with ⟨n, f, r, rfl⟩ | ⟨idx, rfl⟩ | ⟨e, rfl⟩ | ⟨cap, rfl⟩
    · obtain ⟨x, _, rfl⟩ := map_eq_ok hrun
      exact h
    · obtain ⟨x, _, rfl⟩ := map_eq_ok hrun
      exact h
    · cases hrun
      exact h
    · obtain ⟨x, _, rfl⟩ := map_eq_ok hrun
      rfl
  · exact h

/-- Six pages are allocated, the first two are freed, and event `7` is set. -/
def two_holes : Machine ℕ Unit :=
  next nine_pages (next nine_pages (next nine_pages
    ⟨cleared nine_pages (fun _ => ()) none, fun _ => false⟩
    (.alloc 6 10 10)) (.free [1, 2])) (.set_latest_forward_done_event (some 7))

theorem two_holes_reachable
    (hcond : ∀ m, cond m (.alloc 6 10 10) ∧ cond m (.free [1, 2])
      ∧ cond m (.set_latest_forward_done_event (some 7))) :
    Reachable nine_pages cond two_holes := by
  have h0 : Reachable nine_pages cond
      ⟨cleared nine_pages (fun _ => ()) none, fun _ => false⟩ := Reachable.start _ _
  have h1 := h0.next (.alloc 6 10 10) trivial (hcond _).1 (by decide +kernel)
  have h2 := h1.next (.free [1, 2]) (fun _ => ⟨by decide, by decide +kernel⟩) (hcond _).2.1
    (by decide +kernel)
  exact h2.next (.set_latest_forward_done_event (some 7)) trivial (hcond _).2.2 (by decide +kernel)

theorem two_holes_fired : two_holes.fired = fun _ => false :=
  next_fired (next_fired (next_fired rfl _ (.inl ⟨6, 10, 10, rfl⟩)) _ (.inr (.inl ⟨_, rfl⟩))) _
    (.inr (.inr (.inl ⟨_, rfl⟩)))

/-- One flush moves one page while event `7` has not fired. -/
theorem no_page_lost_after_one_flush : Reachable nine_pages (KeepsBatches nine_pages)
        (next nine_pages two_holes (.flush_opportunistic 1 quiet))
      ∧ Conserved nine_pages (next nine_pages two_holes (.flush_opportunistic 1 quiet)).pool := by
  have hreach : Reachable nine_pages (KeepsBatches nine_pages) two_holes :=
    two_holes_reachable (fun _ => ⟨trivial, trivial, trivial⟩)
  have h := hreach.next (.flush_opportunistic 1 quiet)
    (by
      rw [Permitted, two_holes_fired]
      simp)
    (by
      rintro ⟨_, _, e, _, _, hkey⟩
      have hnil : two_holes.pool.pending_reuse.keys = [] := by decide +kernel
      rw [hnil] at hkey
      simp at hkey) (by decide +kernel)
  exact ⟨h, no_page_lost rfl h⟩

/-- A second flush under the same event drops the batch of the first: page `6` is in no
place any more. -/
theorem second_flush_loses_a_page : ∃ m : Machine ℕ Unit, Reachable nine_pages (fun _ _ => True) m
      ∧ ¬ Conserved nine_pages m.pool := by
  have h0 : Reachable nine_pages (fun _ _ => True) two_holes :=
    two_holes_reachable (fun _ => ⟨trivial, trivial, trivial⟩)
  have h1 := h0.next (.flush_opportunistic 1 quiet)
    (by
      rw [Permitted, two_holes_fired]
      simp) trivial (by decide +kernel)
  have h2 := h1.next (.flush_opportunistic 1 quiet)
    (by
      rw [Permitted, next_fired two_holes_fired _ (.inr (.inr (.inr ⟨1, rfl⟩)))]
      simp) trivial (by decide +kernel)
  refine ⟨_, h2, fun h => ?_⟩
  have hpage := h.one_place 6 (by decide +kernel)
  revert hpage
  decide +kernel

end LightningH3.UnifiedPool
