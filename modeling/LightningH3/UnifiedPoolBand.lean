/-
The accounting invariant of an end pool, and allocation and freeing under it.

`Accounted` says where every page of the band is: the pages of the band that back no
virtual page are listed, without repetition, by the free list and the pending batches
together. It says the same about the virtual side, so that an allocation always finds as
many virtual pages as physical ones. The statements do not distinguish a grow-up from a
grow-down pool: `InBand` is the only place where the direction is looked at.
-/
import Mathlib.Data.Int.Interval
import Mathlib.Tactic.Ring
import LightningH3.UnifiedPool

set_option autoImplicit false

namespace LightningH3.UnifiedPool

open List

variable {E β : Type} {c : EndConfig} {s : EndPool E β}

/-! ## Ranges of pages -/

variable {p : ℤ}

theorem mem_arange {a b : ℤ} : p ∈ arange a b ↔ a ≤ p ∧ p < b := by
  unfold arange
  rw [mem_map]
  constructor
  · rintro ⟨i, hi, rfl⟩
    rw [mem_range] at hi
    omega
  · rintro ⟨h1, h2⟩
    refine ⟨(p - a).toNat, ?_, ?_⟩
    · rw [mem_range]
      omega
    · omega

theorem mem_arange_down {a b : ℤ} : p ∈ arange_down a b ↔ b < p ∧ p ≤ a := by
  unfold arange_down
  rw [mem_map]
  constructor
  · rintro ⟨i, hi, rfl⟩
    rw [mem_range] at hi
    omega
  · rintro ⟨h1, h2⟩
    refine ⟨(a - p).toNat, ?_, ?_⟩
    · rw [mem_range]
      omega
    · omega

@[simp] theorem length_arange (a b : ℤ) : (arange a b).length = (b - a).toNat := by
  simp [arange]

theorem nodup_arange (a b : ℤ) : (arange a b).Nodup := by
  refine List.Nodup.map ?_ nodup_range
  intro i j hij
  dsimp only at hij
  omega

theorem nodup_arange_down (a b : ℤ) : (arange_down a b).Nodup := by
  refine List.Nodup.map ?_ nodup_range
  intro i j hij
  dsimp only at hij
  omega

theorem sorted_perm (l : List ℤ) : (sorted l).Perm l := perm_insertionSort _ l

/-! ## The band -/

/-- The pages between the base and the watermark. -/
def InBand (c : EndConfig) (s : EndPool E β) (p : ℤ) : Prop :=
  match c.grow_direction with
  | .up => c.min_page_index ≤ p ∧ p < s.watermark_physical
  | .down => s.watermark_physical < p ∧ p < c.num_pages

/-- The number of pages of the band. -/
def band_size (c : EndConfig) (s : EndPool E β) : ℤ :=
  match c.grow_direction with
  | .up => s.watermark_physical - c.min_page_index
  | .down => c.num_pages - 1 - s.watermark_physical

def pending_pages (s : EndPool E β) : List ℤ := s.pending_reuse.values.flatten

/-- The pages of the band that are listed as unbound. -/
def unbound_pages (s : EndPool E β) : List ℤ := s.free_phys_pages ++ pending_pages s

/-- The number of pages of the band that are not listed as unbound. -/
def live_pages (c : EndConfig) (s : EndPool E β) : ℤ := band_size c s - (unbound_pages s).length

/-- Every page of the band is accounted for.

- `inverse`, `outside`: the two page tables are inverse to each other, and no page outside
  the band is bound but the sink.
- `inside`: the band lies in the index space of the pool.
- `unbound`, `nodup`: the unbound pages of the band are those of the free list and of the
  pending batches, each once.
- `mirror`, `batches`: the host mirror lists the pages of the pending batches, and no batch
  is empty.
- `live`: the live counter of a lazy pool; an eager pool has no unbound page.
- `ids`: the free virtual pages of the id owner are distinct and unbound, and together with
  the live pages they are as many as the pool has pages. -/
structure Accounted (c : EndConfig) (s : EndPool E β) : Prop where
  inverse : s.table.Inverse
  sink : s.table.v2p 0 = 0 ∧ s.table.p2v 0 = 0
  size_nonneg : 0 ≤ band_size c s
  inside : ∀ p, InBand c s p → c.min_page_index ≤ p ∧ p < c.num_pages
  outside : ∀ p, 0 < p → ¬ InBand c s p → s.table.p2v p < 0
  unbound : ∀ p, p ∈ unbound_pages s ↔ InBand c s p ∧ s.table.p2v p < 0
  nodup : (unbound_pages s).Nodup
  mirror : ∀ p, p ∈ s.pending_reuse_pages_cpu ↔ p ∈ pending_pages s
  batches : ∀ batch ∈ s.pending_reuse.values, batch ≠ []
  live : c.lazy_compaction = true → s.live_page_count = live_pages c s
  eager : c.lazy_compaction = false → unbound_pages s = []
  owner : c.is_id_owner = false → s.free_virtual_ids = []
  ids_nodup : s.free_virtual_ids.Nodup
  ids : ∀ v ∈ s.free_virtual_ids, 0 < v ∧ s.table.v2p v < 0
  ids_length : c.is_id_owner = true →
    (s.free_virtual_ids.length : ℤ) + live_pages c s = max 0 (c.num_pages - c.min_page_index)

theorem allocated_pages_eq (h : 0 ≤ band_size c s) : allocated_pages c s = band_size c s := by
  unfold band_size at h
  unfold allocated_pages band_size
  cases hd : c.grow_direction <;> simp only [hd] at h ⊢ <;> omega

/-! ## Extending the band -/

/-- The watermark moved outward by `n` pages. -/
def advance (c : EndConfig) (wm n : ℤ) : ℤ :=
  match c.grow_direction with
  | .up => wm + n
  | .down => wm - n

/-- `s` with its watermark moved outward by `n` pages. -/
def advanced (c : EndConfig) (s : EndPool E β) (n : ℤ) : EndPool E β :=
  { s with watermark_physical := advance c s.watermark_physical n }

/-- The watermark `wm` leaves the band inside the index space. -/
def Fits (c : EndConfig) (wm : ℤ) : Prop :=
  match c.grow_direction with
  | .up => wm ≤ c.num_pages
  | .down => c.min_page_index - 1 ≤ wm

variable {frontier n : ℤ} {s' : EndPool E β}

theorem extend_watermark_eq (h : extend_watermark c s frontier n = some s') :
    s' = advanced c s n ∧ Fits c (advance c s.watermark_physical n) := by
  unfold extend_watermark at h
  unfold advanced advance Fits
  cases hd : c.grow_direction <;> simp only [hd] at h ⊢
  all_goals
    split at h
    · cases h
    · split at h
      · cases h
      · cases h
        exact ⟨rfl, by omega⟩

theorem extend_watermark_eager_eq (h : extend_watermark_eager c s n = some s') :
    s' = advanced c s n ∧ Fits c (advance c s.watermark_physical n) := by
  unfold extend_watermark_eager at h
  unfold advanced advance Fits
  cases hd : c.grow_direction <;> simp only [hd] at h ⊢
  all_goals
    split at h
    · cases h
    · cases h
      exact ⟨rfl, by omega⟩

/-- The pages that moving the watermark by `n` adds to the band, in ascending order. -/
def added_pages (c : EndConfig) (s : EndPool E β) (n : ℤ) : List ℤ :=
  match c.grow_direction with
  | .up => arange s.watermark_physical (s.watermark_physical + n)
  | .down => arange (s.watermark_physical - n + 1) (s.watermark_physical + 1)

section Advanced

variable {n : ℤ}

theorem band_size_advanced (c : EndConfig) (s : EndPool E β) (n : ℤ) :
    band_size c (advanced c s n) = band_size c s + n := by
  unfold band_size advanced advance
  cases hd : c.grow_direction <;> simp only <;> omega

theorem inBand_advanced (hn : 0 ≤ n) (hs : 0 ≤ band_size c s) (p : ℤ) :
    InBand c (advanced c s n) p ↔ InBand c s p ∨ p ∈ added_pages c s n := by
  unfold band_size at hs
  unfold InBand advanced advance added_pages
  cases hd : c.grow_direction <;> simp only [hd, mem_arange] at hs ⊢ <;> omega

theorem inBand_not_added {p : ℤ} (h : InBand c s p) : p ∉ added_pages c s n := by
  unfold InBand at h
  unfold added_pages
  cases hd : c.grow_direction <;> simp only [hd, mem_arange] at h ⊢ <;> omega

theorem nodup_added (c : EndConfig) (s : EndPool E β) (n : ℤ) : (added_pages c s n).Nodup := by
  unfold added_pages
  cases c.grow_direction <;> exact nodup_arange _ _

theorem length_added (c : EndConfig) (s : EndPool E β) (hn : 0 ≤ n) :
    ((added_pages c s n).length : ℤ) = n := by
  unfold added_pages
  cases c.grow_direction <;> simp only [length_arange] <;> omega

section

variable {t : EndPool E β} (h : t.watermark_physical = advance c s.watermark_physical n)
include h

theorem take_physical_arange_eq : take_physical_arange c t n = added_pages c s n := by
  unfold advance at h
  unfold take_physical_arange added_pages
  cases hd : c.grow_direction <;> simp only [hd] at h ⊢ <;> rw [h] <;> congr 1 <;> ring

theorem take_physical_extended_perm : (take_physical_extended c t n).Perm (added_pages c s n) := by
  rw [perm_ext_iff_of_nodup]
  · intro p
    unfold advance at h
    unfold take_physical_extended added_pages
    cases hd : c.grow_direction <;>
      simp only [hd, mem_arange, mem_arange_down] at h ⊢ <;> omega
  · unfold take_physical_extended
    cases c.grow_direction
    · exact nodup_arange _ _
    · exact nodup_arange_down _ _
  · exact nodup_added c s n

end

end Advanced

/-! ## Taking and binding pages -/

/-- What taking physical pages does: `drained` holes leave the free list, and the watermark
advances by `n` pages. -/
structure Takes (c : EndConfig) (s s' : EndPool E β) (pages drained : List ℤ) (n : ℤ) : Prop where
  nonneg : 0 ≤ n
  watermark : s'.watermark_physical = advance c s.watermark_physical n
  fits : 0 < n → Fits c (advance c s.watermark_physical n)
  pages_perm : pages.Perm (drained ++ added_pages c s n)
  free : s.free_phys_pages = drained ++ s'.free_phys_pages
  pending : s'.pending_reuse = s.pending_reuse
  mirror : s'.pending_reuse_pages_cpu = s.pending_reuse_pages_cpu
  live : c.lazy_compaction = true → s'.live_page_count = s.live_page_count + pages.length

/-- Taking pages and binding them to `v_pages`. -/
structure Binds (c : EndConfig) (s s' : EndPool E β) (v_pages pages drained : List ℤ) (n : ℤ) :
    Prop extends Takes c s s' pages drained n where
  v2p : s'.table.v2p = (s.table.bind (v_pages.zip pages)).v2p
  p2v : s'.table.p2v = (s.table.bind (v_pages.zip pages)).p2v

variable {pages : List ℤ}

theorem Takes.length {drained : List ℤ} (h : Takes c s s' pages drained n) :
    (pages.length : ℤ) = drained.length + n := by
  rw [h.pages_perm.length_eq, length_append, Nat.cast_add, length_added c s h.nonneg]

theorem take_physical_lazy_takes {num_pages : ℤ} (hpos : 0 < num_pages)
    (h : take_physical_lazy c s frontier num_pages = some (s', pages)) :
    s'.table = s.table ∧ s'.free_virtual_ids = s.free_virtual_ids
      ∧ ∃ drained n, Takes c s s' pages drained n ∧ (pages.length : ℤ) = num_pages := by
  set n_drain : ℤ := min num_pages s.free_phys_pages.length
  set need_more : ℤ := num_pages - n_drain
  obtain ⟨s₁, hs₁, heq⟩ := Option.map_eq_some_iff.mp h
  have hsplit : s.free_phys_pages
      = s.free_phys_pages.take n_drain.toNat ++ s.free_phys_pages.drop n_drain.toNat :=
    (take_append_drop _ _).symm
  have hlen : (s.free_phys_pages.take n_drain.toNat).length = n_drain.toNat := by
    rw [length_take]
    omega
  -- whether or not the band was extended, `s₁` is `s` with the watermark advanced
  have hadv : s₁ = advanced c s need_more
      ∧ (0 < need_more → Fits c (advance c s.watermark_physical need_more)) := by
    split at hs₁
    · exact ⟨(extend_watermark_eq hs₁).1, fun _ => (extend_watermark_eq hs₁).2⟩
    · cases hs₁
      have hz : need_more = 0 := by omega
      refine ⟨?_, fun h => by omega⟩
      rw [hz]
      unfold advanced advance
      cases c.grow_direction <;> simp
  obtain ⟨rfl, hfits⟩ := hadv
  have hnn : 0 ≤ need_more := by omega
  have hadded := length_added c s hnn
  -- the drained holes are the front of the free list in all three cases
  have key : ∀ t : EndPool E β, ∀ ps : List ℤ,
      t = { advanced c s need_more with
        free_phys_pages := s.free_phys_pages.drop n_drain.toNat
        live_page_count := s.live_page_count + num_pages } →
      ps.Perm (s.free_phys_pages.take n_drain.toNat ++ added_pages c s need_more) →
      t.table = s.table ∧ t.free_virtual_ids = s.free_virtual_ids
        ∧ ∃ drained n, Takes c s t ps drained n ∧ (ps.length : ℤ) = num_pages := by
    intro t ps ht hps
    subst ht
    have hcount : (ps.length : ℤ) = num_pages := by
      rw [hps.length_eq, length_append, Nat.cast_add]
      omega
    refine ⟨rfl, rfl, s.free_phys_pages.take n_drain.toNat, need_more, ?_, hcount⟩
    exact
      { nonneg := hnn
        watermark := rfl
        fits := hfits
        pages_perm := hps
        free := hsplit
        pending := rfl
        mirror := rfl
        live := by
          intro _
          rw [hcount] }
  by_cases h0 : n_drain ≤ 0
  · rw [if_pos h0] at heq
    cases heq
    refine key _ _ rfl ?_
    have hz : n_drain.toNat = 0 := by omega
    have hfull : num_pages = need_more := by omega
    rw [hz, take_zero, ← hfull]
    exact List.Perm.of_eq (take_physical_arange_eq rfl)
  · rw [if_neg h0] at heq
    by_cases hm : need_more = 0
    · rw [if_pos hm] at heq
      cases heq
      refine key _ _ rfl ?_
      have hnil : added_pages c s need_more = [] := by
        apply length_eq_zero_iff.mp
        omega
      rw [hnil, append_nil]
    · rw [if_neg hm] at heq
      cases heq
      refine key _ _ rfl ?_
      exact (take_physical_extended_perm rfl).append_left _

theorem maybe_zero_pages_eq (s : EndPool E β) (pages : List ℤ) :
    ∃ mem, maybe_zero_pages s pages = { s with table := { s.table with mem := mem } } := by
  unfold maybe_zero_pages
  split
  · exact ⟨s.table.mem, rfl⟩
  · exact ⟨_, rfl⟩

/-- **Specification of `_alloc_bind_fast_or_slow`.** -/
theorem alloc_bind_fast_or_slow_binds {v_pages : List ℤ} (hpos : 0 < n)
    (hlen : (v_pages.length : ℤ) = n)
    (h : alloc_bind_fast_or_slow c s frontier v_pages n = .ok (some (s', pages))) :
    (∃ drained m, Binds c s s' v_pages pages drained m) ∧ pages.length = v_pages.length
      ∧ s'.free_virtual_ids = s.free_virtual_ids := by
  unfold alloc_bind_fast_or_slow at h
  rw [if_neg (by omega)] at h
  split at h
  case isTrue hfast =>
    simp only [Except.ok.injEq] at h
    obtain ⟨s₁, hs₁, heq⟩ := Option.map_eq_some_iff.mp h
    have hadv : s₁ = advanced c s n ∧ Fits c (advance c s.watermark_physical n) := by
      split at hs₁
      · exact extend_watermark_eq hs₁
      · exact extend_watermark_eager_eq hs₁
    obtain ⟨rfl, hfits⟩ := hadv
    dsimp only at heq
    -- the fused kernel hands out the added pages in ascending order
    have hpages : arange (start_phys c s n) (start_phys c s n + v_pages.length)
        = added_pages c s n := by
      unfold start_phys added_pages
      rw [hlen]
      cases c.grow_direction with
      | up => rfl
      | down =>
        simp only
        congr 1
        omega
    rw [hpages] at heq
    obtain ⟨mem, hmem⟩ := maybe_zero_pages_eq
      (if c.lazy_compaction = true then
        { bind_pages (advanced c s n) v_pages (added_pages c s n) with
          live_page_count := (bind_pages (advanced c s n) v_pages
            (added_pages c s n)).live_page_count + n }
      else bind_pages (advanced c s n) v_pages (added_pages c s n)) (added_pages c s n)
    rw [hmem] at heq
    cases heq
    have hcount := length_added c s hpos.le
    cases hl : c.lazy_compaction with
    | true =>
      refine ⟨⟨[], n, ?_⟩, by omega, rfl⟩
      exact
        { nonneg := hpos.le, watermark := rfl, fits := fun _ => hfits
          pages_perm := List.Perm.refl _, free := rfl, pending := rfl, mirror := rfl
          live := by
            intro _
            rw [hcount]
            rfl
          v2p := rfl, p2v := rfl }
    | false =>
      refine ⟨⟨[], n, ?_⟩, by omega, rfl⟩
      exact
        { nonneg := hpos.le, watermark := rfl, fits := fun _ => hfits
          pages_perm := List.Perm.refl _, free := rfl, pending := rfl, mirror := rfl
          live := fun hf => absurd hf (by simp [hl])
          v2p := rfl, p2v := rfl }
  case isFalse hslow =>
    have hl : c.lazy_compaction = true := by
      cases hl : c.lazy_compaction with
      | true => rfl
      | false => simp [hl] at hslow
    unfold take_physical_pages take_physical at h
    have hps := c.page_size_pos
    have hmul : 0 < n * c.page_size := Int.mul_pos hpos hps
    rw [if_neg (by omega), if_neg (by simp), if_pos hl, Int.mul_ediv_cancel _ hps.ne'] at h
    cases ht : take_physical_lazy c s frontier n with
    | none =>
      rw [ht] at h
      cases h
    | some r =>
      obtain ⟨s₁, taken⟩ := r
      rw [ht] at h
      dsimp only at h
      obtain ⟨htable, hids, drained, m, htakes, hcount⟩ := take_physical_lazy_takes hpos ht
      obtain ⟨mem, hmem⟩ := maybe_zero_pages_eq (bind_pages s₁ v_pages taken) taken
      rw [hmem] at h
      cases h
      refine ⟨⟨drained, m, ?_⟩, by omega, hids⟩
      exact
        { nonneg := htakes.nonneg, watermark := htakes.watermark, fits := htakes.fits
          pages_perm := htakes.pages_perm, free := htakes.free, pending := htakes.pending
          mirror := htakes.mirror, live := htakes.live
          v2p := by
            rw [← htable]
            rfl
          p2v := by
            rw [← htable]
            rfl }

/-! ## Allocation keeps every page accounted for -/

theorem inBand_of_watermark (h : s'.watermark_physical = advance c s.watermark_physical n) (p : ℤ) :
    InBand c s' p ↔ InBand c (advanced c s n) p := by
  unfold InBand advanced
  rw [h]

theorem band_size_of_watermark (h : s'.watermark_physical = advance c s.watermark_physical n) :
    band_size c s' = band_size c s + n := by
  rw [← band_size_advanced]
  unfold band_size advanced
  rw [h]

theorem added_inside (hs : 0 ≤ band_size c s)
    (hfits : 0 < n → Fits c (advance c s.watermark_physical n)) (hp : p ∈ added_pages c s n) :
    c.min_page_index ≤ p ∧ p < c.num_pages := by
  have hn : 0 < n := by
    unfold added_pages at hp
    cases hd : c.grow_direction <;> simp only [hd, mem_arange] at hp <;> omega
  have h := hfits hn
  unfold band_size at hs
  unfold Fits advance at h
  unfold added_pages at hp
  cases hd : c.grow_direction <;> simp only [hd, mem_arange] at h hp hs <;> omega

theorem Accounted.pos_of_inBand (h : Accounted c s) (hp : InBand c s p) : 0 < p := by
  have := (h.inside p hp).1
  have := c.one_le_min_page_index
  omega

theorem Accounted.of_mem_free (h : Accounted c s) (hp : p ∈ s.free_phys_pages) :
    InBand c s p ∧ s.table.p2v p < 0 :=
  (h.unbound p).mp (mem_append_left _ hp)

section Binds

variable {s' : EndPool E β} {v_pages pages drained : List ℤ} {n : ℤ}

theorem Accounted.taken (h : Accounted c s) (ht : Takes c s s' pages drained n) :
    pages.Nodup ∧ ∀ p ∈ pages, 0 < p ∧ s.table.p2v p < 0 := by
  have hdrained : ∀ p ∈ drained, p ∈ s.free_phys_pages := by
    intro p hp
    rw [ht.free]
    exact mem_append_left _ hp
  have hfree : (drained ++ s'.free_phys_pages).Nodup := by
    rw [← ht.free]
    exact List.Nodup.of_append_left h.nodup
  constructor
  · rw [ht.pages_perm.nodup_iff, nodup_append]
    refine ⟨List.Nodup.of_append_left hfree, nodup_added c s n, ?_⟩
    rintro p hp q hq rfl
    exact inBand_not_added (h.of_mem_free (hdrained p hp)).1 hq
  · intro p hp
    rcases mem_append.mp (ht.pages_perm.mem_iff.mp hp) with hp | hp
    · have hb := h.of_mem_free (hdrained p hp)
      exact ⟨h.pos_of_inBand hb.1, hb.2⟩
    · have hpos : 0 < p := by
        have := (added_inside h.size_nonneg ht.fits hp).1
        have := c.one_le_min_page_index
        omega
      exact ⟨hpos, h.outside p hpos (fun hb => inBand_not_added hb hp)⟩

theorem Accounted.binds (h : Accounted c s) (hb : Binds c s s' v_pages pages drained n)
    (hlen : pages.length = v_pages.length) (hnd : v_pages.Nodup)
    (hv : ∀ v ∈ v_pages, 0 < v ∧ s.table.v2p v < 0)
    (howner : c.is_id_owner = true → (v_pages ++ s'.free_virtual_ids).Perm s.free_virtual_ids)
    (hother : c.is_id_owner = false → s'.free_virtual_ids = []) : Accounted c s' := by
  obtain ⟨hpnd, hp⟩ := h.taken hb.toTakes
  have hfst : (v_pages.zip pages).map Prod.fst = v_pages := map_fst_zip (by omega)
  have hsnd : (v_pages.zip pages).map Prod.snd = pages := map_snd_zip (by omega)
  have hfresh : PageTable.Fresh s.table (v_pages.zip pages) := by
    refine ⟨by rwa [hfst], by rwa [hsnd], ?_, ?_⟩
    · intro x hx
      have hx' : x.1 ∈ v_pages := by
        rw [← hfst]
        exact mem_map_of_mem hx
      exact ⟨(hv _ hx').1.le, (hv _ hx').2⟩
    · intro x hx
      have hx' : x.2 ∈ pages := by
        rw [← hsnd]
        exact mem_map_of_mem hx
      exact ⟨(hp _ hx').1.le, (hp _ hx').2⟩
  -- a page is bound afterwards when it was before or has just been handed out
  have hp2v_mem : ∀ p ∈ pages, 0 < s'.table.p2v p := by
    intro p hmem
    rw [← hsnd] at hmem
    obtain ⟨⟨v, p'⟩, hx, rfl⟩ := mem_map.mp hmem
    rw [hb.p2v, PageTable.p2v_bind_of_mem hfresh hx]
    apply (hv v _).1
    rw [← hfst]
    exact mem_map_of_mem hx
  have hp2v_not : ∀ p, p ∉ pages → s'.table.p2v p = s.table.p2v p := by
    intro p hmem
    rw [hb.p2v]
    apply PageTable.p2v_bind_of_notMem
    rwa [hsnd]
  have hv2p_not : ∀ v, v ∉ v_pages → s'.table.v2p v = s.table.v2p v := by
    intro v hmem
    rw [hb.v2p]
    apply PageTable.v2p_bind_of_notMem
    rwa [hfst]
  have hband : ∀ p, InBand c s' p ↔ InBand c s p ∨ p ∈ added_pages c s n := by
    intro p
    rw [inBand_of_watermark hb.watermark, inBand_advanced hb.nonneg h.size_nonneg]
  have hpend : pending_pages s' = pending_pages s := by
    unfold pending_pages
    rw [hb.pending]
  have hsize := band_size_of_watermark (c := c) hb.watermark
  have hunb : unbound_pages s = drained ++ unbound_pages s' := by
    unfold unbound_pages
    rw [hpend, hb.free, append_assoc]
  have hnodup : (drained ++ unbound_pages s').Nodup := hunb ▸ h.nodup
  have hcount := hb.toTakes.length
  have hlive : live_pages c s' = live_pages c s + pages.length := by
    unfold live_pages
    rw [hunb, length_append]
    omega
  have hinv : s'.table.Inverse := by
    intro v p hv0 hp0
    have := h.inverse.bind hfresh v p hv0 hp0
    rwa [← hb.v2p, ← hb.p2v] at this
  exact
    { inverse := hinv
      sink := by
        constructor
        · rw [hv2p_not 0 (fun hm => absurd (hv 0 hm).1 (by omega))]
          exact h.sink.1
        · rw [hp2v_not 0 (fun hm => absurd (hp 0 hm).1 (by omega))]
          exact h.sink.2
      size_nonneg := by
        have := h.size_nonneg
        have := hb.nonneg
        omega
      inside := by
        intro p hpb
        rcases (hband p).mp hpb with hpb | hpb
        · exact h.inside p hpb
        · exact added_inside h.size_nonneg hb.fits hpb
      outside := by
        intro p hpos hpb
        rw [hband, not_or] at hpb
        have hnot : p ∉ pages := by
          intro hmem
          rcases mem_append.mp (hb.pages_perm.mem_iff.mp hmem) with hm | hm
          · refine hpb.1 (h.of_mem_free ?_).1
            rw [hb.free]
            exact mem_append_left _ hm
          · exact hpb.2 hm
        rw [hp2v_not p hnot]
        exact h.outside p hpos hpb.1
      unbound := by
        intro p
        have hmem := h.unbound p
        rw [hunb, mem_append] at hmem
        by_cases hpg : p ∈ pages
        · have hneg : ¬ s'.table.p2v p < 0 := by
            have := hp2v_mem p hpg
            omega
          constructor
          · intro hpu
            -- a page just handed out has left the lists
            rcases mem_append.mp (hb.pages_perm.mem_iff.mp hpg) with hm | hm
            · exact absurd rfl (nodup_append.mp hnodup |>.2.2 p hm p hpu)
            · exact absurd hm (inBand_not_added (hmem.mp (.inr hpu)).1)
          · rintro ⟨_, hlt⟩
            exact absurd hlt hneg
        · have hdr : p ∉ drained := by
            intro hm
            exact hpg (hb.pages_perm.mem_iff.mpr (mem_append_left _ hm))
          have had : p ∉ added_pages c s n := by
            intro hm
            exact hpg (hb.pages_perm.mem_iff.mpr (mem_append_right _ hm))
          rw [hp2v_not p hpg, hband]
          constructor
          · intro hpu
            exact ⟨.inl (hmem.mp (.inr hpu)).1, (hmem.mp (.inr hpu)).2⟩
          · rintro ⟨hin | hin, hlt⟩
            · exact (hmem.mpr ⟨hin, hlt⟩).resolve_left hdr
            · exact absurd hin had
      nodup := List.Nodup.of_append_right hnodup
      mirror := by
        intro p
        rw [hb.mirror, hpend]
        exact h.mirror p
      batches := by
        rw [hb.pending]
        exact h.batches
      live := by
        intro hl
        rw [hb.live hl, h.live hl, hlive]
      eager := by
        intro hl
        have hnil := h.eager hl
        rw [hunb] at hnil
        exact (append_eq_nil_iff.mp hnil).2
      owner := hother
      ids_nodup := by
        cases ho : c.is_id_owner with
        | false =>
          rw [hother ho]
          exact nodup_nil
        | true => exact List.Nodup.of_append_right ((howner ho).nodup_iff.mpr h.ids_nodup)
      ids := by
        intro v hmem
        cases ho : c.is_id_owner with
        | false =>
          rw [hother ho] at hmem
          simp at hmem
        | true =>
          have hperm := howner ho
          have hfree := h.ids v (hperm.mem_iff.mp (mem_append_right _ hmem))
          have hnotin : v ∉ v_pages := by
            intro hm
            have := nodup_append.mp (hperm.nodup_iff.mpr h.ids_nodup)
            exact this.2.2 v hm v hmem rfl
          rw [hv2p_not v hnotin]
          exact hfree
      ids_length := by
        intro ho
        have hl := (howner ho).length_eq
        rw [length_append] at hl
        rw [← h.ids_length ho]
        omega }

end Binds

theorem Accounted.ids_suffice (h : Accounted c s) (ho : c.is_id_owner = true)
    (hn : n * c.page_size ≤ available_size c s frontier) : n ≤ s.free_virtual_ids.length := by
  have hps := c.page_size_pos
  have hsize := h.size_nonneg
  have halloc := allocated_pages_eq hsize
  have hids := h.ids_length ho
  unfold live_pages at hids
  have hle := Int.le_of_mul_le_mul_right hn hps
  have hdrain : (if c.lazy_compaction = true then (s.free_phys_pages.length : ℤ) else 0)
      ≤ (unbound_pages s).length := by
    have hlen : (unbound_pages s).length
        = s.free_phys_pages.length + (pending_pages s).length := length_append
    split <;> omega
  omega

variable {relieved : ℤ}

theorem le_available_of_relieve {need f : ℤ} (h : relieve c s need frontier relieved = some f) :
    need ≤ available_size c s f := by
  unfold relieve at h
  split at h
  next hle =>
    cases h
    exact hle
  · split at h
    next hle =>
      cases h
      exact hle
    · cases h

section

variable (h : Accounted c s)
include h

theorem Accounted.alloc {need_size : ℤ} {out : Option (List ℤ)}
    (hrun : alloc c s need_size frontier relieved = .ok (s', out)) : Accounted c s' := by
  unfold UnifiedPool.alloc at hrun
  by_cases ho : c.is_id_owner = true
  case neg => simp [ho] at hrun
  rw [if_neg (by simp [ho])] at hrun
  split at hrun
  · cases hrun
    exact h
  next hpos =>
  split at hrun
  · cases hrun
  next hmod =>
  cases hr : relieve c s need_size frontier relieved with
  | none =>
    rw [hr] at hrun
    cases hrun
    exact h
  | some f =>
    rw [hr] at hrun
    dsimp only at hrun
    set n : ℤ := need_size / c.page_size
    have hps := c.page_size_pos
    have hmul : n * c.page_size = need_size :=
      Int.ediv_mul_cancel (Int.dvd_of_emod_eq_zero (by omega))
    have hnpos : 0 < n := by
      by_contra hneg
      have : n * c.page_size ≤ 0 := Int.mul_nonpos_of_nonpos_of_nonneg (by omega) hps.le
      omega
    have hav : n * c.page_size ≤ available_size c s f := by
      rw [hmul]
      exact le_available_of_relieve hr
    have hids := h.ids_suffice ho hav
    split at hrun
    · cases hrun
    · cases hrun
      exact h
    next s₂ phys hbind =>
      cases hrun
      have hlen : ((s.free_virtual_ids.take n.toNat).length : ℤ) = n := by
        rw [length_take]
        omega
      obtain ⟨⟨drained, m, hb⟩, hpl, hfv⟩ :=
        alloc_bind_fast_or_slow_binds hnpos hlen hbind
      have hb' : Binds c s s' (s.free_virtual_ids.take n.toNat) phys drained m :=
        { hb with }
      refine h.binds hb' hpl (h.ids_nodup.sublist (take_sublist _ _)) ?_ ?_ ?_
      · intro v hv
        exact h.ids v (mem_of_mem_take hv)
      · intro _
        rw [hfv]
        rw [take_append_drop]
      · intro hf
        rw [ho] at hf
        cases hf

theorem Accounted.alloc_paged {out : List ℤ} {res : Option (List ℤ)}
    (hrun : alloc_paged c s n frontier relieved out = .ok (s', res)) : Accounted c s' := by
  unfold UnifiedPool.alloc_paged at hrun
  by_cases ho : c.is_id_owner = true
  case neg => simp [ho] at hrun
  rw [if_neg (by simp [ho])] at hrun
  split at hrun
  · cases hrun
    exact h
  next hids =>
  cases hr : relieve c s (n * c.page_size) frontier relieved with
  | none =>
    rw [hr] at hrun
    cases hrun
    exact h
  | some f =>
    rw [hr] at hrun
    dsimp only at hrun
    split at hrun
    · cases hrun
      exact h
    next hnpos =>
    split at hrun
    · cases hrun
    · cases hrun
      exact h
    next s₁ phys hbind =>
      cases hrun
      have hlen : ((s.free_virtual_ids.take n.toNat).length : ℤ) = n := by
        rw [length_take]
        omega
      obtain ⟨⟨drained, m, hb⟩, hpl, hfv⟩ :=
        alloc_bind_fast_or_slow_binds (by omega) hlen hbind
      have hb' : Binds c s
          { s₁ with free_virtual_ids := s₁.free_virtual_ids.drop n.toNat }
          (s.free_virtual_ids.take n.toNat) phys drained m := { hb with }
      refine h.binds hb' hpl (h.ids_nodup.sublist (take_sublist _ _)) ?_ ?_ ?_
      · intro v hv
        exact h.ids v (mem_of_mem_take hv)
      · intro _
        rw [hfv, take_append_drop]
      · intro hf
        rw [ho] at hf
        cases hf

theorem Accounted.alloc_with_virtual {v_pages : List ℤ}
    (ho : c.is_id_owner = false) (hnd : v_pages.Nodup)
    (hv : ∀ v ∈ v_pages, 0 < v ∧ s.table.v2p v < 0)
    (hrun : alloc_with_virtual c s v_pages frontier = .ok s') : Accounted c s' := by
  unfold UnifiedPool.alloc_with_virtual at hrun
  split at hrun
  · cases hrun
    exact h
  next hne =>
  split at hrun
  · cases hrun
  · cases hrun
  next s₁ phys hbind =>
    cases hrun
    have hpos : (0 : ℤ) < v_pages.length := by
      cases v_pages with
      | nil => simp at hne
      | cons v vs =>
        rw [length_cons]
        omega
    obtain ⟨⟨drained, m, hb⟩, hpl, hfv⟩ :=
      alloc_bind_fast_or_slow_binds hpos rfl hbind
    refine h.binds hb hpl hnd hv ?_ ?_
    · intro hf
      rw [ho] at hf
      cases hf
    · intro _
      rw [hfv]
      exact h.owner ho

/-! ## Freeing -/

/-- What the callers of `free` promise: the virtual pages are distinct, bound, and not the
sink. -/
structure Freeable (s : EndPool E β) (v_pages : List ℤ) : Prop where
  nodup : v_pages.Nodup
  bound : ∀ v ∈ v_pages, 0 < v ∧ 0 < s.table.v2p v

theorem Accounted.inBand_of_bound {v : ℤ} (hv : 0 < v)
    (hp : 0 < s.table.v2p v) : InBand c s (s.table.v2p v) := by
  by_contra hnot
  have hneg := h.outside _ hp hnot
  rw [h.inverse.p2v_v2p hv.le hp.le] at hneg
  omega

theorem Accounted.free_lazy (hl : c.lazy_compaction = true) {vs : List ℤ}
    (hf : Freeable s vs) : Accounted c (free_lazy c s vs) := by
  have hb : ∀ v ∈ vs, 0 ≤ v ∧ 0 ≤ s.table.v2p v := fun v hv =>
    ⟨(hf.bound v hv).1.le, (hf.bound v hv).2.le⟩
  set s' := UnifiedPool.free_lazy c s vs
  have hperm : (unbound_pages s').Perm (vs.map s.table.v2p ++ unbound_pages s) := by
    show ((s.free_phys_pages ++ vs.map s.table.v2p) ++ pending_pages s).Perm
      (vs.map s.table.v2p ++ (s.free_phys_pages ++ pending_pages s))
    rw [← append_assoc]
    exact perm_append_comm.append_right _
  have hpn : (vs.map s.table.v2p).Nodup := h.inverse.nodup_map hf.nodup hb
  have hmem : ∀ p ∈ vs.map s.table.v2p, InBand c s p ∧ 0 ≤ s.table.p2v p := by
    intro p hp
    obtain ⟨v, hv, rfl⟩ := mem_map.mp hp
    refine ⟨h.inBand_of_bound (hf.bound v hv).1 (hf.bound v hv).2, ?_⟩
    rw [h.inverse.p2v_v2p (hb v hv).1 (hb v hv).2]
    exact (hb v hv).1
  have hsize : band_size c s' = band_size c s := rfl
  have hband : ∀ p, InBand c s' p ↔ InBand c s p := fun p => Iff.rfl
  have hv2p : ∀ v, s'.table.v2p v = if v ∈ vs then -1 else s.table.v2p v :=
    PageTable.v2p_unbind vs
  have hp2v : ∀ p, s'.table.p2v p = if p ∈ vs.map s.table.v2p then -1 else s.table.p2v p :=
    PageTable.p2v_unbind vs
  have hlive : live_pages c s' = live_pages c s - vs.length := by
    unfold live_pages
    rw [hperm.length_eq, length_append, length_map]
    omega
  exact
    { inverse := h.inverse.unbind hb
      sink := by
        constructor
        · rw [hv2p, if_neg (fun hm => absurd (hf.bound 0 hm).1 (by omega))]
          exact h.sink.1
        · rw [hp2v, if_neg]
          · exact h.sink.2
          · intro hm
            have := h.pos_of_inBand (hmem 0 hm).1
            omega
      size_nonneg := h.size_nonneg
      inside := h.inside
      outside := by
        intro p hpos hpb
        rw [hp2v]
        split
        · omega
        · exact h.outside p hpos hpb
      unbound := by
        intro p
        rw [hperm.mem_iff, mem_append, hp2v, hband]
        by_cases hm : p ∈ vs.map s.table.v2p
        · rw [if_pos hm]
          exact ⟨fun _ => ⟨(hmem p hm).1, by omega⟩, fun _ => .inl hm⟩
        · rw [if_neg hm, ← h.unbound p]
          exact ⟨fun h' => h'.resolve_left hm, fun h' => .inr h'⟩
      nodup := by
        rw [hperm.nodup_iff, nodup_append]
        refine ⟨hpn, h.nodup, ?_⟩
        rintro p hp q hq rfl
        have h1 := (hmem p hp).2
        have h2 := ((h.unbound p).mp hq).2
        omega
      mirror := h.mirror
      batches := h.batches
      live := by
        intro _
        rw [hlive, ← h.live hl]
        show s.live_page_count - ((vs.map s.table.v2p).length : ℤ) = _
        rw [length_map]
      eager := by
        intro hf'
        rw [hl] at hf'
        cases hf'
      owner := by
        intro ho
        show (if c.is_id_owner = true then s.free_virtual_ids ++ vs else s.free_virtual_ids) = []
        rw [if_neg (by simp [ho])]
        exact h.owner ho
      ids_nodup := by
        show (if c.is_id_owner = true then s.free_virtual_ids ++ vs
          else s.free_virtual_ids).Nodup
        split
        · rw [nodup_append]
          refine ⟨h.ids_nodup, hf.nodup, ?_⟩
          rintro v hv w hw rfl
          have h1 := (h.ids v hv).2
          have h2 := (hf.bound v hw).2
          omega
        · exact h.ids_nodup
      ids := by
        intro v hv
        have hv' : v ∈ s.free_virtual_ids ∨ v ∈ vs := by
          have hv'' : v ∈ (if c.is_id_owner = true then s.free_virtual_ids ++ vs
            else s.free_virtual_ids) := hv
          split at hv''
          · exact mem_append.mp hv''
          · exact .inl hv''
        rw [hv2p]
        rcases hv' with hv' | hv'
        · split
          · exact ⟨(h.ids v hv').1, by omega⟩
          · exact h.ids v hv'
        · rw [if_pos hv']
          exact ⟨(hf.bound v hv').1, by omega⟩
      ids_length := by
        intro ho
        show (((if c.is_id_owner = true then s.free_virtual_ids ++ vs
          else s.free_virtual_ids).length : ℕ) : ℤ) + _ = _
        rw [if_pos ho, length_append, ← h.ids_length ho]
        omega }

end

end LightningH3.UnifiedPool
