/-
The cube layout is a lossless, label-pure regrouping of the packed tokens.

Three facts carry the argument. The tokens in cube order are the packed tokens, each
once: every stream of every sample goes into the order exactly once, and the check on
the total leaves no room for a token outside the streams. Their labels ascend and leave
no gap, so the runs of equal labels are the labels themselves. And padded positions are
distinct, with the block of a position carrying the token's label.
-/
import LightningH3.CubeSegments
import LightningH3.CubeLayout

set_option autoImplicit false

namespace LightningH3.CubeMask

open Segments IndexOps Fallible List

/-! ## Runs are labels -/

/-- **Runs are labels.** The run lengths of the labels along the cube order are the label
sizes: positive, as many as labels, and the token at a position has its run's number. -/
structure Grouped (n : ℕ) (seg : SegmentLayout) (counts : List ℕ) : Prop where
  pos : ∀ c ∈ counts, 0 < c
  sum : counts.sum = n
  length : counts.length = num_labels_of seg
  label : ∀ j < n, (sorted_labels_of seg)[j]? = some (bucket counts j : ℤ)

theorem grouped_of_ordered {n : ℕ} {seg : SegmentLayout} (h : Ordered n seg)
    (hlen : (runs (sorted_labels_of seg)).length = num_labels_of seg) :
    Grouped n seg ((runs (sorted_labels_of seg)).map Prod.snd) := by
  obtain ⟨labels, hlabels, hsorted, hbound⟩ := h.labels
  have hn : (sorted_labels_of seg).length = n := by
    unfold sorted_labels_of
    rw [length_map, h.perm.length_eq, length_range]
  have hruns : runs (sorted_labels_of seg) = (runs labels).map (fun p => ((p.1 : ℤ), p.2)) := by
    rw [hlabels]
    exact runs_map (fun a b hab => Int.ofNat.inj hab) labels
  -- no gap: as many runs as labels, strictly ascending
  have hrange : (runs labels).map Prod.fst = List.range (num_labels_of seg) := by
    have hl : ((runs labels).map Prod.fst).length = num_labels_of seg := by
      rw [← hlen, hruns, length_map, length_map]
    have h := eq_range_of_strict (runs_strict hsorted) (by
      intro x hx
      obtain ⟨p, hp, rfl⟩ := mem_map.mp hx
      rw [hl]
      exact hbound p.1 (mem_of_mem_runs hp))
    rwa [hl] at h
  refine ⟨?_, ?_, ?_, ?_⟩
  · intro c hc
    obtain ⟨p, hp, rfl⟩ := mem_map.mp hc
    exact runs_pos _ p hp
  · rw [sum_counts_runs, hn]
  · rw [length_map, hlen]
  · intro j hj
    have hsum : ((runs (sorted_labels_of seg)).map Prod.snd).sum = n := by
      rw [sum_counts_runs, hn]
    obtain ⟨g, hg, h₁, h₂⟩ := exists_segment ((runs (sorted_labels_of seg)).map Prod.snd)
      (j := j) (by rw [hsum]; exact hj)
    have hg' : g < (runs (sorted_labels_of seg)).length := by simpa using hg
    rw [bucket_eq hg h₁ h₂]
    have hget := getElem?_of_runs (sorted_labels_of seg) hg'
      (r := j - start ((runs (sorted_labels_of seg)).map Prod.snd) g) (by
        rw [getElem_map] at h₂
        show _ < ((runs (sorted_labels_of seg))[g]).2
        omega)
    rw [show start ((runs (sorted_labels_of seg)).map Prod.snd) g
      + (j - start ((runs (sorted_labels_of seg)).map Prod.snd) g) = j by omega] at hget
    rw [hget]
    have hval : (runs (sorted_labels_of seg)).map Prod.fst
        = (List.range (num_labels_of seg)).map (fun (l : ℕ) => (l : ℤ)) := by
      rw [← hrange, hruns, map_map, map_map]
      rfl
    have hgv := congrArg (fun l => l[g]?) hval
    simp only [getElem?_map] at hgv
    rw [getElem?_eq_getElem hg', getElem?_range (by omega)] at hgv
    simpa using hgv

/-! ## Slots -/

section Slots

variable {n token_size : ℕ} {seg : SegmentLayout} {counts : List ℕ} {ratio : ℚ}
  {uninitialized : ℕ → ℕ}

variable {j : ℕ}

theorem getElem?_positions (hj : j < n) :
    ((List.range n).map (padded_position token_size counts))[j]?
      = some (padded_position token_size counts j) := by
  rw [getElem?_map, getElem?_range hj, Option.map_some]

theorem Grouped.positions_nodup (hs : 0 < token_size) (hg : Grouped n seg counts) :
    ((List.range n).map (padded_position token_size counts)).Nodup := by
  have h : ((List.range counts.sum).map (padded_position token_size counts)).Nodup :=
    padded_positions_nodup hs
  rwa [hg.sum] at h

theorem Grouped.position_lt (hs : 0 < token_size) (hg : Grouped n seg counts) (hj : j < n) :
    padded_position token_size counts j
      < (counts.map (fun c => block_count token_size c * token_size)).sum :=
  padded_position_lt hs (by rw [hg.sum]; exact hj)

variable {t : ℕ}

theorem Ordered.exists_index (ho : Ordered n seg) (ht : t < n) :
    ∃ j < n, seg.sort_idx[j]? = some t := by
  have hmem : t ∈ seg.sort_idx := ho.perm.mem_iff.mpr (mem_range.mpr ht)
  obtain ⟨j, hj⟩ := getElem?_of_mem hmem
  refine ⟨j, ?_, hj⟩
  obtain ⟨hlt, _⟩ := List.getElem?_eq_some_iff.mp hj
  rw [ho.perm.length_eq, length_range] at hlt
  exact hlt

theorem Ordered.index_lt (ho : Ordered n seg) (h : seg.sort_idx[j]? = some t) : j < n ∧ t < n := by
  obtain ⟨hlt, _⟩ := List.getElem?_eq_some_iff.mp h
  rw [ho.perm.length_eq, length_range] at hlt
  exact ⟨hlt, mem_range.mp (ho.perm.mem_iff.mp (mem_of_getElem? h))⟩

variable (ho : Ordered n seg) (hg : Grouped n seg counts) (hs : 0 < token_size)

include ho

theorem expand_indices_spec (h : seg.sort_idx[j]? = some t) :
    (layout_of token_size n seg (sorted_labels_of seg) counts ratio
      uninitialized).expand_indices[t]? = some (padded_position token_size counts j) := by
  obtain ⟨hj, ht⟩ := ho.index_lt h
  show (scatter _ seg.sort_idx _)[t]? = _
  rw [getElem?_scatter (ho.perm.nodup_iff.mpr nodup_range) (by rw [length_map, ho.perm.length_eq]) h
    (by rw [length_map, length_range]; exact ht)]
  exact getElem?_positions hj

include hg hs

theorem gather_indices_spec (h : seg.sort_idx[j]? = some t) :
    (layout_of token_size n seg (sorted_labels_of seg) counts ratio
      uninitialized).gather_indices[padded_position token_size counts j]? = some t := by
  obtain ⟨hj, _⟩ := ho.index_lt h
  show (scatter _ _ seg.sort_idx)[_]? = _
  rw [getElem?_scatter (hg.positions_nodup hs) (by rw [length_map, ho.perm.length_eq])
    (getElem?_positions hj) (by rw [length_replicate]; exact hg.position_lt hs hj)]
  exact h

theorem is_real_position (hj : j < n) :
    (layout_of token_size n seg (sorted_labels_of seg) counts ratio
      uninitialized).is_real[padded_position token_size counts j]? = some 1 := by
  show ((scatter _ _ (sorted_labels_of seg)).map _)[_]? = _
  rw [getElem?_map, getElem?_scatter (hg.positions_nodup hs) (by
      unfold sorted_labels_of
      rw [length_map, length_map, ho.perm.length_eq])
    (getElem?_positions hj) (by rw [length_replicate]; exact hg.position_lt hs hj),
    hg.label j hj, Option.map_some, if_pos]
  -- a label is below the dead label
  obtain ⟨g, hlt, h₁, h₂⟩ := exists_segment counts (j := j) (by rw [hg.sum]; exact hj)
  rw [bucket_eq hlt h₁ h₂]
  omega

omit ho hg hs in
theorem is_real_pad {p : ℕ}
    (hp : p < (counts.map (fun c => block_count token_size c * token_size)).sum)
    (hout : ∀ j < n, padded_position token_size counts j ≠ p) :
    (layout_of token_size n seg (sorted_labels_of seg) counts ratio
      uninitialized).is_real[p]? = some 0 := by
  show ((scatter _ _ (sorted_labels_of seg)).map _)[_]? = _
  rw [getElem?_map, getElem?_scatter_of_notMem, getElem?_replicate, if_pos hp,
    Option.map_some, if_neg (not_not.mpr rfl)]
  intro hmem
  obtain ⟨j, hj, heq⟩ := mem_map.mp hmem
  exact hout j (mem_range.mp hj) heq

end Slots

/-! ## The lossless layout -/

/-- `x.index_fill_(0, indices, value)`. -/
def index_fill {α : Type} (rows : List α) (indices : List ℕ) (value : α) : List α :=
  scatter rows indices (List.replicate indices.length value)

/-- How `cube_sparse_attention` lays out its rows: the real rows gathered into slots, the
padding slots filled. -/
def pad_rows {α : Type} (layout : CubeLayout) (zero : α) (rows : List α) :
    Except CubeError (List α) := do
  let padded ← index_select (rows.take layout.real_total_len) layout.gather_indices
  .ok (index_fill padded layout.pad_indices zero)

/-- How `cube_sparse_attention` takes its output rows out of the slots. -/
def expand_rows {α : Type} (layout : CubeLayout) (out : List α) : Except CubeError (List α) :=
  index_select out layout.expand_indices

/-- The blocks of a label: the valid part of its row of `label_block_indices`. -/
def label_blocks (layout : CubeLayout) (label : ℕ) : List ℕ :=
  (layout.label_block_indices.getD label []).take (layout.label_block_counts.getD label 0)

def real_slots (layout : CubeLayout) : List ℕ :=
  (List.range layout.padded_seqlen).filter (fun p => layout.is_real.getD p 0 = 1)

/-- **A lossless, label-pure layout** of the tokens of a segment layout. -/
structure Lossless (seg : SegmentLayout) (layout : CubeLayout) : Prop where
  /-- Laying rows out and taking them back restores them. -/
  restore : ∀ {α : Type} (zero : α) (rows : List α), layout.real_total_len ≤ rows.length →
    ∃ padded, pad_rows layout zero rows = .ok padded ∧ padded.length = layout.padded_seqlen ∧
      expand_rows layout padded = .ok (rows.take layout.real_total_len)
  /-- Each token is gathered into exactly one real slot. -/
  once : ((real_slots layout).map (fun p => layout.gather_indices.getD p 0)).Perm
    (List.range layout.real_total_len)
  /-- The real slots are the tokens' slots. -/
  real : ∀ p, layout.is_real[p]? = some 1 ↔ ∃ t < layout.real_total_len,
    layout.expand_indices[t]? = some p
  /-- The padding slots are the other ones. -/
  pad : ∀ p, p ∈ layout.pad_indices ↔ p < layout.padded_seqlen ∧ ¬ layout.is_real[p]? = some 1
  /-- The block of a token's slot carries the token's label. -/
  pure : ∀ t < layout.real_total_len, ∃ p label, layout.expand_indices[t]? = some p ∧
    layout.block_labels[p / layout.cube_token_size]? = some label ∧
    seg.cube_labels[t]? = some (label : ℤ)
  /-- Every label has a block. -/
  occupied : layout.label_block_counts.length = layout.num_labels ∧
    ∀ c ∈ layout.label_block_counts, 0 < c
  /-- The blocks of the labels, in label order, are all blocks. -/
  partition : (List.range layout.num_labels).flatMap (label_blocks layout)
    = List.range layout.num_blocks
  /-- A label's blocks are the blocks that carry it. -/
  carries : ∀ label < layout.num_labels, ∀ b, b ∈ label_blocks layout label ↔
    layout.block_labels[b]? = some label
  /-- The slots are whole blocks. -/
  whole : layout.padded_seqlen = layout.num_blocks * layout.cube_token_size

theorem index_select_eq_ok {α : Type} {rows sel : List α} {indices : List ℕ}
    (hlen : sel.length = indices.length)
    (h : ∀ k i : ℕ, indices[k]? = some i → rows[i]? = sel[k]?) :
    index_select rows indices = .ok sel := by
  have hall : List.Forall₂ (fun i x => rows[i]? = some x) indices sel := by
    rw [forall₂_iff_get]
    refine ⟨hlen.symm, fun k h₁ h₂ => ?_⟩
    exact (h k _ (getElem?_eq_getElem h₁)).trans (getElem?_eq_getElem h₂)
  unfold index_select
  rw [mapM_eq_some.mpr hall]

theorem index_select_total {α : Type} (rows : List α) {indices : List ℕ}
    (h : ∀ i ∈ indices, i < rows.length) :
    ∃ sel, index_select rows indices = .ok sel ∧ sel.length = indices.length ∧
      ∀ k i : ℕ, indices[k]? = some i → sel[k]? = rows[i]? := by
  obtain ⟨sel, hsel⟩ := mapM_isSome (show ∀ i ∈ indices, (rows[i]?).isSome from fun i hi => by
    rw [getElem?_eq_getElem (h i hi)]
    rfl)
  have hall := mapM_eq_some.mp hsel
  refine ⟨sel, by unfold index_select; rw [hsel], hall.length_eq.symm, fun k i hk => ?_⟩
  obtain ⟨hlt, heq⟩ := List.getElem?_eq_some_iff.mp hk
  have := hall.get hlt (by rw [← hall.length_eq]; exact hlt)
  simp only [get_eq_getElem, heq] at this
  rw [this, getElem?_eq_getElem (by rw [← hall.length_eq]; exact hlt)]

section Lossless

variable {n token_size : ℕ} {seg : SegmentLayout} {counts : List ℕ} {ratio : ℚ}
  {uninitialized : ℕ → ℕ}

theorem label_blocks_layout_of {label : ℕ} (hl : label < counts.length) :
    label_blocks (layout_of token_size n seg (sorted_labels_of seg) counts ratio uninitialized)
        label = List.range' (start (counts.map (block_count token_size)) label)
          ((counts.map (block_count token_size)).getD label 0) := by
  have hmax : (counts.map (block_count token_size)).getD label 0
      ≤ max_of (counts.map (block_count token_size)) := by
    rw [getD_eq_getElem _ _ (by simpa using hl)]
    exact le_max_of (getElem_mem _)
  unfold label_blocks layout_of
  simp only
  rw [getD_eq_getElem _ [] (by simpa using hl), getElem_map, getElem_range]
  refine ext_getElem (by
    rw [length_take, length_map, length_range, length_range']
    omega) (fun k h₁ h₂ => ?_)
  have hk : k < (counts.map (block_count token_size)).getD label 0 := by simpa using h₂
  rw [getElem_take, getElem_map, getElem_range, if_pos hk, getElem_range'_1]

variable (ho : Ordered n seg) (hg : Grouped n seg counts) (hs : 0 < token_size)

include ho hg

theorem gather_indices_lt : ∀ t ∈ (layout_of token_size n seg (sorted_labels_of seg) counts ratio
    uninitialized).gather_indices, t < n := by
  intro t ht
  rcases mem_scatter ht with h | h
  · obtain ⟨hne, rfl⟩ := mem_replicate.mp h
    by_contra hn
    have hnil : counts = [] := by
      cases hc : counts with
      | nil => rfl
      | cons c cs =>
        have hpos := hg.pos c (by rw [hc]; simp)
        have hsum := hg.sum
        rw [hc, sum_cons] at hsum
        omega
    exact hne (by rw [hnil]; rfl)
  · exact mem_range.mp (ho.perm.mem_iff.mp h)

include hs

theorem is_real_iff {p : ℕ} : (layout_of token_size n seg (sorted_labels_of seg) counts ratio
      uninitialized).is_real[p]? = some 1 ↔ ∃ j < n, padded_position token_size counts j = p := by
  constructor
  · intro h
    by_contra hno
    have hout : ∀ j < n, padded_position token_size counts j ≠ p := fun j hj heq =>
      hno ⟨j, hj, heq⟩
    obtain ⟨hlt, _⟩ := List.getElem?_eq_some_iff.mp h
    have hp : p < (counts.map (fun c => block_count token_size c * token_size)).sum := by
      simpa [layout_of] using hlt
    rw [is_real_pad hp hout] at h
    cases h
  · rintro ⟨j, hj, rfl⟩
    exact is_real_position ho hg hs hj

theorem restore_rows {α : Type} (zero : α) (rows : List α) (hrows : n ≤ rows.length) :
    ∃ padded, pad_rows (layout_of token_size n seg (sorted_labels_of seg) counts ratio
        uninitialized) zero rows = .ok padded ∧
      padded.length = (counts.map (fun c => block_count token_size c * token_size)).sum ∧
      expand_rows (layout_of token_size n seg (sorted_labels_of seg) counts ratio
        uninitialized) padded = .ok (rows.take n) := by
  have htake : (rows.take n).length = n := by rw [length_take]; omega
  have hin : ∀ t ∈ (layout_of token_size n seg (sorted_labels_of seg) counts ratio
      uninitialized).gather_indices, t < (rows.take n).length := by
    rw [htake]
    exact gather_indices_lt ho hg
  obtain ⟨sel, hsel, hlen, hget⟩ := index_select_total (rows.take n) hin
  refine ⟨index_fill sel (layout_of token_size n seg (sorted_labels_of seg) counts ratio
    uninitialized).pad_indices zero, ?_, ?_, ?_⟩
  · show (index_select (rows.take n) _ >>= _) = _
    rw [hsel]
    rfl
  · rw [index_fill, length_scatter, hlen]
    simp [layout_of]
  · refine index_select_eq_ok ?_ ?_
    · rw [htake]
      simp [layout_of]
    · intro t p hp
      have ht : t < n := by
        obtain ⟨hlt, _⟩ := List.getElem?_eq_some_iff.mp hp
        simpa [layout_of] using hlt
      obtain ⟨j, hj, hsort⟩ := ho.exists_index ht
      rw [expand_indices_spec ho hsort, Option.some.injEq] at hp
      subst hp
      -- a token's slot is not filled
      have hout : padded_position token_size counts j ∉ (layout_of token_size n seg
          (sorted_labels_of seg) counts ratio uninitialized).pad_indices := by
        intro hmem
        have hzero := (mem_filter.mp hmem).2
        rw [decide_eq_true_eq] at hzero
        change ((layout_of token_size n seg (sorted_labels_of seg) counts ratio
          uninitialized).is_real[_]?).getD 0 = 0 at hzero
        rw [is_real_position ho hg hs hj] at hzero
        cases hzero
      rw [index_fill, getElem?_scatter_of_notMem hout]
      exact hget _ _ (gather_indices_spec ho hg hs hsort)

theorem tokens_once : ((real_slots (layout_of token_size n seg (sorted_labels_of seg) counts ratio
        uninitialized)).map (fun p => (layout_of token_size n seg (sorted_labels_of seg) counts
          ratio uninitialized).gather_indices.getD p 0)).Perm (List.range n) := by
  have hslots : (real_slots (layout_of token_size n seg (sorted_labels_of seg) counts ratio
      uninitialized)).Perm ((List.range n).map (padded_position token_size counts)) := by
    unfold real_slots
    rw [perm_ext_iff_of_nodup (nodup_range.filter _) (hg.positions_nodup hs)]
    intro p
    rw [mem_filter, mem_map, mem_range, decide_eq_true_eq, getD_eq_getElem?_getD]
    constructor
    · rintro ⟨_, hone⟩
      have hsome : (layout_of token_size n seg (sorted_labels_of seg) counts ratio
          uninitialized).is_real[p]? = some 1 := by
        cases hp : (layout_of token_size n seg (sorted_labels_of seg) counts ratio
            uninitialized).is_real[p]? with
        | none => rw [hp] at hone; cases hone
        | some v => rw [hp, Option.getD_some] at hone; rw [hone]
      obtain ⟨j, hj, heq⟩ := (is_real_iff ho hg hs).mp hsome
      exact ⟨j, mem_range.mpr hj, heq⟩
    · rintro ⟨j, hj, rfl⟩
      rw [is_real_position ho hg hs (mem_range.mp hj)]
      exact ⟨hg.position_lt hs (mem_range.mp hj), rfl⟩
  refine (hslots.map _).trans ?_
  rw [map_map]
  refine List.Perm.trans (List.Perm.of_eq ?_) ho.perm
  -- slot by slot, the gathered tokens are the cube order
  refine ext_getElem? (fun j => ?_)
  rw [getElem?_map]
  rcases Nat.lt_or_ge j n with hj | hj
  · have hlt : j < seg.sort_idx.length := by rw [ho.perm.length_eq, length_range]; exact hj
    have hsort := getElem?_eq_getElem hlt
    rw [getElem?_range hj, Option.map_some, Function.comp_apply, hsort,
      getD_eq_getElem?_getD, gather_indices_spec ho hg hs hsort, Option.getD_some]
  · rw [getElem?_eq_none (by simpa using hj), Option.map_none, eq_comm,
      List.getElem?_eq_none_iff, ho.perm.length_eq, length_range]
    exact hj

theorem label_of_slot {t : ℕ} (ht : t < n) : ∃ p label,
    (layout_of token_size n seg (sorted_labels_of seg) counts ratio
      uninitialized).expand_indices[t]? = some p ∧
    (repeat_interleave (counts.map (block_count token_size)))[p / token_size]? = some label ∧
    seg.cube_labels[t]? = some (label : ℤ) := by
  obtain ⟨j, hj, hsort⟩ := ho.exists_index ht
  refine ⟨_, bucket counts j, expand_indices_spec ho hsort,
    block_of_padded_position hs (by rw [hg.sum]; exact hj), ?_⟩
  have hlabel := hg.label j hj
  unfold sorted_labels_of at hlabel
  rw [getElem?_map, hsort, Option.map_some,
    getD_eq_getElem _ _ (by rw [ho.length]; exact ht)] at hlabel
  rw [← hlabel]
  exact getElem?_eq_getElem _

theorem lossless_layout_of : Lossless seg (layout_of token_size n seg (sorted_labels_of seg)
    counts ratio uninitialized) where
  restore := fun zero rows hrows => restore_rows ho hg hs zero rows hrows
  once := tokens_once ho hg hs
  real := by
    intro p
    rw [is_real_iff ho hg hs]
    constructor
    · rintro ⟨j, hj, rfl⟩
      have hlt : j < seg.sort_idx.length := by
        rw [ho.perm.length_eq, length_range]
        exact hj
      have hsort := getElem?_eq_getElem hlt
      exact ⟨_, (ho.index_lt hsort).2, expand_indices_spec ho hsort⟩
    · rintro ⟨t, ht, hp⟩
      obtain ⟨j, hj, hsort⟩ := ho.exists_index ht
      rw [expand_indices_spec ho hsort, Option.some.injEq] at hp
      exact ⟨j, hj, hp⟩
  pad := by
    intro p
    rw [is_real_iff ho hg hs]
    show p ∈ (List.range _).filter _ ↔ _
    rw [mem_filter, mem_range, decide_eq_true_eq]
    refine and_congr_right (fun hp => ?_)
    change ((layout_of token_size n seg (sorted_labels_of seg) counts ratio
      uninitialized).is_real[p]?).getD 0 = 0 ↔ _
    constructor
    · rintro hzero ⟨j, hj, rfl⟩
      rw [is_real_position ho hg hs hj] at hzero
      cases hzero
    · intro hno
      rw [is_real_pad hp (fun j hj heq => hno ⟨j, hj, heq⟩)]
      rfl
  pure := fun t ht => label_of_slot ho hg hs ht
  occupied := by
    refine ⟨by simp [layout_of], fun c hc => ?_⟩
    obtain ⟨c', hc', rfl⟩ := mem_map.mp hc
    exact block_count_pos hs (hg.pos c' hc')
  partition := by
    have hblocks : (List.range counts.length).flatMap (label_blocks (layout_of token_size n seg
        (sorted_labels_of seg) counts ratio uninitialized))
        = (List.range counts.length).flatMap (fun label =>
          List.range' (start (counts.map (block_count token_size)) label)
            ((counts.map (block_count token_size)).getD label 0)) :=
      flatMap_congr (fun label hl => label_blocks_layout_of (mem_range.mp hl))
    have hall := flatMap_segments (counts.map (block_count token_size))
      (k := counts.length) (by simp)
    rw [start_of_length_le (by simp)] at hall
    exact hblocks.trans hall
  carries := by
    intro label hl b
    have hl' : label < (counts.map (block_count token_size)).length := by
      rw [length_map]
      exact hl
    rw [label_blocks_layout_of hl, mem_range'_1, getD_eq_getElem _ _ hl']
    exact (repeat_interleave_eq_iff hl').symm
  whole := sum_padded

end Lossless

/-! ## The builder -/

theorem cube_token_size_pos {cube_size : List ℤ} {size : ℕ × Shape}
    (h : cube_token_size cube_size = .ok size) : 0 < size.1 ∧ size.2.Pos := by
  unfold cube_token_size at h
  split at h
  · cases h
  · next shape hshape =>
    simp only at h
    split at h
    · cases h
    · cases h
      have hpos : shape.Pos := by
        unfold positive_3d? at hshape
        split at hshape
        · split at hshape
          · next a b c hpos =>
            cases hshape
            exact ⟨by simpa using hpos.1, by simpa using hpos.2.1, by simpa using hpos.2.2⟩
          · cases hshape
        · cases hshape
      exact ⟨hpos.prod_pos, hpos⟩

theorem precompute_cube_attention_eq_ok {π : Type} [LinearOrder π] {sample_shapes : List (List ℤ)}
    {cu_seqlens : List ℕ} {total_len : ℕ} {cube_size : List ℤ} {streams : PackedStreams}
    {position_ids : List (π × (π × π))} {ratio : ℚ} {uninitialized : ℕ → ℕ} {layout : CubeLayout}
    (h : precompute_cube_attention sample_shapes cu_seqlens total_len cube_size streams
      position_ids ratio uninitialized = .ok layout) :
    ∃ shapes n size seg, sample_shapes.mapM normalize_cube_visual_shape = .ok shapes ∧
      cube_token_size cube_size = .ok size ∧
      build_cube_segment_layout shapes cu_seqlens n size.2 size.1 streams position_ids = .ok seg ∧
      (runs (sorted_labels_of seg)).length = num_labels_of seg ∧
      layout = layout_of size.1 n seg (sorted_labels_of seg)
        ((runs (sorted_labels_of seg)).map Prod.snd) ratio uninitialized := by
  obtain ⟨shapes, hshapes, h⟩ := bind_eq_ok.mp h
  split at h
  · cases h
  next n _ =>
  split at h
  · cases h
  obtain ⟨size, hsize, h⟩ := bind_eq_ok.mp h
  split at h
  · cases h
  obtain ⟨seg, hseg, h⟩ := bind_eq_ok.mp h
  unfold finish_layout at h
  simp only at h
  split at h
  · cases h
  next hlen =>
  rw [not_not] at hlen
  exact ⟨shapes, n, size, seg, hshapes, hsize, hseg, hlen, (Except.ok.inj h).symm⟩

/-- **The cube layout is lossless and label-pure.** When no token stands in two of the
streams, every layout the builder accepts restores every row, puts every token into one
slot, marks exactly those slots real, keeps every block within one label, and cuts the
blocks by label. -/
theorem precompute_cube_attention_lossless {π : Type} [LinearOrder π]
    (sample_shapes : List (List ℤ)) (cu_seqlens : List ℕ) (total_len : ℕ) (cube_size : List ℤ)
    (streams : PackedStreams) (position_ids : List (π × (π × π))) (ratio : ℚ)
    (uninitialized : ℕ → ℕ) (layout : CubeLayout)
    (h : precompute_cube_attention sample_shapes cu_seqlens total_len cube_size streams
      position_ids ratio uninitialized = .ok layout) (hnd : streams.tokens.Nodup) :
    ∃ shapes size seg, sample_shapes.mapM normalize_cube_visual_shape = .ok shapes ∧
      cube_token_size cube_size = .ok size ∧ layout.cube_token_size = size.1 ∧
      build_cube_segment_layout shapes cu_seqlens layout.real_total_len size.2 size.1 streams
        position_ids = .ok seg ∧ Lossless seg layout := by
  obtain ⟨shapes, n, size, seg, hshapes, hsize, hseg, hlen, rfl⟩ :=
    precompute_cube_attention_eq_ok h
  obtain ⟨hs, hcube⟩ := cube_token_size_pos hsize
  have ho := build_cube_segment_layout_ordered hs hcube (normalize_shapes_pos hshapes) hnd hseg
  exact ⟨shapes, size, seg, hshapes, hsize, rfl, hseg,
    lossless_layout_of ho (grouped_of_ordered ho hlen) hs⟩

/-- Streams of one modality each, without condition streams. -/
def plain_streams (text audio latent : List ℕ) : PackedStreams where
  text := text
  cond_image := []
  latent := latent
  cond_audio := []
  audio := audio
  cond_image_shapes := none
  cond_image_roles := none
  cond_event_orders := none
  cond_audio_stream_lens := none

/-- Positions along one axis. -/
def line_positions (n : ℕ) : List (ℕ × (ℕ × ℕ)) := (List.range n).map (fun i => (0, (0, i)))

theorem precompute_cube_attention_lossless_three_streams :
    ∃ layout, precompute_cube_attention [[1, 1, 2]] [0, 6] 6 [1, 1, 2]
        (plain_streams [0, 1, 2] [3] [4, 5]) (line_positions 6) 0 (fun _ => 0) = .ok layout ∧
      ∃ shapes size seg, List.mapM normalize_cube_visual_shape [[1, 1, 2]] = .ok shapes ∧
        cube_token_size [1, 1, 2] = .ok size ∧ layout.cube_token_size = size.1 ∧
        build_cube_segment_layout shapes [0, 6] layout.real_total_len size.2 size.1
          (plain_streams [0, 1, 2] [3] [4, 5]) (line_positions 6) = .ok seg ∧ Lossless seg layout :=
  ⟨_, rfl, precompute_cube_attention_lossless _ _ 6 _ _ _ 0 (fun _ => 0) _ rfl (by decide)⟩

/-- **A shared token costs another one.** Token 1 stands in the text and in the audio
stream, token 3 in none. The count of placed tokens is right, so the layout is accepted,
and no slot holds token 3. -/
theorem shared_token_displaces_token :
    ∃ layout, precompute_cube_attention [[1, 1, 1]] [0, 5] 5 [1, 1, 2]
        (plain_streams [0, 1] [1, 2] [4]) (line_positions 5) 0 (fun _ => 0) = .ok layout ∧
      3 < layout.real_total_len ∧ 3 ∉ layout.gather_indices ∧ ∀ seg, ¬ Lossless seg layout := by
  refine ⟨_, rfl, by decide, by decide, fun seg h => ?_⟩
  have hmem : 3 ∈ List.range 5 := by decide
  exact absurd (h.once.mem_iff.mpr hmem) (by decide)

end LightningH3.CubeMask
