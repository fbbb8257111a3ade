/-
What an accepted segment layout is: the tokens in cube order are those of the streams,
and their labels ascend without leaving the allocated range.

The layout is built by placing segments one after the other. A segment carries as many
labels as tokens, ascending and below its own label count, so placing it keeps the labels
of the whole order ascending. That every stream is placed exactly once is an argument
about the event list: the visual events are all visual streams in order, the audio events
are some audio streams, and the loop after them takes the others.
-/
import Mathlib.Data.List.Count
import LightningH3.Lib.Fallible
import LightningH3.CubeMask

set_option autoImplicit false

namespace LightningH3.CubeMask

open Segments IndexOps Fallible List

/-! ## Placing segments -/

/-- `add_segment` without its index check. -/
def place (st : SegmentState) (seg : Segment) : SegmentState :=
  if seg.ordered = [] then st
  else
    { cube_labels := scatter st.cube_labels seg.ordered
        (seg.labels.map (fun label => ((label + st.label_offset : ℕ) : ℤ)))
      label_offset := st.label_offset + seg.num_blocks
      sparse_labels := st.sparse_labels ++ List.replicate seg.num_blocks seg.sparse
      ordered_segments := st.ordered_segments ++ [seg.ordered] }

@[simp] theorem length_cube_labels_place (st : SegmentState) (seg : Segment) :
    (place st seg).cube_labels.length = st.cube_labels.length := by
  unfold place
  split
  · rfl
  · simp

theorem label_offset_le_place (st : SegmentState) (seg : Segment) :
    st.label_offset ≤ (place st seg).label_offset := by
  unfold place
  split
  · exact Nat.le_refl _
  · exact Nat.le_add_right _ _

theorem sparse_labels_place (st : SegmentState) (seg : Segment) :
    ∃ new, (place st seg).sparse_labels = st.sparse_labels ++ new ∧
      (place st seg).label_offset = st.label_offset + new.length := by
  unfold place
  split
  · exact ⟨[], by simp, rfl⟩
  · exact ⟨List.replicate seg.num_blocks seg.sparse, rfl, by simp⟩

variable {seg : Segment}

theorem add_segment_eq_ok {st st' : SegmentState} : add_segment st seg = .ok st' ↔
      (∀ i ∈ seg.ordered, i < st.cube_labels.length) ∧ st' = place st seg := by
  unfold add_segment place
  by_cases hnil : seg.ordered = []
  · rw [hnil]
    constructor
    · intro h
      cases h
      exact ⟨fun i hi => absurd hi (not_mem_nil), rfl⟩
    · rintro ⟨_, rfl⟩
      rfl
  · rw [if_neg hnil, if_neg hnil]
    by_cases hany : seg.ordered.any (fun i => decide (st.cube_labels.length ≤ i)) = true
    · rw [if_pos hany]
      obtain ⟨i, hi, hle⟩ := any_eq_true.mp hany
      rw [decide_eq_true_eq] at hle
      constructor
      · intro h
        cases h
      · rintro ⟨hin, _⟩
        have := hin i hi
        omega
    · rw [if_neg hany]
      have hin : ∀ i ∈ seg.ordered, i < st.cube_labels.length := by
        intro i hi
        by_contra hge
        exact hany (any_eq_true.mpr ⟨i, hi, by simpa using hge⟩)
      constructor
      · intro h
        cases h
        exact ⟨hin, rfl⟩
      · rintro ⟨_, rfl⟩
        rfl

theorem add_segments_eq_ok {xs : List (Except CubeError Segment)} :
    ∀ {st st' : SegmentState}, add_segments st xs = .ok st' ↔
      ∃ segs : List Segment, xs = segs.map .ok ∧
        (∀ seg ∈ segs, ∀ i ∈ seg.ordered, i < st.cube_labels.length) ∧
        st' = segs.foldl place st := by
  induction xs with
  | nil =>
    intro st st'
    constructor
    · intro h
      cases h
      exact ⟨[], rfl, by simp, rfl⟩
    · rintro ⟨segs, hsegs, _, rfl⟩
      rw [map_eq_nil_iff.mp hsegs.symm]
      rfl
  | cons x xs ih =>
    intro st st'
    have hcons : add_segments st (x :: xs)
        = (do let st₁ ← (do add_segment st (← x)); add_segments st₁ xs) := by
      unfold add_segments
      rw [foldlM_cons]
    rw [hcons, bind_eq_ok]
    constructor
    · rintro ⟨st₁, h₁, h₂⟩
      obtain ⟨seg, rfl, hseg⟩ := bind_eq_ok.mp h₁
      obtain ⟨hin, rfl⟩ := add_segment_eq_ok.mp hseg
      obtain ⟨segs, rfl, hsegs, rfl⟩ := ih.mp h₂
      refine ⟨seg :: segs, rfl, ?_, rfl⟩
      intro seg' hseg'
      rcases mem_cons.mp hseg' with rfl | hmem
      · exact hin
      · simpa using hsegs seg' hmem
    · rintro ⟨segs, hsegs, hin, rfl⟩
      cases segs with
      | nil => simp at hsegs
      | cons seg segs =>
        obtain ⟨rfl, rfl⟩ := hsegs
        refine ⟨place st seg, ?_, ?_⟩
        · exact add_segment_eq_ok.mpr ⟨hin seg (by simp), rfl⟩
        · refine ih.mpr ⟨segs, rfl, ?_, rfl⟩
          intro seg' hseg' i hi
          rw [length_cube_labels_place]
          exact hin seg' (mem_cons_of_mem _ hseg') i hi

/-- A segment with one ascending label for each token, below its label count. -/
structure Segment.WF (seg : Segment) : Prop where
  length : seg.labels.length = seg.ordered.length
  sorted : seg.labels.Pairwise (· ≤ ·)
  bound : ∀ l ∈ seg.labels, l < seg.num_blocks

theorem Segment.WF.num_blocks_pos (h : seg.WF) (hne : seg.ordered ≠ []) : 0 < seg.num_blocks := by
  have hlen : 0 < seg.labels.length := by
    rw [h.length]
    exact length_pos_of_ne_nil hne
  have := h.bound _ (getElem_mem hlen)
  omega

/-- The tokens of some segments. -/
def tokens_of (segs : List Segment) : List ℕ := segs.flatMap Segment.ordered

/-- **The placement invariant.** The placed tokens carry ascending labels below the next
free one. -/
structure Placed (n : ℕ) (st : SegmentState) (tokens : List ℕ) : Prop where
  order : st.ordered_segments.flatten = tokens
  length : st.cube_labels.length = n
  labels : ∃ labels : List ℕ, tokens.map (fun i => st.cube_labels.getD i (-1))
    = labels.map (fun (l : ℕ) => (l : ℤ)) ∧ labels.Pairwise (· ≤ ·) ∧ ∀ l ∈ labels, l < st.label_offset
  sparse : st.sparse_labels.length = st.label_offset

theorem map_getD_scatter {xs : List ℤ} {idx : List ℕ} {values : List ℤ} (hnd : idx.Nodup)
    (hlen : values.length = idx.length) (hin : ∀ i ∈ idx, i < xs.length) :
    idx.map (fun i => (scatter xs idx values).getD i (-1)) = values := by
  refine ext_getElem? (fun k => ?_)
  rw [getElem?_map]
  cases hk : idx[k]? with
  | none =>
    rw [List.getElem?_eq_none_iff] at hk
    rw [Option.map_none, eq_comm, List.getElem?_eq_none_iff]
    omega
  | some i =>
    have hi : i < xs.length := hin i (mem_of_getElem? hk)
    have hget := getElem?_scatter hnd hlen hk hi
    obtain ⟨hklt, _⟩ := List.getElem?_eq_some_iff.mp hk
    rw [Option.map_some, getD_eq_getElem?_getD, hget,
      getElem?_eq_getElem (by omega), Option.getD_some]

variable {n : ℕ}

theorem Placed.place {st : SegmentState} {tokens : List ℕ} (h : Placed n st tokens) (hwf : seg.WF)
    (hnd : (tokens ++ seg.ordered).Nodup) (hin : ∀ i ∈ seg.ordered, i < n) :
    Placed n (place st seg) (tokens ++ seg.ordered) := by
  unfold CubeMask.place
  by_cases hnil : seg.ordered = []
  · rw [hnil, append_nil]
    exact h
  rw [if_neg hnil]
  rw [nodup_append] at hnd
  obtain ⟨labels, hlabels, hsorted, hbound⟩ := h.labels
  refine ⟨?_, ?_, ⟨labels ++ seg.labels.map (fun l => l + st.label_offset), ?_, ?_, ?_⟩, ?_⟩
  · rw [flatten_append, h.order, flatten_singleton]
  · rw [length_scatter, h.length]
  · rw [map_append, map_append]
    congr 1
    · -- tokens placed before keep their labels
      rw [← hlabels]
      refine map_congr_left (fun i hi => ?_)
      have hout : i ∉ seg.ordered := fun hmem => hnd.2.2 i hi i hmem rfl
      simp only [getD_eq_getElem?_getD]
      rw [getElem?_scatter_of_notMem hout]
    · rw [map_getD_scatter hnd.2.1 (by simpa using hwf.length) (by rw [h.length]; exact hin),
        map_map]
      rfl
  · rw [pairwise_append]
    refine ⟨hsorted, ?_, ?_⟩
    · rw [pairwise_map]
      exact hwf.sorted.imp (fun h => by omega)
    · intro a ha b hb
      obtain ⟨l, _, rfl⟩ := mem_map.mp hb
      have := hbound a ha
      omega
  · intro l hl
    show l < st.label_offset + seg.num_blocks
    rcases mem_append.mp hl with hmem | hmem
    · have := hbound l hmem
      omega
    · obtain ⟨l', hl', rfl⟩ := mem_map.mp hmem
      have := hwf.bound l' hl'
      omega
  · rw [length_append, length_replicate, h.sparse]

theorem Placed.foldl {segs : List Segment} :
    ∀ {st : SegmentState} {tokens : List ℕ}, Placed n st tokens → (∀ seg ∈ segs, seg.WF) →
      (tokens ++ tokens_of segs).Nodup → (∀ seg ∈ segs, ∀ i ∈ seg.ordered, i < n) →
      Placed n (segs.foldl CubeMask.place st) (tokens ++ tokens_of segs) := by
  induction segs with
  | nil =>
    intro st tokens h _ _ _
    rw [tokens_of, flatMap_nil, append_nil]
    exact h
  | cons seg segs ih =>
    intro st tokens h hwf hnd hin
    have hsplit : tokens ++ tokens_of (seg :: segs) = (tokens ++ seg.ordered) ++ tokens_of segs := by
      rw [append_assoc]
      rfl
    rw [hsplit] at hnd ⊢
    have hfirst := h.place (hwf seg (by simp)) (nodup_append.mp hnd).1 (hin seg (by simp))
    exact ih hfirst (fun s hs => hwf s (mem_cons_of_mem _ hs)) hnd
      (fun s hs => hin s (mem_cons_of_mem _ hs))

theorem sparse_labels_foldl (segs : List Segment) :
    ∀ st : SegmentState, ∃ new, (segs.foldl place st).sparse_labels = st.sparse_labels ++ new ∧
      (segs.foldl place st).label_offset = st.label_offset + new.length := by
  induction segs with
  | nil => exact fun st => ⟨[], by simp, rfl⟩
  | cons seg segs ih =>
    intro st
    obtain ⟨new, hnew, hoff⟩ := sparse_labels_place st seg
    obtain ⟨rest, hrest, hoff'⟩ := ih (place st seg)
    refine ⟨new ++ rest, ?_, ?_⟩
    · rw [foldl_cons, hrest, hnew, append_assoc]
    · rw [foldl_cons, hoff', hoff, length_append, Nat.add_assoc]

theorem label_offset_le_foldl (segs : List Segment) :
    ∀ st : SegmentState, st.label_offset ≤ (segs.foldl place st).label_offset := by
  induction segs with
  | nil => exact fun st => Nat.le_refl _
  | cons seg segs ih => exact fun st => (label_offset_le_place st seg).trans (ih (place st seg))

/-! ## Segments are well formed -/

variable {token_size : ℕ}

theorem group_cube_1d_segment_wf (hs : 0 < token_size) (indices : List ℕ) :
    (group_cube_1d_segment indices token_size).WF := by
  refine ⟨by simp [group_cube_1d_segment], ?_, ?_⟩
  · show ((List.range indices.length).map (fun i => i / token_size)).Pairwise (· ≤ ·)
    rw [pairwise_map]
    exact pairwise_lt_range.imp (fun h => Nat.div_le_div_right h.le)
  · intro l hl
    obtain ⟨i, hi, rfl⟩ := mem_map.mp hl
    rw [mem_range] at hi
    show i / token_size < ceil_div indices.length token_size
    unfold ceil_div
    rw [Nat.div_lt_iff_lt_mul hs]
    have h := Nat.div_add_mod (indices.length + token_size - 1) token_size
    have hlt := Nat.mod_lt (indices.length + token_size - 1) hs
    rw [Nat.mul_comm] at h
    omega

theorem cube_label_lt {counts extents coordinate : Shape}
    (h₀ : coordinate.1 / extents.1 < counts.1) (h₁ : coordinate.2.1 / extents.2.1 < counts.2.1)
    (h₂ : coordinate.2.2 / extents.2.2 < counts.2.2) :
    cube_label counts extents coordinate < counts.prod := by
  unfold cube_label Shape.prod
  rw [Nat.mul_comm _ counts.2.2, Nat.mul_comm _ counts.2.1, ← Nat.mul_assoc]
  exact Nat.mul_add_lt_mul_of_lt_of_lt (Nat.mul_add_lt_mul_of_lt_of_lt h₀ h₁) h₂

variable {indices : List ℕ}

theorem sort_by_label_wf {labels : List ℕ} {num_blocks : ℕ} {sparse : Bool}
    (hb : ∀ l ∈ labels, l < num_blocks) : (sort_by_label indices labels num_blocks sparse).WF := by
  refine ⟨by simp [sort_by_label], stable_sort_sorted labels, ?_⟩
  intro l hl
  obtain ⟨p, hp, rfl⟩ := mem_map.mp hl
  exact hb p.1 (mem_of_getElem? (getElem?_of_mem_stable_sort hp))

theorem sort_by_label_perm {labels : List ℕ} {num_blocks : ℕ} {sparse : Bool}
    (hlen : labels.length = indices.length) :
    (sort_by_label indices labels num_blocks sparse).ordered.Perm indices := by
  have h := (stable_sort_order_perm labels).map (fun i => indices.getD i 0)
  rw [map_map, hlen] at h
  have hid : (List.range indices.length).map (fun i => indices.getD i 0) = indices := by
    refine ext_getElem (by simp) (fun i h₁ h₂ => ?_)
    rw [getElem_map, getElem_range, getD_eq_getElem _ _ h₂]
  rw [hid] at h
  exact h

theorem div_lt_ceil_div {a e : ℕ} (he : 0 < e) (ha : a < n) : a / e < ceil_div n e := by
  unfold ceil_div
  rw [Nat.div_lt_iff_lt_mul he]
  have h := Nat.div_add_mod (n + e - 1) e
  have hlt := Nat.mod_lt (n + e - 1) he
  rw [Nat.mul_comm] at h
  omega

def Shape.Pos (shape : Shape) : Prop := 0 < shape.1 ∧ 0 < shape.2.1 ∧ 0 < shape.2.2

theorem Shape.Pos.prod_pos {shape : Shape} (h : shape.Pos) : 0 < shape.prod :=
  Nat.mul_pos h.1 (Nat.mul_pos h.2.1 h.2.2)

/-- What a successful grouping returns: a well-formed segment with the given tokens. -/
def Groups (seg : Segment) (tokens : List ℕ) : Prop := seg.WF ∧ seg.ordered.Perm tokens

variable {cube_size : Shape} {sample_idx : ℕ} {name : String}

theorem group_cube_visual_segment_groups {shape : Shape} (hshape : shape.Pos)
    (hcube : cube_size.Pos)
    (h : group_cube_visual_segment indices shape cube_size sample_idx name = .ok seg) :
    Groups seg indices := by
  unfold group_cube_visual_segment at h
  simp only at h
  split at h
  · cases h
  · next hlen =>
    rw [not_not] at hlen
    cases h
    refine ⟨sort_by_label_wf ?_, sort_by_label_perm (by simp [hlen])⟩
    intro l hl
    obtain ⟨linear, hlinear, rfl⟩ := mem_map.mp hl
    rw [mem_range] at hlinear
    refine cube_label_lt ?_ ?_ ?_
    · refine div_lt_ceil_div hcube.1 ?_
      show linear / (shape.2.1 * shape.2.2) < shape.1
      rw [Nat.div_lt_iff_lt_mul (Nat.mul_pos hshape.2.1 hshape.2.2)]
      exact hlinear
    · exact div_lt_ceil_div hcube.2.1 (Nat.mod_lt _ hshape.2.1)
    · exact div_lt_ceil_div hcube.2.2 (Nat.mod_lt _ hshape.2.2)

theorem le_max_of {xs : List ℕ} {x : ℕ} (h : x ∈ xs) : x ≤ max_of xs := by
  have hgen : ∀ (xs : List ℕ) (m : ℕ), m ≤ xs.foldl max m ∧ ∀ y ∈ xs, y ≤ xs.foldl max m := by
    intro xs
    induction xs with
    | nil => exact fun m => ⟨Nat.le_refl m, by simp⟩
    | cons y xs ih =>
      intro m
      obtain ⟨h₁, h₂⟩ := ih (max m y)
      refine ⟨(Nat.le_max_left m y).trans h₁, fun z hz => ?_⟩
      rcases mem_cons.mp hz with rfl | hmem
      · exact (Nat.le_max_right m z).trans h₁
      · exact h₂ z hmem
  exact (hgen xs 0).2 x h

variable {π : Type}

@[simp] theorem length_rank_position_axis [LinearOrder π] (values : List π) :
    (rank_position_axis values).length = values.length := by
  simp [rank_position_axis]

variable {α : Type}

theorem index_select_length {rows : List α} {selected : List α}
    (h : index_select rows indices = .ok selected) : selected.length = indices.length := by
  unfold index_select at h
  split at h
  · cases h
  · next sel hsel =>
    cases h
    exact (mapM_eq_some.mp hsel).length_eq.symm

variable {position_ids : List (π × (π × π))}

theorem group_joint_cube_visual_segment_groups [LinearOrder π]
    (h : group_joint_cube_visual_segment indices position_ids cube_size sample_idx = .ok seg) :
    Groups seg indices := by
  unfold group_joint_cube_visual_segment at h
  split at h
  · cases h
  · obtain ⟨positions, hpos, h'⟩ := bind_eq_ok.mp h
    have hlen := index_select_length hpos
    cases h'
    refine ⟨sort_by_label_wf ?_, sort_by_label_perm (by simp [hlen])⟩
    intro l hl
    obtain ⟨c, hc, rfl⟩ := mem_map.mp hl
    have h₀ := of_mem_zip hc
    have h₁ := of_mem_zip h₀.2
    refine cube_label_lt ?_ ?_ ?_
    · exact Nat.lt_succ_of_le (Nat.div_le_div_right (le_max_of h₀.1))
    · exact Nat.lt_succ_of_le (Nat.div_le_div_right (le_max_of h₁.1))
    · exact Nat.lt_succ_of_le (Nat.div_le_div_right (le_max_of h₁.2))

theorem group_joint_cube_visual_segment_sparse [LinearOrder π]
    (h : group_joint_cube_visual_segment indices position_ids cube_size sample_idx = .ok seg) :
    seg.sparse = true ∧ seg.ordered ≠ [] := by
  have hperm := (group_joint_cube_visual_segment_groups h).2
  unfold group_joint_cube_visual_segment at h
  split at h
  · cases h
  · next hne =>
    obtain ⟨positions, _, h'⟩ := bind_eq_ok.mp h
    refine ⟨?_, ?_⟩
    · cases h'
      rfl
    · intro hnil
      rw [hnil] at hperm
      exact hne hperm.nil_eq.symm

/-! ## Splitting a stream -/

section

variable (xs : List α)

theorem slice_eq (a b : ℕ) : slice xs (a, b) = (xs.drop a).take (b - a) := by
  unfold slice
  rw [drop_take]

theorem slice_append {a b c : ℕ} (hab : a ≤ b) (hbc : b ≤ c) :
    slice xs (a, b) ++ slice xs (b, c) = slice xs (a, c) := by
  rw [slice_eq, slice_eq, slice_eq, show c - a = (b - a) + (c - b) by omega, take_add,
    drop_drop, show a + (b - a) = b by omega]

theorem slice_self (a : ℕ) : slice xs (a, a) = [] := by
  rw [slice_eq, Nat.sub_self, take_zero]

theorem slice_zero_length : slice xs (0, xs.length) = xs := by
  rw [slice_eq, drop_zero, Nat.sub_zero, take_length]

theorem slice_sublist (b : ℕ × ℕ) : (slice xs b).Sublist xs :=
  (drop_sublist _ _).trans (take_sublist _ _)

theorem split_from_spec {sizes : List ℤ} : ∀ {offset : ℕ} {streams : List (List ℕ)} {covered : ℕ},
      split_from indices name offset sizes = .ok (streams, covered) →
        offset ≤ covered ∧ streams.length = sizes.length ∧
          streams.flatten = slice indices (offset, covered) := by
  induction sizes with
  | nil =>
    intro offset streams covered h
    cases h
    exact ⟨Nat.le_refl _, rfl, (slice_self _ _).symm⟩
  | cons size sizes ih =>
    intro offset streams covered h
    unfold split_from at h
    split at h
    · cases h
    · obtain ⟨rest, hrest, h'⟩ := bind_eq_ok.mp h
      cases h'
      obtain ⟨hle, hlen, hflat⟩ := ih hrest
      refine ⟨by omega, by simp [hlen], ?_⟩
      rw [flatten_cons, hflat]
      exact slice_append indices (by omega) hle

theorem split_cube_streams_spec {sizes : List ℤ} {streams : List (List ℕ)}
    (h : split_cube_streams indices sizes sample_idx name = .ok streams) :
    streams.length = sizes.length ∧ streams.flatten = indices := by
  obtain ⟨⟨streams', covered⟩, hsplit, h'⟩ := bind_eq_ok.mp h
  simp only at h'
  split at h'
  · cases h'
  · next hlen =>
    rw [not_not] at hlen
    cases h'
    obtain ⟨_, hcount, hflat⟩ := split_from_spec hsplit
    refine ⟨hcount, ?_⟩
    rw [hflat, hlen, slice_zero_length]

/-! ## The condition events -/

theorem map_getD_range (default : α) :
    (List.range xs.length).map (fun i => xs.getD i default) = xs := by
  refine ext_getElem (by simp) (fun i h₁ h₂ => ?_)
  rw [getElem_map, getElem_range, getD_eq_getElem _ _ h₂]

/-- The audio indices of normalised events. -/
def audio_indices (events : List (EventType × (ℤ × String))) : List ℕ :=
  (events.filter (fun e => e.1 = .audio)).map (fun e => e.2.1.toNat)

/-- The visual indices of normalised events. -/
def imgvid_indices (events : List (EventType × (ℤ × String))) : List ℕ :=
  (events.filter (fun e => e.1 = .imgvid)).map (fun e => e.2.1.toNat)

/-- The type of an event after normalisation. -/
def event_type_of (e : RawEvent) : EventType × (ℤ × String) :=
  (if e.1 = "audio" then .audio else .imgvid, e.2)

theorem normalize_condition_event_order_spec {raw : List RawEvent} {visual_count audio_count : ℕ}
    {events : List (EventType × (ℤ × String))}
    (h : normalize_condition_event_order raw visual_count audio_count true = .ok events) :
    imgvid_indices events = List.range visual_count ∧ (audio_indices events).Nodup ∧
      ∀ i ∈ audio_indices events, i < audio_count := by
  unfold normalize_condition_event_order at h
  simp only [Bool.true_and] at h
  split at h
  · cases h
  next htypes =>
  split at h
  · cases h
  next himg =>
  split at h
  · cases h
  next hrange =>
  split at h
  · cases h
  next hnd =>
  rw [not_not] at htypes himg
  rw [decide_eq_true_eq, not_not] at hrange
  rw [decide_eq_true_eq, not_not] at hnd
  cases h
  have htype : ∀ e ∈ raw, e.1 = "imgvid" ∨ e.1 = "audio" := by
    intro e he
    by_contra hno
    rw [not_or] at hno
    have hin : e.1 ∈ (raw.map Prod.fst).filter (fun t => t ≠ "imgvid" && t ≠ "audio") := by
      rw [mem_filter]
      exact ⟨mem_map.mpr ⟨e, he, rfl⟩, by simp [hno.1, hno.2]⟩
    rw [htypes] at hin
    cases hin
  -- the events of one type are those of its name
  have hindices : ∀ {type : EventType} {name : String},
      (∀ e ∈ raw, decide ((event_type_of e).1 = type) = decide (e.1 = name)) →
      ((raw.map event_type_of).filter (fun e => e.1 = type)).map (fun e => e.2.1.toNat)
        = ((raw.filter (fun e => e.1 = name)).map (fun e => e.2.1)).map Int.toNat := by
    intro type name hsame
    rw [filter_map, map_map, map_map]
    exact congrArg _ (filter_congr hsame)
  have himgvid : imgvid_indices (raw.map event_type_of)
      = ((raw.filter (fun e => e.1 = "imgvid")).map (fun e => e.2.1)).map Int.toNat :=
    hindices fun e he => by rcases htype e he with h | h <;> simp [event_type_of, h]
  have haudio : audio_indices (raw.map event_type_of)
      = ((raw.filter (fun e => e.1 = "audio")).map (fun e => e.2.1)).map Int.toNat :=
    hindices fun e he => by rcases htype e he with h | h <;> simp [event_type_of]
  -- the listed audio indices are in range, so truncation keeps them apart
  have hin : ∀ i ∈ (raw.filter (fun e => e.1 = "audio")).map (fun e => e.2.1),
      0 ≤ i ∧ i < (audio_count : ℤ) := by
    intro i hi
    by_contra hno
    have htest : (!(decide (0 ≤ i) && decide (i < (audio_count : ℤ)))) = true := by
      simp only [Bool.not_eq_true', ← Bool.not_eq_true, Bool.and_eq_true, decide_eq_true_eq]
      exact hno
    have hmem := (mem_filter
      (p := fun i : ℤ => !(decide (0 ≤ i) && decide (i < (audio_count : ℤ))))).mpr ⟨hi, htest⟩
    rw [hrange] at hmem
    cases hmem
  refine ⟨?_, ?_, ?_⟩
  · show imgvid_indices (raw.map event_type_of) = _
    rw [himgvid, himg, map_map]
    have : (Int.toNat ∘ fun (n : ℕ) => (n : ℤ)) = id := by
      funext n
      simp
    rw [this, map_id]
  · show (audio_indices (raw.map event_type_of)).Nodup
    rw [haudio]
    refine hnd.map_on ?_
    intro a ha b hb hab
    have h₁ := hin a ha
    have h₂ := hin b hb
    omega
  · show ∀ i ∈ audio_indices (raw.map event_type_of), _
    rw [haudio]
    intro i hi
    obtain ⟨z, hz, rfl⟩ := mem_map.mp hi
    have := hin z hz
    omega

/-- The tokens an event places on its own. -/
def event_tokens (audio_streams visual_streams : List (List ℕ)) (roles : List CondRole)
    (event : EventType × (ℤ × String)) : List ℕ :=
  match event.1 with
  | .audio => audio_streams.getD event.2.1.toNat []
  | .imgvid =>
    if roles.getD event.2.1.toNat .densePrefix = .joint_cube then []
    else visual_streams.getD event.2.1.toNat []

variable {shapes : List Shape}

theorem event_segment_groups (sample_idx : ℕ) (audio_streams visual_streams : List (List ℕ))
    (roles : List CondRole) (hs : 0 < token_size) (hcube : cube_size.Pos)
    (hshapes : ∀ s ∈ shapes, s.Pos) (event : EventType × (ℤ × String)) :
    match event_segment cube_size token_size sample_idx audio_streams visual_streams shapes roles
      event with
    | none => event_tokens audio_streams visual_streams roles event = []
    | some (.ok seg) => Groups seg (event_tokens audio_streams visual_streams roles event)
    | some (.error _) => True := by
  obtain ⟨kind, idx, hash⟩ := event
  cases kind with
  | audio => exact ⟨group_cube_1d_segment_wf hs _, List.Perm.refl _⟩
  | imgvid =>
    unfold event_segment event_tokens
    simp only
    cases hrole : roles.getD idx.toNat .densePrefix with
    | joint_cube => simp
    | densePrefix =>
      exact ⟨group_cube_1d_segment_wf hs _, List.Perm.refl _⟩
    | independent_cube =>
      by_cases hflat : (shapes.getD idx.toNat (0, (0, 0))).1 ≤ 1
      · rw [if_pos hflat]
        trivial
      · rw [if_neg hflat]
        -- a shape of depth above one comes from the list, so it is positive
        have hpos : (shapes.getD idx.toNat (0, (0, 0))).Pos := by
          by_cases hlt : idx.toNat < shapes.length
          · rw [getD_eq_getElem _ _ hlt]
            exact hshapes _ (getElem_mem hlt)
          · rw [getD_eq_default _ _ (by omega)] at hflat
            simp at hflat
        cases hgroup : group_cube_visual_segment (visual_streams.getD idx.toNat [])
            (shapes.getD idx.toNat (0, (0, 0))) cube_size sample_idx
            ("condition visual stream " ++ toString idx.toNat) with
        | error e => trivial
        | ok seg => exact group_cube_visual_segment_groups hpos hcube hgroup

theorem event_segments_groups {audio_streams visual_streams : List (List ℕ)} {roles : List CondRole}
    (hs : 0 < token_size) (hcube : cube_size.Pos) (hshapes : ∀ s ∈ shapes, s.Pos)
    (events : List (EventType × (ℤ × String))) :
    ∀ segs : List Segment, events.filterMap (event_segment cube_size token_size sample_idx
        audio_streams visual_streams shapes roles) = segs.map .ok → (∀ seg ∈ segs, seg.WF) ∧
        (tokens_of segs).Perm (events.flatMap (event_tokens audio_streams visual_streams roles)) := by
  induction events with
  | nil =>
    intro segs h
    rw [map_eq_nil_iff.mp h.symm]
    exact ⟨by simp, List.Perm.refl _⟩
  | cons event events ih =>
    intro segs h
    have hevent := event_segment_groups sample_idx audio_streams visual_streams roles hs hcube
      hshapes event
    rw [filterMap_cons] at h
    rw [flatMap_cons]
    cases he : event_segment cube_size token_size sample_idx audio_streams visual_streams shapes
        roles event with
    | none =>
      rw [he] at h hevent
      rw [hevent]
      exact ih segs h
    | some r =>
      rw [he] at h hevent
      cases segs with
      | nil => simp at h
      | cons seg segs =>
        rw [map_cons, List.cons.injEq] at h
        rw [h.1] at hevent
        obtain ⟨hwf, hperm⟩ := ih segs h.2
        refine ⟨?_, ?_⟩
        · intro s hmem
          rcases mem_cons.mp hmem with rfl | hmem'
          · exact hevent.1
          · exact hwf s hmem'
        · exact hevent.2.append hperm

/-! ## One sample -/

theorem events_perm (events : List (EventType × (ℤ × String))) :
    (events.filter (fun e => e.1 = .audio) ++ events.filter (fun e => e.1 = .imgvid)).Perm events := by
  have h := filter_append_perm (fun e : EventType × (ℤ × String) => decide (e.1 = .audio)) events
  have hf : events.filter (fun e => decide (e.1 = .imgvid))
      = events.filter (fun e => !decide (e.1 = EventType.audio)) := by
    refine filter_congr (fun e _ => ?_)
    cases e.1 <;> rfl
  rw [hf]
  exact h

theorem joint_split_perm (pairs : List (List ℕ × CondRole)) :
    (pairs.flatMap (fun p => if p.2 = .joint_cube then [] else p.1)
      ++ ((pairs.filter (fun p => p.2 = .joint_cube)).map Prod.fst).flatten).Perm
      (pairs.map Prod.fst).flatten := by
  induction pairs with
  | nil => exact List.Perm.refl _
  | cons p pairs ih =>
    rw [flatMap_cons]
    by_cases hp : p.2 = .joint_cube
    · rw [if_pos hp, filter_cons_of_pos (by simpa using hp), map_cons, flatten_cons]
      refine List.Perm.trans ?_ (ih.append_left p.1)
      rw [← append_assoc, ← append_assoc]
      exact perm_append_comm.append_right _
    · rw [if_neg hp, filter_cons_of_neg (by simpa using hp), append_assoc]
      exact ih.append_left p.1

theorem listed_unlisted_perm (streams : List (List ℕ)) (listed : List ℕ) (hnd : listed.Nodup)
    (hin : ∀ i ∈ listed, i < streams.length) : (listed.flatMap (fun i => streams.getD i [])
      ++ (((List.range streams.length).filter (fun i => i ∉ listed)).map
        (fun i => streams.getD i [])).flatten).Perm streams.flatten := by
  have hperm : (listed ++ (List.range streams.length).filter (fun i => i ∉ listed)).Perm
      (List.range streams.length) := by
    rw [perm_ext_iff_of_nodup]
    · intro i
      rw [mem_append, mem_filter, mem_range]
      constructor
      · rintro (h | h)
        · exact hin i h
        · exact h.1
      · intro h
        by_cases hl : i ∈ listed
        · exact Or.inl hl
        · exact Or.inr ⟨h, by simpa using hl⟩
    · rw [nodup_append]
      refine ⟨hnd, nodup_range.filter _, ?_⟩
      intro a ha b hb hab
      subst hab
      exact (by simpa using (mem_filter.mp hb).2 : a ∉ listed) ha
    · exact nodup_range
  have h := hperm.flatMap_right (fun i => streams.getD i [])
  rw [flatMap_append] at h
  have hall : (List.range streams.length).flatMap (fun i => streams.getD i []) = streams.flatten := by
    rw [flatMap_def, map_getD_range]
  rw [hall] at h
  exact h

def sample_tokens (sample : Sample) : List ℕ :=
  sample.text ++ (sample.cond_audio ++ (sample.cond_image ++ (sample.target_audio ++ sample.latent)))

theorem normalize_shapes_pos {raw : List (List ℤ)}
    (h : raw.mapM normalize_cube_visual_shape = .ok shapes) : ∀ s ∈ shapes, s.Pos := by
  have hall := mapM_eq_ok.mp h
  intro s hs
  obtain ⟨k, hk⟩ := getElem?_of_mem hs
  obtain ⟨hlt, heq⟩ := List.getElem?_eq_some_iff.mp hk
  have hraw := hall.get (by rw [hall.length_eq]; exact hlt) hlt
  unfold normalize_cube_visual_shape at hraw
  split at hraw
  · cases hraw
  · next s' hs' =>
    have hs'' : s' = s := by
      have := Except.ok.inj hraw
      rw [this]
      exact heq
    subst hs''
    unfold positive_3d? at hs'
    split at hs'
    · split at hs'
      · next a b _ hpos =>
        cases hs'
        exact ⟨by simpa using hpos.1, by simpa using hpos.2.1, by simpa using hpos.2.2⟩
      · cases hs'
    · cases hs'

/-- **One sample's segments.** They are well formed, and together they place the sample's
tokens, each once; the target has as many tokens as its shape. -/
theorem sample_segments_spec [LinearOrder π] {sample : Sample} (hs : 0 < token_size)
    (hcube : cube_size.Pos) {xs : List (Except CubeError Segment)}
    (h : sample_segments position_ids cube_size token_size sample = .ok xs) {segs : List Segment}
    (hsegs : xs = segs.map .ok) :
    (∀ seg ∈ segs, seg.WF) ∧ (tokens_of segs).Perm (sample_tokens sample) ∧
      sample.latent.length = sample.target_shape.prod ∧
      ∃ front target, segs = front ++ [target] ∧ target.sparse = true ∧ target.ordered ≠ [] := by
  obtain ⟨audio_streams, haudio, h⟩ := bind_eq_ok.mp h
  obtain ⟨shapes, hshapes, h⟩ := bind_eq_ok.mp h
  obtain ⟨visual_streams, hvisual, h⟩ := bind_eq_ok.mp h
  obtain ⟨roles, hroles, h⟩ := bind_eq_ok.mp h
  obtain ⟨events, hevents, h⟩ := bind_eq_ok.mp h
  obtain ⟨_, haflat⟩ := split_cube_streams_spec haudio
  obtain ⟨hvlen, hvflat⟩ := split_cube_streams_spec hvisual
  obtain ⟨himg, hand, hain⟩ := normalize_condition_event_order_spec hevents
  have hrlen : roles.length = visual_streams.length := by
    unfold normalize_cond_image_roles at hroles
    split at hroles
    · cases hroles
    · next hlen =>
      split at hroles
      · cases hroles
      · next parsed hparsed =>
        cases hroles
        have hl := (mapM_eq_some.mp hparsed).length_eq
        rw [hvlen, length_map]
        omega
  -- cut the list of segments where the list of groupings is cut
  have hx := (Except.ok.inj h).trans hsegs
  rw [eq_comm, map_eq_append_iff] at hx
  obtain ⟨front, back, rfl, hfront, hback⟩ := hx
  rw [map_eq_append_iff] at hfront
  obtain ⟨front', unlisted, rfl, hfront', hunlisted⟩ := hfront
  rw [map_eq_append_iff] at hfront'
  obtain ⟨text, listed, rfl, htext, hlisted⟩ := hfront'
  obtain ⟨hlwf, hlperm⟩ := event_segments_groups hs hcube (normalize_shapes_pos hshapes) events
    listed hlisted.symm
  cases text with
  | nil => simp at htext
  | cons t₀ text =>
  rw [map_cons, List.cons.injEq, map_eq_nil_iff, Except.ok.injEq] at htext
  obtain ⟨rfl, rfl⟩ := htext
  cases back with
  | nil => simp at hback
  | cons b₀ back =>
  cases back with
  | nil => simp at hback
  | cons b₁ back =>
  rw [map_cons, map_cons, List.cons.injEq, List.cons.injEq, map_eq_nil_iff,
    Except.ok.injEq] at hback
  obtain ⟨rfl, htarget, rfl⟩ := hback
  unfold target_segment at htarget
  split at htarget
  · cases htarget
  next hlatent =>
  rw [not_not] at hlatent
  obtain ⟨hjwf, hjperm⟩ := group_joint_cube_visual_segment_groups htarget.symm
  have hunl : unlisted = ((List.range audio_streams.length).filter
      (fun i => i ∉ audio_indices events)).map
        (fun i => group_cube_1d_segment (audio_streams.getD i []) token_size) := by
    rw [map_map] at hunlisted
    have hinj : Function.Injective (List.map (Except.ok : Segment → Except CubeError Segment)) :=
      map_injective_iff.mpr (fun a b h => Except.ok.inj h)
    refine hinj (hunlisted.trans ?_)
    rw [map_map]
    rfl
  refine ⟨?_, ?_, hlatent, ⟨[group_cube_1d_segment sample.text token_size] ++ listed ++ unlisted
    ++ [group_cube_1d_segment sample.target_audio token_size], b₁, by simp,
    group_joint_cube_visual_segment_sparse htarget.symm⟩⟩
  · intro seg hseg
    simp only [mem_append, mem_cons, not_mem_nil, or_false] at hseg
    rcases hseg with ((rfl | hseg) | hseg) | rfl | rfl
    · exact group_cube_1d_segment_wf hs _
    · exact hlwf seg hseg
    · rw [hunl] at hseg
      obtain ⟨i, _, rfl⟩ := mem_map.mp hseg
      exact group_cube_1d_segment_wf hs _
    · exact group_cube_1d_segment_wf hs _
    · exact hjwf
  · -- count the tokens of a stream wherever they were placed
    have hevents_perm : (events.flatMap (event_tokens audio_streams visual_streams roles)).Perm
        ((audio_indices events).flatMap (fun i => audio_streams.getD i [])
          ++ (visual_streams.zip roles).flatMap (fun p => if p.2 = .joint_cube then [] else p.1)) := by
      refine ((events_perm events).flatMap_right _).symm.trans ?_
      rw [flatMap_append]
      have ha : (events.filter (fun e => e.1 = .audio)).flatMap
          (event_tokens audio_streams visual_streams roles)
          = (audio_indices events).flatMap (fun i => audio_streams.getD i []) := by
        rw [audio_indices, flatMap_map]
        refine flatMap_congr (fun e he => ?_)
        have : e.1 = .audio := by simpa using (mem_filter.mp he).2
        simp only [event_tokens, this]
      have hv : (events.filter (fun e => e.1 = .imgvid)).flatMap
          (event_tokens audio_streams visual_streams roles)
          = (imgvid_indices events).flatMap (fun i =>
            if roles.getD i .densePrefix = .joint_cube then [] else visual_streams.getD i []) := by
        rw [imgvid_indices, flatMap_map]
        refine flatMap_congr (fun e he => ?_)
        have : e.1 = .imgvid := by simpa using (mem_filter.mp he).2
        simp only [event_tokens, this]
      have hz : visual_streams.zip roles = (List.range visual_streams.length).map
          (fun i => (visual_streams.getD i [], roles.getD i .densePrefix)) := by
        refine ext_getElem (by simp [hrlen]) (fun i h₁ h₂ => ?_)
        have hi : i < visual_streams.length := by simpa using h₂
        rw [getElem_zip, getElem_map, getElem_range, getD_eq_getElem _ _ hi,
          getD_eq_getElem _ _ (by omega)]
      rw [ha, hv, himg, hz, flatMap_map]
    have haudio_perm := listed_unlisted_perm audio_streams (audio_indices events) hand hain
    have hvis_perm := joint_split_perm (visual_streams.zip roles)
    rw [map_fst_zip (by omega), hvflat] at hvis_perm
    rw [haflat] at haudio_perm
    have hunl_tokens : tokens_of unlisted = (((List.range audio_streams.length).filter
        (fun i => i ∉ audio_indices events)).map (fun i => audio_streams.getD i [])).flatten := by
      rw [hunl, tokens_of, flatMap_map]
      rfl
    rw [perm_iff_count]
    intro x
    have c₁ := (hlperm.trans hevents_perm).count_eq x
    have c₂ := haudio_perm.count_eq x
    have c₃ := hvis_perm.count_eq x
    have c₄ := hjperm.count_eq x
    have c₅ := congrArg (List.count x) hunl_tokens
    simp only [count_append] at c₁ c₂ c₃ c₄
    simp only [tokens_of, flatMap_append, flatMap_cons, flatMap_nil, append_nil,
      count_append, sample_tokens] at c₁ c₅ ⊢
    simp only [group_cube_1d_segment]
    omega

/-! ## All samples -/

theorem length_cube_labels_foldl (segs : List Segment) :
    ∀ st : SegmentState, (segs.foldl place st).cube_labels.length = st.cube_labels.length := by
  induction segs with
  | nil => exact fun st => rfl
  | cons seg segs ih =>
    intro st
    rw [foldl_cons, ih, length_cube_labels_place]

/-- The accumulators before the first sample. -/
def init_state (n : ℕ) : SegmentState where
  cube_labels := List.replicate n (-1)
  label_offset := 0
  sparse_labels := []
  ordered_segments := []

theorem Placed.init (n : ℕ) : Placed n (init_state n) [] :=
  ⟨rfl, length_replicate, ⟨[], rfl, List.Pairwise.nil, by simp⟩, rfl⟩

/-- **The sample loop's invariant.** The state is what placing some well-formed segments
leaves; they hold the tokens of the samples seen so far, and the label ranges tile the
labels given out. -/
structure SampleLoop (n : ℕ) (front : List Sample) (acc : SegmentState × List (ℕ × ℕ)) : Prop where
  placed : ∃ segs : List Segment, acc.1 = segs.foldl place (init_state n) ∧
    (∀ seg ∈ segs, seg.WF) ∧ (∀ seg ∈ segs, ∀ i ∈ seg.ordered, i < n) ∧
    (tokens_of segs).Perm (front.flatMap sample_tokens)
  ranges : (acc.2.map (fun r => r.2 - r.1)).sum = acc.1.label_offset
  sparse : acc.1.sparse_labels.length = acc.1.label_offset
  target : front ≠ [] → ∃ r ∈ acc.2, ∃ i, r.1 ≤ i ∧ i < r.2 ∧ acc.1.sparse_labels[i]? = some true
  latent : ∀ sample ∈ front, sample.latent.length = sample.target_shape.prod

theorem SampleLoop.step [LinearOrder π] (hs : 0 < token_size) (hcube : cube_size.Pos)
    {front : List Sample} {sample : Sample} {acc acc' : SegmentState × List (ℕ × ℕ)}
    (h : SampleLoop n front acc)
    (hadd : add_sample position_ids cube_size token_size acc sample = .ok acc') :
    SampleLoop n (front ++ [sample]) acc' := by
  obtain ⟨xs, hxs, hadd⟩ := bind_eq_ok.mp hadd
  obtain ⟨st, hst, hadd⟩ := bind_eq_ok.mp hadd
  cases hadd
  obtain ⟨new, hnew, hin, rfl⟩ := add_segments_eq_ok.mp hst
  obtain ⟨hwf, hperm, hlatent, newfront, target, hlast, htarget, htne⟩ :=
    sample_segments_spec hs hcube hxs hnew
  obtain ⟨segs, hsegs, hwf₀, hin₀, hperm₀⟩ := h.placed
  refine ⟨⟨segs ++ new, ?_, ?_, ?_, ?_⟩, ?_, ?_, ?_, ?_⟩
  · rw [foldl_append, ← hsegs]
  · intro seg hseg
    rcases mem_append.mp hseg with hmem | hmem
    · exact hwf₀ seg hmem
    · exact hwf seg hmem
  · intro seg hseg i hi
    rcases mem_append.mp hseg with hmem | hmem
    · exact hin₀ seg hmem i hi
    · have := hin seg hmem i hi
      rw [hsegs, length_cube_labels_foldl] at this
      simpa [init_state] using this
  · rw [tokens_of, flatMap_append, flatMap_append, flatMap_singleton]
    exact hperm₀.append hperm
  · have hle := label_offset_le_foldl new acc.1
    rw [map_append, sum_append, h.ranges]
    show acc.1.label_offset + ((new.foldl place acc.1).label_offset - acc.1.label_offset)
      = (new.foldl place acc.1).label_offset
    omega
  · obtain ⟨flags, hflags, hoff⟩ := sparse_labels_foldl new acc.1
    rw [hflags, hoff, length_append, h.sparse]
  · -- the first label of the target's segment
    intro _
    obtain ⟨flags, hflags, hoff⟩ := sparse_labels_foldl newfront acc.1
    refine ⟨_, mem_append_right _ (mem_singleton.mpr rfl),
      (newfront.foldl place acc.1).label_offset, label_offset_le_foldl newfront acc.1, ?_, ?_⟩
    · rw [hlast, foldl_append, foldl_cons]
      unfold place
      rw [if_neg htne]
      exact Nat.lt_add_of_pos_right (hwf target (by rw [hlast]; simp) |>.num_blocks_pos htne)
    · rw [hlast, foldl_append]
      have hpos := (hwf target (by rw [hlast]; simp)).num_blocks_pos htne
      have hlen : (newfront.foldl place acc.1).sparse_labels.length
          = (newfront.foldl place acc.1).label_offset := by
        rw [hflags, hoff, length_append, h.sparse]
      show (place (newfront.foldl place acc.1) target).sparse_labels[_]? = some true
      have hflag : (place (newfront.foldl place acc.1) target).sparse_labels
          = (newfront.foldl place acc.1).sparse_labels
            ++ List.replicate target.num_blocks target.sparse := by
        unfold place
        rw [if_neg htne]
      rw [hflag, getElem?_append_right (by omega), hlen, Nat.sub_self,
        getElem?_replicate, if_pos hpos, htarget]
  · intro s hs
    rcases mem_append.mp hs with hmem | hmem
    · exact h.latent s hmem
    · rw [mem_singleton.mp hmem]
      exact hlatent

/-! ## Slices of a stream -/

theorem flatten_slices (a : ℕ) (bounds : List ℕ) (h : (a :: bounds).Pairwise (· ≤ ·))
    : (((a :: bounds).zip bounds).map (slice xs)).flatten
      = slice xs (a, (a :: bounds).getLast (cons_ne_nil _ _)) := by
  induction bounds generalizing a with
  | nil => simp [slice_self]
  | cons b bounds ih =>
    rw [zip_cons_cons, map_cons, flatten_cons, ih b (pairwise_cons.mp h).2]
    have hab : a ≤ b := (pairwise_cons.mp h).1 b (by simp)
    refine slice_append xs hab ?_
    rcases mem_cons.mp (getLast_mem (cons_ne_nil b bounds)) with heq | hmem
    · exact heq.ge
    · exact (pairwise_cons.mp (pairwise_cons.mp h).2).1 _ hmem

end

variable {cu_seqlens : List ℕ}

theorem cube_sample_segments_sublist (indices : List ℕ) (h : cu_seqlens.Pairwise (· ≤ ·)) :
    ((cube_sample_segments indices cu_seqlens).flatten).Sublist indices := by
  unfold cube_sample_segments
  simp only
  have hb : (cu_seqlens.map (searchsorted indices)).Pairwise (· ≤ ·) := by
    rw [pairwise_map]
    exact h.imp (fun hab => searchsorted_mono indices hab)
  cases hc : cu_seqlens.map (searchsorted indices) with
  | nil => simp
  | cons a bounds =>
    rw [hc] at hb
    rw [tail_cons, flatten_slices indices a bounds hb]
    exact slice_sublist _ _

theorem length_cube_sample_segments (indices : List ℕ) (h : cu_seqlens.length = n + 1) :
    (cube_sample_segments indices cu_seqlens).length = n := by
  unfold cube_sample_segments
  simp [h]

theorem bounds_ascend (indices : List ℕ) (h : cu_seqlens.length = n + 1)
    (hpos : ∀ i < n, (cube_sample_segments indices cu_seqlens).getD i [] ≠ []) :
    cu_seqlens.Pairwise (· ≤ ·) := by
  rw [← isChain_iff_pairwise, isChain_iff_getElem]
  intro i hi
  by_contra hlt
  have hmono := searchsorted_mono indices (show cu_seqlens[i + 1] ≤ cu_seqlens[i] by omega)
  refine hpos i (by omega) ?_
  have hlen := length_cube_sample_segments indices h
  rw [getD_eq_getElem _ _ (by omega)]
  unfold cube_sample_segments
  simp only [getElem_map, getElem_zip, getElem_tail]
  rw [slice_eq, Nat.sub_eq_zero_of_le hmono, take_zero]

/-! ## The accepted layout -/

/-- The tokens of all streams. -/
def PackedStreams.tokens (streams : PackedStreams) : List ℕ :=
  streams.text ++ (streams.cond_audio ++ (streams.cond_image ++ (streams.audio ++ streams.latent)))

/-- **An ordered segment layout.** Every packed token stands in the order once, and the
labels along the order ascend below the number of labels. -/
structure Ordered (n : ℕ) (seg : SegmentLayout) : Prop where
  perm : seg.sort_idx.Perm (List.range n)
  labels : ∃ labels : List ℕ, sorted_labels_of seg = labels.map (fun (l : ℕ) => (l : ℤ)) ∧
    labels.Pairwise (· ≤ ·) ∧ ∀ l ∈ labels, l < num_labels_of seg
  length : seg.cube_labels.length = n
  sparse : seg.sparse_labels.length = num_labels_of seg

variable {sample_shapes : List Shape} {streams : PackedStreams}

theorem samples_tokens_subperm {samples : List Sample}
    (hlen : cu_seqlens.length = sample_shapes.length + 1)
    (h : samples_of sample_shapes cu_seqlens streams = .ok samples)
    (hshapes : ∀ s ∈ sample_shapes, s.Pos)
    (hlatent : ∀ sample ∈ samples, sample.latent.length = sample.target_shape.prod) :
    (samples.flatMap sample_tokens).Subperm streams.tokens := by
  obtain ⟨shapes, _, h⟩ := bind_eq_ok.mp h
  obtain ⟨roles, _, h⟩ := bind_eq_ok.mp h
  obtain ⟨events, _, h⟩ := bind_eq_ok.mp h
  obtain ⟨lens, _, h⟩ := bind_eq_ok.mp h
  have hsamples := (Except.ok.inj h).symm
  have hasc : cu_seqlens.Pairwise (· ≤ ·) := by
    refine bounds_ascend streams.latent hlen (fun i hi hnil => ?_)
    have hmem := hlatent _ (by
      rw [hsamples]
      exact mem_map_of_mem (mem_range.mpr hi))
    simp only at hmem
    rw [hnil, length_nil, getD_eq_getElem _ _ hi] at hmem
    have := (hshapes _ (getElem_mem hi)).prod_pos
    omega
  -- a stream's parts over all samples
  have part : ∀ indices : List ℕ, ((List.range sample_shapes.length).flatMap
      (fun i => (cube_sample_segments indices cu_seqlens).getD i [])).Sublist indices := by
    intro indices
    have hl := length_cube_sample_segments indices hlen
    have hflat := map_getD_range (cube_sample_segments indices cu_seqlens) []
    rw [hl] at hflat
    rw [flatMap_def, hflat]
    exact cube_sample_segments_sublist indices hasc
  rw [hsamples, flatMap_map]
  have hsub := ((part streams.text).append ((part streams.cond_audio).append
    ((part streams.cond_image).append ((part streams.audio).append (part streams.latent))))).subperm
  refine (List.Perm.subperm_right ?_).mp hsub
  refine (List.Perm.append_left _ ?_).trans (flatMap_append_perm _ _ _)
  refine (List.Perm.append_left _ ?_).trans (flatMap_append_perm _ _ _)
  refine (List.Perm.append_left _ ?_).trans (flatMap_append_perm _ _ _)
  exact flatMap_append_perm _ _ _

section

variable (hs : 0 < token_size) (hcube : cube_size.Pos) (hshapes : ∀ s ∈ sample_shapes, s.Pos)
include hs hcube hshapes

theorem build_cube_segment_layout_loop [LinearOrder π] {seg : SegmentLayout}
    (h : build_cube_segment_layout sample_shapes cu_seqlens n cube_size token_size streams
      position_ids = .ok seg) : ∃ samples acc, SampleLoop n samples acc ∧ samples ≠ [] ∧
      (samples.flatMap sample_tokens).Subperm streams.tokens ∧
      acc.1.ordered_segments.flatten.length = n ∧
      seg = ⟨acc.1.cube_labels, acc.1.ordered_segments.flatten, acc.2, acc.1.sparse_labels⟩ := by
  unfold build_cube_segment_layout at h
  split at h
  · cases h
  next hlen =>
  rw [not_not] at hlen
  obtain ⟨samples, hsamples, h⟩ := bind_eq_ok.mp h
  obtain ⟨acc, hacc, h⟩ := bind_eq_ok.mp h
  have hloop : SampleLoop n samples acc := by
    have hinit : SampleLoop n [] (init_state n, []) :=
      ⟨⟨[], rfl, by simp, by simp, List.Perm.refl _⟩, rfl, rfl, fun hne => absurd rfl hne, by simp⟩
    exact foldlM_invariant samples [] hinit (fun front x s t hI hf => hI.step hs hcube hf) hacc
  split at h
  · cases h
  next hne =>
  simp only at h
  split at h
  · split at h
    · cases h
    · cases h
  next htotal =>
  rw [not_not] at htotal
  cases h
  refine ⟨samples, acc, hloop, ?_, ?_, htotal, rfl⟩
  · rintro rfl
    cases hacc
    exact hne rfl
  · exact samples_tokens_subperm hlen hsamples hshapes hloop.latent

/-- **Accepted layouts are ordered.** When no token stands in two streams, an accepted
segment layout orders every packed token once. -/
theorem build_cube_segment_layout_ordered [LinearOrder π] {seg : SegmentLayout}
    (hnd : streams.tokens.Nodup)
    (h : build_cube_segment_layout sample_shapes cu_seqlens n cube_size token_size streams
      position_ids = .ok seg) : Ordered n seg := by
  obtain ⟨samples, acc, hloop, _, hsub, htotal, rfl⟩ :=
    build_cube_segment_layout_loop hs hcube hshapes h
  obtain ⟨segs, hacc, hwf, hin, hperm⟩ := hloop.placed
  have hnodup : (tokens_of segs).Nodup := by
    obtain ⟨ys, hys, hsl⟩ := hsub
    exact (hperm.trans hys.symm).nodup_iff.mpr (hsl.nodup hnd)
  have hplaced := (Placed.init n).foldl hwf (by simpa using hnodup) hin
  rw [← hacc, nil_append] at hplaced
  have hnum : num_labels_of ⟨acc.1.cube_labels, acc.1.ordered_segments.flatten, acc.2,
      acc.1.sparse_labels⟩ = acc.1.label_offset := hloop.ranges
  refine ⟨?_, ?_, hplaced.length, ?_⟩
  · rw [hplaced.order] at htotal ⊢
    refine (List.Nodup.subperm hnodup ?_).perm_of_length_le (by simp [htotal])
    intro i hi
    obtain ⟨seg, hseg, hiseg⟩ := mem_flatMap.mp hi
    exact mem_range.mpr (hin seg hseg i hiseg)
  · obtain ⟨labels, hlabels, hsorted, hbound⟩ := hplaced.labels
    refine ⟨labels, ?_, hsorted, ?_⟩
    · rw [hplaced.order]
      exact hlabels
    · rw [hnum]
      exact hbound
  · rw [hnum]
    exact hloop.sparse

end

end LightningH3.CubeMask
