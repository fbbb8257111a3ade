/-
When the cube layout builder accepts a sample: the converse of what an accepted layout is.

The checks on stream sizes, roles and events are met by a description that tiles the
rows. What remains is the count of occupied labels. A one-dimensional segment and an
independent cube grid leave no label empty by construction. The joint grid of target and
keyframes ranks the float positions of each axis on its own, and leaves no label empty
when the positions form a grid: with two tokens' positions, their mixtures occur too.
-/
import LightningH3.CubeLossless

set_option autoImplicit false

namespace LightningH3.CubeMask

open Segments IndexOps Fallible List Nat

/-! ## Ranks of an axis -/

section Ranks

variable {π : Type} [LinearOrder π]

theorem length_changes (sorted : List π) : (changes sorted).length = sorted.length := by
  cases sorted with
  | nil => rfl
  | cons x rest => simp [changes]

/-- The rank of the k-th sorted value: how often the value changed before. -/
def sorted_rank (sorted : List π) (k : ℕ) : ℕ := start (changes sorted) (k + 1) - 1

variable {sorted : List π}

theorem changes_zero (h : 0 < sorted.length) : (changes sorted).getD 0 0 = 1 := by
  cases sorted with
  | nil => simp at h
  | cons x rest => rfl

variable {k : ℕ}

theorem changes_succ (h : k + 1 < sorted.length) :
    (changes sorted).getD (k + 1) 0 = if sorted[k + 1] ≠ sorted[k] then 1 else 0 := by
  cases sorted with
  | nil => simp at h
  | cons x rest =>
    have hk : k < rest.length := by simpa using h
    show (((x :: rest).zip rest).map (fun p => if p.2 ≠ p.1 then 1 else 0)).getD k 0 = _
    rw [getD_eq_getElem _ _ (by simpa using hk), getElem_map, getElem_zip]
    rfl

theorem one_le_start_changes (h : 0 < sorted.length) (k : ℕ) :
    1 ≤ start (changes sorted) (k + 1) := by
  have hmono := start_mono (changes sorted) (show 1 ≤ k + 1 by omega)
  have hlen : 0 < (changes sorted).length := by rw [length_changes]; exact h
  have hfirst := start_succ hlen
  rw [← getD_eq_getElem _ 0 hlen, changes_zero h, Nat.zero_add] at hfirst
  omega

theorem sorted_rank_succ (h : k + 1 < sorted.length) :
    sorted_rank sorted (k + 1) = sorted_rank sorted k
      + if sorted[k + 1] ≠ sorted[k] then 1 else 0 := by
  have hlen : k + 1 < (changes sorted).length := by rw [length_changes]; exact h
  have hone := one_le_start_changes (show 0 < sorted.length by omega) k
  have hsucc := start_succ hlen
  rw [← getD_eq_getElem _ 0 hlen, changes_succ h] at hsucc
  unfold sorted_rank
  omega

theorem sorted_rank_zero (h : 0 < sorted.length) : sorted_rank sorted 0 = 0 := by
  have hlen : 0 < (changes sorted).length := by rw [length_changes]; exact h
  have hsucc := start_succ hlen
  rw [start_zero, ← getD_eq_getElem _ 0 hlen, changes_zero h] at hsucc
  unfold sorted_rank
  omega

variable {v : π}

theorem sorted_rank_eq (hs : sorted.Pairwise (· ≤ ·)) {i : ℕ} :
    ∀ {j : ℕ}, i ≤ j → sorted[i]? = some v → sorted[j]? = some v →
      sorted_rank sorted j = sorted_rank sorted i := by
  intro j
  induction j with
  | zero =>
    intro hij _ _
    rw [show i = 0 by omega]
  | succ j ih =>
    intro hij hi hj
    rcases Nat.lt_or_ge i (j + 1) with hlt | hge
    · obtain ⟨hi', hiv⟩ := List.getElem?_eq_some_iff.mp hi
      obtain ⟨hj', hjv⟩ := List.getElem?_eq_some_iff.mp hj
      -- the value before is squeezed between the two
      have h₁ : sorted[j] ≤ sorted[j + 1] :=
        pairwise_iff_getElem.mp hs j (j + 1) _ _ (by omega)
      have h₂ : sorted[i] ≤ sorted[j] := by
        rcases Nat.lt_or_ge i j with hlt' | hge'
        · exact pairwise_iff_getElem.mp hs i j _ _ hlt'
        · have : i = j := by omega
          subst this
          exact le_refl _
      have hmid : sorted[j] = v := le_antisymm (h₁.trans_eq hjv) (hiv.symm.trans_le h₂)
      rw [sorted_rank_succ hj', if_neg (by rw [hjv, hmid]; exact not_not.mpr rfl)]
      exact ih (by omega) hi (by rw [getElem?_eq_getElem (by omega), hmid])
    · rw [show i = j + 1 by omega]

theorem exists_sorted_rank (hk : k < sorted.length) :
    ∀ r ≤ sorted_rank sorted k, ∃ k' ≤ k, sorted_rank sorted k' = r := by
  induction k with
  | zero =>
    intro r hr
    rw [sorted_rank_zero hk] at hr
    exact ⟨0, Nat.le_refl _, by rw [sorted_rank_zero hk]; omega⟩
  | succ k ih =>
    intro r hr
    rcases Nat.lt_or_ge (sorted_rank sorted k) r with hlt | hge
    · refine ⟨k + 1, Nat.le_refl _, ?_⟩
      rw [sorted_rank_succ hk] at hr ⊢
      split at hr <;> simp_all <;> omega
    · obtain ⟨k', hk', hr'⟩ := ih (by omega) r hge
      exact ⟨k', by omega, hr'⟩

variable {p : ℕ}

theorem rank_position_axis_spec (values : List π) (h : (stable_sort values)[k]? = some (v, p)) :
    (rank_position_axis values)[p]? = some (sorted_rank ((stable_sort values).map Prod.fst) k) := by
  obtain ⟨hp, _⟩ :=
    List.getElem?_eq_some_iff.mp (getElem?_of_mem_stable_sort (mem_of_getElem? h))
  obtain ⟨hk, _⟩ := List.getElem?_eq_some_iff.mp h
  have hlen : (changes ((stable_sort values).map Prod.fst)).length = (stable_sort values).length := by
    rw [length_changes, length_map]
  unfold rank_position_axis
  rw [getElem?_scatter (k := k) ((stable_sort_order_perm values).nodup_iff.mpr nodup_range)
    (by rw [length_map, length_cumsum, hlen, length_map]) (by rw [getElem?_map, h, Option.map_some])
    (by rw [length_replicate]; exact hp)]
  unfold cumsum
  rw [getElem?_map, getElem?_map, getElem?_range (by rw [hlen]; exact hk)]
  rfl

variable {values : List π}

theorem exists_sorted_index (h : values[p]? = some v) :
    ∃ k : ℕ, (stable_sort values)[k]? = some (v, p) := by
  have hmem : (v, p) ∈ stable_sort values :=
    (stable_sort_perm values).mem_iff.mpr (mem_zipIdx_iff_getElem?.mpr h)
  exact getElem?_of_mem hmem

theorem rank_eq_of_value_eq (values : List π) {q : ℕ} (hp : values[p]? = some v)
    (hq : values[q]? = some v) :
    (rank_position_axis values)[p]? = (rank_position_axis values)[q]? := by
  obtain ⟨i, hi⟩ := exists_sorted_index hp
  obtain ⟨j, hj⟩ := exists_sorted_index hq
  rw [rank_position_axis_spec values hi, rank_position_axis_spec values hj]
  have hsorted := stable_sort_sorted values
  have hi' : ((stable_sort values).map Prod.fst)[i]? = some v := by
    rw [getElem?_map, hi, Option.map_some]
  have hj' : ((stable_sort values).map Prod.fst)[j]? = some v := by
    rw [getElem?_map, hj, Option.map_some]
  rcases Nat.le_total i j with hij | hij
  · rw [sorted_rank_eq hsorted hij hi' hj']
  · rw [sorted_rank_eq hsorted hij hj' hi']

theorem exists_rank_le {r r' : ℕ} (hp : (rank_position_axis values)[p]? = some r) (hr : r' ≤ r) :
    ∃ q : ℕ, (rank_position_axis values)[q]? = some r' := by
  obtain ⟨hlt, _⟩ := List.getElem?_eq_some_iff.mp hp
  rw [length_rank_position_axis] at hlt
  obtain ⟨k, hk⟩ := exists_sorted_index (getElem?_eq_getElem hlt)
  rw [rank_position_axis_spec values hk, Option.some.injEq] at hp
  obtain ⟨hklt, _⟩ := List.getElem?_eq_some_iff.mp hk
  obtain ⟨k', hk', heq⟩ := exists_sorted_rank (show k < ((stable_sort values).map Prod.fst).length by
    simpa using hklt) r' (by omega)
  have hk'lt : k' < (stable_sort values).length := by omega
  have hget := getElem?_eq_getElem hk'lt
  exact ⟨_, by rw [rank_position_axis_spec values hget, heq]⟩

theorem max_of_mem {xs : List ℕ} (h : xs ≠ []) : max_of xs ∈ xs := by
  have general : ∀ (ys : List ℕ) (a : ℕ), ys.foldl max a = a ∨ ys.foldl max a ∈ ys := by
    intro ys
    induction ys with
    | nil => exact fun a => Or.inl rfl
    | cons y ys ih =>
      intro a
      rw [foldl_cons]
      rcases ih (max a y) with heq | hmem
      · rw [heq]
        rcases Nat.le_total a y with hay | hay
        · rw [Nat.max_eq_right hay]
          exact Or.inr (by simp)
        · rw [Nat.max_eq_left hay]
          exact Or.inl rfl
      · exact Or.inr (mem_cons_of_mem _ hmem)
  rcases general xs 0 with hzero | hmem
  · cases xs with
    | nil => exact absurd rfl h
    | cons x xs =>
      have hx : x ≤ max_of (x :: xs) := le_max_of (by simp)
      have hx0 : x = 0 := by
        unfold max_of at hx
        omega
      unfold max_of
      rw [hzero, hx0]
      simp
  · exact hmem

theorem exists_rank (hne : values ≠ []) {r : ℕ} (hr : r ≤ max_of (rank_position_axis values)) :
    ∃ q : ℕ, (rank_position_axis values)[q]? = some r := by
  have hne' : rank_position_axis values ≠ [] := by
    intro hnil
    have := length_rank_position_axis values
    rw [hnil] at this
    exact hne (length_eq_zero_iff.mp this.symm)
  obtain ⟨p, hp⟩ := getElem?_of_mem (max_of_mem hne')
  exact exists_rank_le hp hr

end Ranks

/-! ## Full segments -/

/-- A segment in which every label occurs. -/
def Segment.Full (seg : Segment) : Prop := ∀ l < seg.num_blocks, l ∈ seg.labels

variable {n : ℕ}

theorem mul_lt_of_lt_ceil_div {l e : ℕ} (he : 0 < e) (h : l < ceil_div n e) : l * e < n := by
  have hle : (l + 1) * e ≤ n + e - 1 := (Nat.le_div_iff_mul_le he).mp h
  rw [succ_mul] at hle
  omega

variable {token_size : ℕ}

theorem group_cube_1d_segment_full (hs : 0 < token_size) (indices : List ℕ) :
    (group_cube_1d_segment indices token_size).Full := by
  intro l hl
  have hlt := mul_lt_of_lt_ceil_div hs hl
  refine mem_map.mpr ⟨l * token_size, mem_range.mpr hlt, ?_⟩
  exact Nat.mul_div_cancel l hs

theorem exists_coordinates {counts : Shape} {l : ℕ} (h : l < counts.prod) :
    ∃ i < counts.1, ∃ j < counts.2.1, ∃ k < counts.2.2, l = (i * counts.2.1 + j) * counts.2.2 + k := by
  have h' : l < counts.1 * counts.2.1 * counts.2.2 := by rwa [Nat.mul_assoc]
  have hc : 0 < counts.2.2 := by
    rcases Nat.eq_zero_or_pos counts.2.2 with hz | hp
    · rw [hz, Nat.mul_zero] at h'
      omega
    · exact hp
  have hlc : l / counts.2.2 < counts.1 * counts.2.1 := by
    rw [Nat.div_lt_iff_lt_mul hc]
    exact h'
  have hb : 0 < counts.2.1 := by
    rcases Nat.eq_zero_or_pos counts.2.1 with hz | hp
    · rw [hz] at hlc
      exact absurd hlc (Nat.not_lt_zero _)
    · exact hp
  refine ⟨l / counts.2.2 / counts.2.1, ?_, l / counts.2.2 % counts.2.1, mod_lt _ hb,
    l % counts.2.2, mod_lt _ hc, ?_⟩
  · rw [Nat.div_lt_iff_lt_mul hb]
    exact hlc
  · rw [div_add_mod', div_add_mod']

variable {indices : List ℕ}

theorem sort_by_label_full {labels : List ℕ} {num_blocks : ℕ} {sparse : Bool}
    (h : ∀ l < num_blocks, l ∈ labels) : (sort_by_label indices labels num_blocks sparse).Full := by
  intro l hl
  have hperm := sorted_values_perm labels
  exact hperm.mem_iff.mpr (h l hl)

theorem unravel_ravel {shape : Shape} {i j k : ℕ} (hj : j < shape.2.1) (hk : k < shape.2.2) :
    unravel_index shape ((i * shape.2.1 + j) * shape.2.2 + k) = (i, (j, k)) := by
  have hc : 0 < shape.2.2 := by omega
  have hb : 0 < shape.2.1 := by omega
  have hdiv : ((i * shape.2.1 + j) * shape.2.2 + k) / shape.2.2 = i * shape.2.1 + j := by
    rw [Nat.add_comm, add_mul_div_right _ _ hc, div_eq_of_lt hk, Nat.zero_add]
  have hmod : ((i * shape.2.1 + j) * shape.2.2 + k) % shape.2.2 = k := by
    rw [Nat.add_comm, add_mul_mod_self_right, mod_eq_of_lt hk]
  have hdiv' : (i * shape.2.1 + j) / shape.2.1 = i := by
    rw [Nat.add_comm, add_mul_div_right _ _ hb, div_eq_of_lt hj, Nat.zero_add]
  have hmod' : (i * shape.2.1 + j) % shape.2.1 = j := by
    rw [Nat.add_comm, add_mul_mod_self_right, mod_eq_of_lt hj]
  unfold unravel_index
  rw [hdiv, hmod, hmod', Nat.mul_comm shape.2.1, ← Nat.div_div_eq_div_mul, hdiv, hdiv']

variable {cube_size : Shape}

theorem group_cube_visual_segment_total {shape : Shape} (sample_idx : ℕ) (name : String)
    (hcube : cube_size.Pos) (hlen : indices.length = shape.prod) :
    ∃ seg, group_cube_visual_segment indices shape cube_size sample_idx name = .ok seg ∧
      seg.Full := by
  unfold group_cube_visual_segment
  rw [if_neg (not_not.mpr hlen)]
  refine ⟨_, rfl, sort_by_label_full ?_⟩
  intro l hl
  obtain ⟨i, hi, j, hj, k, hk, rfl⟩ := exists_coordinates hl
  have hi' := mul_lt_of_lt_ceil_div hcube.1 hi
  have hj' := mul_lt_of_lt_ceil_div hcube.2.1 hj
  have hk' := mul_lt_of_lt_ceil_div hcube.2.2 hk
  -- the cube's first cell
  refine mem_map.mpr ⟨(i * cube_size.1 * shape.2.1 + j * cube_size.2.1) * shape.2.2
    + k * cube_size.2.2, mem_range.mpr ?_, ?_⟩
  · unfold Shape.prod
    rw [Nat.mul_comm _ shape.2.2, Nat.mul_comm _ shape.2.1, ← Nat.mul_assoc shape.1]
    exact Nat.mul_add_lt_mul_of_lt_of_lt (Nat.mul_add_lt_mul_of_lt_of_lt hi' hj') hk'
  · rw [unravel_ravel hj' hk']
    unfold cube_label
    rw [Nat.mul_div_cancel _ hcube.1, Nat.mul_div_cancel _ hcube.2.1,
      Nat.mul_div_cancel _ hcube.2.2]

/-- Tokens whose positions form a grid: mixtures of their coordinates occur. -/
def GridTokens {π : Type} (position_ids : List (π × (π × π))) (tokens : List ℕ) : Prop :=
  ∀ a ∈ tokens, ∀ b ∈ tokens, ∀ c ∈ tokens, ∃ d ∈ tokens, ∃ pa pb pc,
    position_ids[a]? = some pa ∧ position_ids[b]? = some pb ∧ position_ids[c]? = some pc ∧
      position_ids[d]? = some (pa.1, (pb.2.1, pc.2.2))

/-- **The joint grid is full.** Tokens on a grid of positions leave no cube empty. -/
theorem group_joint_cube_visual_segment_total {π : Type} [LinearOrder π]
    {position_ids : List (π × (π × π))} (sample_idx : ℕ) (hcube : cube_size.Pos)
    (hne : indices ≠ []) (hin : ∀ t ∈ indices, t < position_ids.length)
    (hgrid : GridTokens position_ids indices) :
    ∃ seg, group_joint_cube_visual_segment indices position_ids cube_size sample_idx = .ok seg ∧
      seg.Full := by
  obtain ⟨positions, hsel, hlen, hget⟩ := index_select_total position_ids hin
  unfold group_joint_cube_visual_segment
  rw [if_neg hne, hsel]
  refine ⟨_, rfl, sort_by_label_full ?_⟩
  have hpne : positions ≠ [] := by
    intro hnil
    rw [hnil] at hlen
    exact hne (length_eq_zero_iff.mp hlen.symm)
  intro l hl
  obtain ⟨i, hi, j, hj, k, hk, rfl⟩ := exists_coordinates hl
  have le_of : ∀ {c e m : ℕ}, 0 < e → c < m / e + 1 → c * e ≤ m := fun he hc =>
    (Nat.le_div_iff_mul_le he).mp (Nat.lt_succ_iff.mp hc)
  obtain ⟨p, hp⟩ := exists_rank (by simpa using hpne) (le_of hcube.1 hi)
  obtain ⟨q, hq⟩ := exists_rank (by simpa using hpne) (le_of hcube.2.1 hj)
  obtain ⟨r, hr⟩ := exists_rank (by simpa using hpne) (le_of hcube.2.2 hk)
  -- the token at the mixed position
  have token : ∀ {values : List π} {s v : ℕ}, values.length = positions.length →
      (rank_position_axis values)[s]? = some v → ∃ t, indices[s]? = some t ∧
        positions[s]? = position_ids[t]? := by
    intro values s v hv hs
    obtain ⟨hlt, _⟩ := List.getElem?_eq_some_iff.mp hs
    rw [length_rank_position_axis, hv, hlen] at hlt
    exact ⟨_, getElem?_eq_getElem hlt, hget s _ (getElem?_eq_getElem hlt)⟩
  obtain ⟨a, ha, hpa⟩ := token (by simp) hp
  obtain ⟨b, hb, hpb⟩ := token (by simp) hq
  obtain ⟨c, hc, hpc⟩ := token (by simp) hr
  obtain ⟨d, hd, pa, pb, pc, hpa', hpb', hpc', hpd⟩ := hgrid a (mem_of_getElem? ha) b
    (mem_of_getElem? hb) c (mem_of_getElem? hc)
  obtain ⟨s, hs⟩ := getElem?_of_mem hd
  have hps : positions[s]? = some (pa.1, (pb.2.1, pc.2.2)) := by rw [hget s d hs, hpd]
  rw [hpa'] at hpa
  rw [hpb'] at hpb
  rw [hpc'] at hpc
  have ht := rank_eq_of_value_eq (positions.map (fun x => x.1)) (p := s) (q := p)
    (v := pa.1) (by rw [getElem?_map, hps]; rfl) (by rw [getElem?_map, hpa]; rfl)
  have hx := rank_eq_of_value_eq (positions.map (fun x => x.2.1)) (p := s) (q := q)
    (v := pb.2.1) (by rw [getElem?_map, hps]; rfl) (by rw [getElem?_map, hpb]; rfl)
  have hy := rank_eq_of_value_eq (positions.map (fun x => x.2.2)) (p := s) (q := r)
    (v := pc.2.2) (by rw [getElem?_map, hps]; rfl) (by rw [getElem?_map, hpc]; rfl)
  rw [hp] at ht
  rw [hq] at hx
  rw [hr] at hy
  refine mem_map.mpr ⟨(i * cube_size.1, (j * cube_size.2.1, k * cube_size.2.2)), ?_, ?_⟩
  · refine mem_of_getElem? (i := s) ?_
    rw [getElem?_zip_eq_some, getElem?_zip_eq_some]
    exact ⟨ht, hx, hy⟩
  · unfold cube_label
    rw [Nat.mul_div_cancel _ hcube.1, Nat.mul_div_cancel _ hcube.2.1,
      Nat.mul_div_cancel _ hcube.2.2]

/-! ## Occupied labels -/

/-- Every label given out is carried by a placed token. -/
def Occupied (st : SegmentState) (tokens : List ℕ) : Prop :=
  ∀ l < st.label_offset, ∃ t ∈ tokens, st.cube_labels.getD t (-1) = (l : ℤ)

theorem Occupied.place {st : SegmentState} {tokens : List ℕ} (ho : Occupied st tokens)
    (h : Placed n st tokens) {seg : Segment} (hwf : seg.WF) (hfull : seg.Full)
    (hnd : (tokens ++ seg.ordered).Nodup) (hin : ∀ i ∈ seg.ordered, i < n) :
    Occupied (CubeMask.place st seg) (tokens ++ seg.ordered) := by
  unfold CubeMask.place
  by_cases hnil : seg.ordered = []
  · rw [hnil, append_nil]
    exact ho
  rw [if_neg hnil]
  rw [nodup_append] at hnd
  intro l hl
  rcases Nat.lt_or_ge l st.label_offset with hold | hnew
  · obtain ⟨t, ht, hlabel⟩ := ho l hold
    refine ⟨t, mem_append_left _ ht, ?_⟩
    have hout : t ∉ seg.ordered := fun hmem => hnd.2.2 t ht t hmem rfl
    rw [getD_eq_getElem?_getD] at hlabel ⊢
    rw [getElem?_scatter_of_notMem hout]
    exact hlabel
  · -- the label's first token in the segment
    have hl' : l - st.label_offset < seg.num_blocks := by
      have : l < st.label_offset + seg.num_blocks := hl
      omega
    obtain ⟨k, hk⟩ := getElem?_of_mem (hfull _ hl')
    have hkord : k < seg.ordered.length := by
      obtain ⟨hlt, _⟩ := List.getElem?_eq_some_iff.mp hk
      rwa [hwf.length] at hlt
    have hget := getElem?_eq_getElem hkord
    refine ⟨seg.ordered[k], mem_append_right _ (getElem_mem hkord), ?_⟩
    rw [getD_eq_getElem?_getD, getElem?_scatter hnd.2.1 (by simpa using hwf.length) hget
      (by rw [h.length]; exact hin _ (getElem_mem hkord)), getElem?_map, hk,
      Option.map_some, Option.getD_some]
    congr 1
    omega

theorem Occupied.foldl {segs : List Segment} :
    ∀ {st : SegmentState} {tokens : List ℕ}, Occupied st tokens → Placed n st tokens →
      (∀ seg ∈ segs, seg.WF) → (∀ seg ∈ segs, seg.Full) → (tokens ++ tokens_of segs).Nodup →
      (∀ seg ∈ segs, ∀ i ∈ seg.ordered, i < n) →
      Occupied (segs.foldl CubeMask.place st) (tokens ++ tokens_of segs) := by
  induction segs with
  | nil =>
    intro st tokens ho _ _ _ _ _
    rw [tokens_of, flatMap_nil, append_nil]
    exact ho
  | cons seg segs ih =>
    intro st tokens ho h hwf hfull hnd hin
    have hsplit : tokens ++ tokens_of (seg :: segs) = (tokens ++ seg.ordered) ++ tokens_of segs := by
      rw [append_assoc]
      rfl
    rw [hsplit] at hnd ⊢
    have hnd₀ := (nodup_append.mp hnd).1
    have hplaced := h.place (hwf seg (by simp)) hnd₀ (hin seg (by simp))
    have hocc := ho.place h (hwf seg (by simp)) (hfull seg (by simp)) hnd₀ (hin seg (by simp))
    exact ih hocc hplaced (fun s hs => hwf s (mem_cons_of_mem _ hs))
      (fun s hs => hfull s (mem_cons_of_mem _ hs)) hnd
      (fun s hs => hin s (mem_cons_of_mem _ hs))

theorem length_runs_of_occupied {labels : List ℕ} (hsorted : labels.Pairwise (· ≤ ·))
    (hbound : ∀ l ∈ labels, l < n) (hall : ∀ l < n, l ∈ labels) : (runs labels).length = n := by
  have hstrict := runs_strict hsorted
  have hnd : ((runs labels).map Prod.fst).Nodup := hstrict.imp (fun h => Nat.ne_of_lt h)
  have hperm : ((runs labels).map Prod.fst).Perm (List.range n) := by
    rw [perm_ext_iff_of_nodup hnd nodup_range]
    intro l
    rw [mem_range]
    constructor
    · intro hl
      obtain ⟨p, hp, rfl⟩ := mem_map.mp hl
      exact hbound p.1 (mem_of_mem_runs hp)
    · intro hl
      exact mem_runs_of_mem (hall l hl)
  have hlen := hperm.length_eq
  rwa [length_map, length_range] at hlen

/-! ## Splitting succeeds -/

variable {sizes : List ℤ}

theorem split_from_covered {name : String} : ∀ {offset : ℕ} {streams : List (List ℕ)} {covered : ℕ},
      split_from indices name offset sizes = .ok (streams, covered) →
        covered = offset + (sizes.map Int.toNat).sum := by
  induction sizes with
  | nil =>
    intro offset streams covered h
    cases h
    rfl
  | cons size sizes ih =>
    intro offset streams covered h
    unfold split_from at h
    split at h
    · cases h
    · obtain ⟨rest, hrest, h'⟩ := bind_eq_ok.mp h
      cases h'
      rw [ih hrest, map_cons, sum_cons, Nat.add_assoc]

theorem sum_of_split_cube_streams {sample_idx : ℕ} {name : String} {streams : List (List ℕ)}
    (h : split_cube_streams indices sizes sample_idx name = .ok streams) :
    (sizes.map Int.toNat).sum = indices.length := by
  obtain ⟨⟨streams', covered⟩, hsplit, h'⟩ := bind_eq_ok.mp h
  split at h'
  · cases h'
  · next hlen =>
    have := split_from_covered hsplit
    omega

theorem split_from_total (indices : List ℕ) (name : String) (hpos : ∀ s ∈ sizes, 0 ≤ s) :
    ∀ offset : ℕ, offset + (sizes.map Int.toNat).sum ≤ indices.length →
      ∃ streams, split_from indices name offset sizes
          = .ok (streams, offset + (sizes.map Int.toNat).sum) ∧
        streams.map List.length = sizes.map Int.toNat := by
  induction sizes with
  | nil => exact fun _ _ => ⟨[], rfl, rfl⟩
  | cons size sizes ih =>
    intro offset hle
    rw [map_cons, sum_cons] at hle
    obtain ⟨streams, hsplit, hlens⟩ := ih (fun s hs => hpos s (mem_cons_of_mem _ hs))
      (offset + size.toNat) (by omega)
    refine ⟨slice indices (offset, offset + size.toNat) :: streams, ?_, ?_⟩
    · unfold split_from
      rw [if_neg (not_lt.mpr (hpos size (by simp))), hsplit, map_cons, sum_cons]
      show Except.ok _ = _
      rw [Nat.add_assoc]
    · rw [map_cons]
      congr 1
      rw [slice_eq, length_take, length_drop]
      omega

theorem split_cube_streams_total (sample_idx : ℕ) (name : String) (hpos : ∀ s ∈ sizes, 0 ≤ s)
    (hsum : (sizes.map Int.toNat).sum = indices.length) :
    ∃ streams, split_cube_streams indices sizes sample_idx name = .ok streams ∧
      streams.map List.length = sizes.map Int.toNat := by
  obtain ⟨streams, hsplit, hlens⟩ := split_from_total indices name hpos 0 (by omega)
  refine ⟨streams, ?_, hlens⟩
  unfold split_cube_streams
  rw [hsplit]
  show (if 0 + (sizes.map Int.toNat).sum ≠ indices.length then _ else _) = _
  rw [if_neg (by omega)]

/-! ## One sample -/

/-- The condition tokens on the target's grid. -/
def joint_tokens (streams : List (List ℕ)) (roles : List CondRole) : List ℕ :=
  (((streams.zip roles).filter (fun p => p.2 = .joint_cube)).map Prod.fst).flatten

/-- **A tiled sample.** Its description passes every check: the sizes tile the condition
rows, roles and events cover the streams, an independent grid has several frames, and the
target with its joint streams lies on a grid of positions. -/
structure Sample.Tiled {π : Type} (position_ids : List (π × (π × π))) (sample : Sample)
    (shapes : List Shape) (roles : List CondRole) (events : List (EventType × (ℤ × String))) :
    Prop where
  audio_nonneg : ∀ l ∈ sample.cond_audio_stream_lens, 0 ≤ l
  audio_sum : (sample.cond_audio_stream_lens.map Int.toNat).sum = sample.cond_audio.length
  shapes_ok : sample.cond_image_shapes.mapM normalize_cube_visual_shape = .ok shapes
  visual_sum : (shapes.map Shape.prod).sum = sample.cond_image.length
  roles_ok : normalize_cond_image_roles sample.cond_image_roles shapes.length sample.sample_idx
    = .ok roles
  events_ok : normalize_condition_event_order sample.cond_event_order shapes.length
    sample.cond_audio_stream_lens.length true = .ok events
  genuine : ∀ i, roles.getD i .densePrefix = .independent_cube →
    1 < (shapes.getD i (0, (0, 0))).1
  latent : sample.latent.length = sample.target_shape.prod
  positive : sample.target_shape.Pos
  located : ∀ t ∈ sample.cond_image ++ sample.latent, t < position_ids.length
  grid : ∀ streams : List (List ℕ), streams.flatten = sample.cond_image →
    streams.length = shapes.length →
      GridTokens position_ids (joint_tokens streams roles ++ sample.latent)

variable {roles : List CondRole} {shapes : List Shape}

theorem event_segment_total (sample_idx : ℕ) (audio_streams : List (List ℕ))
    {visual_streams : List (List ℕ)}
    (event : EventType × (ℤ × String)) (hs : 0 < token_size) (hcube : cube_size.Pos)
    (hlens : visual_streams.map List.length = shapes.map Shape.prod)
    (hgenuine : ∀ i, roles.getD i .densePrefix = .independent_cube →
      1 < (shapes.getD i (0, (0, 0))).1) :
    event_segment cube_size token_size sample_idx audio_streams visual_streams shapes roles event
        = none ∨
      ∃ seg, event_segment cube_size token_size sample_idx audio_streams visual_streams shapes roles
        event = some (.ok seg) ∧ seg.Full := by
  unfold event_segment
  cases event.1 with
  | audio => exact Or.inr ⟨_, rfl, group_cube_1d_segment_full hs _⟩
  | imgvid =>
    simp only
    cases hrole : roles.getD event.2.1.toNat .densePrefix with
    | joint_cube => exact Or.inl rfl
    | densePrefix => exact Or.inr ⟨_, rfl, group_cube_1d_segment_full hs _⟩
    | independent_cube =>
      have hgen := hgenuine _ hrole
      rw [if_neg (by omega)]
      have hlen : (visual_streams.getD event.2.1.toNat []).length
          = (shapes.getD event.2.1.toNat (0, (0, 0))).prod := by
        have h := congrArg (fun l => l.getD event.2.1.toNat 0) hlens
        simp only [getD_eq_getElem?_getD, getElem?_map] at h ⊢
        cases hv : visual_streams[event.2.1.toNat]? with
        | none =>
          cases hsh : shapes[event.2.1.toNat]? with
          | none => rfl
          | some shape => rw [hv, hsh] at h; simpa [Shape.prod] using h
        | some stream =>
          cases hsh : shapes[event.2.1.toNat]? with
          | none => rw [hv, hsh] at h; simpa [Shape.prod] using h
          | some shape => rw [hv, hsh] at h; simpa using h
      obtain ⟨seg, hseg, hfull⟩ := group_cube_visual_segment_total sample_idx
        ("condition visual stream " ++ toString event.2.1.toNat) hcube hlen
      exact Or.inr ⟨seg, by rw [hseg], hfull⟩

theorem filterMap_total {ε α : Type} {f : α → Option (Except ε Segment)} (xs : List α)
    (h : ∀ x ∈ xs, f x = none ∨ ∃ seg, f x = some (.ok seg) ∧ seg.Full) :
    ∃ segs : List Segment, xs.filterMap f = segs.map .ok ∧ ∀ seg ∈ segs, seg.Full := by
  induction xs with
  | nil => exact ⟨[], rfl, by simp⟩
  | cons x xs ih =>
    obtain ⟨segs, hsegs, hfull⟩ := ih (fun y hy => h y (mem_cons_of_mem _ hy))
    rcases h x (by simp) with hnone | ⟨seg, hsome, hseg⟩
    · exact ⟨segs, by rw [filterMap_cons_none hnone, hsegs], hfull⟩
    · refine ⟨seg :: segs, by rw [filterMap_cons_some hsome, hsegs, map_cons], ?_⟩
      intro s hs
      rcases mem_cons.mp hs with rfl | hmem
      · exact hseg
      · exact hfull s hmem

variable {events : List (EventType × (ℤ × String))}

/-- **A tiled sample is grouped**, into full segments. -/
theorem sample_segments_total {π : Type} [LinearOrder π] {position_ids : List (π × (π × π))}
    {sample : Sample} (hs : 0 < token_size) (hcube : cube_size.Pos)
    (h : sample.Tiled position_ids shapes roles events) :
    ∃ segs : List Segment, sample_segments position_ids cube_size token_size sample
      = .ok (segs.map .ok) ∧ ∀ seg ∈ segs, seg.Full := by
  obtain ⟨audio_streams, haudio, _⟩ := split_cube_streams_total
    sample.sample_idx "condition audio" h.audio_nonneg h.audio_sum
  have htonat : (shapes.map (fun shape => (shape.prod : ℤ))).map Int.toNat
      = shapes.map Shape.prod := by
    rw [map_map]
    rfl
  have hsizes : ∀ s ∈ shapes.map (fun shape => (shape.prod : ℤ)), 0 ≤ s := by
    intro s hs
    obtain ⟨shape, _, rfl⟩ := mem_map.mp hs
    exact Int.natCast_nonneg _
  obtain ⟨visual_streams, hvisual, hvlens⟩ := split_cube_streams_total sample.sample_idx
    "condition visual" hsizes (htonat ▸ h.visual_sum)
  rw [htonat] at hvlens
  obtain ⟨halen, _⟩ := split_cube_streams_spec haudio
  obtain ⟨hvlen, hvflat⟩ := split_cube_streams_spec hvisual
  rw [length_map] at hvlen
  obtain ⟨listed, hlisted, hlistedfull⟩ := filterMap_total events (fun event _ =>
    event_segment_total sample.sample_idx audio_streams event hs hcube hvlens h.genuine)
  -- the target's grid
  have hin : ∀ t ∈ joint_tokens visual_streams roles ++ sample.latent, t < position_ids.length := by
    intro t ht
    refine h.located t ?_
    rcases mem_append.mp ht with hj | hl
    · refine mem_append_left _ ?_
      rw [← hvflat]
      obtain ⟨stream, hstream, htin⟩ := mem_flatten.mp hj
      obtain ⟨p, hp, rfl⟩ := mem_map.mp hstream
      exact mem_flatten.mpr ⟨p.1, (of_mem_zip (mem_filter.mp hp).1).1, htin⟩
    · exact mem_append_right _ hl
  have hne : joint_tokens visual_streams roles ++ sample.latent ≠ [] := by
    intro hnil
    have hlat := (append_eq_nil_iff.mp hnil).2
    have hlen := h.latent
    rw [hlat, length_nil] at hlen
    have := h.positive.prod_pos
    omega
  obtain ⟨target, htarget, htfull⟩ := group_joint_cube_visual_segment_total
    sample.sample_idx hcube hne hin (h.grid visual_streams hvflat hvlen)
  refine ⟨[group_cube_1d_segment sample.text token_size] ++ listed
    ++ ((List.range audio_streams.length).filter (fun i => i ∉ (events.filter
        (fun e => e.1 = .audio)).map (fun e => e.2.1.toNat))).map
        (fun i => group_cube_1d_segment (audio_streams.getD i []) token_size)
    ++ [group_cube_1d_segment sample.target_audio token_size, target], ?_, ?_⟩
  · unfold sample_segments
    rw [haudio, ok_bind, h.shapes_ok, ok_bind, hvisual, ok_bind, h.roles_ok, ok_bind, hvlen, halen,
      h.events_ok, ok_bind]
    rw [hlisted]
    unfold target_segment
    rw [if_neg (not_not.mpr h.latent)]
    change Except.ok (_ ++ [_, group_joint_cube_visual_segment
      (joint_tokens visual_streams roles ++ sample.latent) _ _ _]) = _
    rw [htarget, map_append, map_append, map_map, map_map]
    rfl
  · intro seg hseg
    simp only [mem_append, mem_cons, not_mem_nil, or_false] at hseg
    rcases hseg with ((rfl | hmem) | hmem) | rfl | rfl
    · exact group_cube_1d_segment_full hs _
    · exact hlistedfull seg hmem
    · obtain ⟨i, _, rfl⟩ := mem_map.mp hmem
      exact group_cube_1d_segment_full hs _
    · exact group_cube_1d_segment_full hs _
    · exact htfull

/-! ## One packed sequence -/

def only_sample (target_shape : Shape) (streams : PackedStreams) (cond_image_shapes : List (List ℤ))
    (cond_image_roles : List String) (cond_event_order : List RawEvent)
    (cond_audio_stream_lens : List ℤ) : Sample where
  sample_idx := 0
  text := streams.text
  cond_image := streams.cond_image
  latent := streams.latent
  cond_audio := streams.cond_audio
  target_audio := streams.audio
  target_shape := target_shape
  cond_image_shapes := cond_image_shapes
  cond_image_roles := cond_image_roles
  cond_event_order := cond_event_order
  cond_audio_stream_lens := cond_audio_stream_lens

theorem cube_sample_segments_one {used : ℕ} (h : ∀ i ∈ indices, i < used) :
    cube_sample_segments indices [0, used] = [indices] := by
  unfold cube_sample_segments
  simp only [map_cons, map_nil, searchsorted_zero, searchsorted_of_lt h, tail_cons,
    zip_cons_cons, zip_nil_right, slice_zero_length]

section One

variable {streams : PackedStreams} {cond_image_shapes : List (List ℤ)}
  {cond_image_roles : List String} {cond_event_order : List RawEvent}
  {cond_audio_stream_lens : List ℤ} {used : ℕ}

theorem samples_of_one (target_shape : Shape) (hin : ∀ t ∈ streams.tokens, t < used)
    (hshapes : streams.cond_image_shapes = some [some cond_image_shapes])
    (hroles : streams.cond_image_roles = some [some cond_image_roles])
    (hevents : streams.cond_event_orders = some [some cond_event_order])
    (hlens : streams.cond_audio_stream_lens = some [some cond_audio_stream_lens]) :
    samples_of [target_shape] [0, used] streams = .ok [only_sample target_shape streams
      cond_image_shapes cond_image_roles cond_event_order cond_audio_stream_lens] := by
  unfold PackedStreams.tokens at hin
  simp only [mem_append] at hin
  have htext := cube_sample_segments_one (fun i hi => hin i (Or.inl hi))
  have hcond := cube_sample_segments_one (fun i hi => hin i (Or.inr (Or.inr (Or.inl hi))))
  have hlatent := cube_sample_segments_one
    (fun i hi => hin i (Or.inr (Or.inr (Or.inr (Or.inr hi)))))
  have hcaudio := cube_sample_segments_one (fun i hi => hin i (Or.inr (Or.inl hi)))
  have haudio := cube_sample_segments_one
    (fun i hi => hin i (Or.inr (Or.inr (Or.inr (Or.inl hi)))))
  unfold samples_of
  rw [hshapes, hroles, hevents, hlens, htext, hcond, hlatent, hcaudio, haudio]
  rfl

variable {π : Type} {position_ids : List (π × (π × π))}

theorem add_sample_one [LinearOrder π] {cube_size : Shape} {token_size : ℕ} {sample : Sample}
    {segs : List Segment}
    (hsegs : sample_segments position_ids cube_size token_size sample = .ok (segs.map .ok))
    (hin : ∀ seg ∈ segs, ∀ i ∈ seg.ordered, i < used) :
    [sample].foldlM (add_sample position_ids cube_size token_size) (init_state used, [])
      = .ok (segs.foldl place (init_state used),
          [(0, (segs.foldl place (init_state used)).label_offset)]) := by
  have hadd : add_segments (init_state used) (segs.map .ok)
      = .ok (segs.foldl place (init_state used)) :=
    add_segments_eq_ok.mpr ⟨segs, rfl, by simpa [init_state] using hin, rfl⟩
  have hstep : add_sample position_ids cube_size token_size (init_state used, []) sample
      = .ok (segs.foldl place (init_state used),
          [(0, (segs.foldl place (init_state used)).label_offset)]) := by
    unfold add_sample
    rw [hsegs, ok_bind, hadd]
    rfl
  rw [foldlM_cons, hstep]
  rfl

theorem length_runs_of_placed {n : ℕ} {st : SegmentState} {tokens : List ℕ}
    (h : Placed n st tokens) (ho : Occupied st tokens) :
    (runs (sorted_labels_of ⟨st.cube_labels, st.ordered_segments.flatten,
      [(0, st.label_offset)], st.sparse_labels⟩)).length = num_labels_of ⟨st.cube_labels,
        st.ordered_segments.flatten, [(0, st.label_offset)], st.sparse_labels⟩ := by
  obtain ⟨labels, hlabels, hsorted, hbound⟩ := h.labels
  have hsl : sorted_labels_of ⟨st.cube_labels, st.ordered_segments.flatten,
      [(0, st.label_offset)], st.sparse_labels⟩ = labels.map (fun (l : ℕ) => (l : ℤ)) := by
    rw [h.order]
    exact hlabels
  have hinj : Function.Injective (fun (l : ℕ) => (l : ℤ)) := fun a b hab => Int.ofNat.inj hab
  rw [hsl, runs_map hinj, length_map]
  refine length_runs_of_occupied hsorted hbound (fun l hl => ?_)
  obtain ⟨t, ht, heq⟩ := ho l hl
  have hmem : (l : ℤ) ∈ labels.map (fun (l : ℕ) => (l : ℤ)) := by
    rw [← hlabels]
    exact mem_map.mpr ⟨t, ht, heq⟩
  obtain ⟨l', hl', heq'⟩ := mem_map.mp hmem
  rwa [← Int.ofNat.inj heq']

/-- **A tiled packed sequence is accepted.** -/
theorem precompute_cube_attention_total [LinearOrder π] {target_shape : List ℤ} {total_len : ℕ}
    {cube_size : List ℤ} (ratio : ℚ) (uninitialized : ℕ → ℕ) {shape : Shape} {size : ℕ × Shape}

    (htarget : normalize_cube_visual_shape target_shape = .ok shape)
    (hsize : cube_token_size cube_size = .ok size) (hused : used ≤ total_len)
    (hpositions : position_ids.length = total_len) (hperm : streams.tokens.Perm (List.range used))
    (hshapes : streams.cond_image_shapes = some [some cond_image_shapes])
    (hroles : streams.cond_image_roles = some [some cond_image_roles])
    (hevents : streams.cond_event_orders = some [some cond_event_order])
    (hlens : streams.cond_audio_stream_lens = some [some cond_audio_stream_lens])
    (htiled : (only_sample shape streams cond_image_shapes cond_image_roles cond_event_order
      cond_audio_stream_lens).Tiled position_ids shapes roles events) :
    ∃ layout, precompute_cube_attention [target_shape] [0, used] total_len cube_size streams
      position_ids ratio uninitialized = .ok layout := by
  obtain ⟨hs, hcube⟩ := cube_token_size_pos hsize
  have hin : ∀ t ∈ streams.tokens, t < used := fun t ht =>
    mem_range.mp (hperm.mem_iff.mp ht)
  obtain ⟨segs, hsegs, hfull⟩ := sample_segments_total hs hcube htiled
  obtain ⟨hwf, htokens, hlat, _⟩ := sample_segments_spec hs hcube hsegs rfl
  have hsample : (tokens_of segs).Perm (List.range used) := htokens.trans hperm
  have hsegin : ∀ seg ∈ segs, ∀ i ∈ seg.ordered, i < used := by
    intro seg hseg i hi
    refine mem_range.mp (hsample.mem_iff.mp ?_)
    exact mem_flatMap.mpr ⟨seg, hseg, hi⟩
  have hnd : ([] ++ tokens_of segs).Nodup := hsample.nodup_iff.mpr nodup_range
  have hplaced := (Placed.init used).foldl hwf hnd hsegin
  have hocc : Occupied (segs.foldl place (init_state used)) ([] ++ tokens_of segs) :=
    Occupied.foldl (fun l hl => absurd hl (Nat.not_lt_zero _)) (Placed.init used) hwf hfull
      hnd hsegin
  have hloop := add_sample_one hsegs hsegin
  have hruns := length_runs_of_placed hplaced hocc
  have horder : (segs.foldl place (init_state used)).ordered_segments.flatten.length = used := by
    rw [hplaced.order, nil_append, hsample.length_eq, length_range]
  have hne : (segs.foldl place (init_state used)).ordered_segments ≠ [] := by
    intro hnil
    rw [hnil, flatten_nil, length_nil] at horder
    -- the target has a token
    have hpos := htiled.positive.prod_pos
    rw [← hlat] at hpos
    obtain ⟨t, ht⟩ := exists_mem_of_length_pos hpos
    have := hin t (by
      unfold PackedStreams.tokens
      simp only [mem_append]
      exact Or.inr (Or.inr (Or.inr (Or.inr ht))))
    omega
  have hbuild : build_cube_segment_layout [shape] [0, used] used size.2 size.1 streams position_ids
      = .ok ⟨(segs.foldl place (init_state used)).cube_labels,
          (segs.foldl place (init_state used)).ordered_segments.flatten,
          [(0, (segs.foldl place (init_state used)).label_offset)],
          (segs.foldl place (init_state used)).sparse_labels⟩ := by
    unfold build_cube_segment_layout
    rw [samples_of_one shape hin hshapes hroles hevents hlens]
    change ([_].foldlM (add_sample position_ids size.2 size.1) (init_state used, []) >>= _) = _
    rw [hloop, ok_bind]
    rw [if_neg hne, if_neg (not_not.mpr horder)]
  have hnormalize : [target_shape].mapM normalize_cube_visual_shape = .ok [shape] := by
    rw [mapM_cons, htarget]
    rfl
  unfold precompute_cube_attention
  rw [hnormalize]
  change ∃ layout, (if used > total_len then _ else _) = _
  rw [if_neg (by omega), hsize, ok_bind, if_neg (not_not.mpr hpositions)]
  change ∃ layout, (build_cube_segment_layout [shape] [0, used] used size.2 size.1 streams
    position_ids >>= _) = _
  rw [hbuild, ok_bind]
  unfold finish_layout
  rw [if_neg (not_not.mpr hruns)]
  exact ⟨_, rfl⟩

/-- **What acceptance needs.** The description of an accepted sequence tiles its condition
rows, and every independent grid has several frames. -/
theorem described_of_accepted [LinearOrder π] {target_shape : List ℤ} {total_len : ℕ}
    {cube_size : List ℤ} {ratio : ℚ} {uninitialized : ℕ → ℕ} {layout : CubeLayout}
    (hin : ∀ t ∈ streams.tokens, t < used)
    (hshapes : streams.cond_image_shapes = some [some cond_image_shapes])
    (hroles : streams.cond_image_roles = some [some cond_image_roles])
    (hevents : streams.cond_event_orders = some [some cond_event_order])
    (hlens : streams.cond_audio_stream_lens = some [some cond_audio_stream_lens])
    (h : precompute_cube_attention [target_shape] [0, used] total_len cube_size streams
      position_ids ratio uninitialized = .ok layout) :
    (∃ shape, normalize_cube_visual_shape target_shape = .ok shape) ∧
      ∃ shapes roles, cond_image_shapes.mapM normalize_cube_visual_shape = .ok shapes ∧
        (shapes.map Shape.prod).sum = streams.cond_image.length ∧
        normalize_cond_image_roles cond_image_roles shapes.length 0 = .ok roles ∧
        ∀ i < shapes.length, roles.getD i .densePrefix = .independent_cube →
          1 < (shapes.getD i (0, (0, 0))).1 := by
  obtain ⟨target_shapes, n, size, seg, htarget, -, hbuild, _, _⟩ :=
    precompute_cube_attention_eq_ok h
  have htargets := mapM_eq_ok.mp htarget
  obtain ⟨shape, rest, hshape, hrest, rfl⟩ := forall₂_cons_left_iff.mp htargets
  rw [forall₂_nil_left_iff.mp hrest] at hbuild
  refine ⟨⟨shape, hshape⟩, ?_⟩
  unfold build_cube_segment_layout at hbuild
  rw [samples_of_one shape hin hshapes hroles hevents hlens, ok_bind] at hbuild
  obtain ⟨acc, hacc, _⟩ := bind_eq_ok.mp hbuild
  obtain ⟨acc', hadd, _⟩ := bind_eq_ok.mp hacc
  obtain ⟨xs, hxs, hadd⟩ := bind_eq_ok.mp hadd
  obtain ⟨st, hst, _⟩ := bind_eq_ok.mp hadd
  obtain ⟨segs, rfl, _, _⟩ := add_segments_eq_ok.mp hst
  -- the checks of the sample, one after the other
  obtain ⟨audio_streams, _, hxs⟩ := bind_eq_ok.mp hxs
  obtain ⟨shapes, hnorm, hxs⟩ := bind_eq_ok.mp hxs
  obtain ⟨visual_streams, hvisual, hxs⟩ := bind_eq_ok.mp hxs
  obtain ⟨roles, hparsed, hxs⟩ := bind_eq_ok.mp hxs
  obtain ⟨events, horder, hxs⟩ := bind_eq_ok.mp hxs
  refine ⟨shapes, roles, hnorm, ?_, hparsed, ?_⟩
  · have hsum := sum_of_split_cube_streams hvisual
    rw [map_map] at hsum
    exact hsum
  · intro i hi hrole
    obtain ⟨himg, _, _⟩ := normalize_condition_event_order_spec horder
    obtain ⟨hvlen, _⟩ := split_cube_streams_spec hvisual
    rw [length_map] at hvlen
    have hmem : i ∈ imgvid_indices events := by
      rw [himg, hvlen]
      exact mem_range.mpr hi
    obtain ⟨event, hevent, hidx⟩ := mem_map.mp hmem
    obtain ⟨hevent, htype⟩ := mem_filter.mp hevent
    rw [decide_eq_true_eq] at htype
    -- the event's segment was raised by the loop, so it is no error
    by_contra hle
    obtain ⟨e, herr⟩ : ∃ e, event_segment size.2 size.1 0 audio_streams visual_streams shapes roles
        event = some (.error e) := by
      unfold event_segment
      simp only [htype, hidx, hrole]
      rw [if_pos (by omega)]
      exact ⟨_, rfl⟩
    have hin' : (.error e : Except CubeError Segment) ∈ segs.map (.ok : Segment → _) := by
      rw [← Except.ok.inj hxs]
      refine mem_append_left _ (mem_append_left _ (mem_append_right _ ?_))
      exact mem_filterMap.mpr ⟨event, hevent, herr⟩
    obtain ⟨seg', _, hcontra⟩ := mem_map.mp hin'
    cases hcontra

end One

end LightningH3.CubeMask
