/-
The shards of the embedding: all places give a rank the same rows, the rows of the ranks
are the sequence, and the shards put together are the embedding of one rank.
-/
import LightningH3.CubeConsumable
import LightningH3.LocalEmbedding

set_option autoImplicit false

namespace LightningH3.LocalEmbedding

open IndexOps Segments Fallible List Nat

/-! ## Groups -/

variable {rank : ℕ}

theorem group_of_map {groups : ℕ → List ℕ} {n i : ℕ} (hi : i < n)
    (hmem : ∀ j < n, rank ∈ groups j ↔ j = i) :
    group_of ((List.range n).map groups) rank = groups i := by
  have general : ∀ m ≤ n, group_of ((List.range m).map groups) rank
      = if i < m then groups i else [] := by
    intro m
    induction m with
    | zero => exact fun _ => rfl
    | succ m ih =>
      intro hm
      have hstep : group_of ((List.range (m + 1)).map groups) rank
          = if rank ∈ groups m then groups m
            else group_of ((List.range m).map groups) rank := by
        unfold group_of
        rw [range_succ, map_append, foldl_append]
        rfl
      rw [hstep, ih (by omega)]
      by_cases hrank : rank ∈ groups m
      · have := (hmem m (by omega)).mp hrank
        subst this
        rw [if_pos hrank, if_pos (by omega)]
      · have hne : m ≠ i := fun h => hrank ((hmem m (by omega)).mpr h)
        rw [if_neg hrank]
        by_cases him : i < m
        · rw [if_pos him, if_pos (by omega)]
        · rw [if_neg him, if_neg (by omega)]
  rw [general n (Nat.le_refl n), if_pos hi]

theorem idxOf_range' (first : ℕ) {count step k : ℕ} (hstep : 0 < step) (hk : k < count) :
    (List.range' first count step).idxOf (first + step * k) = k := by
  have hlt : k < (List.range' first count step).length := by simpa using hk
  have hget : (List.range' first count step)[k] = first + step * k := by simp
  rw [← hget]
  exact (nodup_range' step hstep).idxOf_getElem k hlt

variable {ulysses_degree ring_degree : ℕ}

theorem py_range_chunk (i : ℕ) : py_range (i * ulysses_degree) ((i + 1) * ulysses_degree) 1
      = List.range' (i * ulysses_degree) ulysses_degree := by
  unfold py_range
  congr 1
  rw [succ_mul]
  omega

theorem py_range_strided {i : ℕ} (hi : i < ulysses_degree) (hring : 0 < ring_degree) :
    py_range i (ring_degree * ulysses_degree) ulysses_degree
      = List.range' i ring_degree ulysses_degree := by
  unfold py_range
  congr 1
  have hle : ulysses_degree ≤ ring_degree * ulysses_degree := Nat.le_mul_of_pos_left _ hring
  rw [show ring_degree * ulysses_degree - i + ulysses_degree - 1
    = (ulysses_degree - 1 - i) + ring_degree * ulysses_degree by omega,
    add_mul_div_right _ _ (by omega), div_eq_of_lt (by omega), Nat.zero_add]

section

variable (hu : 0 < ulysses_degree)
include hu

/-- **The contexts of a rank.** Ulysses counts inside a ring chunk, the ring counts chunks. -/
theorem sp_ctx_eq (hrank : rank < ulysses_degree * ring_degree) :
    sp_ctx ulysses_degree ring_degree rank
      = ⟨ulysses_degree, rank % ulysses_degree, ring_degree, rank / ulysses_degree⟩ := by
  have hr : 0 < ring_degree := Nat.pos_of_mul_pos_left (Nat.lt_of_le_of_lt (Nat.zero_le _) hrank)
  have hdiv : rank / ulysses_degree < ring_degree := Nat.div_lt_of_lt_mul hrank
  have hmod : rank % ulysses_degree < ulysses_degree := mod_lt _ hu
  have hrec : rank / ulysses_degree * ulysses_degree + rank % ulysses_degree = rank := by
    rw [Nat.mul_comm]
    exact div_add_mod rank ulysses_degree
  have hulysses : group_of (ulysses_groups ulysses_degree ring_degree) rank
      = List.range' (rank / ulysses_degree * ulysses_degree) ulysses_degree := by
    unfold ulysses_groups
    rw [group_of_map hdiv, py_range_chunk]
    intro j _
    rw [py_range_chunk, mem_range'_1]
    constructor
    · rintro ⟨hge, hlt⟩
      have h₁ : j ≤ rank / ulysses_degree := (Nat.le_div_iff_mul_le hu).mpr hge
      have h₂ : rank / ulysses_degree < j + 1 := by
        refine Nat.div_lt_of_lt_mul ?_
        rw [Nat.mul_comm, succ_mul]
        exact hlt
      omega
    · rintro rfl
      omega
  have hring : group_of (ring_groups ulysses_degree ring_degree) rank
      = List.range' (rank % ulysses_degree) ring_degree ulysses_degree := by
    unfold ring_groups
    rw [group_of_map hmod, py_range_strided hmod hr]
    intro j hj
    rw [py_range_strided hj hr, mem_range']
    constructor
    · rintro ⟨k, _, rfl⟩
      rw [add_mul_mod_self_left, mod_eq_of_lt hj]
    · rintro rfl
      exact ⟨rank / ulysses_degree, hdiv, by rw [Nat.mul_comm]; omega⟩
  have hidx₁ : (List.range' (rank / ulysses_degree * ulysses_degree) ulysses_degree).idxOf rank
      = rank % ulysses_degree := by
    have h := idxOf_range' (rank / ulysses_degree * ulysses_degree) Nat.one_pos hmod
    rwa [Nat.one_mul, hrec] at h
  have hidx₂ : (List.range' (rank % ulysses_degree) ring_degree ulysses_degree).idxOf rank
      = rank / ulysses_degree := by
    have h := idxOf_range' (rank % ulysses_degree) hu hdiv
    rwa [mod_add_div] at h
  unfold sp_ctx
  simp only
  rw [hulysses, hring, hidx₁, hidx₂, length_range', length_range']

/-! ## Row ranges -/

/-- All four places give one range of rows. -/
structure SameRows (seq_len : ℕ) (heads : Heads) (ctx : SpCtx) (rows : ℕ × ℕ) : Prop where
  branch : local_row_slice seq_len ctx = rows
  layout : layout_rows seq_len ctx.sp_world_size ctx.sp_rank = .ok rows
  rope : rope_rows seq_len ctx = .ok rows
  forward : forward_rows seq_len heads ctx = .ok rows

theorem chunked_rows_eq (local_seq_len : ℕ) (hrank : rank < ulysses_degree * ring_degree) :
    chunked_rows local_seq_len (sp_ctx ulysses_degree ring_degree rank)
      = (rank * local_seq_len, rank * local_seq_len + local_seq_len) := by
  rw [sp_ctx_eq hu hrank]
  unfold chunked_rows
  simp only
  have hstart : rank / ulysses_degree * (local_seq_len * ulysses_degree)
      + rank % ulysses_degree * local_seq_len = rank * local_seq_len := by
    calc rank / ulysses_degree * (local_seq_len * ulysses_degree)
          + rank % ulysses_degree * local_seq_len
        = (ulysses_degree * (rank / ulysses_degree) + rank % ulysses_degree)
          * local_seq_len := by ring
      _ = rank * local_seq_len := by rw [div_add_mod]
  rw [hstart]

theorem sp_world_size_eq (hrank : rank < ulysses_degree * ring_degree) :
    (sp_ctx ulysses_degree ring_degree rank).sp_world_size = ulysses_degree * ring_degree := by
  rw [sp_ctx_eq hu hrank]
  rfl

theorem sp_rank_eq (hrank : rank < ulysses_degree * ring_degree) :
    (sp_ctx ulysses_degree ring_degree rank).sp_rank = rank := by
  rw [sp_ctx_eq hu hrank]
  unfold SpCtx.sp_rank
  rw [Nat.mul_comm]
  exact div_add_mod rank ulysses_degree

/-- **One range for every rank.** -/
theorem same_rows {seq_len : ℕ} {heads : Heads}
    (hrank : rank < ulysses_degree * ring_degree) (hdvd : ulysses_degree * ring_degree ∣ seq_len)
    (hheads : heads.num_attention_heads / heads.tp_world_size % ulysses_degree = 0) :
    SameRows seq_len heads (sp_ctx ulysses_degree ring_degree rank)
      (rank * (seq_len / (ulysses_degree * ring_degree)),
        rank * (seq_len / (ulysses_degree * ring_degree))
          + seq_len / (ulysses_degree * ring_degree)) := by
  have hws := sp_world_size_eq hu hrank
  have hmod : seq_len % (ulysses_degree * ring_degree) = 0 := mod_eq_zero_of_dvd hdvd
  refine ⟨?_, ?_, ?_, ?_⟩
  · unfold local_row_slice
    rw [hws, sp_rank_eq hu hrank]
  · unfold layout_rows
    rw [hws, sp_rank_eq hu hrank, if_neg (not_not.mpr hmod)]
  · unfold rope_rows
    rw [hws, if_neg (not_not.mpr hmod), chunked_rows_eq hu _ hrank]
  · unfold forward_rows
    rw [hws]
    split
    · rw [if_neg (not_not.mpr hmod)]
      rw [if_neg, chunked_rows_eq hu _ hrank]
      rw [sp_ctx_eq hu hrank]
      exact not_not.mpr hheads
    · next hone =>
      -- a single rank: the checks are skipped and the rows are not divided
      have hone' : ulysses_degree * ring_degree = 1 := by omega
      rw [chunked_rows_eq hu _ hrank, hone', Nat.div_one]

end

/-! ## Local rows -/

theorem local_ids_append (xs ys : List ℕ) (rows : ℕ × ℕ) :
    local_ids (xs ++ ys) rows = local_ids xs rows ++ local_ids ys rows := filter_append ..

variable {rows : ℕ × ℕ}

theorem mem_local_ids {pos : List ℕ} {g : ℕ} :
    g ∈ local_ids pos rows ↔ g ∈ pos ∧ rows.1 ≤ g ∧ g < rows.2 := by
  unfold local_ids
  simp

theorem local_ids_range (n : ℕ) (rows : ℕ × ℕ) :
    local_ids (List.range n) rows = List.range' rows.1 (min rows.2 n - rows.1) := by
  induction n with
  | zero =>
    rw [Nat.min_zero, Nat.zero_sub]
    rfl
  | succ n ih =>
    rw [range_succ, local_ids_append, ih]
    by_cases hin : rows.1 ≤ n ∧ n < rows.2
    · have hone : local_ids [n] rows = [n] := by
        unfold local_ids
        rw [filter_cons_of_pos (by simpa using hin)]
        rfl
      rw [hone, show min rows.2 (n + 1) - rows.1 = (min rows.2 n - rows.1) + 1 by omega,
        range'_concat]
      congr 2
      omega
    · have hnone : local_ids [n] rows = [] := by
        unfold local_ids
        rw [filter_cons_of_neg (by simpa using hin)]
        rfl
      rw [hnone, append_nil]
      congr 1
      omega

/-! ## The writes -/

section Writes

variable {T V A H : Type} {layers : Layers T V A H} {input : EmbedInput T V A H}
  {text_len used seq_len : ℕ} {rows : ℕ × ℕ} {text : List H}

/-- **Input rows in order.** Text rows come first, the modalities share out the used rows,
and the buffers and the prompt have the rows that are read. -/
structure EmbedInput.Partitioned (input : EmbedInput T V A H) (text_len used seq_len : ℕ) :
    Prop where
  text_pos : input.text_pos = List.range text_len
  rows : (input.text_pos ++ (input.img_pos ++ input.audio_pos)).Perm (List.range used)
  fits : used ≤ seq_len
  x : input.x.length = seq_len
  audio_x : input.audio_x.length = seq_len
  live : input.prompt.text_len = text_len
  prompt_rows : text_len ≤ input.prompt.num_rows

theorem text_embed_length {prompt : Prompt T H} (h : text_embed layers prompt = .ok text) :
    (text.length : ℤ) = prompt.text_len := by
  unfold text_embed at h
  split at h
  · cases h
  · next hlive =>
    cases prompt with
    | raw raw_rows refiner_length =>
      cases h
      rw [layers.length_refine_text, length_take]
      simp only [Prompt.text_len, Prompt.num_rows] at hlive ⊢
      omega
    | refined refined_rows width length =>
      simp only at h
      split at h
      · cases h
      · cases h
        rw [length_take]
        simp only [Prompt.text_len, Prompt.num_rows] at hlive ⊢
        omega

theorem modality_writes_eq {α : Type} {project : α → H} {source : List α} {ids : List ℕ}
    (first : ℕ) (f : ℕ → H) (h : ∀ g ∈ ids, source[g]?.map project = some (f g)) :
    modality_writes project source ids (ids.map (· - first))
      = .ok (ids.map (fun g => (g - first, f g))) := by
  unfold modality_writes
  cases ids with
  | nil => rfl
  | cons g ids =>
    rw [if_neg (by simp)]
    obtain ⟨selected, hselected⟩ : ∃ selected,
        (g :: ids).mapM (fun i : ℕ => source[i]?) = some selected := by
      refine mapM_isSome (fun i hi => ?_)
      have hi' := h i hi
      cases hsource : source[i]? with
      | none => rw [hsource] at hi'; cases hi'
      | some v => rfl
    have hall := mapM_eq_some.mp hselected
    have hmap : selected.map project = (g :: ids).map f := by
      refine ext_getElem (by rw [length_map, length_map, hall.length_eq]) ?_
      intro k hk₁ hk₂
      rw [getElem_map, getElem_map]
      have hk : k < (g :: ids).length := by simpa using hk₂
      have hget := hall.get hk (by simpa using hk₁)
      have hval := h _ (getElem_mem hk)
      simp only [get_eq_getElem] at hget
      rw [hget, Option.map_some, Option.some.injEq] at hval
      exact hval
    unfold select_rows
    rw [hselected, ok_bind, if_neg (by rw [length_map, hall.length_eq]; exact not_not.mpr rfl),
      hmap, zip_map']

theorem front_writes_eq {count : ℕ} {values : List H} (h : values.length = count) :
    front_writes count values = .ok ((List.range count).zip values) := by
  unfold front_writes
  rw [if_pos h]

theorem trusted_text_writes_eq (rows : ℕ × ℕ) (f : ℕ → H) (img_pos audio_pos : List ℕ)
    (hf : ∀ g < text.length, text[g]? = some (f g)) :
    trusted_text_writes (layout_of_rows (List.range text.length) img_pos audio_pos rows) text
      = .ok ((local_ids (List.range text.length) rows).map (fun g => (g - rows.1, f g))) := by
  unfold trusted_text_writes layout_of_rows
  simp only [length_range]
  rw [local_ids_range]
  split
  · next hzero =>
    rw [show min rows.2 text.length - rows.1 = 0 by omega]
    rfl
  · next hpos =>
    -- some text row is in the range, so the range starts inside the text
    have hlen : ((text.take (min rows.2 text.length)).drop (min rows.1 text.length)).length
        = min rows.2 text.length - min rows.1 text.length := by
      rw [length_drop, length_take]
      omega
    rw [front_writes_eq hlen]
    congr 1
    refine ext_getElem (by simp; omega) (fun k hk₁ hk₂ => ?_)
    have hk : k < min rows.2 text.length - rows.1 := by simpa using hk₂
    rw [getElem_zip, getElem_range, getElem_drop, getElem_take,
      getElem_map, getElem_range', Nat.one_mul]
    have hval := hf (rows.1 + k) (by omega)
    rw [getElem?_eq_getElem (by omega), Option.some.injEq] at hval
    rw [Nat.add_sub_cancel_left, ← hval]
    congr 2
    omega

theorem untrusted_text_writes_eq (rows : ℕ × ℕ) (f : ℕ → H)
    (hf : ∀ g < text.length, text[g]? = some (f g)) :
    untrusted_text_writes (List.range text.length) rows text
      = .ok ((local_ids (List.range text.length) rows).map (fun g => (g - rows.1, f g))) := by
  have hgetD : ∀ i ∈ List.range text.length, (List.range text.length).getD i 0 = i := by
    intro i hi
    rw [getD_eq_getElem _ _ (by simpa using hi), getElem_range]
  unfold untrusted_text_writes
  simp only [length_range]
  have hids : (List.range text.length).filter (fun i =>
      decide (rows.1 ≤ (List.range text.length).getD i 0)
        && decide ((List.range text.length).getD i 0 < rows.2))
      = local_ids (List.range text.length) rows := by
    refine filter_congr (fun i hi => ?_)
    rw [hgetD i hi]
  have hmap : (local_ids (List.range text.length) rows).map
      (fun i => (List.range text.length).getD i 0 - rows.1)
      = (local_ids (List.range text.length) rows).map (· - rows.1) := by
    refine map_congr_left (fun i hi => ?_)
    rw [hgetD i (mem_local_ids.mp hi).1]
  rw [hids, hmap]
  refine modality_writes_eq _ f (fun g hg => ?_)
  rw [hf g (mem_range.mp (mem_local_ids.mp hg).1)]
  rfl

theorem nodup_of_partitioned (h : input.Partitioned text_len used seq_len) :
    (input.text_pos ++ (input.img_pos ++ input.audio_pos)).Nodup :=
  h.rows.nodup_iff.mpr nodup_range

theorem lt_of_partitioned (h : input.Partitioned text_len used seq_len) {g : ℕ}
    (hg : g ∈ input.text_pos ++ (input.img_pos ++ input.audio_pos)) : g < seq_len := by
  have := mem_range.mp (h.rows.mem_iff.mp hg)
  have := h.fits
  omega

variable [AddZeroClass H]

/-- The embedding of a row of the whole sequence: a refined text row, a projected video or audio
patch, and zero for padding. -/
def embedded_row (layers : Layers T V A H) (input : EmbedInput T V A H) (text : List H) (g : ℕ) :
    H :=
  if g ∈ input.text_pos then text.getD g 0
  else if g ∈ input.img_pos then (input.x[g]?.map layers.video_patch_proj).getD 0
  else if g ∈ input.audio_pos then (input.audio_x[g]?.map layers.audio_patch_proj).getD 0
  else 0

/-- The pairs both paths write. -/
def local_writes (layers : Layers T V A H) (input : EmbedInput T V A H) (text : List H)
    (rows : ℕ × ℕ) : List (ℕ × H) :=
  (local_ids (input.text_pos ++ (input.img_pos ++ input.audio_pos)) rows).map
    (fun g => (g - rows.1, embedded_row layers input text g))

theorem embedded_row_text (h : input.Partitioned text.length used seq_len) :
    ∀ g < text.length, text[g]? = some (embedded_row layers input text g) := by
  intro g hg
  have hmem : g ∈ input.text_pos := by
    rw [h.text_pos]
    exact mem_range.mpr hg
  unfold embedded_row
  rw [if_pos hmem, getD_eq_getElem _ _ hg, getElem?_eq_getElem hg]

theorem embedded_row_img (h : input.Partitioned text_len used seq_len) : ∀ g ∈ input.img_pos,
      input.x[g]?.map layers.video_patch_proj = some (embedded_row layers input text g) := by
  intro g hg
  have hdisjoint := (nodup_append.mp (nodup_of_partitioned h)).2.2
  have htext : g ∉ input.text_pos := fun hmem =>
    hdisjoint g hmem g (mem_append_left _ hg) rfl
  have hlt : g < input.x.length := by
    rw [h.x]
    exact lt_of_partitioned h (mem_append_right _ (mem_append_left _ hg))
  unfold embedded_row
  rw [if_neg htext, if_pos hg, getElem?_eq_getElem hlt]
  rfl

theorem embedded_row_audio (h : input.Partitioned text_len used seq_len) : ∀ g ∈ input.audio_pos,
      input.audio_x[g]?.map layers.audio_patch_proj = some (embedded_row layers input text g) := by
  intro g hg
  obtain ⟨_, hrest, hdisjoint⟩ := nodup_append.mp (nodup_of_partitioned h)
  have htext : g ∉ input.text_pos := fun hmem =>
    hdisjoint g hmem g (mem_append_right _ hg) rfl
  have himg : g ∉ input.img_pos := fun hmem =>
    (nodup_append.mp hrest).2.2 g hmem g hg rfl
  have hlt : g < input.audio_x.length := by
    rw [h.audio_x]
    exact lt_of_partitioned h (mem_append_right _ (mem_append_right _ hg))
  unfold embedded_row
  rw [if_neg htext, if_neg himg, if_pos hg, getElem?_eq_getElem hlt]
  rfl

theorem local_writes_split (layers : Layers T V A H) (input : EmbedInput T V A H) (text : List H)
    (rows : ℕ × ℕ) : local_writes layers input text rows = (local_ids input.text_pos rows).map
          (fun g => (g - rows.1, embedded_row layers input text g))
        ++ (local_ids input.img_pos rows).map
          (fun g => (g - rows.1, embedded_row layers input text g))
        ++ (local_ids input.audio_pos rows).map
          (fun g => (g - rows.1, embedded_row layers input text g)) := by
  unfold local_writes
  rw [local_ids_append, local_ids_append, map_append, map_append, append_assoc]

theorem img_writes_eq (h : input.Partitioned text_len used seq_len) (rows : ℕ × ℕ) :
    modality_writes layers.video_patch_proj input.x (local_ids input.img_pos rows)
        ((local_ids input.img_pos rows).map (· - rows.1)) = .ok ((local_ids input.img_pos rows).map
          (fun g => (g - rows.1, embedded_row layers input text g))) := by
  refine modality_writes_eq _ _ (fun g hg => ?_)
  exact embedded_row_img h g (mem_local_ids.mp hg).1

theorem audio_writes_eq (h : input.Partitioned text_len used seq_len) (rows : ℕ × ℕ) :
    modality_writes layers.audio_patch_proj input.audio_x (local_ids input.audio_pos rows)
        ((local_ids input.audio_pos rows).map (· - rows.1))
      = .ok ((local_ids input.audio_pos rows).map
          (fun g => (g - rows.1, embedded_row layers input text g))) := by
  refine modality_writes_eq _ _ (fun g hg => ?_)
  exact embedded_row_audio h g (mem_local_ids.mp hg).1

/-- **Both paths write the same pairs.** The trusted path, by its layout. -/
theorem trusted_writes_eq (h : input.Partitioned text.length used seq_len) (rows : ℕ × ℕ) :
    trusted_writes layers input (layout_of_rows input.text_pos input.img_pos input.audio_pos rows)
      text = .ok (local_writes layers input text rows) := by
  have htext := trusted_text_writes_eq rows (embedded_row layers input text)
    input.img_pos input.audio_pos (embedded_row_text h)
  rw [← h.text_pos] at htext
  unfold trusted_writes
  rw [htext, ok_bind]
  unfold layout_of_rows
  rw [img_writes_eq h, ok_bind, audio_writes_eq h, ok_bind, local_writes_split]

theorem untrusted_writes_eq (h : input.Partitioned text.length used seq_len) (rows : ℕ × ℕ) :
    untrusted_writes layers input rows text = .ok (local_writes layers input text rows) := by
  have htext := untrusted_text_writes_eq rows (embedded_row layers input text)
    (embedded_row_text h)
  have htake : input.text_pos.take input.prompt.text_len.toNat = List.range text.length := by
    rw [h.live, h.text_pos]
    exact take_of_length_le (by simp)
  unfold untrusted_writes
  rw [htake, htext, ok_bind]
  simp only
  rw [img_writes_eq h, ok_bind, audio_writes_eq h, ok_bind, local_writes_split, h.text_pos]

/-! ## The rows written -/

/-- The local rows that are live, and those that are padding. -/
def live_rows (used : ℕ) (rows : ℕ × ℕ) : List ℕ :=
  (List.range (rows.2 - rows.1)).filter (fun k => decide (rows.1 + k < used))

def padding_rows (used : ℕ) (rows : ℕ × ℕ) : List ℕ :=
  (List.range (rows.2 - rows.1)).filter (fun k => decide (used ≤ rows.1 + k))

theorem filter_lt_range (n m : ℕ) :
    (List.range n).filter (fun k => decide (k < m)) = List.range (min n m) := by
  have h := local_ids_range n (0, m)
  rw [Nat.sub_zero, Nat.min_comm, ← range_eq_range'] at h
  rw [← h]
  exact filter_congr (fun k _ => by simp)

theorem filter_ge_range (n m : ℕ) :
    (List.range n).filter (fun k => decide (m ≤ k)) = List.range' m (n - m) := by
  have h := local_ids_range n (m, n)
  rw [Nat.min_self] at h
  rw [← h]
  refine filter_congr (fun k hk => ?_)
  have := mem_range.mp hk
  simp [this]

theorem live_rows_eq (used : ℕ) (rows : ℕ × ℕ) :
    live_rows used rows = List.range (min (rows.2 - rows.1) (used - rows.1)) := by
  rw [← filter_lt_range]
  exact filter_congr (fun k _ => by simp only [decide_eq_decide]; omega)

theorem padding_rows_eq (used : ℕ) (rows : ℕ × ℕ) : padding_rows used rows
      = List.range' (min (used - rows.1) (rows.2 - rows.1))
          (rows.2 - rows.1 - min (used - rows.1) (rows.2 - rows.1)) := by
  rw [← filter_ge_range]
  refine filter_congr (fun k hk => ?_)
  have := mem_range.mp hk
  simp only [decide_eq_decide]
  omega

section

variable (h : input.Partitioned text_len used seq_len)
include h

omit [AddZeroClass H] in
theorem used_eq :
    input.prompt.text_len.toNat + input.img_pos.length + input.audio_pos.length = used := by
  have hlen := h.rows.length_eq
  rw [h.text_pos] at hlen
  simp only [length_append, length_range] at hlen
  rw [h.live]
  omega

omit [AddZeroClass H] in
/-- **The zeroed rows are the padding rows.** -/
theorem zeroed_rows_eq (rows : ℕ × ℕ) : zeroed_rows input rows = padding_rows used rows := by
  unfold zeroed_rows local_live_rows
  rw [used_eq h, padding_rows_eq]

omit [AddZeroClass H] in
theorem local_rows_perm (rows : ℕ × ℕ) :
    (local_ids (input.text_pos ++ (input.img_pos ++ input.audio_pos)) rows).Perm
      (List.range' rows.1 (min rows.2 used - rows.1)) := by
  have hperm := h.rows.filter (fun row => decide (rows.1 ≤ row) && decide (row < rows.2))
  have hrange := local_ids_range used rows
  unfold local_ids at hrange ⊢
  rwa [hrange] at hperm

end

/-- **Every live row is written once.** -/
theorem local_writes_perm (layers : Layers T V A H)
    (h : input.Partitioned text_len used seq_len) (text : List H) (rows : ℕ × ℕ) :
    ((local_writes layers input text rows).map Prod.fst).Perm (live_rows used rows) := by
  unfold local_writes
  rw [map_map, live_rows_eq]
  refine ((local_rows_perm h rows).map _).trans (List.Perm.of_eq ?_)
  refine ext_getElem (by simp; omega) (fun k hk₁ hk₂ => ?_)
  simp

section

variable (h : input.Partitioned text_len used seq_len)
include h

theorem embedded_row_padding {g : ℕ} (hg : used ≤ g) : embedded_row layers input text g = 0 := by
  have hout : g ∉ input.text_pos ++ (input.img_pos ++ input.audio_pos) := fun hmem =>
    absurd (mem_range.mp (h.rows.mem_iff.mp hmem)) (not_lt.mpr hg)
  simp only [mem_append, not_or] at hout
  unfold embedded_row
  rw [if_neg hout.1, if_neg hout.2.1, if_neg hout.2.2]

theorem scatter_local_writes {base : List H} (hbase : base.length = rows.2 - rows.1)
    (hzero : ∀ k ∈ padding_rows used rows, base[k]? = some 0) :
    scatter base ((local_writes layers input text rows).map Prod.fst)
        ((local_writes layers input text rows).map Prod.snd)
      = (List.range' rows.1 (rows.2 - rows.1)).map (embedded_row layers input text) := by
  have hperm := local_writes_perm layers h text rows
  have hnodup : ((local_writes layers input text rows).map Prod.fst).Nodup := by
    rw [hperm.nodup_iff]
    exact nodup_range.filter _
  refine ext_getElem? (fun k => ?_)
  rcases Nat.lt_or_ge k (rows.2 - rows.1) with hk | hk
  · rw [getElem?_map, getElem?_range' hk, Nat.one_mul, Option.map_some]
    rcases Nat.lt_or_ge (rows.1 + k) used with hlive | hpad
    · -- a live row: its pair was written
      have hg : rows.1 + k ∈ local_ids (input.text_pos ++ (input.img_pos ++ input.audio_pos)) rows :=
        mem_local_ids.mpr ⟨h.rows.mem_iff.mpr (mem_range.mpr hlive), by omega, by omega⟩
      have hw : (k, embedded_row layers input text (rows.1 + k))
          ∈ local_writes layers input text rows :=
        mem_map.mpr ⟨rows.1 + k, hg, by rw [Nat.add_sub_cancel_left]⟩
      exact getElem?_scatter_of_mem hnodup hw (by rw [hbase]; exact hk)
    · -- a padding row: nothing is written there
      have hpadding : k ∈ padding_rows used rows :=
        mem_filter.mpr ⟨mem_range.mpr hk, by simpa using hpad⟩
      rw [getElem?_scatter_of_notMem, hzero k hpadding, embedded_row_padding h hpad]
      rw [hperm.mem_iff]
      intro hmem
      have := (mem_filter.mp hmem).2
      rw [decide_eq_true_eq] at this
      omega
  · rw [getElem?_eq_none (by rw [length_scatter, hbase]; exact hk),
      getElem?_eq_none (by simpa using hk)]

theorem writes_in_range {base : List H} (hbase : base.length = rows.2 - rows.1) :
    (local_writes layers input text rows).any (fun w => decide (base.length ≤ w.1)) = false := by
  rw [any_eq_false]
  intro w hw
  have hmem := (local_writes_perm layers h text rows).mem_iff.mp
    (mem_map.mpr ⟨w, hw, rfl⟩)
  have := mem_range.mp (mem_filter.mp hmem).1
  simp only [decide_eq_true_eq]
  omega

end

/-- **The trusted path.** Whatever the memory held, the local rows are the embeddings of
their range. -/
theorem embed_trusted (h : input.Partitioned text.length used seq_len) (rows : ℕ × ℕ)
    (htext : text_embed layers input.prompt = .ok text) (uninitialized : ℕ → H) :
    embed layers input rows
        (some (layout_of_rows input.text_pos input.img_pos input.audio_pos rows)) uninitialized
      = .ok ((List.range' rows.1 (rows.2 - rows.1)).map (embedded_row layers input text)) := by
  have hlen : (scatter ((List.range (rows.2 - rows.1)).map uninitialized) (zeroed_rows input rows)
      ((zeroed_rows input rows).map (fun _ => 0))).length = rows.2 - rows.1 := by
    simp
  unfold embed
  rw [htext, ok_bind]
  simp only
  rw [trusted_writes_eq h, ok_bind]
  unfold copy_rows
  rw [writes_in_range h hlen, if_neg (by simp), scatter_local_writes h hlen]
  intro k hk
  rw [← zeroed_rows_eq h] at hk
  obtain ⟨i, hi⟩ := getElem?_of_mem hk
  have hnodup : (zeroed_rows input rows).Nodup := by
    rw [zeroed_rows_eq h]
    exact nodup_range.filter _
  have hlt : k < rows.2 - rows.1 := by
    rw [zeroed_rows_eq h] at hk
    exact mem_range.mp (mem_filter.mp hk).1
  rw [getElem?_scatter hnodup (by simp) hi (by simpa using hlt), getElem?_map, hi, Option.map_some]

/-- **The untrusted path.** -/
theorem embed_untrusted (h : input.Partitioned text.length used seq_len) (rows : ℕ × ℕ)
    (htext : text_embed layers input.prompt = .ok text) (uninitialized : ℕ → H) :
    embed layers input rows none uninitialized
      = .ok ((List.range' rows.1 (rows.2 - rows.1)).map (embedded_row layers input text)) := by
  have hlen : ((List.range (rows.2 - rows.1)).map (fun _ => (0 : H))).length
      = rows.2 - rows.1 := by
    simp
  have hzeros : ∀ (k : ℕ) (v : H),
      ((List.range (rows.2 - rows.1)).map (fun _ => (0 : H)))[k]? = some v → v = 0 := by
    intro k v hv
    obtain ⟨_, _, rfl⟩ := mem_map.mp (mem_of_getElem? hv)
    rfl
  unfold embed
  rw [htext, ok_bind]
  simp only
  rw [untrusted_writes_eq h, ok_bind]
  unfold add_rows
  rw [writes_in_range h hlen, if_neg (by simp), scatter_add_eq_scatter, scatter_local_writes h hlen]
  · intro k hk
    have hlt := mem_range.mp (mem_filter.mp hk).1
    rw [getElem?_map, getElem?_range hlt, Option.map_some]
  · rw [(local_writes_perm layers h text rows).nodup_iff]
    exact nodup_range.filter _
  · exact fun k _ v hv => hzeros k v hv

end Writes

/-! ## The ranks together -/

section Ranks

variable {π T V A H : Type} [AddZeroClass H]

/-- What the branch of a packed layout hands to `forward`. -/
def branch_input (packed : PackedSequence.Packed π) (x : List V) (audio_x : List A)
    (prompt : Prompt T H) : EmbedInput T V A H where
  x := x
  audio_x := audio_x
  prompt := prompt
  img_pos := packed.img_pos
  audio_pos := packed.audio_pos
  text_pos := packed.text_pos

/-- The embeddings of a rank that was given the branch's layout. -/
def trusted_embedding (layers : Layers T V A H) (heads : Heads) (packed : PackedSequence.Packed π)
    (input : EmbedInput T V A H) (ctx : SpCtx) (uninitialized : ℕ → H) :
    Except EmbedError (List H) := do
  let layout ← build_local_embedding_layout packed.seq_len packed.text_pos packed.img_pos
    packed.audio_pos ctx.sp_world_size ctx.sp_rank
  let rows ← forward_rows packed.seq_len heads ctx
  embed layers input rows (some layout) uninitialized

/-- The embeddings of a rank without the branch's layout. -/
def untrusted_embedding (layers : Layers T V A H) (heads : Heads)
    (packed : PackedSequence.Packed π) (input : EmbedInput T V A H) (ctx : SpCtx)
    (uninitialized : ℕ → H) : Except EmbedError (List H) := do
  let rows ← forward_rows packed.seq_len heads ctx
  embed layers input rows none uninitialized

/-- **The writes of a rank.** The trusted path writes every live row once, and zeroes the
padding rows and no others. -/
structure RankWrites (layers : Layers T V A H) (packed : PackedSequence.Packed π)
    (input : EmbedInput T V A H) (ctx : SpCtx) (used : ℕ) (rows : ℕ × ℕ) : Prop where
  live : ∀ text, text_embed layers input.prompt = .ok text → ∃ layout writes,
    build_local_embedding_layout packed.seq_len packed.text_pos packed.img_pos packed.audio_pos
      ctx.sp_world_size ctx.sp_rank = .ok layout ∧
    trusted_writes layers input layout text = .ok writes ∧
    (writes.map Prod.fst).Perm (live_rows used rows)
  padding : zeroed_rows input rows = padding_rows used rows

omit [AddZeroClass H] in
theorem partitioned_of {N : PackedSequence.Numeric π} {packed : PackedSequence.Packed π}
    {request : CubeMetadata.Request} (hpacked : CubeMetadata.packed_of N request = .ok packed)
    {x : List V} {audio_x : List A} {prompt : Prompt T H} (hx : x.length = packed.seq_len)
    (haudio : audio_x.length = packed.seq_len) (hlive : prompt.text_len = packed.text_pos.length)
    (hrows : packed.text_pos.length ≤ prompt.num_rows) : ∃ used, packed.cu_seqlens[1]? = some used ∧
      (branch_input packed x audio_x prompt).Partitioned packed.text_pos.length used
        packed.seq_len := by
  obtain ⟨layout, used, cond_image, latent, cond_audio, audio, text_len, hunpacked, htext⟩ :=
    CubeMetadata.unpacked_of hpacked
  refine ⟨used, hunpacked.used_rows, ?_, ?_, hunpacked.fits, hx, haudio, hlive, hrows⟩
  · show packed.text_pos = _
    rw [htext, length_range]
  · refine List.Perm.trans ?_ hunpacked.rows
    rw [CubeMetadata.tokens_packed_streams]
    show (packed.text_pos ++ (packed.img_pos ++ packed.audio_pos)).Perm _
    rw [hunpacked.img_pos, hunpacked.audio_pos, perm_iff_count]
    intro row
    simp only [count_append]
    omega

section Shards

variable {packed : PackedSequence.Packed π} {layers : Layers T V A H} {heads : Heads}
  {input : EmbedInput T V A H} {used : ℕ} {text : List H}

/-- The input's row lists are the layout's. -/
structure Serves (packed : PackedSequence.Packed π) (input : EmbedInput T V A H) : Prop where
  text_pos : input.text_pos = packed.text_pos
  img_pos : input.img_pos = packed.img_pos
  audio_pos : input.audio_pos = packed.audio_pos

variable {ctx : SpCtx}

omit [AddZeroClass H] in
theorem build_layout_of_rows (hserves : Serves packed input)
    (hsame : SameRows packed.seq_len heads ctx rows) :
    build_local_embedding_layout packed.seq_len packed.text_pos packed.img_pos packed.audio_pos
        ctx.sp_world_size ctx.sp_rank
      = .ok (layout_of_rows input.text_pos input.img_pos input.audio_pos rows) := by
  unfold build_local_embedding_layout
  rw [hsame.layout, ok_bind, hserves.text_pos, hserves.img_pos, hserves.audio_pos]

theorem trusted_embedding_eq (hserves : Serves packed input)
    (h : input.Partitioned text.length used packed.seq_len)
    (htext : text_embed layers input.prompt = .ok text)
    (hsame : SameRows packed.seq_len heads ctx rows) (uninitialized : ℕ → H) :
    trusted_embedding layers heads packed input ctx uninitialized
      = .ok ((List.range' rows.1 (rows.2 - rows.1)).map (embedded_row layers input text)) := by
  unfold trusted_embedding
  rw [build_layout_of_rows hserves hsame, ok_bind, hsame.forward, ok_bind,
    embed_trusted h rows htext]

theorem untrusted_embedding_eq (h : input.Partitioned text.length used packed.seq_len)
    (htext : text_embed layers input.prompt = .ok text)
    (hsame : SameRows packed.seq_len heads ctx rows) (uninitialized : ℕ → H) :
    untrusted_embedding layers heads packed input ctx uninitialized
      = .ok ((List.range' rows.1 (rows.2 - rows.1)).map (embedded_row layers input text)) := by
  unfold untrusted_embedding
  rw [hsame.forward, ok_bind, embed_untrusted h rows htext]

theorem embedding_error {e : EmbedError} (hserves : Serves packed input)
    (htext : text_embed layers input.prompt = .error e)
    (hsame : SameRows packed.seq_len heads ctx rows) (uninitialized : ℕ → H) :
    trusted_embedding layers heads packed input ctx uninitialized = .error e ∧
      untrusted_embedding layers heads packed input ctx uninitialized = .error e := by
  constructor
  · unfold trusted_embedding
    rw [build_layout_of_rows hserves hsame, hsame.forward]
    unfold embed
    rw [htext]
    rfl
  · unfold untrusted_embedding
    rw [hsame.forward]
    unfold embed
    rw [htext]
    rfl

omit [AddZeroClass H] in
theorem length_text_of_live (h : input.Partitioned packed.text_pos.length used packed.seq_len)
    (htext : text_embed layers input.prompt = .ok text) : packed.text_pos.length = text.length := by
  have := text_embed_length htext
  rw [h.live] at this
  exact (Int.ofNat.inj this).symm

/-- The shards of the ranks, joined. -/
def joined_embedding (layers : Layers T V A H) (heads : Heads) (packed : PackedSequence.Packed π)
    (input : EmbedInput T V A H) (ulysses_degree ring_degree : ℕ)
    (uninitialized : ℕ → ℕ → H) : Except EmbedError (List H) := do
  let shards ← (List.range (ulysses_degree * ring_degree)).mapM (fun rank =>
    trusted_embedding layers heads packed input (sp_ctx ulysses_degree ring_degree rank)
      (uninitialized rank))
  .ok shards.flatten

theorem single_rank_rows (seq_len : ℕ) (heads : Heads) :
    SameRows seq_len heads (sp_ctx 1 1 0) (0, seq_len) := by
  have hzero : 0 < 1 * 1 := Nat.one_pos
  have h : SameRows seq_len heads (sp_ctx 1 1 0)
      (0 * (seq_len / (1 * 1)), 0 * (seq_len / (1 * 1)) + seq_len / (1 * 1)) :=
    same_rows Nat.one_pos hzero (one_dvd seq_len) (mod_one _)
  simpa using h

theorem joined_embedding_eq (hserves : Serves packed input)
    (h : input.Partitioned packed.text_pos.length used packed.seq_len)
    (hu : 0 < ulysses_degree) (hr : 0 < ring_degree)
    (hdvd : ulysses_degree * ring_degree ∣ packed.seq_len)
    (hheads : heads.num_attention_heads / heads.tp_world_size % ulysses_degree = 0)
    (uninitialized : ℕ → ℕ → H) (uninitialized' : ℕ → H) :
    joined_embedding layers heads packed input ulysses_degree ring_degree uninitialized
      = trusted_embedding layers heads packed input (sp_ctx 1 1 0) uninitialized' := by
  unfold joined_embedding
  cases htext : text_embed layers input.prompt with
  | error e =>
    have hone := (embedding_error hserves htext (single_rank_rows packed.seq_len heads)
      uninitialized').1
    have hfirst := (embedding_error hserves htext (same_rows hu
      (Nat.mul_pos hu hr) hdvd hheads) (uninitialized 0)).1
    rw [hone, mapM_range_error (Nat.mul_pos hu hr) hfirst]
    rfl
  | ok text =>
    rw [length_text_of_live h htext] at h
    rw [mapM_of_ok (fun rank hrank => trusted_embedding_eq hserves h htext
        (same_rows hu (mem_range.mp hrank) hdvd hheads) (uninitialized rank)), ok_bind, trusted_embedding_eq hserves h htext
      (single_rank_rows packed.seq_len heads)]
    congr 1
    simp only [Nat.add_sub_cancel_left, Nat.sub_zero]
    rw [← flatMap_def, ← map_flatMap, flatMap_blocks, Nat.mul_div_cancel' hdvd, range_eq_range']

theorem rank_writes (hserves : Serves packed input)
    (h : input.Partitioned packed.text_pos.length used packed.seq_len)
    (hsame : SameRows packed.seq_len heads ctx rows) :
    RankWrites layers packed input ctx used rows := by
  refine ⟨fun text htext => ?_, zeroed_rows_eq h rows⟩
  have h' := h
  rw [length_text_of_live h htext] at h'
  exact ⟨_, _, build_layout_of_rows hserves hsame, trusted_writes_eq h' rows,
    local_writes_perm layers h text rows⟩

theorem paths_agree (hserves : Serves packed input)
    (h : input.Partitioned packed.text_pos.length used packed.seq_len)
    (hsame : SameRows packed.seq_len heads ctx rows) (uninitialized : ℕ → H) :
    trusted_embedding layers heads packed input ctx uninitialized
      = untrusted_embedding layers heads packed input ctx uninitialized := by
  cases htext : text_embed layers input.prompt with
  | error e =>
    obtain ⟨h₁, h₂⟩ := embedding_error hserves htext hsame uninitialized
    rw [h₁, h₂]
  | ok text =>
    rw [length_text_of_live h htext] at h
    rw [trusted_embedding_eq hserves h htext hsame, untrusted_embedding_eq h htext hsame]

end Shards

/-- **Sequence-parallel refinement of the embedding.** For every layout of either builder and
all degrees whose product divides the sequence: every place gives a rank the same rows, the
rows of the ranks in order are the sequence, the trusted path writes every live row once and
zeroes the padding rows, its rows are the embeddings of the rank's rows of the sequence, it returns
what the untrusted path returns, and the ranks' results in order are the result of a single rank. -/
theorem sequence_parallel_embedding {N : PackedSequence.Numeric π}
    {packed : PackedSequence.Packed π} {request : CubeMetadata.Request}
    (hpacked : CubeMetadata.packed_of N request = .ok packed) (layers : Layers T V A H)
    (heads : Heads) (x : List V) (audio_x : List A) (prompt : Prompt T H)
    (hx : x.length = packed.seq_len) (haudio : audio_x.length = packed.seq_len)
    (hlive : prompt.text_len = packed.text_pos.length)
    (hrows : packed.text_pos.length ≤ prompt.num_rows)
    (hu : 0 < ulysses_degree) (hr : 0 < ring_degree)
    (hdvd : ulysses_degree * ring_degree ∣ packed.seq_len)
    (hheads : heads.num_attention_heads / heads.tp_world_size % ulysses_degree = 0)
    (uninitialized : ℕ → ℕ → H) (uninitialized' : ℕ → H) :
    ∃ used local_seq_len, packed.cu_seqlens[1]? = some used ∧
      (∀ rank < ulysses_degree * ring_degree,
        SameRows packed.seq_len heads (sp_ctx ulysses_degree ring_degree rank)
          (rank * local_seq_len, rank * local_seq_len + local_seq_len)) ∧
      (List.range (ulysses_degree * ring_degree)).flatMap
        (fun rank => List.range' (rank * local_seq_len) local_seq_len) = List.range packed.seq_len ∧
      (∀ rank < ulysses_degree * ring_degree,
        RankWrites layers packed (branch_input packed x audio_x prompt)
          (sp_ctx ulysses_degree ring_degree rank) used
          (rank * local_seq_len, rank * local_seq_len + local_seq_len)) ∧
      (∀ rank < ulysses_degree * ring_degree,
        trusted_embedding layers heads packed (branch_input packed x audio_x prompt)
            (sp_ctx ulysses_degree ring_degree rank) (uninitialized rank)
          = untrusted_embedding layers heads packed (branch_input packed x audio_x prompt)
            (sp_ctx ulysses_degree ring_degree rank) (uninitialized rank)) ∧
      (∀ text, text_embed layers prompt = .ok text → ∀ rank < ulysses_degree * ring_degree,
          trusted_embedding layers heads packed (branch_input packed x audio_x prompt)
              (sp_ctx ulysses_degree ring_degree rank) (uninitialized rank)
            = .ok ((List.range' (rank * local_seq_len) local_seq_len).map
                (embedded_row layers (branch_input packed x audio_x prompt) text))) ∧
      joined_embedding layers heads packed (branch_input packed x audio_x prompt) ulysses_degree
          ring_degree uninitialized
        = trusted_embedding layers heads packed (branch_input packed x audio_x prompt)
            (sp_ctx 1 1 0) uninitialized' := by
  obtain ⟨used, hused, hpart⟩ := partitioned_of hpacked hx haudio hlive hrows
  have hserves : Serves packed (branch_input packed x audio_x prompt) := ⟨rfl, rfl, rfl⟩
  have hsame : ∀ rank < ulysses_degree * ring_degree,
      SameRows packed.seq_len heads (sp_ctx ulysses_degree ring_degree rank) _ :=
    fun rank hrank => same_rows hu hrank hdvd hheads
  refine ⟨used, packed.seq_len / (ulysses_degree * ring_degree), hused, hsame, ?_, ?_, ?_, ?_, ?_⟩
  · rw [flatMap_blocks, Nat.mul_div_cancel' hdvd]
  · exact fun rank hrank => rank_writes hserves hpart (hsame rank hrank)
  · exact fun rank hrank => paths_agree hserves hpart (hsame rank hrank) _
  · intro text htext rank hrank
    rw [length_text_of_live hpart htext] at hpart
    rw [trusted_embedding_eq hserves hpart htext (hsame rank hrank), Nat.add_sub_cancel_left]
  · exact joined_embedding_eq hserves hpart hu hr hdvd hheads uninitialized uninitialized'

end Ranks

/-- Layers on integers that tell the modalities apart. -/
def tagging_layers : Layers ℤ ℤ ℤ ℤ where
  refine_text := id
  length_refine_text _ := rfl
  video_patch_proj v := v + 100
  audio_patch_proj v := v + 200
  hidden_size := 1

/-- One reference image on two Ulysses ranks in each of two ring chunks. -/
theorem sequence_parallel_embedding_four_ranks : ∃ packed,
    CubeMetadata.packed_of CubeMetadata.exact_numeric
      (.references (CubeMetadata.image_request none)) = .ok packed ∧
    joined_embedding tagging_layers ⟨8, 1⟩ packed
        (branch_input packed (List.replicate 64 0) (List.replicate 64 0) (.raw [7] 1)) 2 2
        (fun _ _ => -1) = trusted_embedding tagging_layers ⟨8, 1⟩ packed
        (branch_input packed (List.replicate 64 0) (List.replicate 64 0) (.raw [7] 1))
        (sp_ctx 1 1 0) (fun _ => -2) := by
  obtain ⟨packed, hpacked, hseq, htext⟩ : ∃ packed,
      CubeMetadata.packed_of CubeMetadata.exact_numeric
        (.references (CubeMetadata.image_request none)) = .ok packed ∧
      packed.seq_len = 64 ∧ packed.text_pos.length = 1 := ⟨_, rfl, rfl, rfl⟩
  refine ⟨packed, hpacked, ?_⟩
  obtain ⟨_, _, _, _, _, _, _, _, hjoined⟩ := sequence_parallel_embedding hpacked tagging_layers
    ⟨8, 1⟩ (List.replicate 64 0) (List.replicate 64 0) (.raw [7] 1)
    (by rw [hseq, length_replicate]) (by rw [hseq, length_replicate])
    (by rw [htext]; rfl) (by rw [htext]; exact Nat.le_refl 1) Nat.two_pos Nat.two_pos
    (by rw [hseq]; decide) (by decide) (fun _ _ => -1) (fun _ => -2)
  exact hjoined

end LightningH3.LocalEmbedding
