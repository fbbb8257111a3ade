/-
The buffers of the denoise loop: at the start of every step they are what scattering the
current rows into a fresh buffer gives.
-/
import LightningH3.CubeConsumable
import LightningH3.DenoiseLoop

set_option autoImplicit false

namespace LightningH3.DenoiseLoop

open IndexOps PackedSequence Fallible List

/-! ## Suffix layouts -/

/-- **A suffix layout.** The rows are the condition rows followed by the target rows, all
distinct and in the buffer. -/
structure Modality.Suffix (m : Modality) (seq_len : ℕ) : Prop where
  pos_eq : m.pos = m.cond_seq_idx ++ m.target_seq_idx
  start_eq : m.cond_seq_idx.length = m.target_start
  cond_rows : m.cond_row_idx = List.range m.target_start
  nodup : m.pos.Nodup
  in_range : ∀ i ∈ m.pos, i < seq_len

variable {α : Type}

theorem masked_replicate (xs : List α) (b : Bool) :
    masked xs (List.replicate xs.length b) = if b = true then xs else [] := by
  induction xs with
  | nil => cases b <;> rfl
  | cons x xs ih =>
    unfold masked at ih ⊢
    rw [length_cons, replicate_succ, zip_cons_cons]
    cases b with
    | true => rw [filter_cons_of_pos rfl, map_cons, ih]; rfl
    | false => rw [filter_cons_of_neg (by simp), ih]; rfl

theorem masked_append {xs : List α} {mask : List Bool} (h : xs.length = mask.length) (ys : List α)
    (mask' : List Bool) :
    masked (xs ++ ys) (mask ++ mask') = masked xs mask ++ masked ys mask' := by
  unfold masked
  rw [zip_append h, filter_append, map_append]

theorem masked_suffix {xs : List α} {n skip : ℕ} (hlen : xs.length = n) (hskip : skip ≤ n) :
    masked xs (suffix_mask n skip) = xs.drop skip ∧
      masked xs ((suffix_mask n skip).map not) = xs.take skip := by
  have hfront : (xs.take skip).length = skip := by
    rw [length_take]
    omega
  have hback : (xs.drop skip).length = n - skip := by
    rw [length_drop]
    omega
  have hfalse := masked_replicate (xs.take skip)
  have htrue := masked_replicate (xs.drop skip)
  rw [hfront] at hfalse
  rw [hback] at htrue
  rw [CubeMetadata.suffix_mask_eq hskip]
  constructor
  · rw [← take_append_drop skip xs, masked_append (by simp [hfront]), hfalse, htrue]
    simp
  · rw [map_append, map_replicate, map_replicate, ← take_append_drop skip xs,
      masked_append (by simp [hfront]), hfalse, htrue]
    simp

variable {m : Modality}

theorem modality_suffix {pos : List ℕ} {seq_len skip : ℕ} (hskip : skip ≤ pos.length)
    (hnodup : pos.Nodup) (hin : ∀ i ∈ pos, i < seq_len)
    (h : modality pos (suffix_mask pos.length skip) = .ok m) : m.Suffix seq_len := by
  unfold modality at h
  have hmask : (suffix_mask pos.length skip).length = pos.length := by simp [suffix_mask]
  rw [if_neg (by rw [hmask]; exact not_not.mpr rfl), hmask] at h
  obtain ⟨htarget, hcond⟩ := masked_suffix rfl hskip
  have hrows := (masked_suffix (length_range (n := pos.length)) hskip).2
  have hcount : ((suffix_mask pos.length skip).map not).count true = skip := by
    rw [CubeMetadata.suffix_mask_eq hskip, map_append, map_replicate, map_replicate]
    simp [count_replicate]
  cases h
  refine ⟨?_, ?_, ?_, hnodup, hin⟩
  · rw [htarget, hcond, take_append_drop]
  · rw [hcond, hcount, length_take]
    exact Nat.min_eq_left hskip
  · rw [hrows, hcount, take_range, Nat.min_eq_left hskip]

/-- **Branches of packed layouts.** -/
theorem branch_suffix {π : Type} {N : Numeric π} {packed : Packed π}
    {request : CubeMetadata.Request} (hpacked : CubeMetadata.packed_of N request = .ok packed)
    {text_shape : List ℕ} {num_tags : ℕ} {branch : Branch}
    (h : denoise_branch packed text_shape num_tags = .ok branch) :
    branch.video.Suffix branch.seq_len ∧ branch.audio.Suffix branch.seq_len := by
  obtain ⟨layout, used, cond_image, latent, cond_audio, audio, text_len, hunpacked, _⟩ :=
    CubeMetadata.unpacked_of hpacked
  obtain ⟨⟨skip, hskip, hmask⟩, ⟨skip', hskip', hmask'⟩⟩ := CubeMetadata.suffix_masks_of hpacked
  have hnodup := hunpacked.nodup
  -- image and audio rows are used rows, and used rows are in the buffer
  have hin : ∀ i ∈ packed.img_pos ++ packed.audio_pos, i < packed.seq_len := by
    intro i hi
    have hfits := hunpacked.fits
    have hmem := hunpacked.rows.mem_iff (a := i)
    rw [CubeMetadata.tokens_packed_streams, mem_range] at hmem
    rw [hunpacked.img_pos, hunpacked.audio_pos] at hi
    simp only [mem_append] at hi hmem
    have : i < used := by
      tauto
    omega
  unfold denoise_branch at h
  split at h
  · cases h
  · split at h
    · cases h
    · obtain ⟨video, hvideo, h⟩ := bind_eq_ok.mp h
      obtain ⟨audio, haudio, h⟩ := bind_eq_ok.mp h
      cases h
      rw [hmask] at hvideo
      rw [hmask'] at haudio
      obtain ⟨hnodup₁, hnodup₂, _⟩ := nodup_append.mp hnodup
      exact ⟨modality_suffix hskip hnodup₁ (fun i hi => hin i (mem_append_left _ hi)) hvideo,
        modality_suffix hskip' hnodup₂ (fun i hi => hin i (mem_append_right _ hi)) haudio⟩

/-! ## One modality -/

section OneModality

variable {R : Type} {m : Modality} {seq_len : ℕ}

/-- Condition rows and target rows scattered into a fresh buffer. -/
def fresh_buffer [Zero R] (m : Modality) (seq_len : ℕ) (rows : List R) : List R :=
  scatter (scatter (List.replicate seq_len 0) m.cond_seq_idx (rows.take m.target_start))
    m.target_seq_idx (rows.drop m.target_start)

/-- **Rows and buffer of one modality.** The condition rows are the anchors; the buffer is
zero before the first step, and afterwards a fresh buffer of the anchors and of some
earlier targets. -/
structure RowsInv [Zero R] (m : Modality) (seq_len : ℕ) (anchors rows buffer : List R)
    (primed : Bool) : Prop where
  length_eq : rows.length = m.pos.length
  pinned : rows.take m.target_start = anchors
  unprimed : primed = false → buffer = List.replicate seq_len 0
  was_fresh : primed = true → ∃ before : List R, before.length = m.pos.length ∧
    before.take m.target_start = anchors ∧ buffer = fresh_buffer m seq_len before

variable {rows : List R}

theorem Modality.Suffix.length_target (h : m.Suffix seq_len) (hlen : rows.length = m.pos.length) :
    m.target_start ≤ rows.length ∧ (rows.drop m.target_start).length = m.target_seq_idx.length := by
  have hpos := congrArg List.length h.pos_eq
  rw [length_append, h.start_eq] at hpos
  rw [length_drop]
  omega

theorem fresh_buffer_eq [Zero R] (h : m.Suffix seq_len) (hlen : rows.length = m.pos.length) :
    fresh_buffer m seq_len rows = scatter (List.replicate seq_len 0) m.pos rows := by
  obtain ⟨hstart, _⟩ := h.length_target hlen
  unfold fresh_buffer
  rw [← scatter_append, ← h.pos_eq, take_append_drop]
  rw [h.start_eq, length_take]
  omega

theorem length_fresh_buffer [Zero R] (rows : List R) :
    (fresh_buffer m seq_len rows).length = seq_len := by
  simp [fresh_buffer]

theorem index_copy_eq {xs : List R} {idx : List ℕ} (hlen : idx.length = rows.length)
    (hin : ∀ i ∈ idx, i < xs.length) : index_copy xs idx rows = .ok (scatter xs idx rows) := by
  unfold index_copy
  rw [if_neg (not_not.mpr hlen), if_neg]
  rw [any_eq_true]
  rintro ⟨i, hi, hle⟩
  have := hin i hi
  simp only [decide_eq_true_eq] at hle
  omega

/-- **A write makes the buffer fresh.** Of all rows over zeros, or of the targets over what
an earlier step left. -/
theorem RowsInv.write [Zero R] (h : m.Suffix seq_len) {anchors buffer : List R} {primed : Bool}
    (hinv : RowsInv m seq_len anchors rows buffer primed) :
    write_rows m primed buffer rows = .ok (fresh_buffer m seq_len rows) := by
  obtain ⟨-, htarget⟩ := h.length_target hinv.length_eq
  unfold write_rows
  cases primed with
  | false =>
    rw [hinv.unprimed rfl, if_neg (by simp), index_copy_eq hinv.length_eq.symm,
      fresh_buffer_eq h hinv.length_eq]
    intro i hi
    rw [length_replicate]
    exact h.in_range i hi
  | true =>
    obtain ⟨before, -, hanchors, rfl⟩ := hinv.was_fresh rfl
    rw [if_pos rfl, index_copy_eq htarget.symm]
    · -- the targets of the earlier step are overwritten, the anchors are the same
      have hnodup : m.target_seq_idx.Nodup := by
        have := h.nodup
        rw [h.pos_eq] at this
        exact (nodup_append.mp this).2.1
      unfold fresh_buffer
      rw [scatter_scatter hnodup _ htarget, hanchors, hinv.pinned]
    · intro i hi
      rw [length_fresh_buffer]
      refine h.in_range i ?_
      rw [h.pos_eq]
      exact mem_append_right _ hi

variable {S : Type} {velocity out : List R} {ops : RowOps S R} {c : StepCoeffs S}

theorem length_update_target_rows {state : List R}
    (h : update_target_rows ops c state velocity = .ok out) : out.length = state.length := by
  obtain ⟨rows, hrows, h⟩ := bind_eq_ok.mp h
  have hlen : rows.length = state.length := by
    unfold broadcast_rows at hrows
    split at hrows
    · next heq =>
      cases hrows
      exact heq
    · split at hrows
      · cases hrows
        exact length_replicate
      · cases hrows
  split at h
  · cases h
    rfl
  · cases h
    simp [hlen]

/-- **The update keeps the condition rows**, and the number of rows. -/
theorem update_rows_spec (hstart : m.target_start ≤ rows.length)
    (h : update_rows ops m c rows velocity = .ok out) :
    out.length = rows.length ∧ out.take m.target_start = rows.take m.target_start := by
  obtain ⟨target, htarget, h⟩ := bind_eq_ok.mp h
  have hlen := length_update_target_rows htarget
  cases h
  constructor
  · rw [length_append, hlen, length_take, length_drop]
    omega
  · rw [take_append_of_le_length (by rw [length_take]; omega), take_take, Nat.min_self]

theorem RowsInv.step [Zero R] (h : m.Suffix seq_len) {anchors buffer : List R} {primed : Bool}
    (hinv : RowsInv m seq_len anchors rows buffer primed)
    (hout : update_rows ops m c rows velocity = .ok out) :
    RowsInv m seq_len anchors out (fresh_buffer m seq_len rows) true := by
  obtain ⟨hstart, _⟩ := h.length_target hinv.length_eq
  obtain ⟨hlen, htake⟩ := update_rows_spec hstart hout
  exact ⟨hlen.trans hinv.length_eq, htake.trans hinv.pinned, fun hfalse => absurd hfalse (by simp),
    fun _ => ⟨rows, hinv.length_eq, hinv.pinned, rfl⟩⟩

theorem fresh_buffer_cond [Zero R] {rows' : List R}
    (hpinned : rows'.take m.target_start = rows.take m.target_start) {g : ℕ}
    (hg : g ∉ m.target_seq_idx) :
    (fresh_buffer m seq_len rows')[g]? = (fresh_buffer m seq_len rows)[g]? := by
  unfold fresh_buffer
  rw [getElem?_scatter_of_notMem hg, getElem?_scatter_of_notMem hg, hpinned]

theorem pin_rows_spec (h : m.Suffix seq_len) {anchors : Option (List R)} {missing : String}
    {mismatch : ℕ → String}
    (hcheck : check_anchors anchors m.target_start missing mismatch = .ok ())
    (hlen : rows.length = m.pos.length) (hpin : pin_rows m rows anchors = .ok out) :
    out.length = m.pos.length ∧ out.take m.target_start = anchors.getD [] := by
  obtain ⟨hstart, _⟩ := h.length_target hlen
  unfold check_anchors at hcheck
  unfold pin_rows at hpin
  cases anchors with
  | none =>
    simp only at hcheck hpin
    split at hcheck
    · cases hcheck
    · next hzero =>
      rw [not_not] at hzero
      cases hpin
      exact ⟨hlen, by rw [hzero]; rfl⟩
  | some anchor =>
    simp only at hcheck hpin
    split at hcheck
    · cases hcheck
    · next hcount =>
      rw [not_not] at hcount
      rw [h.cond_rows, index_copy_eq (by rw [length_range, hcount])
        (fun i hi => by have := mem_range.mp hi; omega), ← hcount, scatter_range (by omega)] at hpin
      cases hpin
      constructor
      · rw [length_append, length_drop]
        omega
      · rw [Option.getD_some, ← hcount, take_left]

end OneModality

/-! ## The loop -/

section Loop

variable {F S V A : Type} [Zero V] [Zero A] {ops : LoopOps F S V A} {branch : Branch}
  {args : LoopArgs F V A} {outputs : ℕ → List V × List A}

/-- Both modalities at the start of a step. -/
structure LoopInv (branch : Branch) (args : LoopArgs F V A) (s : LoopState V A) : Prop where
  video : RowsInv branch.video branch.seq_len (args.keyframe_cond_rows.getD []) s.video_rows
    s.buffers.x s.buffers.primed
  audio : RowsInv branch.audio branch.seq_len (args.audio_ref_rows.getD []) s.audio_rows
    s.buffers.audio_x s.buffers.primed

/-- The buffers the model sees in a step. -/
def fresh_buffers (branch : Branch) (s : LoopState V A) : Buffers V A where
  x := fresh_buffer branch.video branch.seq_len s.video_rows
  audio_x := fresh_buffer branch.audio branch.seq_len s.audio_rows
  primed := true

variable {s : LoopState V A}

section

variable (hv : branch.video.Suffix branch.seq_len) (ha : branch.audio.Suffix branch.seq_len)
include hv ha

theorem LoopInv.forward (h : LoopInv branch args s) :
    forward_kwargs branch s.buffers s.video_rows s.audio_rows = .ok (fresh_buffers branch s) := by
  unfold forward_kwargs
  rw [h.video.write hv, h.audio.write ha]
  rfl

theorem start_loop_inv (h : start_loop branch args = .ok s) : LoopInv branch args s := by
  unfold start_loop at h
  split at h
  · cases h
  · split at h
    · cases h
    · obtain ⟨_, hcheck, h⟩ := bind_eq_ok.mp h
      split at h
      · cases h
      · split at h
        · cases h
        · next hvideo haudio =>
          rw [not_not] at hvideo haudio
          obtain ⟨_, hcheck', h⟩ := bind_eq_ok.mp h
          obtain ⟨video_rows, hpin, h⟩ := bind_eq_ok.mp h
          obtain ⟨audio_rows, hpin', h⟩ := bind_eq_ok.mp h
          cases h
          obtain ⟨hlen, htake⟩ := pin_rows_spec hv hcheck hvideo hpin
          obtain ⟨hlen', htake'⟩ := pin_rows_spec ha hcheck' haudio hpin'
          exact ⟨⟨hlen, htake, fun _ => rfl, fun htrue => absurd htrue (by simp [zero_buffers])⟩,
            ⟨hlen', htake', fun _ => rfl, fun htrue => absurd htrue (by simp [zero_buffers])⟩⟩

end

omit [Zero V] [Zero A] in
theorem denoise_step_eq_ok {s' : LoopState V A} {coeffs : StepCoeffs S × StepCoeffs S}
    {output : List V × List A} (h : denoise_step ops branch s coeffs output = .ok s') :
    forward_kwargs branch s.buffers s.video_rows s.audio_rows = .ok s'.buffers ∧
      update_rows ops.video branch.video coeffs.1 s.video_rows output.1 = .ok s'.video_rows ∧
      update_rows ops.audio branch.audio coeffs.2 s.audio_rows
        (output.2.drop branch.audio.target_start) = .ok s'.audio_rows := by
  obtain ⟨buffers, hbuffers, h⟩ := bind_eq_ok.mp h
  obtain ⟨video_rows, hvideo, h⟩ := bind_eq_ok.mp h
  obtain ⟨audio_rows, haudio, h⟩ := bind_eq_ok.mp h
  cases h
  exact ⟨hbuffers, hvideo, haudio⟩

section

variable (hv : branch.video.Suffix branch.seq_len) (ha : branch.audio.Suffix branch.seq_len)
include hv ha

/-- **One step.** -/
theorem LoopInv.step {s' : LoopState V A} (h : LoopInv branch args s)
    {coeffs : StepCoeffs S × StepCoeffs S} {output : List V × List A}
    (hstep : denoise_step ops branch s coeffs output = .ok s') : LoopInv branch args s' := by
  obtain ⟨hbuffers, hvideo, haudio⟩ := denoise_step_eq_ok hstep
  rw [h.forward hv ha] at hbuffers
  have hfresh : s'.buffers = fresh_buffers branch s := (Except.ok.inj hbuffers).symm
  refine ⟨?_, ?_⟩
  · rw [hfresh]
    exact h.video.step hv hvideo
  · rw [hfresh]
    exact h.audio.step ha haudio

/-- **Every step.** -/
theorem state_at_inv {k : ℕ} (h : state_at ops branch args outputs k = .ok s) :
    LoopInv branch args s := by
  obtain ⟨s₀, hstart, hrun⟩ := bind_eq_ok.mp h
  exact foldlM_invariant (I := fun _ s => LoopInv branch args s) _ [] (start_loop_inv hv ha hstart)
    (fun _ _ _ _ hinv hstep => hinv.step hv ha hstep) hrun

end

theorem state_at_succ {k : ℕ} (h : state_at ops branch args outputs k = .ok s)
    (hk : k < (plan ops args).length) : state_at ops branch args outputs (k + 1)
      = denoise_step ops branch s ((plan ops args).get ⟨k, hk⟩) (outputs k) := by
  obtain ⟨s₀, hstart, hrun⟩ := bind_eq_ok.mp h
  unfold state_at
  rw [hstart, ok_bind, take_succ_eq_append_getElem hk, zipIdx_append,
    foldlM_append, hrun, length_take, Nat.min_eq_left (by omega), Nat.zero_add]
  show (denoise_step ops branch s _ (outputs k) >>= fun s => pure s) = _
  rw [bind_pure]
  rfl

/-- The outputs of the model's `forward`: a row for each video target, and for each audio
row. -/
def Shaped (branch : Branch) (outputs : ℕ → List V × List A) : Prop :=
  ∀ k, (outputs k).1.length = branch.video.target_seq_idx.length ∧
    (outputs k).2.length = branch.audio.pos.length

omit [Zero V] [Zero A] in
theorem update_rows_total {R : Type} (ops : RowOps S R) (c : StepCoeffs S)
    {rows velocity : List R} (h : velocity.length = (rows.drop m.target_start).length) :
    ∃ out, update_rows ops m c rows velocity = .ok out := by
  unfold update_rows update_target_rows broadcast_rows
  rw [if_pos h]
  cases c.sigma_curr_is_zero with
  | true => exact ⟨_, rfl⟩
  | false => exact ⟨_, rfl⟩

theorem state_at_total (hv : branch.video.Suffix branch.seq_len)
    (ha : branch.audio.Suffix branch.seq_len) {s₀ : LoopState V A}
    (hstart : start_loop branch args = .ok s₀) (hshaped : Shaped branch outputs) (k : ℕ) :
    ∃ s, state_at ops branch args outputs k = .ok s := by
  induction k with
  | zero =>
    unfold state_at
    rw [hstart]
    exact ⟨s₀, rfl⟩
  | succ k ih =>
    obtain ⟨s, hs⟩ := ih
    rcases Nat.lt_or_ge k (plan ops args).length with hk | hk
    · rw [state_at_succ hs hk]
      have hinv := state_at_inv hv ha hs
      obtain ⟨_, htarget⟩ := hv.length_target hinv.video.length_eq
      obtain ⟨video_rows, hvideo⟩ := update_rows_total ops.video
        ((plan ops args).get ⟨k, hk⟩).1 ((hshaped k).1.trans htarget.symm)
      obtain ⟨audio_rows, haudio⟩ := update_rows_total ops.audio
        ((plan ops args).get ⟨k, hk⟩).2
        (show ((outputs k).2.drop branch.audio.target_start).length
            = (s.audio_rows.drop branch.audio.target_start).length by
          rw [length_drop, length_drop, (hshaped k).2, hinv.audio.length_eq])
      unfold denoise_step
      rw [hinv.forward hv ha, hvideo, haudio]
      exact ⟨_, rfl⟩
    · -- past the last step nothing happens
      refine ⟨s, ?_⟩
      unfold state_at at hs ⊢
      rw [take_of_length_le (by omega)] at hs ⊢
      exact hs

/-- What holds at the start of a step. -/
structure StepFacts (branch : Branch) (args : LoopArgs F V A) (s : LoopState V A) : Prop where
  buffers : forward_kwargs branch s.buffers s.video_rows s.audio_rows
    = .ok { x := fresh_buffer branch.video branch.seq_len s.video_rows
            audio_x := fresh_buffer branch.audio branch.seq_len s.audio_rows
            primed := true }
  video_anchors : branch.video.cond_row_idx.map (fun i => s.video_rows[i]?)
    = (args.keyframe_cond_rows.getD []).map some
  audio_anchors : branch.audio.cond_row_idx.map (fun i => s.audio_rows[i]?)
    = (args.audio_ref_rows.getD []).map some

/-- What holds between two steps: a row list keeps its length and its condition rows, and the
buffers given to the model agree outside the target rows. -/
structure OnlyTargets {R : Type} [Zero R] (m : Modality) (seq_len : ℕ) (rows rows' : List R) :
    Prop where
  length_eq : rows'.length = rows.length
  cond_rows : ∀ i ∈ m.cond_row_idx, rows'[i]? = rows[i]?
  buffer_rows : ∀ g, g ∉ m.target_seq_idx →
    (fresh_buffer m seq_len rows')[g]? = (fresh_buffer m seq_len rows)[g]?

theorem map_getElem?_take {R : Type} {rows : List R} {n : ℕ} (h : n ≤ rows.length) :
    (List.range n).map (fun i => rows[i]?) = (rows.take n).map some := by
  refine ext_getElem (by simp; omega) (fun i h₁ h₂ => ?_)
  have hi : i < n := by simpa using h₁
  rw [getElem_map, getElem_range, getElem_map, getElem_take, getElem?_eq_getElem (by omega)]

theorem RowsInv.anchors {R : Type} [Zero R] {seq_len : ℕ}
    {anchors rows buffer : List R} {primed : Bool} (hm : m.Suffix seq_len)
    (h : RowsInv m seq_len anchors rows buffer primed) :
    m.cond_row_idx.map (fun i => rows[i]?) = anchors.map some := by
  obtain ⟨hstart, _⟩ := hm.length_target h.length_eq
  rw [hm.cond_rows, map_getElem?_take hstart, h.pinned]

theorem RowsInv.only_targets {R : Type} [Zero R] {seq_len : ℕ}
    {anchors rows rows' buffer buffer' : List R} {primed primed' : Bool} (hm : m.Suffix seq_len)
    (h : RowsInv m seq_len anchors rows buffer primed)
    (h' : RowsInv m seq_len anchors rows' buffer' primed') : OnlyTargets m seq_len rows rows' := by
  refine ⟨h'.length_eq.trans h.length_eq.symm, ?_, fun g hg => ?_⟩
  · intro i hi
    rw [hm.cond_rows] at hi
    have hlt := mem_range.mp hi
    have htake := congrArg (fun l : List R => l[i]?) (h'.pinned.trans h.pinned.symm)
    simpa [hlt] using htake
  · exact fresh_buffer_cond (h'.pinned.trans h.pinned.symm) hg

/-- **The buffers of the denoise loop.** For every layout of either builder, every schedule and
any outputs of the model: every step is reached when the outputs have the model's shape; at
the start of each step reached, the maintained buffers are fresh ones and the condition rows
are the anchors; and between two steps only target rows change. -/
theorem denoise_loop_buffers {π : Type} {N : Numeric π} {packed : Packed π}
    {request : CubeMetadata.Request} (hpacked : CubeMetadata.packed_of N request = .ok packed)
    {text_shape : List ℕ} {num_tags : ℕ}
    (hbranch : denoise_branch packed text_shape num_tags = .ok branch) {s₀ : LoopState V A}
    (hstart : start_loop branch args = .ok s₀) (ops : LoopOps F S V A)
    (outputs : ℕ → List V × List A) :
    (Shaped branch outputs → ∀ k, ∃ s, state_at ops branch args outputs k = .ok s) ∧
      (∀ k s, state_at ops branch args outputs k = .ok s → StepFacts branch args s) ∧
      ∀ k s s', state_at ops branch args outputs k = .ok s →
        state_at ops branch args outputs (k + 1) = .ok s' →
          OnlyTargets branch.video branch.seq_len s.video_rows s'.video_rows ∧
            OnlyTargets branch.audio branch.seq_len s.audio_rows s'.audio_rows := by
  obtain ⟨hv, ha⟩ := branch_suffix hpacked hbranch
  refine ⟨fun hshaped k => state_at_total hv ha hstart hshaped k, fun k s hs => ?_,
    fun k s s' hs hs' => ?_⟩
  · have hinv := state_at_inv hv ha hs
    exact ⟨hinv.forward hv ha, hinv.video.anchors hv, hinv.audio.anchors ha⟩
  · have hinv := state_at_inv hv ha hs
    have hinv' := state_at_inv hv ha hs'
    exact ⟨hinv.video.only_targets hv hinv'.video, hinv.audio.only_targets ha hinv'.audio⟩

end Loop

/-- Integer rows, and a schedule that is not read. -/
def integer_ops : LoopOps ℚ ℤ ℤ ℤ where
  scalars :=
    { one_minus := fun f => 1 - f
      is_zero := fun f => f == 0
      to_fp32 := Rat.floor
      fp32_one_minus := fun s => 1 - s
      fp32_div := (· / ·) }
  video := { scale := (· * ·), add := (· + ·) }
  audio := { scale := (· * ·), add := (· + ·) }

/-- One reference image: a condition row, a target row, and two audio rows. -/
def image_loop_args : LoopArgs ℚ ℤ ℤ where
  initial_video_rows := [0, 5]
  initial_audio_rows := [1, 2]
  keyframe_cond_rows := some [9]
  audio_ref_rows := none
  sigmas_video := [1, 1 / 2, 0]
  sigmas_audio := [1, 1 / 2, 0]

theorem denoise_loop_buffers_one_image : ∃ (packed : Packed ℚ) (branch : Branch),
    CubeMetadata.packed_of CubeMetadata.exact_numeric
      (.references (CubeMetadata.image_request none)) = .ok packed ∧
    denoise_branch packed [1, 5120] 64 = .ok branch ∧ branch.video.cond_row_idx = [0] ∧
    ∀ outputs : ℕ → List ℤ × List ℤ, Shaped branch outputs →
      ∃ s, state_at integer_ops branch image_loop_args outputs 2 = .ok s ∧
        StepFacts branch image_loop_args s := by
  obtain ⟨packed, branch, s₀, hpacked, hbranch, hcond, hstart⟩ :
      ∃ (packed : Packed ℚ) (branch : Branch) (s₀ : LoopState ℤ ℤ),
        CubeMetadata.packed_of CubeMetadata.exact_numeric
          (.references (CubeMetadata.image_request none)) = .ok packed ∧
        denoise_branch packed [1, 5120] 64 = .ok branch ∧
        branch.video.cond_row_idx = [0] ∧
        start_loop branch image_loop_args = .ok s₀ := ⟨_, _, _, rfl, rfl, rfl, rfl⟩
  refine ⟨packed, branch, hpacked, hbranch, hcond, fun outputs hshaped => ?_⟩
  obtain ⟨htotal, hfacts, _⟩ := denoise_loop_buffers hpacked hbranch hstart integer_ops outputs
  obtain ⟨s, hs⟩ := htotal hshaped 2
  exact ⟨s, hs, hfacts 2 s hs⟩

end LightningH3.DenoiseLoop
