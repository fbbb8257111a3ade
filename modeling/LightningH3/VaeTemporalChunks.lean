/-
The two ways to put decoded chunks together agree, and lengths in frames and in tokens match.

Everything rests on two identities of the configuration. A chunk of tokens decodes to the
frames of a clip and the pre-padding, `chunk_dec = clip_length + frame_pre_padding`; and the
overlap fills up what is dropped, `token_overlap + token_drop` is a whole chunk or nothing.
So the padded tokens are `num_chunks` whole chunks and one overlap, every chunk decodes to
the same number of frames, and both ways assemble one list, `assembled`.
-/
import Mathlib.Algebra.Order.BigOperators.Group.List
import Mathlib.Algebra.Order.BigOperators.GroupWithZero.List
import LightningH3.VaeTemporal

set_option autoImplicit false

namespace LightningH3.VaeTemporal

open Fallible List

variable {Frame Token : Type}

/-! ## The configuration -/

namespace Vae

variable (vae : Vae)

theorem frame_pre_padding_lt : vae.frame_pre_padding < vae.vae_ratio_t := by
  have hpos := vae.vae_ratio_t_pos
  have hlt := Int.emod_lt_of_pos (-(vae.clip_length : ℤ)) (by omega : (0 : ℤ) < vae.vae_ratio_t)
  unfold frame_pre_padding
  omega

/-- **A chunk of tokens is a clip and its pre-padding.** -/
theorem chunk_dec_eq : vae.chunk_dec = vae.clip_length + vae.frame_pre_padding := by
  have hlt := vae.frame_pre_padding_lt
  have hnonneg := Int.emod_nonneg (-(vae.clip_length : ℤ)) (by omega : (vae.vae_ratio_t : ℤ) ≠ 0)
  have hdvd : vae.vae_ratio_t ∣ vae.clip_length + vae.frame_pre_padding := by
    have h : (vae.vae_ratio_t : ℤ) ∣ -(vae.clip_length : ℤ) - -(vae.clip_length : ℤ) % vae.vae_ratio_t :=
      Int.dvd_self_sub_emod
    have hcast : ((vae.clip_length + vae.frame_pre_padding : ℕ) : ℤ)
        = -(-(vae.clip_length : ℤ) - -(vae.clip_length : ℤ) % vae.vae_ratio_t) := by
      unfold frame_pre_padding
      push_cast
      rw [Int.toNat_of_nonneg hnonneg]
      ring
    rw [← Int.natCast_dvd_natCast, hcast]
    exact (Int.dvd_neg).mpr h
  obtain ⟨q, hq⟩ := hdvd
  have hsize : vae.tokens_chunk_size = q := by
    have hq' : vae.vae_ratio_t * q = q * vae.vae_ratio_t := Nat.mul_comm _ _
    refine Nat.div_eq_of_lt_le ?_ ?_
    · omega
    · rw [Nat.add_mul, ← hq']
      omega
  rw [chunk_dec, hsize, hq, Nat.mul_comm]

theorem tokens_chunk_size_pos : 0 < vae.tokens_chunk_size := by
  have h := vae.chunk_dec_eq
  have hclip := vae.clip_length_pos
  rcases Nat.eq_zero_or_pos vae.tokens_chunk_size with hzero | hpos
  · rw [chunk_dec, hzero] at h
    omega
  · exact hpos

section

variable (hdrop : vae.token_drop < vae.tokens_chunk_size)
include hdrop

/-- **Overlap and drop make a whole chunk.** -/
theorem token_overlap_add_drop :
    vae.token_overlap + vae.token_drop = vae.dropping * vae.tokens_chunk_size := by
  unfold token_overlap dropping
  by_cases hzero : vae.token_drop > 0
  · rw [if_pos hzero]
    have h : -(vae.token_drop : ℤ) % vae.tokens_chunk_size = vae.tokens_chunk_size - vae.token_drop := by
      rw [← Int.add_emod_right, Int.emod_eq_of_lt (by omega) (by omega)]
      ring
    omega
  · have : vae.token_drop = 0 := by omega
    rw [this]
    simp

/-- Either tokens are dropped, and the overlap fills up a chunk, or there is no overlap. -/
theorem drop_cases : (0 < vae.token_drop ∧ vae.dropping = 1 ∧
      vae.token_overlap + vae.token_drop = vae.tokens_chunk_size ∧
      vae.frame_overlap + vae.frame_pre_padding = vae.token_overlap * vae.vae_ratio_t) ∨
    (vae.token_drop = 0 ∧ vae.dropping = 0 ∧ vae.token_overlap = 0 ∧ vae.frame_overlap = 0) := by
  have hsum := vae.token_overlap_add_drop hdrop
  have hlt := vae.frame_pre_padding_lt
  by_cases hpos : vae.token_drop > 0
  · have hone : vae.dropping = 1 := by rw [dropping, if_pos hpos]
    rw [hone, Nat.one_mul] at hsum
    have hle : 1 * vae.vae_ratio_t ≤ vae.token_overlap * vae.vae_ratio_t :=
      Nat.mul_le_mul_right _ (by omega)
    refine Or.inl ⟨hpos, hone, hsum, ?_⟩
    unfold frame_overlap
    omega
  · have hnone : vae.dropping = 0 := by rw [dropping, if_neg hpos]
    rw [hnone] at hsum
    have hov : vae.token_overlap = 0 := by omega
    refine Or.inr ⟨by omega, hnone, hov, ?_⟩
    rw [frame_overlap, hov, Nat.zero_mul, Nat.zero_sub]

theorem frame_overlap_lt : vae.frame_overlap < vae.clip_length := by
  have hchunk := vae.chunk_dec_eq
  have hclip := vae.clip_length_pos
  have hlt := vae.frame_pre_padding_lt
  rw [chunk_dec] at hchunk
  rcases vae.drop_cases hdrop with ⟨hpos, -, hsum, hframes⟩ | ⟨-, -, -, hzero⟩
  · have hle : (vae.token_overlap + 1) * vae.vae_ratio_t ≤ vae.tokens_chunk_size * vae.vae_ratio_t :=
      Nat.mul_le_mul_right _ (by omega)
    rw [Nat.add_mul] at hle
    omega
  · omega

end

end Vae

/-! ## The tokens of the chunks -/

variable {α : Type}

@[simp] theorem length_slice (xs : List α) (start stop : ℕ) :
    (slice xs start stop).length = min stop xs.length - start := by
  rw [slice, length_drop, length_take]

@[simp] theorem length_drop_back (xs : List α) (n : ℕ) :
    (drop_back xs n).length = xs.length - n := by
  rw [drop_back, length_take]
  omega

@[simp] theorem length_last_one (xs : List α) : (last_one xs).length = min 1 xs.length := by
  rw [last_one, length_drop]
  omega

/-- The split tokens fall into whole chunks and one overlap. -/
structure Chunked (vae : Vae) (s : Split Token) (num_chunks : ℕ) : Prop where
  pos : 1 ≤ num_chunks
  chunks : s.num_chunks = num_chunks
  length_z : s.z.length = num_chunks * vae.tokens_chunk_size + vae.token_overlap
  length_head : ∀ z_head, s.z_head = some z_head → z_head.length = 1
  length_tail : ∀ z_tail, s.z_tail = some z_tail → z_tail.length = 1
  pad_lt : s.pad_tokens < vae.tokens_chunk_size

/-- The isolated tokens of a split, as a number. -/
def isolated (vae : Vae) : ℕ :=
  (if vae.has_head then 1 else 0) + (if vae.isolated_last_frame then 1 else 0)

theorem pseudo_total_tokens_eq (vae : Vae) (n : ℕ) :
    pseudo_total_tokens vae n = (n : ℤ) - isolated vae + vae.token_drop := by
  unfold pseudo_total_tokens isolated
  push_cast
  rfl

theorem pad_tokens_spec {vae : Vae} {n : ℕ} (hdrop : vae.token_drop < vae.tokens_chunk_size) :
    pad_tokens vae n < vae.tokens_chunk_size
      ∧ (n : ℤ) - isolated vae + pad_tokens vae n
        = ((pseudo_total_tokens vae n + pad_tokens vae n) / vae.tokens_chunk_size - vae.dropping)
            * vae.tokens_chunk_size + vae.token_overlap := by
  have hsize := vae.tokens_chunk_size_pos
  have hoverlap : (vae.token_overlap : ℤ) + vae.token_drop = vae.dropping * vae.tokens_chunk_size := by
    exact_mod_cast vae.token_overlap_add_drop hdrop
  have htotal := pseudo_total_tokens_eq vae n
  have hnonneg := Int.emod_nonneg (pseudo_total_tokens vae n)
    (by omega : (vae.tokens_chunk_size : ℤ) ≠ 0)
  have hlt := Int.emod_lt_of_pos (pseudo_total_tokens vae n)
    (by omega : (0 : ℤ) < vae.tokens_chunk_size)
  have hdiv := Int.mul_ediv_add_emod (pseudo_total_tokens vae n) vae.tokens_chunk_size
  have hdvd : pad_tokens vae n < vae.tokens_chunk_size
      ∧ ∃ q : ℤ, pseudo_total_tokens vae n + pad_tokens vae n = q * vae.tokens_chunk_size := by
    unfold pad_tokens
    by_cases hzero : pseudo_total_tokens vae n % vae.tokens_chunk_size = 0
    · simp only [hzero, ne_eq, not_true_eq_false, if_false]
      refine ⟨hsize, pseudo_total_tokens vae n / vae.tokens_chunk_size, ?_⟩
      rw [Int.mul_comm]
      omega
    · simp only [hzero, ne_eq, not_false_eq_true, if_true]
      refine ⟨by omega, pseudo_total_tokens vae n / vae.tokens_chunk_size + 1, ?_⟩
      rw [Int.add_mul, Int.mul_comm]
      omega
  obtain ⟨hpad, q, hq⟩ := hdvd
  refine ⟨hpad, ?_⟩
  rw [hq, Int.mul_ediv_cancel _ (by omega), Int.sub_mul]
  omega

theorem length_replicate_last {xs : List α} (n : ℕ) (h : xs ≠ []) :
    (List.replicate n (last_one xs)).flatten.length = n := by
  have hpos := length_pos_of_ne_nil h
  rw [length_flatten, map_replicate, sum_replicate_nat, length_last_one,
    Nat.min_eq_left (by omega), Nat.mul_one]

/-- **Splitting the tokens.** -/
theorem split_tokens_chunked {vae : Vae} {z : List Token} {s : Split Token}
    (hdrop : vae.token_drop < vae.tokens_chunk_size) (h : split_tokens vae z = .ok s)
    (hchunks : 1 ≤ s.num_chunks) : Chunked vae s s.num_chunks.toNat := by
  obtain ⟨hpad, htotal⟩ := pad_tokens_spec (n := z.length) hdrop
  unfold split_tokens at h
  split at h
  · cases h
  · cases h
    simp only at hchunks ⊢
    set chunks := (pseudo_total_tokens vae z.length + pad_tokens vae z.length)
      / vae.tokens_chunk_size - vae.dropping
    -- at least one token is left when the isolated ones are gone
    have hone : 1 * (vae.tokens_chunk_size : ℤ) ≤ chunks * vae.tokens_chunk_size :=
      Int.mul_le_mul_of_nonneg_right hchunks (by omega)
    have hkept : isolated vae + 1 ≤ z.length := by omega
    have hhead : (without_head vae z).length = z.length - if vae.has_head then 1 else 0 := by
      unfold without_head
      split
      · rw [length_drop]
      · rfl
    have htail : (without_tail vae (without_head vae z)).length = z.length - isolated vae := by
      unfold without_tail isolated
      split
      · rw [length_drop_back]
        omega
      · omega
    have hne : without_tail vae (without_head vae z) ≠ [] := by
      intro hnil
      rw [hnil] at htail
      simp only [length_nil] at htail
      omega
    have hnonneg : 0 ≤ chunks := by omega
    refine ⟨by omega, (Int.toNat_of_nonneg hnonneg).symm, ?_, ?_, ?_, hpad⟩
    · have hlen : (if pad_tokens vae z.length > 0 then without_tail vae (without_head vae z)
          ++ (List.replicate (pad_tokens vae z.length)
            (last_one (without_tail vae (without_head vae z)))).flatten
          else without_tail vae (without_head vae z)).length
          = z.length - isolated vae + pad_tokens vae z.length := by
        split
        · rw [length_append, length_replicate_last _ hne, htail]
        · omega
      rw [hlen]
      zify
      rw [Int.toNat_of_nonneg hnonneg]
      omega
    · intro z_head hz
      simp only at hz
      split at hz
      · cases hz
        rw [length_take]
        omega
      · cases hz
    · intro z_tail hz
      simp only at hz
      split at hz
      · rename_i hlast
        cases hz
        unfold isolated at hkept
        rw [length_last_one]
        omega
      · cases hz

/-! ## The frames of a chunk -/

/-- Decoding gives `vae_ratio_t` frames for each token. -/
def DecodesFrames (vae : Vae) (coder : Coder Frame Token) : Prop :=
  ∀ z, (coder.decode z).length = z.length * vae.vae_ratio_t

/-- The frames decoded from the tokens of chunk `i`. -/
def decoded (vae : Vae) (coder : Coder Frame Token) (s : Split Token) (num_chunks i : ℕ) :
    List Frame :=
  (coder.decode (clip_z vae s num_chunks i)).map coder.cast

/-- Chunk `i` begins with the isolated first frame. -/
def head_at (s : Split Token) (i : ℕ) : Bool := s.z_head.isSome && i == 0

/-- Chunk `i` ends with the isolated last frame. -/
def tail_at (s : Split Token) (num_chunks i : ℕ) : Bool := s.z_tail.isSome && i == num_chunks - 1

/-- The frames of chunk `i` behind the isolated first one. -/
def headless (vae : Vae) (coder : Coder Frame Token) (s : Split Token) (num_chunks i : ℕ) :
    List Frame :=
  if head_at s i then (decoded vae coder s num_chunks i).drop vae.vae_ratio_t
  else decoded vae coder s num_chunks i

/-- The frames of chunk `i` without the isolated ones. -/
def clip_frames (vae : Vae) (coder : Coder Frame Token) (s : Split Token) (num_chunks i : ℕ) :
    List Frame :=
  if tail_at s num_chunks i then drop_back (headless vae coder s num_chunks i) vae.vae_ratio_t
  else headless vae coder s num_chunks i

section Frames

variable {vae : Vae} {coder : Coder Frame Token} {s : Split Token} {num_chunks i : ℕ}

section

variable (hc : Chunked vae s num_chunks)
include hc

theorem length_cat_head (clip : List Token) :
    (cat_head s i clip).length = clip.length + if head_at s i then 1 else 0 := by
  unfold cat_head head_at
  cases hz : s.z_head with
  | none => simp
  | some z_head =>
    have hone := hc.length_head z_head hz
    by_cases h0 : i = 0
    · simp only [h0]
      simp
      omega
    · simp [h0]

theorem length_cat_tail (clip : List Token) : (cat_tail s num_chunks i clip).length
      = clip.length + if tail_at s num_chunks i then 1 else 0 := by
  unfold cat_tail tail_at
  cases hz : s.z_tail with
  | none => simp
  | some z_tail =>
    have hone := hc.length_tail z_tail hz
    by_cases hl : i = num_chunks - 1
    · simp [hl, hone]
    · simp [hl]

theorem length_clip_z (hi : i < num_chunks) :
    (clip_z vae s num_chunks i).length = vae.tokens_chunk_size + vae.token_overlap
      + (if head_at s i then 1 else 0) + (if tail_at s num_chunks i then 1 else 0) := by
  have hlast : (i + 1) * vae.tokens_chunk_size ≤ num_chunks * vae.tokens_chunk_size :=
    Nat.mul_le_mul_right _ hi
  rw [Nat.add_mul] at hlast
  unfold clip_z
  rw [length_cat_tail hc, length_cat_head hc, length_slice, hc.length_z]
  omega

end

section

variable (hdec : DecodesFrames vae coder) (hc : Chunked vae s num_chunks) (hi : i < num_chunks)
include hdec hc hi

theorem length_decoded : (decoded vae coder s num_chunks i).length
      = (vae.tokens_chunk_size + vae.token_overlap + (if head_at s i then 1 else 0)
        + (if tail_at s num_chunks i then 1 else 0)) * vae.vae_ratio_t := by
  rw [decoded, length_map, hdec, length_clip_z hc hi]

theorem length_headless : (headless vae coder s num_chunks i).length
      = (vae.tokens_chunk_size + vae.token_overlap
        + (if tail_at s num_chunks i then 1 else 0)) * vae.vae_ratio_t := by
  have hlen := length_decoded hdec hc hi
  unfold headless
  split at hlen <;> rename_i hhead
  · rw [if_pos hhead, length_drop, hlen]
    rw [show vae.tokens_chunk_size + vae.token_overlap + 1 + (if tail_at s num_chunks i then 1 else 0)
      = vae.tokens_chunk_size + vae.token_overlap + (if tail_at s num_chunks i then 1 else 0) + 1
      by omega, Nat.add_mul _ 1, Nat.one_mul, Nat.add_sub_cancel]
  · rw [if_neg hhead, hlen, Nat.add_zero]

/-- **Every chunk decodes to the same number of frames.** -/
theorem length_clip_frames : (clip_frames vae coder s num_chunks i).length
      = vae.chunk_dec + vae.token_overlap * vae.vae_ratio_t := by
  have hlen := length_headless hdec hc hi
  rw [Vae.chunk_dec, ← Nat.add_mul]
  unfold clip_frames
  split at hlen <;> rename_i htail
  · rw [if_pos htail, length_drop_back, hlen, Nat.add_mul _ 1, Nat.one_mul, Nat.add_sub_cancel]
  · rw [if_neg htail, hlen, Nat.add_zero]

end

theorem length_first_part {clip_dec : List Frame}
    (hlen : clip_dec.length = vae.chunk_dec + vae.token_overlap * vae.vae_ratio_t) :
    (clip_dec_chunk vae clip_dec 0).length = vae.clip_length := by
  have hchunk := vae.chunk_dec_eq
  unfold clip_dec_chunk
  rw [length_drop, length_slice]
  omega

theorem length_second_part {clip_dec : List Frame} (hdrop : vae.token_drop < vae.tokens_chunk_size)
    (hpos : 0 < vae.token_drop)
    (hlen : clip_dec.length = vae.chunk_dec + vae.token_overlap * vae.vae_ratio_t) :
    (clip_dec_chunk vae clip_dec 1).length = vae.frame_overlap := by
  obtain ⟨-, -, hsum, hframes⟩ := (vae.drop_cases hdrop).resolve_right (by omega)
  have hle : vae.token_overlap * vae.vae_ratio_t ≤ vae.chunk_dec :=
    Nat.mul_le_mul_right _ (by omega)
  unfold clip_dec_chunk
  rw [length_drop, length_slice]
  omega

end Frames

/-! ## The assembled frames -/

variable {i : ℕ}

section Assembled

variable (vae : Vae) (coder : Coder Frame Token) (s : Split Token) (num_chunks : ℕ)

/-- What chunk `i` contributes: its first part, faded in from the overlap of the chunk
before. -/
def body : ℕ → List Frame
  | 0 => clip_dec_chunk vae (clip_frames vae coder s num_chunks 0) 0
  | i + 1 =>
    if vae.token_drop > 0 then
      blend coder (clip_dec_chunk vae (clip_frames vae coder s num_chunks i) 1)
        (clip_dec_chunk vae (clip_frames vae coder s num_chunks (i + 1)) 0) vae.frame_overlap
    else clip_dec_chunk vae (clip_frames vae coder s num_chunks (i + 1)) 0

/-- The overlap that is waiting after `n` chunks. -/
def waiting (n : ℕ) : Option (List Frame) :=
  if vae.token_drop > 0 ∧ 0 < n then
    some (clip_dec_chunk vae (clip_frames vae coder s num_chunks (n - 1)) 1)
  else none

/-- The isolated first frame. -/
def head_part : List Frame :=
  if s.z_head.isSome then
    slice (decoded vae coder s num_chunks 0) (vae.vae_ratio_t - 1) vae.vae_ratio_t
  else []

/-- The isolated last frame. -/
def tail_part : List Frame :=
  if s.z_tail.isSome then last_one (headless vae coder s num_chunks (num_chunks - 1)) else []

/-- The frames of the first `n` chunks. -/
def bodies (n : ℕ) : List Frame := (List.range n).flatMap (body vae coder s num_chunks)

/-- All frames, those of the padding included. -/
def assembled : List Frame :=
  head_part vae coder s num_chunks ++ bodies vae coder s num_chunks num_chunks
    ++ (waiting vae coder s num_chunks num_chunks).getD [] ++ tail_part vae coder s num_chunks

variable {vae coder s num_chunks}

theorem length_blend (a b : List Frame) (n : ℕ) : (blend coder a b n).length = b.length := by
  unfold blend
  simp only
  have hoverlap : (if min (min a.length b.length) n = 0 then a
      else a.drop (a.length - min (min a.length b.length) n)).length
      ≥ min (min a.length b.length) n := by
    split
    · omega
    · rw [length_drop]
      omega
  split
  · rw [length_append, length_map, length_zip, length_zip, length_range, length_take, length_drop]
    omega
  · rw [length_map, length_zip, length_zip, length_range, length_take]
    omega

section

variable (hdec : DecodesFrames vae coder) (hc : Chunked vae s num_chunks)
include hdec hc

theorem length_body (hi : i < num_chunks) :
    (body vae coder s num_chunks i).length = vae.clip_length := by
  have hfirst := length_first_part (length_clip_frames hdec hc hi)
  cases i with
  | zero => exact hfirst
  | succ i =>
    rw [body]
    split
    · rw [length_blend, hfirst]
    · exact hfirst

theorem length_bodies {n : ℕ} (hn : n ≤ num_chunks) :
    (bodies vae coder s num_chunks n).length = n * vae.clip_length := by
  induction n with
  | zero => simp [bodies]
  | succ n ih =>
    have hprev := ih (by omega)
    unfold bodies at hprev ⊢
    rw [range_succ, flatMap_append, length_append, hprev, flatMap_singleton,
      length_body hdec hc (by omega), Nat.add_mul, Nat.one_mul]

omit hdec hc in
theorem length_waiting (hdrop : vae.token_drop < vae.tokens_chunk_size)
    (hdec : DecodesFrames vae coder) (hc : Chunked vae s num_chunks) :
    ((waiting vae coder s num_chunks num_chunks).getD []).length = vae.frame_overlap := by
  have hpos := hc.pos
  unfold waiting
  rcases vae.drop_cases hdrop with ⟨hdropped, -⟩ | ⟨hkept, -, -, hzero⟩
  · rw [if_pos ⟨hdropped, by omega⟩]
    exact length_second_part hdrop hdropped (length_clip_frames hdec hc (by omega))
  · rw [if_neg (by omega), Option.getD_none, length_nil, hzero]

theorem length_head_part :
    (head_part vae coder s num_chunks).length = if s.z_head.isSome then 1 else 0 := by
  have hpos := vae.vae_ratio_t_pos
  unfold head_part
  split
  · rename_i hhead
    have hat : head_at s 0 = true := by simp [head_at, hhead]
    have hlen := length_decoded hdec hc (show 0 < num_chunks from hc.pos)
    rw [if_pos hat] at hlen
    have hle : 1 * vae.vae_ratio_t ≤ (decoded vae coder s num_chunks 0).length := by
      rw [hlen]
      exact Nat.mul_le_mul_right _ (by omega)
    rw [length_slice]
    omega
  · rfl

theorem length_tail_part :
    (tail_part vae coder s num_chunks).length = if s.z_tail.isSome then 1 else 0 := by
  have hpos := vae.vae_ratio_t_pos
  have hchunks := hc.pos
  unfold tail_part
  split
  · rename_i htail
    have hat : tail_at s num_chunks (num_chunks - 1) = true := by simp [tail_at, htail]
    have hlen := length_headless hdec hc (show num_chunks - 1 < num_chunks by omega)
    rw [if_pos hat] at hlen
    have hle : 1 * vae.vae_ratio_t ≤ (headless vae coder s num_chunks (num_chunks - 1)).length := by
      rw [hlen]
      exact Nat.mul_le_mul_right _ (by omega)
    rw [length_last_one]
    omega
  · rfl

end

/-- **The number of frames.** -/
theorem length_assembled (hdrop : vae.token_drop < vae.tokens_chunk_size)
    (hdec : DecodesFrames vae coder) (hc : Chunked vae s num_chunks) :
    (assembled vae coder s num_chunks).length = (if s.z_head.isSome then 1 else 0)
      + num_chunks * vae.clip_length + vae.frame_overlap + (if s.z_tail.isSome then 1 else 0) := by
  unfold assembled
  rw [length_append, length_append, length_append, length_head_part hdec hc,
    length_bodies hdec hc (Nat.le_refl _), length_waiting hdrop hdec hc, length_tail_part hdec hc]

end Assembled

/-! ## Concatenating -/

section Concat

variable {vae : Vae} {coder : Coder Frame Token} {s : Split Token} {num_chunks : ℕ}

variable {α : Type}

theorem modify_range (f : ℕ → α) (g : α → α) (k n : ℕ) : ((List.range n).map f).modify k g
      = (List.range n).map (fun i => if i = k then g (f i) else f i) := by
  refine ext_getElem? (fun i => ?_)
  rw [getElem?_modify, getElem?_map, getElem?_map]
  by_cases hi : i < n
  · rw [getElem?_range hi]
    by_cases hk : k = i
    · simp [hk]
    · simp [hk, Ne.symm hk]
  · rw [getElem?_eq_none (by simpa using hi)]
    rfl

theorem collect_chunk (st : Collected Frame) (i : ℕ)
    (hst : st.dec_overlap = waiting vae coder s num_chunks i) : (List.range vae.split_count).foldl
        (collect_part vae coder (clip_frames vae coder s num_chunks i)) st
      = ⟨st.dec_list ++ [body vae coder s num_chunks i], waiting vae coder s num_chunks (i + 1)⟩ := by
  unfold waiting at hst ⊢
  by_cases hzero : vae.token_drop > 0
  · have hsplit : vae.split_count = 2 := by simp [Vae.split_count, Vae.dropping, hzero]
    rw [hsplit]
    cases i with
    | zero =>
      simp [range_succ, collect_part, hst, hzero, body]
    | succ i =>
      simp [range_succ, collect_part, hst, hzero, body]
  · have hsplit : vae.split_count = 1 := by simp [Vae.split_count, Vae.dropping, hzero]
    rw [hsplit]
    cases i with
    | zero => simp [collect_part, hst, hzero, body]
    | succ i => simp [collect_part, hst, hzero, body]

/-- **The collecting loop.** After `n` chunks their bodies are in the list and the overlap of
the last one is waiting. -/
theorem collect_chunks (front : List (List Frame)) (n : ℕ) :
    ((List.range n).map (clip_frames vae coder s num_chunks)).foldl
        (fun st clip_dec => (List.range vae.split_count).foldl (collect_part vae coder clip_dec) st)
        (⟨front, none⟩ : Collected Frame)
      = ⟨front ++ (List.range n).map (body vae coder s num_chunks),
          waiting vae coder s num_chunks n⟩ := by
  induction n with
  | zero => simp [waiting]
  | succ n ih =>
    rw [range_succ, map_append, foldl_append, ih, map_singleton,
      foldl_cons, foldl_nil, collect_chunk _ n rfl, map_append, map_singleton, append_assoc]

theorem headless_chunks :
    (if s.z_head.isSome then ((List.range num_chunks).map (decoded vae coder s num_chunks)).modify 0
        (fun clip_dec => clip_dec.drop vae.vae_ratio_t)
      else (List.range num_chunks).map (decoded vae coder s num_chunks))
      = (List.range num_chunks).map (headless vae coder s num_chunks) := by
  split
  · rename_i hhead
    rw [modify_range]
    refine map_congr_left (fun i _ => ?_)
    simp [headless, head_at, hhead]
  · rename_i hhead
    refine map_congr_left (fun i _ => ?_)
    simp [headless, head_at, hhead]

theorem stripped_chunks :
    (if s.z_tail.isSome then ((List.range num_chunks).map (headless vae coder s num_chunks)).modify
        (num_chunks - 1) (fun clip_dec => drop_back clip_dec vae.vae_ratio_t)
      else (List.range num_chunks).map (headless vae coder s num_chunks))
      = (List.range num_chunks).map (clip_frames vae coder s num_chunks) := by
  split
  · rename_i htail
    rw [modify_range]
    refine map_congr_left (fun i _ => ?_)
    simp [clip_frames, tail_at, htail]
  · rename_i htail
    refine map_congr_left (fun i _ => ?_)
    simp [clip_frames, tail_at, htail]

theorem headD_range {f : ℕ → α} {d : α} {n : ℕ} (hn : 1 ≤ n) :
    ((List.range n).map f).headD d = f 0 := by
  obtain ⟨m, rfl⟩ := Nat.exists_eq_add_of_le' hn
  simp [range_succ_eq_map]

theorem getLastD_range {f : ℕ → α} {d : α} {n : ℕ} (hn : 1 ≤ n) :
    ((List.range n).map f).getLastD d = f (n - 1) := by
  obtain ⟨m, rfl⟩ := Nat.exists_eq_add_of_le' hn
  simp [range_succ]

/-- **The concatenated frames.** -/
theorem decode_temporal_concat_eq (hc : Chunked vae s num_chunks) :
    decode_temporal_concat vae coder s = .ok (
      if decode_temporal_pad_frames vae s.z.length s.pad_tokens > 0 then
        drop_back (assembled vae coder s num_chunks)
          (decode_temporal_pad_frames vae s.z.length s.pad_tokens)
      else assembled vae coder s num_chunks) := by
  have hchunks : s.num_chunks.toNat = num_chunks := by
    rw [hc.chunks]
    exact Int.toNat_natCast num_chunks
  have hpos := hc.pos
  have hne : (List.range num_chunks).map (decoded vae coder s num_chunks) ≠ [] := by
    simp
    omega
  have hdecoded : (List.range num_chunks).map
      (fun i => (coder.decode (clip_z vae s num_chunks i)).map coder.cast)
      = (List.range num_chunks).map (decoded vae coder s num_chunks) := rfl
  unfold decode_temporal_concat
  simp only [hchunks, hdecoded]
  rw [if_neg (fun h => hne h.1)]
  simp only [headless_chunks, length_map, length_range, stripped_chunks, collect_chunks,
    headD_range hpos, getLastD_range hpos]
  have hflat : ((if s.z_head.isSome = true then
        [slice (decoded vae coder s num_chunks 0) (vae.vae_ratio_t - 1) vae.vae_ratio_t] else [])
      ++ (List.range num_chunks).map (body vae coder s num_chunks)
      ++ (waiting vae coder s num_chunks num_chunks).toList ++ if s.z_tail.isSome = true then
          [last_one (headless vae coder s num_chunks (num_chunks - 1))] else []).flatten
      = assembled vae coder s num_chunks := by
    unfold assembled bodies head_part tail_part
    rw [flatten_append, flatten_append, List.flatMap]
    congr 1
    · congr 1
      · split <;> simp
      · cases waiting vae coder s num_chunks num_chunks <;> simp
    · split <;> simp
  rw [hflat]

end Concat

/-! ## Writing -/

/-- The output after some frames: the first `n` of them, in a tensor of `n`. -/
def written (n : ℕ) (frames : List Frame) : Written Frame where
  dec := if frames = [] then none
    else some ((frames.take n).map some ++ List.replicate (n - frames.length) none)
  write_pos := min frames.length n
  logical_frames := frames.length
  dropped_frames := frames.length - n

/-- **One more part.** -/
theorem write_part_written (n : ℕ) (frames part : List Frame) :
    write_part n (written n frames) part = written n (frames ++ part) := by
  by_cases hpart : part = []
  · subst hpart
    simp [write_part]
  · have hlen : part.length ≠ 0 := fun h => hpart (length_eq_zero_iff.mp h)
    have hdec : (written n frames).dec.getD (List.replicate n none)
        = (frames.take n).map some ++ List.replicate (n - frames.length) none := by
      unfold written
      split
      · rename_i hnil
        subst hnil
        simp
      · rfl
    have hdec_len : ((frames.take n).map some
        ++ List.replicate (n - frames.length) (none : Option Frame)).length = n := by
      rw [length_append, length_map, length_take, length_replicate]
      omega
    unfold write_part
    rw [if_neg hlen]
    simp only [hdec, hdec_len]
    have hne : frames ++ part ≠ [] := fun h => hpart (append_eq_nil_iff.mp h).2
    unfold written
    rw [if_neg hne]
    simp only [length_append, Written.mk.injEq]
    refine ⟨?_, by omega, trivial, by omega⟩
    -- the part goes right behind what is written, as far as there is room
    have hfront : ((frames.take n).map some
        ++ List.replicate (n - frames.length) (none : Option Frame)).take (min frames.length n)
        = (frames.take n).map some := by
      rw [take_append_of_le_length (by simp), take_of_length_le (by simp)]
    have hback : ((frames.take n).map some
        ++ List.replicate (n - frames.length) (none : Option Frame)).drop
          (min frames.length n + min part.length (n - min frames.length n))
        = List.replicate (n - (frames.length + part.length)) none := by
      rw [drop_append, drop_eq_nil_of_le (by simp; omega)]
      simp
      omega
    have hroom : part.take (min part.length (n - min frames.length n))
        = part.take (n - frames.length) := by
      rw [take_eq_take_iff]
      omega
    rw [hfront, hback, hroom, take_append, map_append]

/-! ## Streaming -/

section Stream

variable {vae : Vae} {coder : Coder Frame Token} {s : Split Token} {num_chunks : ℕ}

theorem stream_parts (n : ℕ) (frames : List Frame) (i : ℕ) : (List.range vae.split_count).foldl
        (stream_part vae coder n (clip_frames vae coder s num_chunks i))
        ⟨written n frames, waiting vae coder s num_chunks i⟩
      = ⟨written n (frames ++ body vae coder s num_chunks i),
          waiting vae coder s num_chunks (i + 1)⟩ := by
  unfold waiting
  by_cases hzero : vae.token_drop > 0
  · have hsplit : vae.split_count = 2 := by simp [Vae.split_count, Vae.dropping, hzero]
    rw [hsplit]
    cases i with
    | zero => simp [range_succ, stream_part, hzero, body, write_part_written]
    | succ i => simp [range_succ, stream_part, hzero, body, write_part_written]
  · have hsplit : vae.split_count = 1 := by simp [Vae.split_count, Vae.dropping, hzero]
    rw [hsplit]
    cases i with
    | zero => simp [stream_part, hzero, body, write_part_written]
    | succ i => simp [stream_part, hzero, body, write_part_written]

/-- What chunk `i` writes in front of its body. -/
def front_part (vae : Vae) (coder : Coder Frame Token) (s : Split Token) (num_chunks i : ℕ) :
    List Frame := if i = 0 then head_part vae coder s num_chunks else []

/-- **A chunk of the streaming loop.** Its body follows what is written; the last chunk also
writes the overlap and the isolated last frame. -/
theorem stream_chunk_eq (n : ℕ) (frames : List Frame) (i : ℕ) :
    stream_chunk vae coder s num_chunks n ⟨written n frames, waiting vae coder s num_chunks i⟩ i
      = (if i = num_chunks - 1 then
          finish_stream n ⟨written n (frames ++ front_part vae coder s num_chunks i
            ++ body vae coder s num_chunks i), waiting vae coder s num_chunks (i + 1)⟩
            (if tail_at s num_chunks i then some (last_one (headless vae coder s num_chunks i))
              else none)
        else ⟨written n (frames ++ front_part vae coder s num_chunks i
            ++ body vae coder s num_chunks i), waiting vae coder s num_chunks (i + 1)⟩) := by
  have hout : (if head_at s i then
        write_part n (written n frames) (slice (decoded vae coder s num_chunks i)
          (vae.vae_ratio_t - 1) vae.vae_ratio_t)
      else written n frames) = written n (frames ++ front_part vae coder s num_chunks i) := by
    unfold front_part head_part head_at
    by_cases h0 : i = 0
    · subst h0
      by_cases hh : s.z_head.isSome
      · simp [hh, write_part_written]
      · simp [hh]
    · simp [h0]
  rw [← stream_parts, ← hout]
  rfl

theorem finish_stream_eq (n : ℕ) (frames : List Frame) (overlap tail : Option (List Frame)) :
    (finish_stream n ⟨written n frames, overlap⟩ tail).out
      = written n (frames ++ overlap.getD [] ++ tail.getD []) := by
  unfold finish_stream
  cases overlap <;> cases tail <;> simp [write_part_written]

/-- **The streaming loop.** Before the last chunk, what is written are the isolated first
frame and the bodies so far. -/
theorem stream_chunks {n m : ℕ} (hm : m < num_chunks) :
    (List.range m).foldl (stream_chunk vae coder s num_chunks n) ⟨written n [], none⟩
      = ⟨written n (if m = 0 then [] else head_part vae coder s num_chunks
            ++ bodies vae coder s num_chunks m), waiting vae coder s num_chunks m⟩ := by
  induction m with
  | zero => simp [waiting]
  | succ m ih =>
    rw [range_succ, foldl_append, ih (by omega), foldl_cons, stream_chunk_eq, if_neg (by omega)]
    unfold front_part bodies
    rw [range_succ, flatMap_append]
    by_cases h0 : m = 0
    · subst h0
      simp
    · simp [h0]

theorem stream_all (n : ℕ) (hc : Chunked vae s num_chunks) :
    ((List.range num_chunks).foldl (stream_chunk vae coder s num_chunks n)
        ⟨written n [], none⟩).out = written n (assembled vae coder s num_chunks) := by
  have hpos := hc.pos
  obtain ⟨m, rfl⟩ := Nat.exists_eq_add_of_le' hpos
  rw [range_succ, foldl_append, stream_chunks (by omega), foldl_cons, foldl_nil,
    stream_chunk_eq, if_pos (by omega), finish_stream_eq]
  congr 1
  have htail : (if tail_at s (m + 1) m then some (last_one (headless vae coder s (m + 1) m))
      else none).getD [] = tail_part vae coder s (m + 1) := by
    unfold tail_part tail_at
    by_cases ht : s.z_tail.isSome
    · simp [ht]
    · simp [ht]
  congr 2
  unfold front_part bodies
  rw [range_succ, flatMap_append]
  by_cases h0 : m = 0
  · subst h0
    simp
  · simp [h0]

end Stream

/-! ## The frame plan -/

section Plan

variable {vae : Vae} {coder : Coder Frame Token} {s : Split Token} {num_chunks : ℕ}

theorem planned_clip_frames_eq (hc : Chunked vae s num_chunks) (hi : i < num_chunks) :
    planned_clip_frames vae s num_chunks i
      = vae.chunk_dec + vae.token_overlap * vae.vae_ratio_t := by
  have hlast : (i + 1) * vae.tokens_chunk_size ≤ num_chunks * vae.tokens_chunk_size :=
    Nat.mul_le_mul_right _ hi
  rw [Nat.add_mul] at hlast
  have hlen : min (i * vae.tokens_chunk_size + vae.tokens_chunk_size + vae.token_overlap) s.z.length
      - min (i * vae.tokens_chunk_size) s.z.length = vae.tokens_chunk_size + vae.token_overlap := by
    rw [hc.length_z]
    omega
  have hhead : (if i = 0 then s.z_head.map List.length else none)
      = if head_at s i then some 1 else none := by
    unfold head_at
    cases hz : s.z_head with
    | none => simp
    | some z_head =>
      have hone := hc.length_head z_head hz
      by_cases h0 : i = 0
      · simp [hone]
      · simp [h0]
  have htail : (if i = num_chunks - 1 then s.z_tail.map List.length else none)
      = if tail_at s num_chunks i then some 1 else none := by
    unfold tail_at
    cases hz : s.z_tail with
    | none => simp
    | some z_tail =>
      have hone := hc.length_tail z_tail hz
      by_cases hl : i = num_chunks - 1
      · simp [hone]
      · simp [hl]
  unfold planned_clip_frames
  simp only [hlen]
  rw [hhead, htail, Vae.chunk_dec]
  cases head_at s i <;> cases tail_at s num_chunks i <;> simp [Nat.add_mul]

theorem plan_chunk (hdrop : vae.token_drop < vae.tokens_chunk_size) (hc : Chunked vae s num_chunks)
    (hi : i < num_chunks) (st : ℕ × ℕ) (hst : vae.token_drop = 0 → st.2 = 0) :
    (List.range vae.split_count).foldl (plan_part vae (planned_clip_frames vae s num_chunks i)) st
      = (st.1 + vae.clip_length, vae.frame_overlap) := by
  have hchunk := vae.chunk_dec_eq
  rw [planned_clip_frames_eq hc hi]
  rcases vae.drop_cases hdrop with ⟨-, hone, hsum, hframes⟩ | ⟨hzero, hnone, hov, hoverlap⟩
  · have hle : vae.token_overlap * vae.vae_ratio_t ≤ vae.chunk_dec :=
      Nat.mul_le_mul_right _ (by omega)
    rw [Vae.split_count, hone]
    simp only [range_succ, range_zero, foldl_append, foldl_cons,
      foldl_nil, plan_part, planned_chunk_frames, if_true, Nat.one_ne_zero, if_false, Prod.mk.injEq]
    omega
  · rw [Vae.split_count, hnone]
    simp only [range_succ, range_zero, nil_append, foldl_cons, foldl_nil,
      plan_part, planned_chunk_frames, if_true, Prod.ext_iff]
    omega

/-- **The plan is the number of frames.** -/
theorem plan_total (hdrop : vae.token_drop < vae.tokens_chunk_size)
    (hdec : DecodesFrames vae coder) (hc : Chunked vae s num_chunks) :
    (decode_temporal_output_frame_plan vae s num_chunks).total_frames
      = (assembled vae coder s num_chunks).length := by
  have hloop : ∀ n ≤ num_chunks, (List.range n).foldl (fun st i => (List.range vae.split_count).foldl
      (plan_part vae (planned_clip_frames vae s num_chunks i)) st)
      (if s.z_head.isSome then 1 else 0, 0)
      = ((if s.z_head.isSome then 1 else 0) + n * vae.clip_length,
          if n = 0 then 0 else vae.frame_overlap) := by
    intro n hn
    induction n with
    | zero => simp
    | succ n ih =>
      rw [range_succ, foldl_append, ih (by omega), foldl_cons, foldl_nil,
        plan_chunk hdrop hc (by omega), if_neg (Nat.succ_ne_zero n), Nat.add_mul, Nat.one_mul,
        Nat.add_assoc]
      -- without a drop there is no overlap
      intro hzero
      obtain ⟨-, -, -, hoverlap⟩ := (vae.drop_cases hdrop).resolve_left (by omega)
      rw [hoverlap, ite_self]
  have hpos := hc.pos
  unfold decode_temporal_output_frame_plan
  have hne : num_chunks ≠ 0 := by omega
  simp only [hloop num_chunks (Nat.le_refl _), hne, if_false]
  rw [length_assembled hdrop hdec hc]

theorem pad_frames_lt (hc : Chunked vae s num_chunks) :
    decode_temporal_pad_frames vae s.z.length s.pad_tokens < vae.clip_length := by
  have hchunk := vae.chunk_dec_eq
  have hlt := vae.frame_pre_padding_lt
  have hpad := hc.pad_lt
  have hmul : (s.pad_tokens + 1) * vae.vae_ratio_t ≤ vae.chunk_dec := Nat.mul_le_mul_right _ hpad
  rw [Nat.add_mul] at hmul
  have hle : decode_temporal_pad_frames vae s.z.length s.pad_tokens
      ≤ s.pad_tokens * vae.vae_ratio_t := by
    unfold decode_temporal_pad_frames
    split
    · exact Nat.zero_le _
    · simp only
      split
      · exact Nat.le_refl _
      · -- a padded token stands for at most `vae_ratio_t` frames
        have hterm : ∀ f ∈ (List.range s.pad_tokens).map (fun k =>
            if (s.z.length - s.pad_tokens + k) % vae.tokens_chunk_size = 0
            then vae.clip_length % vae.vae_ratio_t else vae.vae_ratio_t), f ≤ vae.vae_ratio_t := by
          intro f hf
          obtain ⟨k, -, rfl⟩ := mem_map.mp hf
          split
          · exact (Nat.mod_lt _ vae.vae_ratio_t_pos).le
          · exact Nat.le_refl _
        have hsum := sum_le_card_nsmul _ _ hterm
        rwa [length_map, length_range, nsmul_eq_mul, Nat.cast_id] at hsum
  omega

end Plan

/-! ## Streaming is concatenating -/

section Agree

variable {vae : Vae} {coder : Coder Frame Token} {s : Split Token} {num_chunks : ℕ}

/-- The frames that are kept: all but those of the padding. -/
def output (vae : Vae) (coder : Coder Frame Token) (s : Split Token) (num_chunks : ℕ) : List Frame :=
  drop_back (assembled vae coder s num_chunks)
    (decode_temporal_pad_frames vae s.z.length s.pad_tokens)

theorem concat_eq_output (hc : Chunked vae s num_chunks) :
    decode_temporal_concat vae coder s = .ok (output vae coder s num_chunks) := by
  rw [decode_temporal_concat_eq hc]
  split
  · rfl
  · have hzero : decode_temporal_pad_frames vae s.z.length s.pad_tokens = 0 := by omega
    unfold output drop_back
    rw [hzero, Nat.sub_zero, take_length]

/-- **Streaming gives the kept frames**, every one of them written, and its checks pass. -/
theorem streaming_eq_output (hdrop : vae.token_drop < vae.tokens_chunk_size)
    (hdec : DecodesFrames vae coder) (hc : Chunked vae s num_chunks) :
    decode_temporal_streaming vae coder s = .ok ((output vae coder s num_chunks).map some) := by
  have hchunks : s.num_chunks.toNat = num_chunks := by
    rw [hc.chunks]
    exact Int.toNat_natCast num_chunks
  have htotal := plan_total hdrop hdec hc
  have hpad := pad_frames_lt hc
  have hlen := length_assembled hdrop hdec hc
  have hclip : 1 * vae.clip_length ≤ num_chunks * vae.clip_length := Nat.mul_le_mul_right _ hc.pos
  have hpadframes : (decode_temporal_output_frame_plan vae s num_chunks).pad_frames
      = decode_temporal_pad_frames vae s.z.length s.pad_tokens := rfl
  have hout : (decode_temporal_output_frame_plan vae s num_chunks).output_frames
      = (decode_temporal_output_frame_plan vae s num_chunks).total_frames
        - (decode_temporal_output_frame_plan vae s num_chunks).pad_frames := rfl
  set frames := assembled vae coder s num_chunks with hframes
  set pad := decode_temporal_pad_frames vae s.z.length s.pad_tokens with hpad_eq
  have hn : (decode_temporal_output_frame_plan vae s num_chunks).output_frames.toNat
      = frames.length - pad := by omega
  unfold decode_temporal_streaming
  simp only [hchunks]
  rw [if_neg (by omega)]
  have hne : frames ≠ [] := by
    intro hnil
    rw [hnil, length_nil] at hlen
    omega
  have hstart : (⟨⟨none, 0, 0, 0⟩, none⟩ : Streamed Frame)
      = ⟨written (frames.length - pad) [], none⟩ := by simp [written]
  rw [hn, hstart, stream_all _ hc, ← hframes]
  unfold written
  rw [if_neg hne]
  simp only [hpadframes]
  rw [if_neg (by omega)]
  unfold output drop_back
  rw [show frames.length - pad - frames.length = 0 by omega,
    replicate_zero, append_nil]

end Agree

/-! ## Lengths -/

/-- Encoding gives one token for each `vae_ratio_t` frames, the last one also for fewer. -/
def EncodesFrames (vae : Vae) (coder : Coder Frame Token) : Prop :=
  ∀ x, x ≠ [] → (coder.encode x).length = (x.length + vae.vae_ratio_t - 1) / vae.vae_ratio_t

/-- The length of a temporal convolution of the encoder: kernel three and two frames of
padding, all in front when it is causal. -/
def conv_length (stride n : ℕ) : ℕ := (n + 2 - 3) / stride + 1

/-- The length after the convolutions of the encoder, with the strides `time_down`; the others
have stride one. -/
def encoder_length (time_down : List ℕ) (n : ℕ) : ℕ :=
  time_down.foldl (fun n stride => conv_length stride n) n

theorem encoder_length_eq {time_down : List ℕ} (hpos : ∀ stride ∈ time_down, 0 < stride) :
    ∀ {n : ℕ}, 0 < n → encoder_length time_down n = (n + time_down.prod - 1) / time_down.prod := by
  induction time_down with
  | nil =>
    intro n _
    rw [prod_nil, Nat.div_one]
    rfl
  | cons stride rest ih =>
    intro n hn
    have hstride := hpos stride mem_cons_self
    have hconv : encoder_length (stride :: rest) n = encoder_length rest (conv_length stride n) := rfl
    -- a quotient by the product is the quotient by one stride, then by the others
    have hsplit : n + stride * rest.prod - 1 = (n + 2 - 3) + stride * rest.prod := by omega
    have hsome : 0 < conv_length stride n := Nat.succ_pos _
    rw [hconv, ih (fun s hs => hpos s (mem_cons_of_mem _ hs)) hsome, prod_cons, hsplit,
      ← Nat.div_div_eq_div_mul, Nat.add_mul_div_left _ _ hstride, conv_length, Nat.add_right_comm,
      Nat.add_sub_cancel]

section Lengths

variable {vae : Vae} {coder : Coder Frame Token}

/-- The convolutions of the encoder give the number of tokens: its strides multiply to the
ratio. -/
theorem encodesFrames_of_strides {time_down : List ℕ} (hpos : ∀ stride ∈ time_down, 0 < stride)
    (hprod : time_down.prod = vae.vae_ratio_t)
    (hlen : ∀ x, (coder.encode x).length = encoder_length time_down x.length) :
    EncodesFrames vae coder := by
  intro x hx
  rw [hlen, encoder_length_eq hpos (length_pos_of_ne_nil hx), hprod]

/-- No frame is coded alone. -/
structure NoIsolated (vae : Vae) : Prop where
  first : vae.isolated_first_frame = false
  last : vae.isolated_last_frame = false
  key : vae.isolated_key_frame = false

theorem NoIsolated.isolated (h : NoIsolated vae) : isolated vae = 0 := by
  simp [VaeTemporal.isolated, Vae.has_head, h.first, h.last]

variable {k : ℕ}

theorem encode_chunks {n : ℕ} (hdrop : vae.token_drop < vae.tokens_chunk_size)
    (hn : n = k * vae.clip_length + vae.frame_overlap) :
    (n + (((0 : ℕ) - (n : ℤ)) % vae.clip_length).toNat - 0) / vae.clip_length = k + vae.dropping := by
  have hclip := vae.clip_length_pos
  have hlt := vae.frame_overlap_lt hdrop
  have hpre := vae.frame_pre_padding_lt
  have hmod : ((0 : ℕ) - (n : ℤ)) % vae.clip_length
      = -(vae.frame_overlap : ℤ) % vae.clip_length := by
    rw [hn]
    push_cast
    rw [show (0 : ℤ) - (k * vae.clip_length + vae.frame_overlap)
      = -(vae.frame_overlap : ℤ) + vae.clip_length * (-k) by ring, Int.add_mul_emod_self_left]
  rw [hmod, Nat.sub_zero]
  rcases vae.drop_cases hdrop with ⟨-, hone, hsum, hframes⟩ | ⟨-, hnone, -, hoverlap⟩
  · have hov : 1 * vae.vae_ratio_t ≤ vae.token_overlap * vae.vae_ratio_t :=
      Nat.mul_le_mul_right _ (by omega)
    have hval : -(vae.frame_overlap : ℤ) % vae.clip_length = vae.clip_length - vae.frame_overlap := by
      rw [← Int.add_emod_right, Int.emod_eq_of_lt (by omega) (by omega)]
      ring
    rw [hval, hone, hn]
    have : k * vae.clip_length + vae.frame_overlap
        + ((vae.clip_length : ℤ) - vae.frame_overlap).toNat = (k + 1) * vae.clip_length := by
      rw [Nat.add_mul]
      omega
    rw [this, Nat.mul_div_cancel _ hclip]
  · rw [hoverlap] at hn ⊢
    rw [hnone, hn]
    simp [Nat.mul_div_cancel _ hclip]

variable {x : List Frame}

theorem length_encode_clip (hx : x ≠ []) (hi : i * vae.clip_length ≤ x.length) :
    (encode_clip vae x 0 i).length = vae.clip_length := by
  unfold encode_clip
  simp only [Nat.add_zero]
  rw [Nat.add_mul]
  split
  · rw [length_append, length_replicate_last _ hx, length_slice]
    omega
  · rw [length_slice]
    omega

theorem encode_clip_inner (hi : (i + 1) * vae.clip_length ≤ x.length) :
    encode_clip vae x 0 i = slice x (i * vae.clip_length) ((i + 1) * vae.clip_length) := by
  unfold encode_clip
  simp only [Nat.add_zero]
  rw [if_neg (by omega), Nat.min_eq_left hi]

/-- **The number of tokens of a video** of `k` clips and one overlap. -/
theorem length_encode_temporal (hdrop : vae.token_drop < vae.tokens_chunk_size)
    (hiso : NoIsolated vae) (henc : EncodesFrames vae coder) (hk : 1 ≤ k)
    (hx : x.length = k * vae.clip_length + vae.frame_overlap) :
    (encode_temporal vae coder x).length = k * vae.tokens_chunk_size + vae.token_overlap := by
  have hclip := vae.clip_length_pos
  have hsum := vae.token_overlap_add_drop hdrop
  have hkC : 1 * vae.clip_length ≤ k * vae.clip_length := Nat.mul_le_mul_right _ hk
  have hne : x ≠ [] := by
    intro hnil
    rw [hnil, length_nil] at hx
    omega
  have hdropping : vae.dropping ≤ 1 := by
    unfold Vae.dropping
    split <;> omega
  -- every clip is full, so it gives a whole chunk of tokens
  have hclips : ∀ n ≤ k + vae.dropping, ((List.range n).flatMap (fun i =>
      encode_clip_tokens vae coder (encode_clip vae x 0 i))).length = n * vae.tokens_chunk_size := by
    intro n hn
    induction n with
    | zero => simp
    | succ n ih =>
      have hnk : n * vae.clip_length ≤ k * vae.clip_length := Nat.mul_le_mul_right _ (by omega)
      have hlen : (encode_clip vae x 0 n).length = vae.clip_length :=
        length_encode_clip hne (by omega)
      have hclip_ne : encode_clip vae x 0 n ≠ [] := by
        intro hnil
        rw [hnil, length_nil] at hlen
        omega
      rw [range_succ, flatMap_append, length_append, ih (by omega),
        flatMap_singleton, encode_clip_tokens, hiso.key, if_neg (by simp), henc _ hclip_ne,
        hlen, Nat.add_mul, Nat.one_mul]
      rfl
  have hhead : vae.has_head = false := by simp [Vae.has_head, hiso.first]
  unfold encode_temporal
  simp only [hhead, hiso.first, hiso.last, Bool.false_eq_true, if_false]
  rw [encode_chunks hdrop hx]
  by_cases hzero : vae.token_drop > 0
  · rw [if_pos hzero, length_drop_back, hclips _ (Nat.le_refl _), Nat.add_mul]
    omega
  · rw [if_neg hzero, hclips _ (Nat.le_refl _), Nat.add_mul]
    omega

/-- **The planned number of tokens.** -/
theorem get_latent_length_eq (hlast : vae.isolated_last_frame = false) (hk : 1 ≤ k) :
    get_latent_length vae ((k * vae.clip_length + vae.frame_overlap : ℕ) : ℤ)
      = .ok ((k * vae.tokens_chunk_size + vae.token_overlap : ℕ) : ℤ) := by
  have hclip : (vae.clip_length : ℤ) ≠ 0 := by
    have := vae.clip_length_pos
    omega
  have htarget : align_target vae ((k * vae.clip_length + vae.frame_overlap : ℕ) : ℤ) false .chunk
      = ((k * vae.clip_length + vae.frame_overlap : ℕ) : ℤ) := by
    unfold align_target
    simp only [hlast, Bool.false_eq_true, if_false, Int.add_zero]
    push_cast
    rw [Int.add_sub_cancel, Int.mul_ediv_cancel _ hclip, max_eq_left (by omega)]
  unfold get_latent_length get_suitable_video_length align_video_length
  simp only [htarget, Int.sub_self, hlast, Bool.false_eq_true, if_false, Int.add_zero]
  rw [if_neg (by omega)]
  simp only [ok_bind, pure_bind]
  push_cast
  rw [Int.add_zero, Int.add_sub_cancel, Int.mul_ediv_cancel _ hclip]
  rfl

theorem split_tokens_exact {z : List Token} (hdrop : vae.token_drop < vae.tokens_chunk_size)
    (hiso : NoIsolated vae) (hk : 1 ≤ k)
    (hz : z.length = k * vae.tokens_chunk_size + vae.token_overlap) :
    ∃ s, split_tokens vae z = .ok s ∧ Chunked vae s k ∧ s.pad_tokens = 0
      ∧ s.z_head = none ∧ s.z_tail = none := by
  have hsum := vae.token_overlap_add_drop hdrop
  have htotal : pseudo_total_tokens vae z.length
      = ((k + vae.dropping : ℕ) : ℤ) * vae.tokens_chunk_size := by
    have hlen : ((z.length + vae.token_drop : ℕ) : ℤ)
        = (((k + vae.dropping) * vae.tokens_chunk_size : ℕ) : ℤ) := by
      congr 1
      rw [Nat.add_mul]
      omega
    rw [pseudo_total_tokens_eq, hiso.isolated]
    push_cast at hlen ⊢
    rw [← hlen]
    ring
  have hrem : pseudo_total_tokens vae z.length % vae.tokens_chunk_size = 0 := by
    rw [htotal, Int.mul_emod_left]
  have hpad : pad_tokens vae z.length = 0 := by
    unfold pad_tokens
    simp [hrem]
  have hhead : vae.has_head = false := by simp [Vae.has_head, hiso.first]
  have hs : ∃ s, split_tokens vae z = .ok s ∧ s.num_chunks = k ∧ s.pad_tokens = 0
      ∧ s.z_head = none ∧ s.z_tail = none := by
    unfold split_tokens
    rw [if_neg (by simp [hrem])]
    refine ⟨_, rfl, ?_, hpad, by simp [hhead], by simp [hiso.last]⟩
    simp only [hpad, htotal]
    push_cast
    rw [Int.add_zero, Int.mul_ediv_cancel _ (by omega)]
    ring
  obtain ⟨s, hs, hchunks, hs_pad, hs_head, hs_tail⟩ := hs
  refine ⟨s, hs, ?_, hs_pad, hs_head, hs_tail⟩
  have hchunked := split_tokens_chunked hdrop hs (by omega)
  rwa [hchunks, Int.toNat_natCast] at hchunked

end Lengths

/-! ## The chunked video -/

section Result

variable {vae : Vae} {coder : Coder Frame Token} {s : Split Token} {num_chunks : ℕ}

theorem decode_temporal_eq_output {z : List Token} (stream : Bool)
    (hdrop : vae.token_drop < vae.tokens_chunk_size) (hdec : DecodesFrames vae coder)
    (hs : split_tokens vae z = .ok s) (hc : Chunked vae s num_chunks) :
    decode_temporal vae coder stream z = .ok ((output vae coder s num_chunks).map some) := by
  unfold decode_temporal
  rw [hs]
  simp only [ok_bind]
  split
  · exact streaming_eq_output hdrop hdec hc
  · rw [concat_eq_output hc]
    rfl

theorem slice_bodies (hdec : DecodesFrames vae coder) (hc : Chunked vae s num_chunks)
    (hi : i < num_chunks) (back : List Frame) :
    slice (bodies vae coder s num_chunks num_chunks ++ back) (i * vae.clip_length)
        ((i + 1) * vae.clip_length) = body vae coder s num_chunks i := by
  have hsplit : bodies vae coder s num_chunks num_chunks
      = bodies vae coder s num_chunks i ++ body vae coder s num_chunks i
        ++ ((List.range (num_chunks - (i + 1))).map (fun j => i + 1 + j)).flatMap
          (body vae coder s num_chunks) := by
    unfold bodies
    rw [← flatMap_singleton (body vae coder s num_chunks) i, ← flatMap_append,
      ← flatMap_append, ← range_succ, ← range_add]
    congr 2
    omega
  have hfront := length_bodies hdec hc (show i ≤ num_chunks by omega)
  have hbody := length_body hdec hc hi
  have hend : (i + 1) * vae.clip_length
      = (bodies vae coder s num_chunks i ++ body vae coder s num_chunks i).length := by
    rw [length_append, hfront, hbody, Nat.add_mul, Nat.one_mul]
  unfold slice
  rw [hsplit, append_assoc _ _ back, hend, take_left, ← hfront, drop_left]

end Result

/-- **Temporal chunking.** Whenever the tokens give a chunk, streaming and concatenating
return the same frames, so the plan of the streaming decode is met. Without isolated frames a
video of `k` clips and one overlap has the planned number of tokens, clip `i` being the frames
from `i * clip_length` to `(i + 1) * clip_length`; and that many tokens decode to as many
frames, those of chunk `i` at the same place. -/
theorem temporal_chunking (vae : Vae) (coder : Coder Frame Token)
    (hdrop : vae.token_drop < vae.tokens_chunk_size) (hdec : DecodesFrames vae coder) :
    (∀ (z : List Token) (s : Split Token), split_tokens vae z = .ok s → 1 ≤ s.num_chunks →
      ∃ frames, decode_temporal_concat vae coder s = .ok frames
        ∧ decode_temporal_streaming vae coder s = .ok (frames.map some)
        ∧ ∀ stream, decode_temporal vae coder stream z = .ok (frames.map some))
    ∧ (NoIsolated vae → EncodesFrames vae coder → ∀ (k : ℕ) (x : List Frame), 1 ≤ k →
      x.length = k * vae.clip_length + vae.frame_overlap →
      (∀ i < k, encode_clip vae x 0 i = slice x (i * vae.clip_length) ((i + 1) * vae.clip_length))
      ∧ ∃ n : ℕ, get_latent_length vae x.length = .ok (n : ℤ)
        ∧ (encode_temporal vae coder x).length = n
        ∧ ∀ z : List Token, z.length = n → ∃ s frames, split_tokens vae z = .ok s
          ∧ (∀ stream, decode_temporal vae coder stream z = .ok (frames.map some))
          ∧ frames.length = x.length
          ∧ (∀ i < k, slice frames (i * vae.clip_length) ((i + 1) * vae.clip_length)
              = body vae coder s k i)
          ∧ slice frames (k * vae.clip_length) x.length = (waiting vae coder s k k).getD []) := by
  refine ⟨fun z s hs hchunks => ?_, fun hiso henc k x hk hx => ⟨fun i hi => ?_, ?_⟩⟩
  · have hc := split_tokens_chunked hdrop hs hchunks
    exact ⟨_, concat_eq_output hc, streaming_eq_output hdrop hdec hc,
      fun stream => decode_temporal_eq_output stream hdrop hdec hs hc⟩
  · refine encode_clip_inner ?_
    have hle : (i + 1) * vae.clip_length ≤ k * vae.clip_length := Nat.mul_le_mul_right _ hi
    omega
  · refine ⟨k * vae.tokens_chunk_size + vae.token_overlap, ?_,
      length_encode_temporal hdrop hiso henc hk hx, fun z hz => ?_⟩
    · rw [hx]
      exact get_latent_length_eq hiso.last hk
    · obtain ⟨s, hs, hc, hpad, hhead, htail⟩ := split_tokens_exact hdrop hiso hk hz
      have hout : output vae coder s k
          = bodies vae coder s k k ++ (waiting vae coder s k k).getD [] := by
        have hzero : decode_temporal_pad_frames vae s.z.length s.pad_tokens = 0 := by
          rw [hpad]
          rfl
        unfold output drop_back
        rw [hzero, Nat.sub_zero]
        simp [assembled, head_part, tail_part, hhead, htail]
      have hbodies := length_bodies hdec hc (Nat.le_refl k)
      have hlen : (output vae coder s k).length = x.length := by
        rw [hout, length_append, hbodies, length_waiting hdrop hdec hc, hx]
      refine ⟨s, output vae coder s k, hs,
        fun stream => decode_temporal_eq_output stream hdrop hdec hs hc, hlen, fun i hi => ?_, ?_⟩
      · rw [hout]
        exact slice_bodies hdec hc hi _
      · unfold slice
        rw [← hlen, take_length, hout, ← hbodies, drop_left]

/-- Clips of seventeen frames, four frames to a token, two tokens dropped. -/
def clips_of_seventeen : Vae where
  clip_length := 17
  vae_ratio_t := 4
  token_drop := 2
  isolated_first_frame := false
  isolated_last_frame := false
  isolated_key_frame := false
  training := false
  clip_length_pos := by decide
  vae_ratio_t_pos := by decide

/-- A coder that keeps the first frame of each token and repeats it. -/
def repeating : Coder ℕ ℕ where
  encode x := (List.range ((x.length + 4 - 1) / 4)).map (fun i => x.getD (4 * i) 0)
  decode z := z.flatMap (List.replicate 4)
  mix _ _ _ b := b
  cast := id

/-- Eight tokens make one chunk and one overlap, and decode to twenty-six frames. -/
theorem temporal_chunking_seventeen : 2 < 5 ∧ DecodesFrames clips_of_seventeen repeating
      ∧ (∃ frames : List ℕ,
          (∀ stream, decode_temporal clips_of_seventeen repeating stream (List.range 8)
            = .ok (frames.map some)) ∧ frames.length = 26)
      ∧ get_latent_length clips_of_seventeen 26 = .ok 8
      ∧ (encode_temporal clips_of_seventeen repeating (List.range 26)).length = 8 := by
  have hdec : DecodesFrames clips_of_seventeen repeating := by
    intro z
    show (z.flatMap (List.replicate 4)).length = z.length * 4
    simp
  have henc : EncodesFrames clips_of_seventeen repeating := by
    intro x _
    show ((List.range ((x.length + 4 - 1) / 4)).map _).length = (x.length + 4 - 1) / 4
    simp
  obtain ⟨-, hlengths⟩ := temporal_chunking clips_of_seventeen repeating (by decide) hdec
  obtain ⟨-, n, hn, hlen, hdecode⟩ := hlengths ⟨rfl, rfl, rfl⟩ henc 1 (List.range 26) (by decide)
    (by decide)
  have hn' : get_latent_length clips_of_seventeen 26 = .ok (n : ℤ) := hn
  have h8 : n = 8 := by
    have heval : get_latent_length clips_of_seventeen 26 = .ok 8 := rfl
    rw [heval] at hn'
    have := Except.ok.inj hn'
    omega
  subst h8
  obtain ⟨-, frames, -, hframes, hcount, -⟩ := hdecode (List.range 8) (by decide)
  exact ⟨by decide, hdec, ⟨frames, hframes, hcount⟩, hn', hlen⟩

end LightningH3.VaeTemporal
