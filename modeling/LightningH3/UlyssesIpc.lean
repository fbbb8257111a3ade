/-
The two-rank path moves an operand between the shardings as the collective does.
-/
import LightningH3.UlyssesCollective
import Mathlib.Tactic.IntervalCases

set_option autoImplicit false

namespace LightningH3.Ulysses

open Segments Tensors List

variable {α : Type}

/-! ## The variable-length pair -/

theorem get_ipc_exchange {stale : ℕ → α} {send : Tensor α} {recv_shape idx : List ℕ}
    (hshape : send.shape = recv_shape) (hidx : InBounds idx recv_shape) :
    (ipc_exchange stale send recv_shape).get idx = send.get idx := by
  have hlt : ravel recv_shape idx < send.numel := by
    show _ < send.shape.prod
    rw [hshape]
    exact ravel_lt hidx
  show (if _ < _ then _ else _) = _
  rw [if_pos hlt]
  show send.get (unravel send.shape _) = _
  rw [hshape, unravel_ravel hidx]

variable {lens : List ℕ} {r : ℕ}

theorem ipc_offset_eq (hlens : lens.length = 2) (hr : r < 2) :
    ipc_offset lens r = start lens r := by
  obtain ⟨a, c, rfl⟩ := length_eq_two.mp hlens
  rcases (show r = 0 ∨ r = 1 by omega) with rfl | rfl
  · rfl
  · simp [ipc_offset, start]

theorem shape_head_half {x : Tensor α} {b s h d half : ℕ} (hx : x.shape = [b, s, h, d]) :
    (head_half x r half).shape = [b, s, half, d] := by
  show x.shape.set 2 half = _
  rw [hx]
  rfl

theorem two_segments {m : ℕ} (hlens : lens.length = 2) (hr : r < 2) (hm : m < lens.sum) :
    (start lens r ≤ m ∧ m < start lens r + lens.getD r 0
        ∧ ¬ (start lens (1 - r) ≤ m ∧ m < start lens (1 - r) + lens.getD (1 - r) 0))
      ∨ (start lens (1 - r) ≤ m ∧ m < start lens (1 - r) + lens.getD (1 - r) 0) := by
  obtain ⟨a, c, rfl⟩ := length_eq_two.mp hlens
  rcases (show r = 0 ∨ r = 1 by omega) with rfl | rfl
  · simp [start] at hm ⊢
    omega
  · simp [start] at hm ⊢
    omega

theorem gather_two {b h d : ℕ} {f : ℕ → ℕ → ℕ → ℕ → α} {out own theirs : Tensor α}
    (hlens : lens.length = 2) (hr : r < 2) (hout : out.shape = [b, lens.sum, h, d])
    (hown : Tabulates 2 b h (lens.getD r 0) d (fun i j t l => f i j (start lens r + t) l) own)
    (htheirs : Tabulates 2 b h (lens.getD (1 - r) 0) d
      (fun i j t l => f i j (start lens (1 - r) + t) l) theirs) : Tabulates 2 b h lens.sum d f
      ((out.copy_into 1 (start lens r) own).copy_into 1 (start lens (1 - r)) theirs) := by
  refine ⟨hout, fun i j m l hi hj hm hl => ?_⟩
  rcases two_segments hlens hr hm with ⟨hlo, hhi, hnot⟩ | ⟨hlo, hhi⟩
  · rw [Tensor.get_copy_into_of_not_mem rfl (by
        rw [htheirs.shape_eq]
        exact hnot), Tensor.get_copy_into_of_mem rfl (by
        rw [hown.shape_eq]
        exact ⟨hlo, hhi⟩)]
    have h := hown.get_eq i j (m - start lens r) l hi hj (by omega) hl
    rw [Nat.add_sub_cancel' hlo] at h
    exact h
  · rw [Tensor.get_copy_into_of_mem rfl (by
        rw [htheirs.shape_eq]
        exact ⟨hlo, hhi⟩)]
    have h := htheirs.get_eq i j (m - start lens (1 - r)) l hi hj (by omega) hl
    rw [Nat.add_sub_cancel' hlo] at h
    exact h

section Varlen

variable {X : Whole α} {xs : ℕ → Tensor α} {r : ℕ} {stale : ℕ → α}

theorem head_half_tabulates {x : Tensor α} {g : ℕ} (hdiv : X.heads % 2 = 0) (hr : r < 2)
    (hx : X.SeqShard 2 g x) : Tabulates 2 X.batch (X.heads / 2) (X.lens.getD g 0) X.head_size
      (fun i j t l => X.entry i (r * (X.heads / 2) + j) (start X.lens g + t) l)
      (head_half x r (X.heads / 2)) :=
  ⟨shape_head_half hx.shape_eq, fun i _ t l hi hj ht hl =>
    hx.get_eq i _ t l hi (head_lt hdiv hr hj) ht hl⟩

theorem ipc_varlen_input_headShard (hlens : X.lens.length = 2) (hdiv : X.heads % 2 = 0)
    (hxs : ∀ g < 2, X.SeqShard 2 g (xs g)) (hr : r < 2) :
    ∃ y, ipc_varlen_input X.lens xs r stale = .ok y ∧ X.HeadShard 2 r y := by
  have hshape : ∀ g < 2, (xs g).shape = [X.batch, X.lens.getD g 0, X.heads, X.head_size] :=
    fun g hg => (hxs g hg).shape_eq
  have hsum : X.lens.getD 0 0 + X.lens.getD 1 0 = X.lens.sum := by
    obtain ⟨a, c, h⟩ := length_eq_two.mp hlens
    simp [h]
  unfold ipc_varlen_input
  rw [hshape r hr, hshape (1 - r) (by omega)]
  refine ⟨_, rfl, ?_⟩
  unfold Whole.HeadShard
  rw [hlens, ipc_offset_eq hlens hr, ipc_offset_eq hlens (by omega)]
  refine gather_two hlens hr (by rw [← hsum]; rfl) (head_half_tabulates hdiv hr (hxs r hr)) ?_
  have hpeer := head_half_tabulates hdiv hr (hxs (1 - r) (by omega))
  refine ⟨rfl, fun i j t l hi hj ht hl => ?_⟩
  show (ipc_exchange _ _ _).get [i, t, j, l] = _
  rw [get_ipc_exchange (shape_head_half (hshape _ (by omega))) (by
    simp only [inBounds_cons, inBounds_nil_iff]
    exact ⟨hi, ht, hj, hl, trivial⟩)]
  exact hpeer.get_eq i j t l hi hj ht hl

theorem ipc_varlen_output_seqShard (hlens : X.lens.length = 2) (hdiv : X.heads % 2 = 0)
    (hxs : ∀ g < 2, X.HeadShard 2 g (xs g)) (hr : r < 2) :
    ∃ y, ipc_varlen_output X.lens xs r stale = .ok y ∧ X.SeqShard 2 r y := by
  have hshape : ∀ g < 2, (xs g).shape = [X.batch, X.lens.sum, X.heads / 2, X.head_size] := by
    intro g hg
    rw [(hxs g hg).shape_eq, hlens]
    rfl
  have hr' : r < X.lens.length := by omega
  have hrow : ∀ t < X.lens.getD r 0, start X.lens r + t < X.lens.sum := by
    intro t ht
    rw [getD_eq_getElem _ _ hr'] at ht
    exact add_lt_sum hr' ht
  have hentry : ∀ g < 2, ∀ i j t l, i < X.batch → j < X.heads / 2 → t < X.lens.getD r 0 →
      l < X.head_size →
      ((xs g).narrow 1 (start X.lens r) (X.lens.getD r 0)).get [i, t, j, l]
        = X.entry i (g * (X.heads / 2) + j) (start X.lens r + t) l := by
    intro g hg i j t l hi hj ht hl
    have h := (hxs g hg).get_eq i j (start X.lens r + t) l hi (by rw [hlens]; exact hj)
      (hrow t ht) hl
    rw [hlens] at h
    exact h
  have hnarrow : ∀ g < 2, ∀ first, ((xs g).narrow 1 first (X.lens.getD r 0)).shape
      = [X.batch, X.lens.getD r 0, X.heads / 2, X.head_size] := by
    intro g hg first
    show (xs g).shape.set 1 _ = _
    rw [hshape g hg]
    rfl
  unfold ipc_varlen_output
  rw [hshape r hr, hshape (1 - r) (by omega)]
  refine ⟨_, rfl, ?_, fun i n t l hi hn ht hl => ?_⟩
  · rw [Nat.mul_div_cancel' (Nat.dvd_of_mod_eq_zero hdiv)]
    rfl
  · rcases (show (r * (X.heads / 2) ≤ n ∧ n < r * (X.heads / 2) + X.heads / 2) ∨
        (¬ (r * (X.heads / 2) ≤ n ∧ n < r * (X.heads / 2) + X.heads / 2) ∧
          (1 - r) * (X.heads / 2) ≤ n ∧ n < (1 - r) * (X.heads / 2) + X.heads / 2) by
      rcases (show r = 0 ∨ r = 1 by omega) with rfl | rfl <;> omega)
      with ⟨hlo, hhi⟩ | ⟨hnot, hlo, hhi⟩
    · rw [Tensor.get_copy_into_of_mem rfl (by
          rw [hnarrow r hr]
          exact ⟨hlo, hhi⟩), ipc_offset_eq hlens hr]
      show ((xs r).narrow 1 _ _).get [i, t, n - r * (X.heads / 2), l] = _
      rw [hentry r hr i _ t l hi (by omega) ht hl, Nat.add_sub_cancel' hlo]
    · rw [Tensor.get_copy_into_of_not_mem rfl (by
          rw [hnarrow r hr]
          exact hnot), Tensor.get_copy_into_of_mem rfl (by
          rw [hnarrow (1 - r) (by omega)]
          exact ⟨hlo, hhi⟩), ipc_offset_eq hlens hr]
      show ((xs (1 - r)).narrow 1 _ _).get [i, t, n - (1 - r) * (X.heads / 2), l] = _
      rw [hentry (1 - r) (by omega) i _ t l hi (by omega) ht hl, Nat.add_sub_cancel' hlo]

end Varlen

/-! ## Three operands in one exchange -/

theorem get_ipc_part {stale : ℕ → α} {n i : ℕ} {parts : ℕ → Tensor α} {shape idx : List ℕ}
    (hi : i < 3) (hshape : ∀ j < 3, (parts j).shape = shape) (hn : shape.prod = n)
    (hidx : InBounds idx shape) :
    (ipc_part (ipc_slot stale n parts) n i shape).get idx = (parts i).get idx := by
  have hlt : ravel shape idx < n := hn ▸ ravel_lt hidx
  have hravel : ∀ k, ravel [n] [k] = k := by
    intro k
    simp [ravel]
  -- a write of part `j` reaches the positions of part `j` only
  have hhit : ∀ (slot : Tensor α),
      (slot.copy_into 0 (i * n) ((parts i).reshape [n])).get [i * n + ravel shape idx]
        = (parts i).get idx := by
    intro slot
    have hmem : i * n ≤ i * n + ravel shape idx
        ∧ i * n + ravel shape idx < i * n + ((parts i).reshape [n]).shape.getD 0 0 :=
      ⟨Nat.le_add_right _ _, Nat.add_lt_add_left hlt _⟩
    rw [Tensor.get_copy_into_of_mem rfl hmem, Tensor.get_reshape, hshape i hi]
    show (parts i).get (unravel shape (ravel [n] [i * n + ravel shape idx - i * n])) = _
    rw [Nat.add_sub_cancel_left, hravel, unravel_ravel hidx]
  have hmiss : ∀ (slot : Tensor α) (j : ℕ), i < j →
      (slot.copy_into 0 (j * n) ((parts j).reshape [n])).get [i * n + ravel shape idx]
        = slot.get [i * n + ravel shape idx] := by
    intro slot j hij
    have h : (i + 1) * n ≤ j * n := Nat.mul_le_mul_right _ hij
    rw [Nat.add_mul] at h
    have hnot : ¬ (j * n ≤ i * n + ravel shape idx
        ∧ i * n + ravel shape idx < j * n + ((parts j).reshape [n]).shape.getD 0 0) := by
      rintro ⟨hle, -⟩
      omega
    exact Tensor.get_copy_into_of_not_mem rfl hnot
  have hpart : (ipc_part (ipc_slot stale n parts) n i shape).get idx
      = (ipc_slot stale n parts).get [i * n + ravel shape idx] := by
    unfold ipc_part
    rw [Tensor.get_reshape]
    show (Tensor.narrow _ _ _ _).get (unravel [n] _) = _
    rw [unravel_singleton]
    rfl
  rw [hpart]
  show (((Tensor.copy_into _ 0 (0 * n) ((parts 0).reshape [n])).copy_into 0 (1 * n)
    ((parts 1).reshape [n])).copy_into 0 (2 * n) ((parts 2).reshape [n])).get _ = _
  interval_cases i
  · rw [hmiss _ 2 (by omega), hmiss _ 1 (by omega), hhit]
  · rw [hmiss _ 2 (by omega), hhit]
  · rw [hhit]

section Qkv

variable {r b s h d : ℕ}

theorem ipc_input_a2a_qkv_headShard (env : Env) (X : ℕ → Whole α) (xs : ℕ → Qkv (Tensor α))
    (stale : ℕ → α) (hw : env.world_size = 2) (hipc : env.ipc = true)
    (hX : ∀ i < 3, (X i).batch = b ∧ (X i).heads = h ∧ (X i).head_size = d ∧ (X i).lens = [s, s])
    (hdiv : h % 2 = 0) (hxs : ∀ i < 3, ∀ g < 2, (X i).SeqShard 2 g ((xs g).part i)) (hr : r < 2) :
    ∃ y, ipc_input_a2a_qkv env xs r stale = .ok (some y)
      ∧ ∀ i < 3, (X i).HeadShard 2 r (y.part i) := by
  have hlen : ∀ g < 2, [s, s].getD g 0 = s := by
    intro g hg
    rcases (show g = 0 ∨ g = 1 by omega) with rfl | rfl <;> rfl
  have hstart : ∀ g < 2, start [s, s] g = g * s := by
    intro g hg
    exact start_replicate (w := 2) (by omega)
  have hshape : ∀ i < 3, ∀ g < 2, ((xs g).part i).shape = [b, s, h, d] := by
    intro i hi g hg
    obtain ⟨hb, hh, hd, hl⟩ := hX i hi
    rw [(hxs i hi g hg).shape_eq, hb, hh, hd, hl, hlen g hg]
    rfl
  have hhalf : ∀ i < 3, ∀ g < 2, Tabulates 2 b (h / 2) s d
      (fun i' j t l => (X i).entry i' (r * (h / 2) + j) (g * s + t) l)
      (head_half ((xs g).part i) r (h / 2)) := by
    intro i hi g hg
    obtain ⟨hb, hh, hd, hl⟩ := hX i hi
    have ht := head_half_tabulates (X := X i) (by rw [hh]; exact hdiv) hr (hxs i hi g hg)
    rw [hb, hh, hd, hl, hlen g hg, hstart g hg] at ht
    exact ht
  have hgather : ∀ i < 3, (X i).HeadShard 2 r
      (((Tensor.of_flat [b, 2 * s, h / 2, d] stale).copy_into 1 (r * s)
          (head_half ((xs r).part i) r (h / 2))).copy_into 1 ((1 - r) * s)
        (ipc_part (ipc_slot stale (b * s * (h / 2) * d)
            (fun i => head_half ((xs (1 - r)).part i) r (h / 2)))
          (b * s * (h / 2) * d) i [b, s, h / 2, d])) := by
    intro i hi
    obtain ⟨hb, hh, hd, hl⟩ := hX i hi
    unfold Whole.HeadShard
    rw [hb, hh, hd, hl, ← hstart r hr, ← hstart (1 - r) (by omega)]
    refine gather_two rfl hr (by simp [Tensor.of_flat, Nat.two_mul]) ?_ ?_
    · rw [hlen r hr, hstart r hr]
      exact hhalf i hi r hr
    · rw [hlen (1 - r) (by omega), hstart (1 - r) (by omega)]
      refine ⟨rfl, fun i' j t l hi' hj ht hl' => ?_⟩
      show (ipc_part _ _ _ _).get [i', t, j, l] = _
      rw [get_ipc_part hi (fun j hj => shape_head_half (hshape j hj (1 - r) (by omega)))
        (by simp only [prod_cons, prod_nil]; ring) (by
          simp only [inBounds_cons, inBounds_nil_iff]
          exact ⟨hi', ht, hj, hl', trivial⟩)]
      exact (hhalf i hi (1 - r) (by omega)).get_eq i' j t l hi' hj ht hl'
  have hq : (xs r).q.shape = [b, s, h, d] := hshape 0 (by omega) r hr
  have hk : (xs r).k.shape = [b, s, h, d] := hshape 1 (by omega) r hr
  have hv : (xs r).v.shape = [b, s, h, d] := hshape 2 (by omega) r hr
  unfold ipc_input_a2a_qkv
  rw [if_neg (by omega), if_neg (by rw [hq, hk, hv]; simp), if_neg (by simp [hipc]), hq]
  refine ⟨_, rfl, fun i hi => ?_⟩
  interval_cases i
  · exact hgather 0 hi
  · exact hgather 1 hi
  · exact hgather 2 hi

end Qkv

/-! ## Text and image segments -/

/-- The row of a joint sequence: the text, the image, and the padded tail of the text. -/
def joint_row (x : Joint (Tensor α)) (real img_len i t n l : ℕ) : α :=
  if t < real then x.txt.get [i, t, n, l]
  else if t < real + img_len then x.img.get [i, t - real, n, l]
  else x.txt.get [i, t - img_len, n, l]

section Segmented

variable {x : Joint (Tensor α)} {b txt_len img_len h d pad : ℕ}

section

variable (htxt : x.txt.shape = [b, txt_len, h, d]) (himg : x.img.shape = [b, img_len, h, d])
  (hpad : pad ≤ txt_len)
include htxt himg hpad

theorem join_seqs_tabulates : Tabulates 2 b h (txt_len + img_len) d
      (fun i n t l => joint_row x (txt_len - pad) img_len i t n l) (join_seqs x pad) := by
  have hreal : x.txt.shape.getD 1 0 - pad = txt_len - pad := by
    rw [htxt]
    rfl
  unfold join_seqs
  simp only [hreal]
  split
  · have hsizes : ∀ j < 3, (padded_pieces x (txt_len - pad) pad j).shape.getD 1 0
        = [txt_len - pad, img_len, pad].getD j 0 := by
      intro j hj
      interval_cases j
      · show (x.txt.shape.set 1 _).getD 1 0 = _
        rw [htxt]
        rfl
      · show x.img.shape.getD 1 0 = _
        rw [himg]
        rfl
      · show (x.txt.shape.set 1 _).getD 1 0 = _
        rw [htxt]
        rfl
    refine ⟨?_, fun i n t l _ _ ht _ => ?_⟩
    · rw [Tensor.shape_cat (show [_, _, _].length = 3 from rfl) hsizes]
      show (x.txt.shape.set 1 _).set 1 _ = _
      rw [htxt]
      show [b, (txt_len - pad) + (img_len + (pad + 0)), h, d] = [b, txt_len + img_len, h, d]
      rw [show (txt_len - pad) + (img_len + (pad + 0)) = txt_len + img_len by omega]
    · rw [Tensor.get_cat (show [_, _, _].length = 3 from rfl) hsizes]
      unfold joint_row
      show (padded_pieces x (txt_len - pad) pad (bucket [txt_len - pad, img_len, pad] t)).get
        [i, t - start [txt_len - pad, img_len, pad] (bucket [txt_len - pad, img_len, pad] t), n, l]
          = _
      have hs1 : start [txt_len - pad, img_len, pad] 1 = txt_len - pad := by simp [start]
      have hs2 : start [txt_len - pad, img_len, pad] 2 = txt_len - pad + img_len := by simp [start]
      split
      · rename_i hlt
        rw [show bucket [txt_len - pad, img_len, pad] t = 0 from
          bucket_eq (by simp) (by simp) (by simpa using hlt)]
        show x.txt.get [i, 0 + (t - start _ 0), n, l] = _
        rw [start_zero, Nat.sub_zero, Nat.zero_add]
      split
      · rename_i hge hlt
        rw [show bucket [txt_len - pad, img_len, pad] t = 1 from
          bucket_eq (by simp) (by rw [hs1]; omega) (by rw [hs1]; exact hlt)]
        rfl
      · rw [show bucket [txt_len - pad, img_len, pad] t = 2 from
          bucket_eq (by simp) (by rw [hs2]; omega) (by rw [hs2]; show t < _ + pad; omega)]
        show x.txt.get [i, txt_len - pad + (t - (txt_len - pad + img_len)), n, l] = _
        rw [show txt_len - pad + (t - (txt_len - pad + img_len)) = t - img_len by omega]
  · have hzero : pad = 0 := by omega
    have hsizes : ∀ j < 2, (plain_pieces x j).shape.getD 1 0 = [txt_len, img_len].getD j 0 := by
      intro j hj
      rcases (show j = 0 ∨ j = 1 by omega) with rfl | rfl
      · show x.txt.shape.getD 1 0 = _
        rw [htxt]
        rfl
      · show x.img.shape.getD 1 0 = _
        rw [himg]
        rfl
    refine ⟨?_, fun i n t l _ _ ht _ => ?_⟩
    · rw [Tensor.shape_cat (show [_, _].length = 2 from rfl) hsizes]
      show x.txt.shape.set 1 _ = _
      rw [htxt]
      rfl
    · rw [Tensor.get_cat (show [_, _].length = 2 from rfl) hsizes, hzero, Nat.sub_zero]
      unfold joint_row
      show (plain_pieces x (bucket [txt_len, img_len] t)).get [i, t - start [txt_len, img_len] (bucket [txt_len, img_len] t), n, l] = _
      have hs1 : start [txt_len, img_len] 1 = txt_len := by simp [start]
      split
      · rename_i hlt
        rw [show bucket [txt_len, img_len] t = 0 from
          bucket_eq (by simp) (by simp) (by simpa using hlt), start_zero]
        rfl
      · rw [show bucket [txt_len, img_len] t = 1 from
          bucket_eq (by simp) (by rw [hs1]; omega) (by rw [hs1]; exact ht), hs1]
        rfl

theorem get_ipc_write_span {part : Tensor α} {dest half base i m j l : ℕ} :
    (ipc_write_span part x dest half base pad).get [i, m, j, l]
      = if base ≤ m ∧ m < base + (txt_len + img_len) then
          joint_row x (txt_len - pad) img_len i (m - base) (dest * half + j) l
        else part.get [i, m, j, l] := by
  have htxt' : (head_half x.txt dest half).shape = [b, txt_len, half, d] := shape_head_half htxt
  have himg' : (head_half x.img dest half).shape = [b, img_len, half, d] := shape_head_half himg
  unfold ipc_write_span
  simp only [htxt', himg', getD_cons_succ, getD_cons_zero]
  have hfirst : ∀ first len, ((head_half x.txt dest half).narrow 1 first len).shape.getD 1 0
      = len := by
    intro first len
    show ((head_half x.txt dest half).shape.set 1 len).getD 1 0 = len
    rw [htxt']
    rfl
  have hget : ∀ p : Tensor α,
      (((p.copy_into 1 base ((head_half x.txt dest half).narrow 1 0 (txt_len - pad))).copy_into 1
        (base + (txt_len - pad)) (head_half x.img dest half)).get [i, m, j, l]
      = if base + (txt_len - pad) ≤ m ∧ m < base + (txt_len - pad) + img_len then
          x.img.get [i, m - (base + (txt_len - pad)), dest * half + j, l]
        else if base ≤ m ∧ m < base + (txt_len - pad) then
          x.txt.get [i, 0 + (m - base), dest * half + j, l]
        else p.get [i, m, j, l]) := by
    intro p
    show (if _ ≤ m ∧ m < _ + (head_half x.img dest half).shape.getD 1 0 then _ else
      if _ ≤ m ∧ m < _ + ((head_half x.txt dest half).narrow 1 0 _).shape.getD 1 0 then _
      else _) = _
    rw [himg', hfirst]
    rfl
  have htail : ∀ p : Tensor α, (if pad ≠ 0 then p.copy_into 1
        (base + (txt_len - pad + img_len))
        ((head_half x.txt dest half).narrow 1 (txt_len - pad) pad) else p).get [i, m, j, l]
      = if base + (txt_len - pad + img_len) ≤ m ∧ m < base + (txt_len - pad + img_len) + pad then
          x.txt.get [i, txt_len - pad + (m - (base + (txt_len - pad + img_len))),
            dest * half + j, l]
        else p.get [i, m, j, l] := by
    intro p
    split
    · show (if _ ≤ m ∧ m < _ + ((head_half x.txt dest half).narrow 1 _ _).shape.getD 1 0 then _
        else _) = _
      rw [hfirst]
      rfl
    · rw [if_neg (by omega)]
  rw [htail, hget]
  unfold joint_row
  -- the text, the image, the padded tail, and the rows of the other rank
  by_cases h₁ : base ≤ m ∧ m < base + (txt_len - pad)
  · rw [if_neg (by omega), if_neg (by omega), if_pos h₁, if_pos (by omega), if_pos (by omega),
      Nat.zero_add]
  by_cases h₂ : base + (txt_len - pad) ≤ m ∧ m < base + (txt_len - pad) + img_len
  · rw [if_neg (by omega), if_pos h₂, if_pos (by omega), if_neg (by omega), if_pos (by omega),
      Nat.sub_sub]
  by_cases h₃ : base + (txt_len - pad + img_len) ≤ m
      ∧ m < base + (txt_len - pad + img_len) + pad
  · rw [if_pos h₃, if_pos (by omega), if_neg (by omega), if_neg (by omega),
      show txt_len - pad + (m - (base + (txt_len - pad + img_len))) = m - base - img_len by omega]
  · rw [if_neg h₃, if_neg h₂, if_neg h₁, if_neg (by omega)]

end

theorem shape_ipc_write_span {part : Tensor α} {dest half base : ℕ} :
    (ipc_write_span part x dest half base pad).shape = part.shape := by
  unfold ipc_write_span
  split <;> rfl

theorem ipc_input_a2a_qkv_segmented_headShard (env : Env) (X : ℕ → Whole α)
    (xs : ℕ → Qkv (Joint (Tensor α))) (stale : ℕ → α) {r : ℕ} {pads : ℕ → ℕ}
    (hw : env.world_size = 2) (hipc : env.ipc = true)
    (hX : ∀ i < 3, (X i).batch = b ∧ (X i).heads = h ∧ (X i).head_size = d
      ∧ (X i).lens = [txt_len + img_len, txt_len + img_len]) (hdiv : h % 2 = 0)
    (htxt : ∀ i < 3, ∀ g < 2, ((xs g).part i).txt.shape = [b, txt_len, h, d])
    (himg : ∀ i < 3, ∀ g < 2, ((xs g).part i).img.shape = [b, img_len, h, d])
    (hpads : ∀ g < 2, pads g ≤ txt_len)
    (hxs : ∀ i < 3, ∀ g < 2, (X i).SeqShard 2 g (join_seqs ((xs g).part i) (pads g))) (hr : r < 2) :
    ∃ y, ipc_input_a2a_qkv_segmented env xs pads r stale = .ok (some y)
      ∧ ∀ i < 3, (X i).HeadShard 2 r (y.part i) := by
  have hrow : ∀ i < 3, ∀ g < 2, ∀ i' n t l, i' < b → n < h → t < txt_len + img_len → l < d →
      joint_row ((xs g).part i) (txt_len - pads g) img_len i' t n l
        = (X i).entry i' n (g * (txt_len + img_len) + t) l := by
    intro i hi g hg i' n t l hi' hn ht hl
    obtain ⟨hb, hh, hd, hlens⟩ := hX i hi
    have hlen : [txt_len + img_len, txt_len + img_len].getD g 0 = txt_len + img_len := by
      rcases (show g = 0 ∨ g = 1 by omega) with rfl | rfl <;> rfl
    have hstart : start [txt_len + img_len, txt_len + img_len] g = g * (txt_len + img_len) :=
      start_replicate (w := 2) (by omega)
    have hjoin := (join_seqs_tabulates (htxt i hi g hg) (himg i hi g hg) (hpads g hg)).get_eq
      i' n t l hi' hn ht hl
    have hshard := (hxs i hi g hg).get_eq i' n t l (by rw [hb]; exact hi') (by rw [hh]; exact hn)
      (by rw [hlens, hlen]; exact ht) (by rw [hd]; exact hl)
    rw [hlens, hstart] at hshard
    exact hjoin.symm.trans hshard
  have hgather : ∀ i < 3, ∀ part : Tensor α,
      part.shape = [b, 2 * (txt_len + img_len), h / 2, d] → (X i).HeadShard 2 r
      (ipc_write_span (ipc_write_span part ((xs (1 - r)).part i) r (h / 2)
          ((1 - r) * (txt_len + img_len)) (pads (1 - r)))
        ((xs r).part i) r (h / 2) (r * (txt_len + img_len)) (pads r)) := by
    intro i hi part hpart
    obtain ⟨hb, hh, hd, hlens⟩ := hX i hi
    unfold Whole.HeadShard
    rw [hb, hh, hd, hlens]
    refine ⟨?_, fun i' j m l hi' hj hm hl => ?_⟩
    · rw [shape_ipc_write_span, shape_ipc_write_span, hpart]
      simp [axes, Nat.two_mul]
    · have hj' : r * (h / 2) + j < h := head_lt hdiv hr hj
      have hm' : m < 2 * (txt_len + img_len) := by
        have hsum : [txt_len + img_len, txt_len + img_len].sum
            = txt_len + img_len + (txt_len + img_len) := by simp
        omega
      show (ipc_write_span _ _ _ _ _ _).get [i', m, j, l] = _
      rw [get_ipc_write_span (htxt i hi r hr) (himg i hi r hr) (hpads r hr),
        get_ipc_write_span (htxt i hi (1 - r) (by omega)) (himg i hi (1 - r) (by omega))
          (hpads (1 - r) (by omega))]
      by_cases hown : r * (txt_len + img_len) ≤ m
          ∧ m < r * (txt_len + img_len) + (txt_len + img_len)
      · rw [if_pos hown, hrow i hi r hr i' _ _ l hi' hj' (by omega) hl, Nat.add_sub_cancel' hown.1]
        rfl
      · have hpeer : (1 - r) * (txt_len + img_len) ≤ m
            ∧ m < (1 - r) * (txt_len + img_len) + (txt_len + img_len) := by
          rcases (show r = 0 ∨ r = 1 by omega) with rfl | rfl <;> omega
        rw [if_neg hown, if_pos hpeer, hrow i hi (1 - r) (by omega) i' _ _ l hi' hj' (by omega) hl,
          Nat.add_sub_cancel' hpeer.1]
        rfl
  have hq : (xs r).q.txt.shape = [b, txt_len, h, d] := htxt 0 (by omega) r hr
  have hq' : (xs r).q.img.shape = [b, img_len, h, d] := himg 0 (by omega) r hr
  unfold ipc_input_a2a_qkv_segmented
  rw [if_neg (by omega), if_neg (by simp [hipc]), hq, hq']
  refine ⟨_, rfl, fun i hi => ?_⟩
  interval_cases i
  · exact hgather 0 hi _ rfl
  · exact hgather 1 hi _ rfl
  · exact hgather 2 hi _ rfl

end Segmented

/-! ## The exchanges, whichever path they take -/

theorem seqShard_iff_headShard {X : Whole α} {head_dim : ℕ} {x : Tensor α}
    (hlens : X.lens.length = 1) : X.SeqShard head_dim 0 x ↔ X.HeadShard head_dim 0 x := by
  obtain ⟨s, hs⟩ := length_eq_one_iff.mp hlens
  unfold Whole.SeqShard Whole.HeadShard
  simp [hs]

section Dispatch

variable (env : Env) {head_dim s r : ℕ} {X : Whole α} {xs : ℕ → Tensor α}

section

variable (hhead : head_dim = 1 ∨ head_dim = 2)
include hhead

/-- **The input exchange.** Every rank's rows become every rank's heads. -/
theorem usp_input_all_to_all_headShard (hlens : X.lens = List.replicate env.world_size s)
    (hdiv : X.heads % env.world_size = 0) (hxs : ∀ g < env.world_size, X.SeqShard head_dim g (xs g))
    (hr : r < env.world_size) (m : Memory α) :
    ∃ h m', usp_input_all_to_all env head_dim xs r m = .ok (h, m')
      ∧ X.HeadShard head_dim r (m'.read h) := by
  obtain ⟨hlength, -, hlen⟩ := equal_lens hlens
  unfold usp_input_all_to_all
  split
  · have hr0 : r = 0 := by omega
    subst hr0
    refine ⟨_, _, rfl, ?_⟩
    have hshard := (seqShard_iff_headShard (show X.lens.length = 1 by omega)).mp (hxs 0 hr)
    exact hshard.of_same (Memory.read_alloc m _)
  split
  · rename_i hipc
    obtain ⟨hw, rfl, -⟩ := hipc
    rw [hw] at hxs hr hlens hdiv hlen
    have hrow : (xs r).shape.getD 1 0 = s := by
      rw [(hxs r hr).shape_eq, hlen r hr]
      rfl
    obtain ⟨y, hy, hshard⟩ : ∃ y, ipc_varlen_input X.lens xs r m.stale = .ok y
        ∧ X.HeadShard 2 r y := ipc_varlen_input_headShard (by omega) hdiv hxs hr
    rw [hlens] at hy
    dsimp only
    rw [hrow, show [s, s] = List.replicate 2 s from rfl, hy]
    exact ⟨_, _, rfl, hshard.of_same (Memory.read_alloc m _)⟩
  · exact input_collective_headShard hhead hlens hdiv hxs hr m

/-- **The output exchange.** Every rank's heads become every rank's rows. -/
theorem usp_output_all_to_all_seqShard (hlens : X.lens = List.replicate env.world_size s)
    (hdiv : X.heads % env.world_size = 0)
    (hxs : ∀ g < env.world_size, X.HeadShard head_dim g (xs g)) (hr : r < env.world_size)
    (m : Memory α) : ∃ h m', usp_output_all_to_all env head_dim xs r m = .ok (h, m')
      ∧ X.SeqShard head_dim r (m'.read h) := by
  obtain ⟨hlength, hsum, -⟩ := equal_lens hlens
  unfold usp_output_all_to_all
  dsimp only
  split
  · have hr0 : r = 0 := by omega
    subst hr0
    refine ⟨_, _, rfl, ?_⟩
    have hshard := (seqShard_iff_headShard (show X.lens.length = 1 by omega)).mpr (hxs 0 hr)
    exact hshard.of_same (Memory.read_alloc m _)
  split
  · rename_i hipc
    obtain ⟨hw, rfl, -, -⟩ := hipc
    have hrow : (xs r).shape.getD 1 0 / 2 = s := by
      rw [(hxs r hr).shape_eq, hsum, hw]
      show 2 * s / 2 = s
      omega
    rw [hw] at hxs hr hlens hdiv
    obtain ⟨y, hy, hshard⟩ : ∃ y, ipc_varlen_output X.lens xs r m.stale = .ok y
        ∧ X.SeqShard 2 r y := ipc_varlen_output_seqShard (by omega) hdiv hxs hr
    rw [hlens] at hy
    rw [hrow, show [s, s] = List.replicate 2 s from rfl, hy]
    exact ⟨_, _, rfl, hshard.of_same (Memory.read_alloc m _)⟩
  · exact output_collective_seqShard hhead hlens hdiv hxs hr m

theorem usp_input_all_to_all_varlen_headShard (hlens : X.lens.length = env.world_size)
    (hdiv : X.heads % env.world_size = 0) (hxs : ∀ g < env.world_size, X.SeqShard head_dim g (xs g))
    (hr : r < env.world_size) (stale : ℕ → α) :
    ∃ y, usp_input_all_to_all_varlen env head_dim X.lens xs r stale = .ok y
      ∧ X.HeadShard head_dim r y := by
  unfold usp_input_all_to_all_varlen
  split
  · have hr0 : r = 0 := by omega
    subst hr0
    exact ⟨_, rfl, (seqShard_iff_headShard (by omega)).mp (hxs 0 hr)⟩
  split
  · rename_i hipc
    obtain ⟨hw, rfl, -⟩ := hipc
    rw [hw] at hxs hr hlens hdiv
    exact ipc_varlen_input_headShard hlens hdiv hxs hr
  · exact input_collective_varlen_headShard hhead hlens hdiv hxs hr

theorem usp_output_all_to_all_varlen_seqShard (hlens : X.lens.length = env.world_size)
    (hdiv : X.heads % env.world_size = 0)
    (hxs : ∀ g < env.world_size, X.HeadShard head_dim g (xs g)) (hr : r < env.world_size)
    (stale : ℕ → α) : ∃ y, usp_output_all_to_all_varlen env head_dim X.lens xs r stale = .ok y
      ∧ X.SeqShard head_dim r y := by
  unfold usp_output_all_to_all_varlen
  split
  · have hr0 : r = 0 := by omega
    subst hr0
    exact ⟨_, rfl, (seqShard_iff_headShard (by omega)).mpr (hxs 0 hr)⟩
  split
  · rename_i hipc
    obtain ⟨hw, rfl, -⟩ := hipc
    rw [hw] at hxs hr hlens hdiv
    exact ipc_varlen_output_seqShard hlens hdiv hxs hr
  · exact output_collective_varlen_seqShard hhead hlens hdiv hxs hr

end

end Dispatch

end LightningH3.Ulysses
