/-
The collective paths of the Ulysses exchanges move an operand from one sharding to the other.
-/
import Mathlib.Tactic.Linarith
import LightningH3.Lib.Fallible
import LightningH3.UlyssesShards

set_option autoImplicit false

namespace LightningH3.Ulysses

open Segments Tensors List

variable {α : Type}

/-! ## Chunks -/

variable {w r g : ℕ} {idx : List ℕ}

/-- **The chunks change places.** Entry `idx` of the chunk that rank `r` has from rank `g` is
entry `idx` of the chunk that rank `g` had for rank `r`. -/
theorem delivered_chunk {xs : ℕ → Tensor α} {shape ns : List ℕ}
    (hshape : ∀ j < w, (xs j).shape = shape) (hprod : shape.prod = w * ns.prod) (hr : r < w)
    (hg : g < w) (hidx : InBounds idx ns) : ((delivered w xs r).reshape (w :: ns)).get (g :: idx)
      = ((xs g).reshape (w :: ns)).get (r :: idx) := by
  have hlt := ravel_lt hidx
  have hnumel : ∀ j < w, (xs j).numel = w * ns.prod := by
    intro j hj
    show (xs j).shape.prod = _
    rw [hshape j hj, hprod]
  have hsplit : ∀ j < w, List.replicate w ((xs j).numel / w) = List.replicate w ns.prod := by
    intro j hj
    rw [hnumel j hj, Nat.mul_div_cancel_left _ (by omega)]
  have hbound : ∀ j < w, j * ns.prod + ravel ns idx < w * ns.prod := by
    intro j hj
    rw [Nat.mul_comm j]
    exact Nat.mul_add_lt_mul_of_lt_of_lt hj (by omega)
  show (delivered w xs r).flat (g * ns.prod + ravel ns idx)
    = (xs g).flat (r * ns.prod + ravel ns idx)
  unfold delivered
  rw [Tensor.flat_reshape (by rw [hshape r hr, hprod]; exact hbound g hg),
    flat_all_to_all_single hr hg hsplit hlt, Tensor.flat_reshape]
  rw [prod_singleton, hnumel g hg]
  exact hbound r hr

theorem buffer_chunk {env : Env} {role : Role} {xs : ℕ → Tensor α} {m : Memory α}
    {shape ns : List ℕ} (hshape : ∀ j < env.world_size, (xs j).shape = shape)
    (hprod : shape.prod = env.world_size * ns.prod) (hr : r < env.world_size)
    (hg : g < env.world_size) (hidx : InBounds idx ns) : (Tensor.of_flat (env.world_size :: ns)
        ((usp_all_to_all_single env role xs r m).2.cells
          (usp_all_to_all_single env role xs r m).1)).get (g :: idx)
      = ((xs g).reshape (env.world_size :: ns)).get (r :: idx) := by
  rw [← delivered_chunk hshape hprod hr hg hidx]
  have hlt : ravel (env.world_size :: ns) (g :: idx) < (delivered env.world_size xs r).numel := by
    have h := ravel_lt (inBounds_cons.mpr ⟨hg, hidx⟩)
    show _ < (xs r).shape.prod
    rw [hshape r hr, hprod]
    exact h
  show (if _ ∧ _ then _ else _) = (delivered env.world_size xs r).flat _
  rw [if_pos ⟨rfl, hlt⟩]

/-! ## The uniform exchanges -/

variable {s : ℕ}

theorem start_replicate_div {m : ℕ} (hm : m < w * s) :
    start (List.replicate w s) (m / s) + m % s = m := by
  rw [start_replicate (Nat.le_of_lt (Nat.div_lt_of_lt_mul (by rwa [Nat.mul_comm] at hm)))]
  exact Nat.div_add_mod' m s

theorem row_bounds {m : ℕ} (hm : m < w * s) : m / s < w ∧ m % s < s := by
  have hs : 0 < s := by
    rcases Nat.eq_zero_or_pos s with rfl | h
    · omega
    · exact h
  exact ⟨Nat.div_lt_of_lt_mul (by rwa [Nat.mul_comm] at hm), Nat.mod_lt m hs⟩

theorem head_lt {h j : ℕ} (hdiv : h % w = 0) (hr : r < w) (hj : j < h / w) : r * (h / w) + j < h :=
  calc r * (h / w) + j = h / w * r + j := by rw [Nat.mul_comm]
    _ < w * (h / w) := Nat.mul_add_lt_mul_of_lt_of_lt hr hj
    _ = h := Nat.mul_div_cancel' (Nat.dvd_of_mod_eq_zero hdiv)

theorem equal_lens {lens : List ℕ} (h : lens = List.replicate w s) :
    lens.length = w ∧ lens.sum = w * s ∧ ∀ g < w, lens.getD g 0 = s := by
  refine ⟨by rw [h, length_replicate], by rw [h, sum_replicate_nat], fun g hg => ?_⟩
  rw [h, getD_eq_getElem _ _ (by rwa [length_replicate]), getElem_replicate]

section First

variable {head_dim b h s d : ℕ} {f : ℕ → ℕ → ℕ → ℕ → α} {x : Tensor α}
  (hhead : head_dim = 1 ∨ head_dim = 2) (hx : Tabulates head_dim b h s d f x)
include hhead hx

theorem heads_first_spec : (heads_first head_dim x).shape = [h, b, s, d] ∧
    ∀ i n t l, i < b → n < h → t < s → l < d →
      (heads_first head_dim x).get [n, i, t, l] = f i n t l := by
  rcases hhead with rfl | rfl
  · refine ⟨?_, fun i n t l hi hn ht hl => hx.get_eq i n t l hi hn ht hl⟩
    show [x.shape.getD 1 0, x.shape.getD 0 0, x.shape.getD 2 0, x.shape.getD 3 0] = _
    rw [hx.shape_eq]
    rfl
  · refine ⟨?_, fun i n t l hi hn ht hl => hx.get_eq i n t l hi hn ht hl⟩
    show [x.shape.getD 2 0, x.shape.getD 0 0, x.shape.getD 1 0, x.shape.getD 3 0] = _
    rw [hx.shape_eq]
    rfl

/-- The rows moved to the front stand where the heads of the other layout do. -/
theorem rows_first_spec : (heads_first (3 - head_dim) x).shape = [s, b, h, d] ∧
    ∀ i n t l, i < b → n < h → t < s → l < d →
      (heads_first (3 - head_dim) x).get [t, i, n, l] = f i n t l := by
  have hswap : Tabulates (3 - head_dim) b s h d (fun i t n l => f i n t l) x := by
    rcases hhead with rfl | rfl
    · exact ⟨hx.shape_eq, fun i t n l hi ht hn hl => hx.get_eq i n t l hi hn ht hl⟩
    · exact ⟨hx.shape_eq, fun i t n l hi ht hn hl => hx.get_eq i n t l hi hn ht hl⟩
  obtain ⟨hshape, hget⟩ := heads_first_spec (by omega) hswap
  exact ⟨hshape, fun i n t l hi hn ht hl => hget i t n l hi ht hn hl⟩

end First

section Uniform

variable {env : Env} {head_dim s r : ℕ} {X : Whole α} {xs : ℕ → Tensor α}

/-- An entry of the buffer of rank `r` is the one that its sender had for `r`. -/
theorem buffer_entry {role : Role} {sent : ℕ → Tensor α} {m : Memory α} {c b q d : ℕ}
    (hsent : ∀ g < env.world_size, (sent g).shape = [env.world_size * c, b, q, d])
    (hr : r < env.world_size) (hg : g < env.world_size) {j i t l : ℕ} (hj : j < c) (hi : i < b)
    (ht : t < q) (hl : l < d) : (Tensor.of_flat [env.world_size, c, b, q, d]
        ((usp_all_to_all_single env role sent r m).2.cells
          (usp_all_to_all_single env role sent r m).1)).get [g, j, i, t, l]
      = (sent g).get [r * c + j, i, t, l] := by
  have hprod : [env.world_size * c, b, q, d].prod = env.world_size * [c, b, q, d].prod := by
    simp only [prod_cons]
    ring
  rw [buffer_chunk hsent hprod hr hg (by simp [hj, hi, ht, hl])]
  exact Tensor.get_reshape_split (hsent g hg) (by simp [hi, ht, hl])

theorem input_collective_headShard (hhead : head_dim = 1 ∨ head_dim = 2)
    (hlens : X.lens = List.replicate env.world_size s) (hdiv : X.heads % env.world_size = 0)
    (hxs : ∀ g < env.world_size, X.SeqShard head_dim g (xs g)) (hr : r < env.world_size)
    (m : Memory α) : ∃ h m', input_collective env head_dim xs r m = .ok (h, m')
      ∧ X.HeadShard head_dim r (m'.read h) := by
  obtain ⟨hlength, hsum, hlen⟩ := equal_lens hlens
  have hheads : env.world_size * (X.heads / env.world_size) = X.heads :=
    Nat.mul_div_cancel' (Nat.dvd_of_mod_eq_zero hdiv)
  have hsent : ∀ g < env.world_size, (heads_first head_dim (xs g)).shape
      = [env.world_size * (X.heads / env.world_size), X.batch, s, X.head_size] := by
    intro g hg
    rw [(heads_first_spec hhead (hxs g hg)).1, hlen g hg, hheads]
  have hentry : ∀ {i j n l}, i < X.batch → j < X.heads / env.world_size → n < env.world_size * s →
      l < X.head_size →
      (Tensor.of_flat [env.world_size, X.heads / env.world_size, X.batch, s, X.head_size]
        ((usp_all_to_all_single env .usp_input (fun g => heads_first head_dim (xs g)) r m).2.cells
          (usp_all_to_all_single env .usp_input (fun g => heads_first head_dim (xs g)) r m).1)).get
        [n / s, j, i, n % s, l] = X.entry i (r * (X.heads / env.world_size) + j) n l := by
    intro i j n l hi hj hn hl
    obtain ⟨hg, ht⟩ := row_bounds hn
    rw [buffer_entry hsent hr hg hj hi ht hl, (heads_first_spec hhead (hxs _ hg)).2 i _ _ l hi
      (head_lt hdiv hr hj) (by rw [hlen _ hg]; exact ht) hl, hlens, start_replicate_div hn]
  have hshape := (hxs r hr).shape_eq
  rw [hlen r hr] at hshape
  unfold input_collective
  rw [hshape]
  rcases hhead with rfl | rfl
  · simp only [axes, reduceIte, hdiv]
    refine ⟨_, _, rfl, ?_⟩
    refine Tabulates.of_same ⟨?_, fun i j n l hi hj hn hl => ?_⟩
      (Memory.read_contiguous _ _ _ _ _)
    · rw [hlength, hsum, Nat.mul_comm s]
      rfl
    · rw [hlength] at hj
      rw [hsum] at hn
      rw [hlength]
      show (((Tensor.of_flat _ _).permute [2, 1, 0, 3, 4]).reshape
        [_, _, _, _]).get [i, j, n, l] = _
      rw [Tensor.get_reshape_merge_third rfl rfl (Nat.mul_comm _ _) hj
        (by rw [Nat.mul_comm]; exact hn) (by simpa using hl)]
      exact hentry hi hj hn hl
  · simp only [axes, reduceIte, hdiv, OfNat.ofNat_ne_one]
    refine ⟨_, _, rfl, ?_⟩
    refine Tabulates.of_same ⟨?_, fun i j n l hi hj hn hl => ?_⟩
      (Memory.read_contiguous _ _ _ _ _)
    · rw [hlength, hsum, Nat.mul_comm s]
      rfl
    · rw [hlength] at hj
      rw [hsum] at hn
      rw [hlength]
      show (((Tensor.of_flat _ _).permute [2, 0, 3, 1, 4]).reshape
        [_, _, _, _]).get [i, n, j, l] = _
      rw [Tensor.get_reshape_merge_second rfl (Nat.mul_comm _ _)
        (by rw [Nat.mul_comm]; exact hn) (by simpa using ⟨hj, hl⟩)]
      exact hentry hi hj hn hl

theorem read_usp_merge_heads (m : Memory α) (buffer : ℕ) (shape out : List ℕ) :
    Tensor.Same ((usp_merge_heads env m buffer shape out).2.read
        (usp_merge_heads env m buffer shape out).1)
      (((Tensor.of_flat shape (m.cells buffer)).permute [2, 1, 0, 3, 4]).reshape out) := by
  unfold usp_merge_heads
  split
  · exact Memory.read_alloc m _
  · exact Memory.read_contiguous m _ _ _ _

theorem output_collective_seqShard (hhead : head_dim = 1 ∨ head_dim = 2)
    (hlens : X.lens = List.replicate env.world_size s) (hdiv : X.heads % env.world_size = 0)
    (hxs : ∀ g < env.world_size, X.HeadShard head_dim g (xs g)) (hr : r < env.world_size)
    (m : Memory α) : ∃ h m', output_collective env head_dim xs r m = .ok (h, m')
      ∧ X.SeqShard head_dim r (m'.read h) := by
  obtain ⟨hlength, hsum, hlen⟩ := equal_lens hlens
  have hw : 0 < env.world_size := by omega
  have hheads : env.world_size * (X.heads / env.world_size) = X.heads :=
    Nat.mul_div_cancel' (Nat.dvd_of_mod_eq_zero hdiv)
  have hmod : env.world_size * s % env.world_size = 0 := Nat.mul_mod_right _ _
  have hrows : env.world_size * s / env.world_size = s := Nat.mul_div_cancel_left _ hw
  have hsent : ∀ g < env.world_size, (heads_first (3 - head_dim) (xs g)).shape
      = [env.world_size * s, X.batch, X.heads / env.world_size, X.head_size] := by
    intro g hg
    rw [(rows_first_spec hhead (hxs g hg)).1, hlength, hsum]
  -- the buffer entry of head `n` and row `t` comes from the rank that has the head
  have hentry : ∀ {i n t l}, i < X.batch → n < X.heads → t < s → l < X.head_size →
      (Tensor.of_flat [env.world_size, s, X.batch, X.heads / env.world_size, X.head_size]
        ((usp_all_to_all_single env .usp_output (fun g => heads_first (3 - head_dim) (xs g)) r
            m).2.cells
          (usp_all_to_all_single env .usp_output (fun g => heads_first (3 - head_dim) (xs g)) r
            m).1)).get [n / (X.heads / env.world_size), t, i, n % (X.heads / env.world_size), l]
        = X.entry i n (start X.lens r + t) l := by
    intro i n t l hi hn ht hl
    obtain ⟨hg, hj⟩ := row_bounds (show n < env.world_size * (X.heads / env.world_size) by omega)
    have hrow : r * s + t < env.world_size * s := by
      rw [Nat.mul_comm r]
      exact Nat.mul_add_lt_mul_of_lt_of_lt hr ht
    rw [buffer_entry hsent hr hg ht hi hj hl, (rows_first_spec hhead (hxs _ hg)).2 i _ _ l hi
      (by rw [hlength]; exact hj) (by rw [hsum]; exact hrow) hl, hlength, Nat.div_add_mod', hlens,
      start_replicate (by omega)]
  have hshape := (hxs r hr).shape_eq
  rw [hlength, hsum] at hshape
  unfold output_collective
  rw [hshape]
  rcases hhead with rfl | rfl
  · simp only [axes, reduceIte, hmod, hrows]
    refine ⟨_, _, rfl, ?_⟩
    refine Tabulates.of_same ⟨?_, fun i n t l hi hn ht hl => ?_⟩
      (Memory.read_contiguous _ _ _ _ _)
    · rw [hlen r hr, Nat.mul_comm _ env.world_size, hheads]
      rfl
    · rw [hlen r hr] at ht
      show (((Tensor.of_flat _ _).permute [2, 0, 3, 1, 4]).reshape
        [_, _, _, _]).get [i, n, t, l] = _
      rw [Tensor.get_reshape_merge_second rfl (Nat.mul_comm _ _)
        (by rw [Nat.mul_comm, hheads]; exact hn) (by simpa using ⟨ht, hl⟩)]
      exact hentry hi hn ht hl
  · simp only [axes, reduceIte, hmod, hrows, OfNat.ofNat_ne_one]
    refine ⟨_, _, rfl, ?_⟩
    refine Tabulates.of_same ⟨?_, fun i n t l hi hn ht hl => ?_⟩
      (read_usp_merge_heads _ _ _ _)
    · rw [hlen r hr, Nat.mul_comm _ env.world_size, hheads]
      rfl
    · rw [hlen r hr] at ht
      show (((Tensor.of_flat _ _).permute [2, 1, 0, 3, 4]).reshape
        [_, _, _, _]).get [i, t, n, l] = _
      rw [Tensor.get_reshape_merge_third rfl rfl (Nat.mul_comm _ _) ht
        (by rw [Nat.mul_comm, hheads]; exact hn) (by simpa using hl)]
      exact hentry hi hn ht hl

end Uniform

/-! ## The variable-length exchanges -/

theorem get_received_chunk {x : Tensor α} {n : ℕ} {splits : List ℕ} {shapes : ℕ → List ℕ}
    (hx : x.shape = [n]) :
    (received_chunk x splits shapes g).get idx = x.get [start splits g + ravel (shapes g) idx] := by
  unfold received_chunk
  rw [Tensor.get_reshape]
  have hshape : (x.narrow 0 (start splits g) (splits.getD g 0)).shape = [splits.getD g 0] := by
    show x.shape.set 0 _ = _
    rw [hx]
    rfl
  rw [hshape, unravel_singleton]
  rfl

section Varlen

variable {w head_dim r : ℕ} {X : Whole α} {xs : ℕ → Tensor α}

variable {b h s d : ℕ} {f : ℕ → ℕ → ℕ → ℕ → α} {x : Tensor α}

theorem prod_block (h b s d : ℕ) : [h, b, s, d].prod = h * b * s * d := by
  simp only [prod_cons, prod_nil]
  ring

section

variable (hhead : head_dim = 1 ∨ head_dim = 2)
include hhead

theorem heads_back_spec (hshape : x.shape = [h, b, s, d])
    (hget : ∀ i n t l, i < b → n < h → t < s → l < d → x.get [n, i, t, l] = f i n t l) :
    Tabulates head_dim b h s d f (heads_back head_dim x) := by
  rcases hhead with rfl | rfl
  · refine ⟨?_, fun i n t l hi hn ht hl => hget i n t l hi hn ht hl⟩
    show [x.shape.getD 1 0, x.shape.getD 0 0, x.shape.getD 2 0, x.shape.getD 3 0] = _
    rw [hshape]
    rfl
  · refine ⟨?_, fun i n t l hi hn ht hl => hget i n t l hi hn ht hl⟩
    show [x.shape.getD 1 0, x.shape.getD 2 0, x.shape.getD 0 0, x.shape.getD 3 0] = _
    rw [hshape]
    rfl

theorem axes_sizes : ∃ n₁ n₂, axes head_dim b h s d = [b, n₁, n₂, d]
      ∧ (if head_dim = 1 then n₁ else n₂) = h ∧ (if head_dim = 1 then n₂ else n₁) = s := by
  rcases hhead with rfl | rfl
  · exact ⟨h, s, rfl, rfl, rfl⟩
  · exact ⟨s, h, rfl, rfl, rfl⟩

theorem check_lens_ok {seq_lens : List ℕ} (hlens : seq_lens.length = w) :
    check_lens w head_dim seq_lens = .ok () := by
  unfold check_lens
  rw [if_neg (by omega), if_neg (by omega)]

theorem input_varlen_chunk (hlens : X.lens.length = w) (hdiv : X.heads % w = 0)
    (hxs : ∀ g < w, X.SeqShard head_dim g (xs g)) (hr : r < w) {g : ℕ} (hg : g < w) {i j t l : ℕ}
    (hi : i < X.batch) (hj : j < X.heads / w) (ht : t < X.lens.getD g 0) (hl : l < X.head_size) :
    (usp_all_to_all_single_varlen (fun j => input_send w (heads_first head_dim (xs j)))
        (fun _ => X.lens.map (fun seq_len => X.heads / w * X.batch * seq_len * X.head_size))
        (fun j => input_split_sizes w (heads_first head_dim (xs j))) r).get
      [start (X.lens.map (fun seq_len => X.heads / w * X.batch * seq_len * X.head_size)) g
        + ravel [X.heads / w, X.batch, X.lens.getD g 0, X.head_size] [j, i, t, l]]
      = X.entry i (r * (X.heads / w) + j) (start X.lens g + t) l := by
  obtain ⟨hfirst, hget⟩ := heads_first_spec hhead (hxs g hg)
  have hidx : InBounds [j, i, t, l] [X.heads / w, X.batch, X.lens.getD g 0, X.head_size] := by
    simp only [inBounds_cons, inBounds_nil_iff]
    exact ⟨hj, hi, ht, hl, trivial⟩
  have hlt := ravel_lt hidx
  have hsize := prod_block (X.heads / w) X.batch (X.lens.getD g 0) X.head_size
  have hsend : input_send w (heads_first head_dim (xs g)) = (heads_first head_dim (xs g)).reshape
      [w, X.heads / w, X.batch, X.lens.getD g 0, X.head_size] := by
    unfold input_send
    simp only [hfirst]
  have hsplits : input_split_sizes w (heads_first head_dim (xs g)) = List.replicate w
      [X.heads / w, X.batch, X.lens.getD g 0, X.head_size].prod := by
    unfold input_split_sizes
    simp only [hfirst, hsize]
  have hg' : g < X.lens.length := by omega
  have hbound : r * [X.heads / w, X.batch, X.lens.getD g 0, X.head_size].prod
      + ravel [X.heads / w, X.batch, X.lens.getD g 0, X.head_size] [j, i, t, l]
      < [w, X.heads / w, X.batch, X.lens.getD g 0, X.head_size].prod :=
    ravel_lt (inBounds_cons.mpr ⟨hr, hidx⟩)
  unfold usp_all_to_all_single_varlen
  rw [get_all_to_all_single (by rw [length_map]; exact hg')
    (by rw [getElem_map, ← getD_eq_getElem _ 0 hg', ← hsize]; exact hlt)]
  beta_reduce
  rw [hsplits, start_replicate (by omega), hsend, Tensor.flat_reshape]
  · rw [Tensor.flat_add rfl hidx, Tensor.get_reshape_split hfirst (inBounds_cons.mp hidx).2]
    exact hget i _ t l hi (head_lt hdiv hr hj) ht hl
  · rw [prod_singleton]
    exact hbound

theorem input_collective_varlen_headShard (hlens : X.lens.length = w) (hdiv : X.heads % w = 0)
    (hxs : ∀ g < w, X.SeqShard head_dim g (xs g)) (hr : r < w) :
    ∃ y, input_collective_varlen w head_dim X.lens xs r = .ok y ∧ X.HeadShard head_dim r y := by
  obtain ⟨n₁, n₂, haxes, hh, hs⟩ := axes_sizes (b := X.batch) (h := X.heads)
    (s := X.lens.getD r 0) (d := X.head_size) hhead
  have hshape : (xs r).shape = [X.batch, n₁, n₂, X.head_size] := (hxs r hr).shape_eq.trans haxes
  unfold input_collective_varlen
  rw [hshape]
  simp only [check_lens_ok hhead hlens, hh, hs, ne_eq, hdiv]
  refine ⟨_, rfl, ?_⟩
  unfold Whole.HeadShard
  rw [hlens]
  refine heads_back_spec hhead ?_ (fun i j m l hi hj hm hl => ?_)
  · rw [Tensor.shape_cat hlens (fun _ _ => rfl)]
    rfl
  · rw [Tensor.get_cat hlens (fun _ _ => rfl)]
    obtain ⟨g, hg, hlo, hhi⟩ := exists_segment X.lens hm
    have hbucket : bucket X.lens m = g := bucket_eq hg hlo hhi
    have ht : m - start X.lens g < X.lens.getD g 0 := by
      rw [getD_eq_getElem _ _ hg]
      omega
    show (received_chunk _ _ _ (bucket X.lens m)).get
      [j, i, m - start X.lens (bucket X.lens m), l] = _
    rw [hbucket, get_received_chunk rfl,
      input_varlen_chunk hhead hlens hdiv hxs hr (by omega) hi hj ht hl, Nat.add_sub_cancel' hlo]

omit hhead in
theorem output_varlen_send {lens : List ℕ} (hlens : lens.length = w) (hr : r < w)
    (hshape : x.shape = [h, b, lens.sum, d])
    (hget : ∀ i n t l, i < b → n < h → t < lens.sum → l < d → x.get [n, i, t, l] = f i n t l)
    {i j t l : ℕ} (hi : i < b) (hj : j < h) (ht : t < lens.getD r 0) (hl : l < d) :
    (output_send w lens x).numel = (lens.map (fun seq_len => h * b * seq_len * d)).sum ∧
    (output_send w lens x).flat (start (lens.map (fun seq_len => h * b * seq_len * d)) r
        + ravel [h, b, lens.getD r 0, d] [j, i, t, l]) = f i j (start lens r + t) l := by
  have hr' : r < lens.length := by omega
  have hchunk : ∀ g, (x.narrow 2 (start lens g) (lens.getD g 0)).shape
      = [h, b, lens.getD g 0, d] := by
    intro g
    show x.shape.set 2 _ = _
    rw [hshape]
    rfl
  have hnumel : ∀ g, (x.narrow 2 (start lens g) (lens.getD g 0)).numel
      = h * b * lens.getD g 0 * d := by
    intro g
    show (Tensor.narrow _ _ _ _).shape.prod = _
    rw [hchunk, prod_block]
  have hsizes : ∀ g < w, [(x.narrow 2 (start lens g) (lens.getD g 0)).numel].getD 0 0
      = (lens.map (fun seq_len => h * b * seq_len * d)).getD g 0 := by
    intro g hg
    have hg' : g < lens.length := by omega
    rw [getD_cons_zero, hnumel, getD_eq_getElem _ _ hg',
      getD_eq_getElem _ _ (by rw [length_map]; exact hg'), getElem_map]
  have hlength : (lens.map (fun seq_len => h * b * seq_len * d)).length = w := by
    rw [length_map, hlens]
  have hidx : InBounds [j, i, t, l] [h, b, lens.getD r 0, d] := by
    simp only [inBounds_cons, inBounds_nil_iff]
    exact ⟨hj, hi, ht, hl, trivial⟩
  have hlt : ravel [h, b, lens.getD r 0, d] [j, i, t, l] < h * b * lens.getD r 0 * d := by
    have hk := ravel_lt hidx
    simp only [prod_cons, prod_nil] at hk
    linarith
  have hshape' : (output_send w lens x).shape
      = [(lens.map (fun seq_len => h * b * seq_len * d)).sum] := by
    unfold output_send
    rw [Tensor.shape_cat hlength hsizes]
    rfl
  refine ⟨?_, ?_⟩
  · show (output_send w lens x).shape.prod = _
    rw [hshape', prod_singleton]
  · show (output_send w lens x).get (unravel (output_send w lens x).shape _) = _
    rw [hshape', unravel_singleton]
    unfold output_send
    rw [Tensor.get_cat hlength hsizes]
    have hbucket : bucket (lens.map (fun seq_len => h * b * seq_len * d))
        (start (lens.map (fun seq_len => h * b * seq_len * d)) r
          + ravel [h, b, lens.getD r 0, d] [j, i, t, l]) = r := by
      refine bucket_eq (by rw [hlength]; exact hr) (by omega) ?_
      rw [getElem_map, ← getD_eq_getElem _ 0 hr']
      omega
    rw [getD_cons_zero, hbucket, Nat.add_sub_cancel_left]
    show ((x.narrow 2 (start lens r) (lens.getD r 0)).reshape [_]).get
      [ravel [h, b, lens.getD r 0, d] [j, i, t, l]] = _
    rw [Tensor.get_reshape, hchunk]
    have hravel : ∀ n k, ravel [n] [k] = k := by
      intro n k
      simp [ravel]
    rw [hravel, unravel_ravel hidx]
    refine hget i j _ l hi hj ?_ hl
    rw [getD_eq_getElem _ _ hr'] at ht
    exact add_lt_sum hr' ht

theorem output_collective_varlen_seqShard (hlens : X.lens.length = w) (hdiv : X.heads % w = 0)
    (hxs : ∀ g < w, X.HeadShard head_dim g (xs g)) (hr : r < w) :
    ∃ y, output_collective_varlen w head_dim X.lens xs r = .ok y ∧ X.SeqShard head_dim r y := by
  obtain ⟨n₁, n₂, haxes, hh, hs⟩ := axes_sizes (b := X.batch) (h := X.heads / w)
    (s := X.lens.sum) (d := X.head_size) hhead
  have hshape : (xs r).shape = [X.batch, n₁, n₂, X.head_size] := by
    rw [(hxs r hr).shape_eq, hlens, haxes]
  have hheads : w * (X.heads / w) = X.heads := Nat.mul_div_cancel' (Nat.dvd_of_mod_eq_zero hdiv)
  have hsize := prod_block (X.heads / w) X.batch (X.lens.getD r 0) X.head_size
  unfold output_collective_varlen
  rw [hshape]
  simp only [check_lens_ok hhead hlens, hh, hs, ne_eq]
  refine ⟨_, rfl, ?_⟩
  have hlength : (List.replicate w (X.heads / w)).length = w := length_replicate
  have hsizes : ∀ j < w, [X.heads / w, X.batch, X.lens.getD r 0, X.head_size].getD 0 0
      = (List.replicate w (X.heads / w)).getD j 0 := by
    intro j hj
    rw [getD_cons_zero, getD_eq_getElem _ _ (by rw [hlength]; exact hj), getElem_replicate]
  refine heads_back_spec hhead ?_ (fun i n t l hi hn ht hl => ?_)
  · rw [Tensor.shape_cat hlength hsizes, sum_replicate_nat, hheads]
    rfl
  · rw [Tensor.get_cat hlength hsizes]
    obtain ⟨hg, hj⟩ := row_bounds (show n < w * (X.heads / w) by omega)
    have hstart : start (List.replicate w (X.heads / w)) (n / (X.heads / w))
        = n / (X.heads / w) * (X.heads / w) := start_replicate (by omega)
    have hn' := Nat.div_add_mod' n (X.heads / w)
    have hbucket : bucket (List.replicate w (X.heads / w)) n = n / (X.heads / w) := by
      refine bucket_eq (by rw [hlength]; exact hg) (by omega) ?_
      rw [getElem_replicate]
      omega
    rw [getD_cons_zero, hbucket, hstart]
    have hrest : n - n / (X.heads / w) * (X.heads / w) = n % (X.heads / w) := by omega
    rw [hrest]
    show (received_chunk _ _ _ (n / (X.heads / w))).get [n % (X.heads / w), i, t, l] = _
    rw [get_received_chunk rfl]
    have hidx : InBounds [n % (X.heads / w), i, t, l]
        [X.heads / w, X.batch, X.lens.getD r 0, X.head_size] := by
      simp only [inBounds_cons, inBounds_nil_iff]
      exact ⟨hj, hi, ht, hl, trivial⟩
    have hlt := ravel_lt hidx
    have hgshard := hxs _ hg
    unfold Whole.HeadShard at hgshard
    rw [hlens] at hgshard
    obtain ⟨hfirst, hget⟩ := heads_first_spec hhead hgshard
    obtain ⟨hnumel, hval⟩ := output_varlen_send hlens hr hfirst hget hi hj ht hl
    have hsplits : output_split_sizes X.lens (heads_first head_dim (xs (n / (X.heads / w))))
        = X.lens.map (fun seq_len => X.heads / w * X.batch * seq_len * X.head_size) := by
      unfold output_split_sizes
      simp only [hfirst]
    unfold usp_all_to_all_single_varlen
    rw [get_all_to_all_single (by rw [length_replicate]; exact hg)
      (by rw [getElem_replicate, ← hsize]; exact hlt)]
    beta_reduce
    rw [hsplits, Tensor.flat_reshape, hval, hn']
    rw [prod_singleton, hnumel]
    refine add_lt_sum (by rw [length_map, hlens]; exact hr) ?_
    rw [getElem_map, ← getD_eq_getElem _ 0 (by omega), ← hsize]
    exact hlt

end

end Varlen

end LightningH3.Ulysses
