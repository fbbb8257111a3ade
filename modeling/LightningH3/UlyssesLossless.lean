/-
When the packed Ulysses exchange agrees with three exchanges in a row.
-/
import LightningH3.UlyssesAgree

set_option autoImplicit false

namespace LightningH3.Ulysses

open Segments Tensors List

variable {α : Type}

/-! ## What the packed exchanges return -/

theorem read_alloc_qkv (m : Memory α) (x : Qkv (Tensor α)) {i : ℕ} (hi : i < 3) :
    Tensor.Same ((alloc_qkv m x).2.read ((alloc_qkv m x).1.part i)) (x.part i) := by
  have hk := Memory.keeps_alloc .usp_input (m.alloc x.q).2 x.k
  have hv := Memory.keeps_alloc .usp_input ((m.alloc x.q).2.alloc x.k).2 x.v
  interval_cases i
  · have hread := Memory.read_alloc m x.q
    rw [← (hk.trans hv).read_eq (Memory.owned_alloc .usp_input m x.q)] at hread
    exact hread
  · have hread := Memory.read_alloc (m.alloc x.q).2 x.k
    rw [← hv.read_eq (Memory.owned_alloc .usp_input (m.alloc x.q).2 x.k)] at hread
    exact hread
  · exact Memory.read_alloc _ x.v

variable {xs : ℕ → Qkv (Tensor α)}

section Packed

variable {env : Env} {r b s h d : ℕ} {f : ℕ → ℕ → ℕ → ℕ → ℕ → α} {mems : ℕ → Memory α}

theorem packed_4d_result {contiguous : Bool} (hw : 2 ≤ env.world_size)
    (hshape : (xs r).q.shape = [b, s, h, d])
    (helig : can_use_packed_qkv_a2a_4d env contiguous (xs r) = true)
    (hps : ∀ g < env.world_size, PackedBy env.world_size (b * s) (h / env.world_size) d (f g)
      (packed_source_4d env (b * s) (h / env.world_size) d (rows_view (b * s) h d (xs g))
        (mems g)).1) (hr : r < env.world_size) :
    ∃ hs m', usp_input_all_to_all_qkv env contiguous xs r mems = .ok (hs, m')
      ∧ ∀ i < 3, Tabulates 2 b (h / env.world_size) (env.world_size * s) d
        (fun i' j k l => f (k / s) i (i' * s + k % s) (r * (h / env.world_size) + j) l)
        (m'.read (hs.part i)) := by
  unfold usp_input_all_to_all_qkv
  rw [if_neg (by omega), if_neg (by simp [helig]), hshape]
  refine ⟨_, _, rfl, fun i hi => ?_⟩
  refine Tabulates.of_same ?_ (read_alloc_qkv _ _ hi)
  have hpart : ∀ data : ℕ → α,
      (Qkv.part ⟨(gathered_4d env.world_size b s (h / env.world_size) d data).narrow 3 0 d,
        (gathered_4d env.world_size b s (h / env.world_size) d data).narrow 3 d d,
        (gathered_4d env.world_size b s (h / env.world_size) d data).narrow 3 (2 * d) d⟩ i)
      = (gathered_4d env.world_size b s (h / env.world_size) d data).narrow 3 (i * d) d := by
    intro data
    interval_cases i
    · rw [Nat.zero_mul]
      rfl
    · rw [Nat.one_mul]
      rfl
    · rfl
  rw [hpart]
  refine ⟨?_, fun i' j k l hi' hj hk hl => ?_⟩
  · unfold gathered_4d
    dsimp only
    split
    · rename_i hb
      subst hb
      rfl
    · rfl
  · exact gathered_4d_get hps hr hi hi' hk hj hl

theorem packed_3d_result {xs : ℕ → Qkv (Strided α)} (hw : 2 ≤ env.world_size)
    (hshape : ∀ i < 3, ((xs r).part i).shape = [s, h, d]) (hdiv : h % env.world_size = 0)
    (hps : ∀ g < env.world_size, PackedBy env.world_size s (h / env.world_size) d (f g)
      (packed_source env s (h / env.world_size) d (xs g) (mems g)).1) (hr : r < env.world_size) :
    ∃ hs m', usp_input_all_to_all_packed_qkv env xs r mems = .ok (hs, m')
      ∧ ∀ i < 3, (m'.read (hs.part i)).shape = [env.world_size * s, h / env.world_size, d]
        ∧ ∀ k j l, k < env.world_size * s → j < h / env.world_size → l < d →
          (m'.read (hs.part i)).get [k, j, l]
            = f (k / s) i (k % s) (r * (h / env.world_size) + j) l := by
  have hq : (xs r).q.shape = [s, h, d] := hshape 0 (by omega)
  have hk : (xs r).k.shape = [s, h, d] := hshape 1 (by omega)
  have hv : (xs r).v.shape = [s, h, d] := hshape 2 (by omega)
  unfold usp_input_all_to_all_packed_qkv
  rw [if_neg (by omega), hq]
  dsimp only
  rw [if_neg (by rw [hk, hv]; simp), if_neg (by omega)]
  refine ⟨_, _, rfl, fun i hi => ?_⟩
  have hpart : ∀ view : ℕ → Handle α, (Qkv.part ⟨view 0, view 1, view 2⟩ i) = view i := by
    intro view
    interval_cases i <;> rfl
  rw [hpart (fun index => ⟨_, split_view _ _ d index⟩)]
  refine ⟨?_, fun k j l hk hj hl => split_view_get hps hr hi hk hj hl⟩
  show [s * env.world_size, h / env.world_size, d] = _
  rw [Nat.mul_comm]

end Packed

/-! ## The packed exchanges

The sources of a packed exchange are what the kernel or the copies laid out, or the unspecified
contents of a buffer after an overflow. -/

section Sources

variable {env : Env} {c : Call}

theorem fault_staging (env : Env) (role : Role) (numel : ℕ) (m : Memory α) :
    (m.a2a_staging_buffer env role numel).2.fault = m.fault := by
  unfold Memory.a2a_staging_buffer
  split
  · split
    · split <;> rfl
    · rfl
  · rfl

theorem flat_rows {x : Tensor α} {b s h d i t n l : ℕ} (hshape : x.shape = [b, s, h, d])
    (hi : i < b) (ht : t < s) (hn : n < h) (hl : l < d) :
    x.flat ((i * s + t) * (h * d) + (n * d + l)) = x.get [i, t, n, l] := by
  have hidx : InBounds [i, t, n, l] [b, s, h, d] := by
    simp only [inBounds_cons, inBounds_nil_iff]
    exact ⟨hi, ht, hn, hl, trivial⟩
  have hravel : (i * s + t) * (h * d) + (n * d + l) = ravel [b, s, h, d] [i, t, n, l] := by
    simp only [ravel, prod_cons, prod_nil]
    ring
  show x.get (unravel x.shape _) = _
  rw [hshape, hravel, unravel_ravel hidx]

theorem dense_rows_view (rows h d : ℕ) (x : Qkv (Tensor α)) :
    Dense rows h d (rows_view rows h d x) := by
  refine ⟨fun i hi => ?_, fun i hi => ?_⟩
  · interval_cases i <;> rfl
  · interval_cases i <;> rfl

theorem launch_rows_view (x : Qkv (Tensor α)) :
    launch_of env.world_size (rows_view (c.batch * c.seq_len) c.heads c.head_size x)
      = c.launch_4d env := by
  have hrow : (fun index => ((rows_view (c.batch * c.seq_len) c.heads c.head_size x).part
      index).strides.getD 0 0) = fun _ => c.heads * c.head_size := by
    funext index
    match index with
    | 0 => rfl
    | 1 => rfl
    | _ + 2 => rfl
  have hhead : (fun index => ((rows_view (c.batch * c.seq_len) c.heads c.head_size x).part
      index).strides.getD 1 0) = fun _ => c.head_size := by
    funext index
    match index with
    | 0 => rfl
    | 1 => rfl
    | _ + 2 => rfl
  unfold launch_of Call.launch_4d
  rw [hrow, hhead]
  rfl

theorem launch_strided (data : ℕ → ℕ → α) :
    launch_of env.world_size (c.strided data) = c.launch_3d env := by
  have hstrides : ∀ index, ((c.strided data).part index).strides = c.strides.part index := by
    intro index
    match index with
    | 0 => rfl
    | 1 => rfl
    | _ + 2 => rfl
  unfold launch_of Call.launch_3d
  simp only [hstrides]
  rfl

theorem packed_source_4d_packedBy (hc : c.WellFormed env) (hw : 2 ≤ env.world_size)
    (hfits : c.batch * c.seq_len * c.heads * c.head_size = 0 ∨ (c.launch_4d env).Fits)
    (x : Qkv (Tensor α)) (m : Memory α) :
    PackedBy env.world_size (c.batch * c.seq_len) (c.heads / env.world_size) c.head_size
      (fun index row n l => ((rows_view (c.batch * c.seq_len) c.heads c.head_size x).part
        index).tensor.get [row, n, l])
      (packed_source_4d env (c.batch * c.seq_len) (c.heads / env.world_size) c.head_size
        (rows_view (c.batch * c.seq_len) c.heads c.head_size x) m).1 := by
  rw [← launch_rows_view x] at hfits
  exact pack_packedBy (dense_rows_view _ _ _ x) hw hc.divides hfits

theorem packed_source_4d_fault (hc : c.WellFormed env) (hw : 2 ≤ env.world_size)
    (hne : c.batch * c.seq_len * c.heads * c.head_size ≠ 0) (hfits : ¬ (c.launch_4d env).Fits)
    (x : Qkv (Tensor α)) {m : Memory α} {a : α} (hm : m.fault = fun _ => a) :
    PackedBy env.world_size (c.batch * c.seq_len) (c.heads / env.world_size) c.head_size
      (fun _ _ _ _ => a)
      (packed_source_4d env (c.batch * c.seq_len) (c.heads / env.world_size) c.head_size
        (rows_view (c.batch * c.seq_len) c.heads c.head_size x) m).1 := by
  rw [← launch_rows_view x] at hfits
  have hpack : (packed_source_4d env (c.batch * c.seq_len) (c.heads / env.world_size) c.head_size
      (rows_view (c.batch * c.seq_len) c.heads c.head_size x) m).1
      = Tensor.of_flat [env.world_size, c.batch * c.seq_len, c.heads / env.world_size,
          3 * c.head_size] (fun _ => a) := by
    rw [← hm, ← fault_staging env .usp_packed_qkv_src [env.world_size, c.batch * c.seq_len,
      c.heads / env.world_size, 3 * c.head_size].prod m]
    exact pack_of_not_fits (dense_rows_view _ _ _ x) hw hc.divides hne hfits
  rw [hpack]
  exact ⟨rfl, fun _ _ _ _ _ _ _ _ _ _ => rfl⟩

theorem shape_strided (data : ℕ → ℕ → α) {i : ℕ} (hi : i < 3) :
    ((c.strided data).part i).shape = [c.seq_len, c.heads, c.head_size] := by
  interval_cases i <;> rfl

theorem part_tensors_of (x : Qkv (Strided α)) (i : ℕ) :
    (tensors_of x).part i = (x.part i).tensor := by
  match i with
  | 0 => rfl
  | 1 => rfl
  | _ + 2 => rfl

theorem dense_strided (hc : c.WellFormed env) (hpacks : packs_3d env c.strides = true)
    (data : ℕ → ℕ → α) : Dense c.seq_len c.heads c.head_size (c.strided data) := by
  unfold packs_3d at hpacks
  simp only [Bool.and_eq_true, beq_iff_eq] at hpacks
  obtain ⟨⟨⟨⟨-, hq⟩, hk⟩, hv⟩, -⟩ := hpacks
  refine ⟨fun i hi => shape_strided data hi, fun i hi => ?_⟩
  have hlast : (c.strides.part i).getD 2 0 = 1 := by
    interval_cases i
    · exact hq.trans (hk.trans hv)
    · exact hk.trans hv
    · exact hv
  have hpart : ((c.strided data).part i).strides = c.strides.part i := by
    interval_cases i <;> rfl
  obtain ⟨x, y, z, hxyz⟩ := length_eq_three.mp (hc.strides_length i hi)
  rw [hpart]
  rw [hxyz] at hlast ⊢
  replace hlast : z = 1 := hlast
  rw [hlast]
  rfl

theorem packed_source_packedBy (hc : c.WellFormed env) (hw : 2 ≤ env.world_size)
    (hfits : packs_3d env c.strides = true →
      c.seq_len * c.heads * c.head_size = 0 ∨ (c.launch_3d env).Fits)
    (data : ℕ → ℕ → α) (m : Memory α) :
    PackedBy env.world_size c.seq_len (c.heads / env.world_size) c.head_size
      (fun index row n l => ((c.strided data).part index).tensor.get [row, n, l])
      (packed_source env c.seq_len (c.heads / env.world_size) c.head_size (c.strided data) m).1 := by
  unfold packed_source
  split
  · rename_i hpacks
    replace hpacks : packs_3d env c.strides = true := hpacks
    replace hfits := hfits hpacks
    rw [← launch_strided data] at hfits
    exact pack_packedBy (dense_strided hc hpacks data) hw hc.divides hfits
  · have hheads : env.world_size * (c.heads / env.world_size) = c.heads :=
      Nat.mul_div_cancel' (Nat.dvd_of_mod_eq_zero hc.divides)
    refine pack_copies_packedBy (fun i hi => ?_) (fun i _ row n l _ _ _ => ?_)
    · rw [part_tensors_of, hheads]
      exact shape_strided data hi
    · rw [part_tensors_of]

theorem packed_source_fault (hc : c.WellFormed env) (hw : 2 ≤ env.world_size)
    (hpacks : packs_3d env c.strides = true) (hne : c.seq_len * c.heads * c.head_size ≠ 0)
    (hfits : ¬ (c.launch_3d env).Fits) (data : ℕ → ℕ → α) {m : Memory α} {a : α}
    (hm : m.fault = fun _ => a) :
    PackedBy env.world_size c.seq_len (c.heads / env.world_size) c.head_size (fun _ _ _ _ => a)
      (packed_source env c.seq_len (c.heads / env.world_size) c.head_size (c.strided data) m).1 := by
  rw [← launch_strided data] at hfits
  have hpack : (packed_source env c.seq_len (c.heads / env.world_size) c.head_size (c.strided data)
      m).1 = Tensor.of_flat [env.world_size, c.seq_len, c.heads / env.world_size, 3 * c.head_size]
        (fun _ => a) := by
    unfold packed_source
    rw [if_pos (show packs_3d env (strides_of (c.strided data)) = true from hpacks), ← hm,
      ← fault_staging env .usp_packed_qkv_src [env.world_size, c.seq_len,
        c.heads / env.world_size, 3 * c.head_size].prod m]
    exact pack_of_not_fits (dense_strided hc hpacks data) hw hc.divides hne hfits
  rw [hpack]
  exact ⟨rfl, fun _ _ _ _ _ _ _ _ _ _ => rfl⟩

end Sources

/-! ## The packed exchanges against three exchanges in a row -/

section Compare

variable {env : Env} {c : Call} {r : ℕ}

theorem headShard_of_rows {X : Whole α} {w s : ℕ} {zs : ℕ → Tensor α} {y : Tensor α}
    (hlens : X.lens = List.replicate w s) (hdiv : X.heads % w = 0)
    (hzs : ∀ g < w, X.SeqShard 2 g (zs g)) (hr : r < w)
    (hy : Tabulates 2 X.batch (X.heads / w) (w * s) X.head_size
      (fun i j k l => (zs (k / s)).get (axes 2 i (r * (X.heads / w) + j) (k % s) l)) y) :
    X.HeadShard 2 r y := by
  obtain ⟨hlength, hsum, hlen⟩ := equal_lens hlens
  unfold Whole.HeadShard
  rw [hlength, hsum]
  refine hy.congr (fun i j k l hi hj hk hl => ?_)
  obtain ⟨hg, ht⟩ := row_bounds hk
  rw [(hzs _ hg).get_eq i _ (k % s) l hi (head_lt hdiv hr hj) (by rw [hlen _ hg]; exact ht) hl,
    hlens, start_replicate_div hk]

theorem qkvShards_4d
    (hshape : ∀ i < 3, ∀ g < env.world_size,
      ((xs g).part i).shape = [c.batch, c.seq_len, c.heads, c.head_size]) :
    QkvShards env c.batch c.seq_len c.heads c.head_size
      (fun i => whole_of_rows 2 c.batch c.heads c.head_size
        (List.replicate env.world_size c.seq_len) (fun g => (xs g).part i)) xs :=
  ⟨fun _ _ => ⟨rfl, rfl, rfl, rfl⟩, fun i hi =>
    rows_shards (length_replicate) (uniform_shape (hshape i hi))⟩

theorem can_use_eq {x : Qkv (Tensor α)} (hc : c.WellFormed env)
    (hshape : ∀ i < 3, (x.part i).shape = [c.batch, c.seq_len, c.heads, c.head_size]) :
    can_use_packed_qkv_a2a_4d env c.contiguous x = c.packs_4d env := by
  have hq : x.q.shape = [c.batch, c.seq_len, c.heads, c.head_size] := hshape 0 (by omega)
  have hk : x.k.shape = [c.batch, c.seq_len, c.heads, c.head_size] := hshape 1 (by omega)
  have hv : x.v.shape = [c.batch, c.seq_len, c.heads, c.head_size] := hshape 2 (by omega)
  unfold can_use_packed_qkv_a2a_4d Call.packs_4d
  rw [hq, hk, hv]
  simp [hc.divides]

theorem packed_4d_headShard (hc : c.WellFormed env) (hw : 2 ≤ env.world_size)
    (hpacks : c.packs_4d env = true)
    (hfits : c.batch * c.seq_len * c.heads * c.head_size = 0 ∨ (c.launch_4d env).Fits)
    (mems : ℕ → Memory α) (hshape : ∀ i < 3, ∀ g < env.world_size,
      ((xs g).part i).shape = [c.batch, c.seq_len, c.heads, c.head_size])
    (hr : r < env.world_size) :
    ∃ hs m', usp_input_all_to_all_qkv env c.contiguous xs r mems = .ok (hs, m') ∧
      ∀ i < 3, (whole_of_rows 2 c.batch c.heads c.head_size
        (List.replicate env.world_size c.seq_len) (fun g => (xs g).part i)).HeadShard 2 r
          (m'.read (hs.part i)) := by
  have helig : can_use_packed_qkv_a2a_4d env c.contiguous (xs r) = true := by
    rw [can_use_eq hc (fun i hi => hshape i hi r hr)]
    exact hpacks
  obtain ⟨hs, m', hok, htab⟩ := packed_4d_result hw (hshape 0 (by omega) r hr) helig
    (fun g _ => packed_source_4d_packedBy hc hw hfits (xs g) (mems g)) hr
  refine ⟨hs, m', hok, fun i hi => ?_⟩
  refine headShard_of_rows rfl hc.divides ((qkvShards_4d hshape).shards i hi) hr ?_
  refine (htab i hi).congr (fun i' j k l hi' hj hk hl => ?_)
  obtain ⟨hg, ht⟩ := row_bounds hk
  have hpart : ∀ (x : Qkv (Tensor α)) (row n l : ℕ),
      ((rows_view (c.batch * c.seq_len) c.heads c.head_size x).part i).tensor.get [row, n, l]
        = (x.part i).flat (row * (c.heads * c.head_size) + (n * c.head_size + l)) := by
    intro x row n l
    interval_cases i
    · show x.q.flat (List.zipWith (· * ·) [row, n, l] [_, _, 1]).sum = x.q.flat _
      simp
    · show x.k.flat (List.zipWith (· * ·) [row, n, l] [_, _, 1]).sum = x.k.flat _
      simp
    · show x.v.flat (List.zipWith (· * ·) [row, n, l] [_, _, 1]).sum = x.v.flat _
      simp
  rw [hpart, flat_rows (hshape i hi _ hg) hi' ht (head_lt hc.divides hr hj) hl]
  rfl

end Compare

section Compare4D

variable {env : Env} {c : Call} {r : ℕ}

variable {b h d s : ℕ}

theorem headShard_sizes {head_dim w : ℕ} {zs : ℕ → Tensor α} {y : Tensor α}
    (hy : (whole_of_rows head_dim b h d (List.replicate w s) zs).HeadShard head_dim r y) :
    Tabulates head_dim b (h / w) (w * s) d (fun i j k l =>
      (whole_of_rows head_dim b h d (List.replicate w s) zs).entry i (r * (h / w) + j) k l) y := by
  have hlens : (List.replicate w s).length = w ∧ (List.replicate w s).sum = w * s :=
    ⟨(equal_lens rfl).1, (equal_lens rfl).2.1⟩
  unfold Whole.HeadShard at hy
  rw [show (whole_of_rows head_dim b h d (List.replicate w s) zs).lens.length = w from hlens.1,
    show (whole_of_rows head_dim b h d (List.replicate w s) zs).lens.sum = w * s from hlens.2] at hy
  exact hy

theorem packed4D_single (hc : c.WellFormed env) (hw : env.world_size ≤ 1) : Packed4D α env c := by
  intro xs mems hshape r hr
  have hr0 : r = 0 := by omega
  subst hr0
  have hxs := qkvShards_4d hshape
  obtain ⟨hs', m'', hsep, hshard⟩ := separate_of_not_recycled hxs hc.divides hr
    (fun hrec => by have := hrec.1; omega) (mems 0)
  refine ⟨(alloc_qkv (mems 0) (xs 0)).1, (alloc_qkv (mems 0) (xs 0)).2, hs', m'', ?_, hsep,
    fun i hi => ?_⟩
  · unfold usp_input_all_to_all_qkv
    rw [if_pos hw]
  · have hone : (List.replicate env.world_size c.seq_len).length = 1 := by
      rw [length_replicate]
      omega
    have hself := (seqShard_iff_headShard hone).mp (hxs.shards i hi 0 hr)
    exact (read_alloc_qkv _ _ hi).trans (hself.same (hshard i hi))

theorem packed4D_of_sound (hc : c.WellFormed env) (hw : 2 ≤ env.world_size)
    (hsound : c.packs_4d env = true → ¬ Recycled env c.batch c.seq_len c.heads c.head_size ∧
      (c.batch * c.seq_len * c.heads * c.head_size = 0 ∨ (c.launch_4d env).Fits)) :
    Packed4D α env c := by
  intro xs mems hshape r hr
  have hxs := qkvShards_4d hshape
  by_cases hpacks : c.packs_4d env = true
  · obtain ⟨hnot, hfits⟩ := hsound hpacks
    obtain ⟨hs, m', hok, hshard⟩ := packed_4d_headShard hc hw hpacks hfits mems hshape hr
    obtain ⟨hs', m'', hsep, hshard'⟩ := separate_of_not_recycled hxs hc.divides hr hnot (mems r)
    exact ⟨hs, m', hs', m'', hok, hsep, fun i hi => (hshard i hi).same (hshard' i hi)⟩
  · -- the fallback is the three exchanges themselves
    obtain ⟨out, hsep⟩ : ∃ out, separate env xs r (mems r) = .ok out := by
      by_cases hrec : Recycled env c.batch c.seq_len c.heads c.head_size
      · obtain ⟨hs, m', hsep, -⟩ := separate_of_recycled hxs hc.divides hr hrec (mems r)
        exact ⟨_, hsep⟩
      · obtain ⟨hs, m', hsep, -⟩ := separate_of_not_recycled hxs hc.divides hr hrec (mems r)
        exact ⟨_, hsep⟩
    refine ⟨out.1, out.2, out.1, out.2, ?_, hsep, fun i _ => Tensor.Same.refl _⟩
    unfold usp_input_all_to_all_qkv
    rw [if_neg (by omega), if_pos (by
      rw [can_use_eq hc (fun i hi => hshape i hi r hr)]
      simpa using hpacks)]
    exact hsep

def blank_memory (a fault : α) : Memory α where
  next := 0
  cells _ _ := a
  cache _ := none
  stale _ := a
  fault _ := fault
  cache_lt _ storage numel h := by cases h

/-- Operands with one value each. -/
def constant_qkv (shape : List ℕ) (p : ℕ → α) : Qkv (Tensor α) :=
  ⟨⟨shape, fun _ => p 0⟩, ⟨shape, fun _ => p 1⟩, ⟨shape, fun _ => p 2⟩⟩

theorem shape_constant_qkv (shape : List ℕ) (p : ℕ → α) (i : ℕ) :
    ((constant_qkv shape p).part i).shape = shape := by
  match i with
  | 0 => rfl
  | 1 => rfl
  | _ + 2 => rfl

theorem entry_exists {w : ℕ} (hw : 0 < w) (hdiv : h % w = 0) (hne : b * s * h * d ≠ 0) :
    0 < b ∧ 0 < h / w ∧ 0 < w * s ∧ 0 < d := by
  have hb : 0 < b := Nat.pos_of_ne_zero (fun h0 => hne (by rw [h0]; ring))
  have hs : 0 < s := Nat.pos_of_ne_zero (fun h0 => hne (by rw [h0]; ring))
  have hh : 0 < h := Nat.pos_of_ne_zero (fun h0 => hne (by rw [h0]; ring))
  have hd : 0 < d := Nat.pos_of_ne_zero (fun h0 => hne (by rw [h0]; ring))
  have hle : w ≤ h := Nat.le_of_dvd hh (Nat.dvd_of_mod_eq_zero hdiv)
  exact ⟨hb, Nat.div_pos hle hw, Nat.mul_pos hw hs, hd⟩

theorem separate_constant {X : ℕ → Whole α} {p : ℕ → α}
    (hxs : QkvShards env b s h d X xs) (hdiv : h % env.world_size = 0) (hne : b * s * h * d ≠ 0)
    (hX : ∀ i < 3, ∀ i' n t l, (X i).entry i' n t l = p i) (hr : r < env.world_size) (m : Memory α)
    : ∃ hs m', separate env xs r m = .ok (hs, m') ∧
      (m'.read (hs.part 0)).get [0, 0, 0, 0] = if Recycled env b s h d then p 2 else p 0 := by
  obtain ⟨hb, hl, hk, hd⟩ := entry_exists (by omega) hdiv hne
  have hfirst : ∀ i < 3, ∀ y, (X i).HeadShard 2 r y → y.get [0, 0, 0, 0] = p i := by
    intro i hi y hy
    obtain ⟨hb', hh', hd', hlens⟩ := hxs.sizes i hi
    obtain ⟨hlength, hsum, -⟩ := equal_lens hlens
    have hget := hy.get_eq 0 0 0 0 (by rw [hb']; exact hb) (by rw [hh', hlength]; exact hl)
      (by rw [hsum]; exact hk) (by rw [hd']; exact hd)
    rw [hX i hi] at hget
    exact hget
  by_cases hrec : Recycled env b s h d
  · obtain ⟨hs, m', hsep, hshard⟩ := separate_of_recycled hxs hdiv hr hrec m
    refine ⟨hs, m', hsep, ?_⟩
    rw [if_pos hrec]
    exact hfirst 2 (by omega) _ (hshard 0 (by omega))
  · obtain ⟨hs, m', hsep, hshard⟩ := separate_of_not_recycled hxs hdiv hr hrec m
    refine ⟨hs, m', hsep, ?_⟩
    rw [if_neg hrec]
    exact hfirst 0 (by omega) _ (hshard 0 (by omega))

theorem first_entry_eq {x y : Tensor α} (hx : x.shape = axes 2 b h s d) (hb : 0 < b) (hh : 0 < h)
    (hs : 0 < s) (hd : 0 < d) (hxy : Tensor.Same x y) :
    x.get [0, 0, 0, 0] = y.get [0, 0, 0, 0] := by
  refine hxy.get_eq _ ?_
  rw [hx]
  show InBounds (axes 2 0 0 0 0) (axes 2 b h s d)
  exact inBounds_axes.mpr ⟨hb, hh, hs, hd⟩

theorem entry_constant {lens shape : List ℕ} (p : ℕ → α) :
    ∀ i < 3, ∀ i' n t l, (whole_of_rows 2 b h d lens
      (fun _ : ℕ => (constant_qkv shape p).part i)).entry i' n t l = p i := by
  intro i hi i' n t l
  interval_cases i <;> rfl

/-- **The packed 4D exchange agrees with three exchanges exactly when nothing overflows and
nothing is recycled.** -/
theorem packed4D_iff [Nontrivial α] (hc : c.WellFormed env) (hw : 2 ≤ env.world_size) :
    Packed4D α env c ↔ (c.packs_4d env = true →
      ¬ Recycled env c.batch c.seq_len c.heads c.head_size ∧
      (c.batch * c.seq_len * c.heads * c.head_size = 0 ∨ (c.launch_4d env).Fits)) := by
  refine ⟨fun hagree hpacks => ?_, packed4D_of_sound hc hw⟩
  obtain ⟨a, a', haa⟩ := exists_pair_ne α
  have hr : 0 < env.world_size := by omega
  have hshape : ∀ p : ℕ → α, ∀ i < 3, ∀ g < env.world_size,
      ((constant_qkv [c.batch, c.seq_len, c.heads, c.head_size] p).part i).shape
        = [c.batch, c.seq_len, c.heads, c.head_size] := fun p i _ _ _ => shape_constant_qkv _ p i
  have hfits : c.batch * c.seq_len * c.heads * c.head_size = 0 ∨ (c.launch_4d env).Fits := by
    by_contra hnot
    rw [not_or] at hnot
    obtain ⟨hne, hfits⟩ := hnot
    -- equal operands, and another value in the buffer of the faulted launch
    obtain ⟨hs, m', hs', m'', hok, hsep, hsame⟩ := hagree
      (fun _ => constant_qkv [c.batch, c.seq_len, c.heads, c.head_size] (fun _ => a))
      (fun _ => blank_memory a a') (hshape _) 0 hr
    obtain ⟨hs₁, m₁, hok₁, htab⟩ := packed_4d_result hw (hshape (fun _ => a) 0 (by omega) 0 hr)
      (by rw [can_use_eq hc (fun i hi => hshape (fun _ => a) i hi 0 hr)]; exact hpacks)
      (fun g _ => packed_source_4d_fault (m := blank_memory a a') hc hw hne hfits
        (constant_qkv [c.batch, c.seq_len, c.heads, c.head_size] (fun _ => a)) rfl) hr
    obtain ⟨hs₂, m₂, hsep₂, hget₂⟩ := separate_constant (qkvShards_4d (hshape (fun _ => a)))
      hc.divides hne (entry_constant (fun _ => a)) hr (blank_memory a a')
    obtain ⟨hb, hl, hk, hd⟩ := entry_exists (by omega) hc.divides hne
    cases hok.symm.trans hok₁
    cases hsep.symm.trans hsep₂
    have hget₁ := (htab 0 (by omega)).get_eq 0 0 0 0 hb hl hk hd
    have heq := first_entry_eq (htab 0 (by omega)).shape_eq hb hl hk hd (hsame 0 (by omega))
    rw [ite_self] at hget₂
    exact haa (hget₂.symm.trans (heq.symm.trans hget₁))
  refine ⟨fun hrec => ?_, hfits⟩
  have hne := hrec.2.2.2.1
  -- the value operand differs from the query
  obtain ⟨hs, m', hs', m'', hok, hsep, hsame⟩ := hagree
    (fun _ => constant_qkv [c.batch, c.seq_len, c.heads, c.head_size]
      (fun i => if i = 2 then a' else a)) (fun _ => blank_memory a a) (hshape _) 0 hr
  obtain ⟨hs₁, m₁, hok₁, hshard⟩ := packed_4d_headShard hc hw hpacks hfits
    (fun _ => blank_memory a a) (hshape (fun i => if i = 2 then a' else a)) hr
  obtain ⟨hs₂, m₂, hsep₂, hget₂⟩ := separate_constant
    (qkvShards_4d (hshape (fun i => if i = 2 then a' else a))) hc.divides hne
    (entry_constant (fun i => if i = 2 then a' else a)) hr (blank_memory a a)
  obtain ⟨hb, hl, hk, hd⟩ := entry_exists (by omega) hc.divides hne
  cases hok.symm.trans hok₁
  cases hsep.symm.trans hsep₂
  have hq := headShard_sizes (hshard 0 (by omega))
  have hget₁ := hq.get_eq 0 0 0 0 hb hl hk hd
  have heq := first_entry_eq hq.shape_eq hb hl hk hd (hsame 0 (by omega))
  rw [if_pos hrec] at hget₂
  exact haa (hget₁.symm.trans (heq.trans hget₂))

end Compare4D

section Compare3D

variable {env : Env} {c : Call} {r : ℕ}

theorem part_unsqueeze (data : ℕ → ℕ → α) {i : ℕ} (hi : i < 3) :
    (unsqueeze (c.strided data)).part i = ((c.strided data).part i).tensor.reshape
      [1, c.seq_len, c.heads, c.head_size] := by
  interval_cases i <;> rfl

theorem qkvShards_3d (env : Env) (c : Call) (data : ℕ → ℕ → ℕ → α) :
    QkvShards env 1 c.seq_len c.heads c.head_size
      (fun i => whole_of_rows 2 1 c.heads c.head_size (List.replicate env.world_size c.seq_len)
        (fun g => (unsqueeze (c.strided (data g))).part i))
      (fun g => unsqueeze (c.strided (data g))) := by
  refine ⟨fun _ _ => ⟨rfl, rfl, rfl, rfl⟩, fun i hi => ?_⟩
  refine rows_shards (length_replicate) (uniform_shape (fun g _ => ?_))
  rw [part_unsqueeze (data g) hi]
  rfl

theorem same_select {w s hl d : ℕ} {y z : Tensor α} {f : ℕ → ℕ → ℕ → ℕ → α}
    (hshape : y.shape = [w * s, hl, d])
    (hget : ∀ k j l, k < w * s → j < hl → l < d → y.get [k, j, l] = f 0 j k l)
    (hz : Tabulates 2 1 hl (w * s) d f z) : Tensor.Same y (z.select 0) := by
  refine ⟨?_, fun idx hidx => ?_⟩
  · rw [hshape, Tensor.shape_select hz.shape_eq]
  · rw [hshape] at hidx
    obtain ⟨k, rest, rfl, hk, hrest⟩ := hidx.cases_cons
    obtain ⟨j, rest, rfl, hj, hrest⟩ := hrest.cases_cons
    obtain ⟨l, rest, rfl, hl', hrest⟩ := hrest.cases_cons
    rw [inBounds_nil_iff] at hrest
    subst hrest
    rw [hget k j l hk hj hl']
    exact (hz.get_eq 0 j k l Nat.one_pos hj hk hl').symm

theorem packed3D_single (hc : c.WellFormed env) (hw : env.world_size ≤ 1) : Packed3D α env c := by
  intro data mems r hr
  have hr0 : r = 0 := by omega
  have hone : env.world_size = 1 := by omega
  subst hr0
  obtain ⟨hs', m'', hsep, hshard⟩ := separate_of_not_recycled (qkvShards_3d env c data) hc.divides hr
    (fun hrec => by have := hrec.1; omega) (mems 0)
  refine ⟨(alloc_qkv (mems 0) (tensors_of (c.strided (data 0)))).1,
    (alloc_qkv (mems 0) (tensors_of (c.strided (data 0)))).2, hs', m'', ?_, hsep, fun i hi => ?_⟩
  · unfold usp_input_all_to_all_packed_qkv
    rw [if_pos hw]
  · have hlen : (List.replicate env.world_size c.seq_len).length = 1 := by
      rw [length_replicate, hone]
    have hself := (seqShard_iff_headShard hlen).mp
      ((qkvShards_3d env c data).shards i hi 0 hr)
    have hsame := hself.same (hshard i hi)
    refine (read_alloc_qkv _ _ hi).trans ⟨?_, fun idx hidx => ?_⟩
    · rw [part_tensors_of, Tensor.shape_select (hsame.shape_eq.symm.trans (by
        rw [part_unsqueeze (data 0) hi]; rfl))]
      exact shape_strided (data 0) hi
    · rw [part_tensors_of] at hidx ⊢
      replace hidx : InBounds idx [c.seq_len, c.heads, c.head_size] := by
        rw [← shape_strided (data 0) hi]
        exact hidx
      have hget := hsame.get_eq (0 :: idx) (by
        rw [part_unsqueeze (data 0) hi]
        exact inBounds_cons.mpr ⟨Nat.one_pos, hidx⟩)
      rw [part_unsqueeze (data 0) hi, Tensor.get_reshape_unit (shape_strided (data 0) hi) hidx]
        at hget
      exact hget

theorem entry_constant_3d {lens : List ℕ} (p : ℕ → α) :
    ∀ i < 3, ∀ i' n t l, (whole_of_rows 2 1 c.heads c.head_size lens
      (fun _ : ℕ => (unsqueeze (c.strided (fun index _ => p index))).part i)).entry i' n t l
        = p i := by
  intro i hi i' n t l
  interval_cases i <;> rfl

theorem first_entry_select {h s d : ℕ} {x y : Tensor α} (hx : x.shape = [s, h, d]) (hs : 0 < s)
    (hh : 0 < h) (hd : 0 < d) (hxy : Tensor.Same x (y.select 0)) :
    x.get [0, 0, 0] = y.get [0, 0, 0, 0] := by
  refine hxy.get_eq _ ?_
  rw [hx]
  simp only [inBounds_cons, inBounds_nil_iff]
  exact ⟨hs, hh, hd, trivial⟩

theorem packed_3d_entries (hc : c.WellFormed env) (hw : 2 ≤ env.world_size)
    (hfits : packs_3d env c.strides = true →
      c.seq_len * c.heads * c.head_size = 0 ∨ (c.launch_3d env).Fits)
    (data : ℕ → ℕ → ℕ → α) (mems : ℕ → Memory α) (hr : r < env.world_size) :
    ∃ hs m', usp_input_all_to_all_packed_qkv env (fun g => c.strided (data g)) r mems
        = .ok (hs, m') ∧ ∀ i < 3, (m'.read (hs.part i)).shape
          = [env.world_size * c.seq_len, c.heads / env.world_size, c.head_size] ∧
        ∀ k j l, k < env.world_size * c.seq_len → j < c.heads / env.world_size →
          l < c.head_size → (m'.read (hs.part i)).get [k, j, l]
            = (whole_of_rows 2 1 c.heads c.head_size (List.replicate env.world_size c.seq_len)
                (fun g => (unsqueeze (c.strided (data g))).part i)).entry 0
                  (r * (c.heads / env.world_size) + j) k l := by
  obtain ⟨hs, m', hok, hres⟩ := packed_3d_result hw (fun i hi => shape_strided (data r) hi) hc.divides
    (fun g _ => packed_source_packedBy hc hw hfits (data g) (mems g)) hr
  refine ⟨hs, m', hok, fun i hi => ⟨(hres i hi).1, fun k j l hk hj hl => ?_⟩⟩
  obtain ⟨hg, ht⟩ := row_bounds hk
  have hhead := head_lt hc.divides hr hj
  have hshard := (qkvShards_3d env c data).shards i hi (k / c.seq_len) hg
  have hlen : (List.replicate env.world_size c.seq_len).getD (k / c.seq_len) 0 = c.seq_len :=
    (equal_lens rfl).2.2 _ hg
  have hentry := hshard.get_eq 0 (r * (c.heads / env.world_size) + j) (k % c.seq_len) l Nat.one_pos
    hhead (by show _ < (List.replicate _ _).getD _ 0; rw [hlen]; exact ht) hl
  have hstart : start (List.replicate env.world_size c.seq_len) (k / c.seq_len)
      + k % c.seq_len = k := start_replicate_div hk
  replace hentry : _ = (whole_of_rows 2 1 c.heads c.head_size
    (List.replicate env.world_size c.seq_len) _).entry 0 _
      (start (List.replicate env.world_size c.seq_len) (k / c.seq_len) + k % c.seq_len) l := hentry
  rw [hstart, part_unsqueeze (data (k / c.seq_len)) hi] at hentry
  rw [(hres i hi).2 k j l hk hj hl, ← hentry]
  refine (Tensor.get_reshape_unit (shape_strided (data (k / c.seq_len)) hi) ?_).symm
  simp only [inBounds_cons, inBounds_nil_iff]
  exact ⟨ht, hhead, hl, trivial⟩

/-- **The packed 3D exchange agrees with three exchanges exactly when nothing overflows and
nothing is recycled.** -/
theorem packed3D_iff [Nontrivial α] (hc : c.WellFormed env) (hw : 2 ≤ env.world_size) :
    Packed3D α env c ↔ ¬ Recycled env 1 c.seq_len c.heads c.head_size ∧
      (packs_3d env c.strides = true →
        c.seq_len * c.heads * c.head_size = 0 ∨ (c.launch_3d env).Fits) := by
  refine ⟨fun hagree => ?_, fun ⟨hnot, hfits⟩ data mems r hr => ?_⟩
  · obtain ⟨a, a', haa⟩ := exists_pair_ne α
    have hr : 0 < env.world_size := by omega
    have hfits : packs_3d env c.strides = true →
        c.seq_len * c.heads * c.head_size = 0 ∨ (c.launch_3d env).Fits := by
      intro hpacks
      by_contra hnot
      rw [not_or] at hnot
      obtain ⟨hne, hfits⟩ := hnot
      have hne' : 1 * c.seq_len * c.heads * c.head_size ≠ 0 := by rwa [Nat.one_mul]
      obtain ⟨-, hl, hk, hd⟩ := entry_exists hr hc.divides hne'
      -- equal operands, and another value in the buffer of the faulted launch
      obtain ⟨hs, m', hs', m'', hok, hsep, hsame⟩ := hagree (fun _ _ _ => a)
        (fun _ => blank_memory a a') 0 hr
      obtain ⟨hs₁, m₁, hok₁, hres⟩ := packed_3d_result hw
        (fun i hi => shape_strided (c := c) (fun _ _ => a) hi) hc.divides
        (fun g _ => packed_source_fault (m := blank_memory a a') hc hw hpacks hne hfits
          (fun _ _ => a) rfl) hr
      obtain ⟨hs₂, m₂, hsep₂, hget₂⟩ := separate_constant (p := fun _ => a)
        (qkvShards_3d env c (fun _ _ _ => a)) hc.divides hne'
        (entry_constant_3d (fun _ => a)) hr (blank_memory a a')
      cases hok.symm.trans hok₁
      cases hsep.symm.trans hsep₂
      have hget₁ := (hres 0 (by omega)).2 0 0 0 hk hl hd
      have heq := first_entry_select (hres 0 (by omega)).1 hk hl hd (hsame 0 (by omega))
      rw [ite_self] at hget₂
      exact haa (hget₂.symm.trans (heq.symm.trans hget₁))
    refine ⟨fun hrec => ?_, hfits⟩
    have hne := hrec.2.2.2.1
    obtain ⟨-, hl, hk, hd⟩ := entry_exists hr hc.divides hne
    -- the value operand differs from the query
    obtain ⟨hs, m', hs', m'', hok, hsep, hsame⟩ := hagree
      (fun _ i _ => if i = 2 then a' else a) (fun _ => blank_memory a a) 0 hr
    obtain ⟨hs₁, m₁, hok₁, hres⟩ := packed_3d_entries hc hw hfits
      (fun _ i _ => if i = 2 then a' else a) (fun _ => blank_memory a a) hr
    obtain ⟨hs₂, m₂, hsep₂, hget₂⟩ := separate_constant (p := fun i => if i = 2 then a' else a)
      (qkvShards_3d env c (fun _ i _ => if i = 2 then a' else a)) hc.divides hne
      (entry_constant_3d (fun i => if i = 2 then a' else a)) hr (blank_memory a a)
    cases hok.symm.trans hok₁
    cases hsep.symm.trans hsep₂
    have hget₁ := (hres 0 (by omega)).2 0 0 0 hk hl hd
    have heq := first_entry_select (hres 0 (by omega)).1 hk hl hd (hsame 0 (by omega))
    rw [if_pos hrec] at hget₂
    exact haa (hget₁.symm.trans (heq.trans hget₂))
  · obtain ⟨hs, m', hok, hres⟩ := packed_3d_entries hc hw hfits data mems hr
    obtain ⟨hs', m'', hsep, hshard⟩ := separate_of_not_recycled (qkvShards_3d env c data)
      hc.divides hr hnot (mems r)
    exact ⟨hs, m', hs', m'', hok, hsep, fun i hi =>
      same_select (hres i hi).1 (hres i hi).2 (headShard_sizes (hshard i hi))⟩

end Compare3D

/-! ## The result -/

section Result

variable {env : Env} {c : Call}

theorem sound_packed [Nontrivial α] (hc : c.WellFormed env) :
    (Packed3D α env c ∧ Packed4D α env c) ↔ c.Sound env := by
  rcases Nat.lt_or_ge 1 env.world_size with hw | hw
  · rw [packed3D_iff hc hw, packed4D_iff hc hw]
    exact ⟨.inr, fun h => h.resolve_left (by omega)⟩
  · exact ⟨fun _ => .inl hw, fun _ => ⟨packed3D_single hc hw, packed4D_single hc hw⟩⟩

/-- **When the exchanges are lossless.** For every group, sizes and tensors, the round trip
restores each rank's tensor, the variable-length pair is inverse and equals the uniform one, and
the two-rank path returns what the collective returns; the packed exchange returns what three
exchanges in a row return exactly when no staging buffer is recycled under a result and no
address of a packing launch leaves the 32 bits. -/
theorem exchange_lossless_iff [Nontrivial α] (hc : c.WellFormed env) :
    Lossless α env c ↔ c.Sound env := by
  refine Iff.trans ?_ (sound_packed (α := α) hc)
  refine ⟨fun h => ⟨h.packed_3d, h.packed_4d⟩, fun h => ?_⟩
  exact {
    round_trip := roundTrip hc
    varlen_inverse := varlenInverse hc
    varlen_uniform := varlenUniform hc
    ipc_uniform := ipcUniform hc
    ipc_varlen := ipcVarlen hc
    ipc_qkv := ipcQkv hc
    packed_3d := h.1
    packed_4d := h.2 }

/-- Two ranks on CUDA in eager inference, in a half type, without the two-rank transport. -/
def eager_pair : Env where
  world_size := 2
  is_cuda := true
  half := true
  merge_kernel := true
  compiling := false
  grad_enabled := false
  capturing := false
  ipc := false

/-- Dense operands of four rows with the given heads. -/
def dense_call (heads : ℕ) : Call where
  batch := 1
  seq_len := 4
  heads := heads
  head_size := 8
  lens := [3, 5]
  txt_len := 2
  img_len := 3
  contiguous := true
  strides := ⟨[heads * 8, 8, 1], [heads * 8, 8, 1], [heads * 8, 8, 1]⟩

theorem dense_call_wellFormed {heads : ℕ} (h : heads % 2 = 0) :
    (dense_call heads).WellFormed eager_pair where
  ranks := Nat.two_pos
  divides := h
  lens_length := rfl
  strides_length i hi := by
    interval_cases i <;> rfl

/-- Four heads on two ranks. -/
theorem exchange_lossless_four_heads : Lossless Bool eager_pair (dense_call 4) :=
  (exchange_lossless_iff (dense_call_wellFormed rfl)).mpr (by decide)

/-- One head on each of two ranks: the results of three exchanges are one buffer. -/
theorem exchange_not_lossless_two_heads :
    ¬ ∀ (env : Env) (c : Call), c.WellFormed env → Lossless Bool env c := by
  intro h
  have hc : (dense_call 2).WellFormed eager_pair := dense_call_wellFormed rfl
  have hsound := (sound_packed (α := Bool) hc).mp ⟨(h _ _ hc).packed_3d, (h _ _ hc).packed_4d⟩
  exact absurd hsound (by decide)

end Result

end LightningH3.Ulysses
