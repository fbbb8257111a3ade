/-
What it means that the Ulysses exchanges are lossless and that their fast paths agree, and the
paths that agree always.
-/
import LightningH3.UlyssesRecycle

set_option autoImplicit false

namespace LightningH3.Ulysses

open Segments Tensors List

variable {α : Type}

/-! ## The properties -/

/-- The sizes of the operands of a group, and how they lie in memory. -/
structure Call where
  batch : ℕ
  seq_len : ℕ
  heads : ℕ
  head_size : ℕ
  /-- the rows of each rank, for the variable-length exchanges -/
  lens : List ℕ
  /-- the rows of the text and image segments of a rank -/
  txt_len : ℕ
  img_len : ℕ
  /-- the 4D operands are contiguous -/
  contiguous : Bool
  /-- the strides of the 3D operands -/
  strides : Qkv (List ℕ)

/-- A group of ranks whose number divides the heads, with a length for each rank. -/
structure Call.WellFormed (c : Call) (env : Env) : Prop where
  ranks : 0 < env.world_size
  divides : c.heads % env.world_size = 0
  lens_length : c.lens.length = env.world_size
  strides_length : ∀ i < 3, (c.strides.part i).length = 3

section Properties

variable (α) (env : Env) (c : Call)

/-- The output exchange on every rank after the input exchange on every rank. -/
def RoundTrip : Prop :=
  ∀ head_dim, head_dim = 1 ∨ head_dim = 2 → ∀ (xs : ℕ → Tensor α) (mems : ℕ → Memory α),
    (∀ g < env.world_size, (xs g).shape = axes head_dim c.batch c.heads c.seq_len c.head_size) →
    ∃ (ys : ℕ → Tensor α) (mems' : ℕ → Memory α),
      (∀ g < env.world_size, ∃ out, usp_input_all_to_all env head_dim xs g (mems g)
        = .ok (out, mems' g) ∧ ys g = (mems' g).read out) ∧
      ∀ r < env.world_size, ∃ out m', usp_output_all_to_all env head_dim ys r (mems' r)
        = .ok (out, m') ∧ Tensor.Same (m'.read out) (xs r)

/-- The variable-length exchanges undo each other, in both orders. -/
def VarlenInverse : Prop :=
  ∀ head_dim, head_dim = 1 ∨ head_dim = 2 → ∀ (zs : ℕ → Tensor α) (stale : ℕ → ℕ → α),
    ((∀ g < env.world_size,
        (zs g).shape = axes head_dim c.batch c.heads (c.lens.getD g 0) c.head_size) →
      ∃ ys : ℕ → Tensor α, (∀ g < env.world_size,
          usp_input_all_to_all_varlen env head_dim c.lens zs g (stale g) = .ok (ys g)) ∧
        ∀ r < env.world_size, ∃ x, usp_output_all_to_all_varlen env head_dim c.lens ys r (stale r)
          = .ok x ∧ Tensor.Same x (zs r)) ∧
    ((∀ g < env.world_size, (zs g).shape
        = axes head_dim c.batch (c.heads / env.world_size) c.lens.sum c.head_size) →
      ∃ xs : ℕ → Tensor α, (∀ g < env.world_size,
          usp_output_all_to_all_varlen env head_dim c.lens zs g (stale g) = .ok (xs g)) ∧
        ∀ r < env.world_size, ∃ y, usp_input_all_to_all_varlen env head_dim c.lens xs r (stale r)
          = .ok y ∧ Tensor.Same y (zs r))

/-- With equal lengths the variable-length exchanges are the uniform ones. -/
def VarlenUniform : Prop :=
  ∀ head_dim, head_dim = 1 ∨ head_dim = 2 → ∀ (zs : ℕ → Tensor α) (stale : ℕ → α) (m : Memory α),
    ∀ r < env.world_size,
    ((∀ g < env.world_size, (zs g).shape = axes head_dim c.batch c.heads c.seq_len c.head_size) →
      ∃ y out m', usp_input_all_to_all_varlen env head_dim
          (List.replicate env.world_size c.seq_len) zs r stale = .ok y ∧
        usp_input_all_to_all env head_dim zs r m = .ok (out, m') ∧ Tensor.Same y (m'.read out)) ∧
    ((∀ g < env.world_size, (zs g).shape = axes head_dim c.batch (c.heads / env.world_size)
        (env.world_size * c.seq_len) c.head_size) →
      ∃ x out m', usp_output_all_to_all_varlen env head_dim
          (List.replicate env.world_size c.seq_len) zs r stale = .ok x ∧
        usp_output_all_to_all env head_dim zs r m = .ok (out, m') ∧ Tensor.Same x (m'.read out))

/-- The two-rank path of the uniform exchanges. -/
def IpcUniform : Prop :=
  ∀ head_dim, head_dim = 1 ∨ head_dim = 2 → ∀ (zs : ℕ → Tensor α) (m : Memory α),
    ∀ r < env.world_size,
    ((∀ g < env.world_size, (zs g).shape = axes head_dim c.batch c.heads c.seq_len c.head_size) →
      ∃ out m' out' m'',
        usp_input_all_to_all { env with ipc := true } head_dim zs r m = .ok (out, m') ∧
        usp_input_all_to_all { env with ipc := false } head_dim zs r m = .ok (out', m'') ∧
        Tensor.Same (m'.read out) (m''.read out')) ∧
    ((∀ g < env.world_size, (zs g).shape = axes head_dim c.batch (c.heads / env.world_size)
        (env.world_size * c.seq_len) c.head_size) → ∃ out m' out' m'',
        usp_output_all_to_all { env with ipc := true } head_dim zs r m = .ok (out, m') ∧
        usp_output_all_to_all { env with ipc := false } head_dim zs r m = .ok (out', m'') ∧
        Tensor.Same (m'.read out) (m''.read out'))

/-- The two-rank path of the variable-length exchanges. -/
def IpcVarlen : Prop :=
  ∀ head_dim, head_dim = 1 ∨ head_dim = 2 → ∀ (zs : ℕ → Tensor α) (stale : ℕ → α),
    ∀ r < env.world_size,
    ((∀ g < env.world_size,
        (zs g).shape = axes head_dim c.batch c.heads (c.lens.getD g 0) c.head_size) →
      ∃ y y', usp_input_all_to_all_varlen { env with ipc := true } head_dim c.lens zs r stale
          = .ok y ∧ usp_input_all_to_all_varlen { env with ipc := false } head_dim c.lens zs r stale
          = .ok y' ∧ Tensor.Same y y') ∧
    ((∀ g < env.world_size, (zs g).shape
        = axes head_dim c.batch (c.heads / env.world_size) c.lens.sum c.head_size) →
      ∃ x x', usp_output_all_to_all_varlen { env with ipc := true } head_dim c.lens zs r stale
          = .ok x ∧
        usp_output_all_to_all_varlen { env with ipc := false } head_dim c.lens zs r stale
          = .ok x' ∧ Tensor.Same x x')

/-- The two-rank exchange of three operands, and of their text and image segments, against one
collective for each operand. -/
def IpcQkv : Prop :=
  env.world_size = 2 → ∀ r < 2, ∀ (stale : ℕ → α) (m : Memory α),
    (∀ xs : ℕ → Qkv (Tensor α),
      (∀ i < 3, ∀ g < 2, ((xs g).part i).shape = [c.batch, c.seq_len, c.heads, c.head_size]) →
      ∃ y, ipc_input_a2a_qkv { env with ipc := true } xs r stale = .ok (some y) ∧
        ∀ i < 3, ∃ out m', usp_input_all_to_all { env with ipc := false } 2
          (fun g => (xs g).part i) r m = .ok (out, m') ∧ Tensor.Same (y.part i) (m'.read out)) ∧
    (∀ (xs : ℕ → Qkv (Joint (Tensor α))) (pads : ℕ → ℕ), (∀ i < 3, ∀ g < 2,
        ((xs g).part i).txt.shape = [c.batch, c.txt_len, c.heads, c.head_size] ∧
        ((xs g).part i).img.shape = [c.batch, c.img_len, c.heads, c.head_size]) →
      (∀ g < 2, pads g ≤ c.txt_len) →
      ∃ y, ipc_input_a2a_qkv_segmented { env with ipc := true } xs pads r stale = .ok (some y) ∧
        ∀ i < 3, ∃ out m', usp_input_all_to_all { env with ipc := false } 2
          (fun g => join_seqs ((xs g).part i) (pads g)) r m = .ok (out, m')
            ∧ Tensor.Same (y.part i) (m'.read out))

/-- 3D operands with the strides of a call. -/
def Call.strided {α : Type} (c : Call) (data : ℕ → ℕ → α) : Qkv (Strided α) :=
  ⟨⟨[c.seq_len, c.heads, c.head_size], c.strides.q, data 0⟩,
    ⟨[c.seq_len, c.heads, c.head_size], c.strides.k, data 1⟩,
    ⟨[c.seq_len, c.heads, c.head_size], c.strides.v, data 2⟩⟩

/-- `q[None]` of 3D operands. -/
def unsqueeze {α : Type} (x : Qkv (Strided α)) : Qkv (Tensor α) :=
  ⟨x.q.tensor.reshape (1 :: x.q.shape), x.k.tensor.reshape (1 :: x.k.shape),
    x.v.tensor.reshape (1 :: x.v.shape)⟩

/-- The packed 3D exchange against three exchanges in a row. -/
def Packed3D : Prop :=
  ∀ (data : ℕ → ℕ → ℕ → α) (mems : ℕ → Memory α), ∀ r < env.world_size,
    ∃ hs m' hs' m'',
      usp_input_all_to_all_packed_qkv env (fun g => c.strided (data g)) r mems = .ok (hs, m') ∧
      separate env (fun g => unsqueeze (c.strided (data g))) r (mems r) = .ok (hs', m'') ∧
      ∀ i < 3, Tensor.Same (m'.read (hs.part i)) ((m''.read (hs'.part i)).select 0)

/-- The packed 4D exchange against three exchanges in a row. -/
def Packed4D : Prop :=
  ∀ (xs : ℕ → Qkv (Tensor α)) (mems : ℕ → Memory α),
    (∀ i < 3, ∀ g < env.world_size,
      ((xs g).part i).shape = [c.batch, c.seq_len, c.heads, c.head_size]) →
    ∀ r < env.world_size, ∃ hs m' hs' m'',
      usp_input_all_to_all_qkv env c.contiguous xs r mems = .ok (hs, m') ∧
      separate env xs r (mems r) = .ok (hs', m'') ∧
      ∀ i < 3, Tensor.Same (m'.read (hs.part i)) (m''.read (hs'.part i))

/-- The exchanges are lossless and their fast paths agree with the plain one. -/
structure Lossless : Prop where
  round_trip : RoundTrip α env c
  varlen_inverse : VarlenInverse α env c
  varlen_uniform : VarlenUniform α env c
  ipc_uniform : IpcUniform α env c
  ipc_varlen : IpcVarlen α env c
  ipc_qkv : IpcQkv α env c
  packed_3d : Packed3D α env c
  packed_4d : Packed4D α env c

end Properties

/-! ## When they are -/

namespace Call

/-- The kernel launch of the 3D exchange. -/
def launch_3d (c : Call) (env : Env) : Launch where
  world_size := env.world_size
  rows := c.seq_len
  heads := c.heads
  head_size := c.head_size
  stride_row index := (c.strides.part index).getD 0 0
  stride_head index := (c.strides.part index).getD 1 0

/-- The kernel launch of the 4D exchange. -/
def launch_4d (c : Call) (env : Env) : Launch where
  world_size := env.world_size
  rows := c.batch * c.seq_len
  heads := c.heads
  head_size := c.head_size
  stride_row _ := c.heads * c.head_size
  stride_head _ := c.head_size

def packs_4d (c : Call) (env : Env) : Bool :=
  env.is_cuda && env.half && c.contiguous && !env.compiling

/-- No staging buffer is recycled under a result, and no address of a packing launch leaves the
32 bits. -/
def Sound (c : Call) (env : Env) : Prop :=
  env.world_size ≤ 1 ∨
    (¬ Recycled env 1 c.seq_len c.heads c.head_size ∧ (packs_3d env c.strides = true →
        c.seq_len * c.heads * c.head_size = 0 ∨ (c.launch_3d env).Fits)) ∧
    (c.packs_4d env = true → ¬ Recycled env c.batch c.seq_len c.heads c.head_size ∧
      (c.batch * c.seq_len * c.heads * c.head_size = 0 ∨ (c.launch_4d env).Fits))

instance (c : Call) (env : Env) : Decidable (c.Sound env) := inferInstanceAs (Decidable (_ ∨ _))

end Call

/-! ## The paths that always agree -/

section Agree

variable {env : Env} {c : Call}

variable {head_dim b h d w : ℕ} {lens : List ℕ} {zs : ℕ → Tensor α}

theorem rows_shards (hlens : lens.length = w)
    (hshape : ∀ g < w, (zs g).shape = axes head_dim b h (lens.getD g 0) d) :
    ∀ g < w, (whole_of_rows head_dim b h d lens zs).SeqShard head_dim g (zs g) :=
  fun g hg => whole_of_rows_seqShard (by omega) (hshape g hg)

theorem heads_shards (hw : 0 < w) (hlens : lens.length = w)
    (hshape : ∀ g < w, (zs g).shape = axes head_dim b h lens.sum d) :
    ∀ g < w, (whole_of_heads head_dim b h d lens zs).HeadShard head_dim g (zs g) :=
  fun g hg => whole_of_heads_headShard (by omega) (hshape g hg)

theorem uniform_shape {s : ℕ} (hshape : ∀ g < w, (zs g).shape = axes head_dim b h s d) :
    ∀ g < w, (zs g).shape = axes head_dim b h ((List.replicate w s).getD g 0) d := by
  have hlen : ∀ g < w, (List.replicate w s).getD g 0 = s := (equal_lens rfl).2.2
  intro g hg
  rw [hshape g hg, hlen g hg]

theorem heads_mod (head_dim b h d : ℕ) (hlens : lens.length = w) (zs : ℕ → Tensor α) :
    (whole_of_heads head_dim b h d lens zs).heads % w = 0 := by
  show h * lens.length % w = 0
  rw [hlens]
  exact Nat.mul_mod_left _ _

theorem uniform_heads {s : ℕ} (hw : 0 < w)
    (hshape : ∀ g < w, (zs g).shape = axes head_dim b h (w * s) d) :
    (∀ g < w, (whole_of_heads head_dim b h d (List.replicate w s) zs).HeadShard head_dim g (zs g))
      ∧ (whole_of_heads head_dim b h d (List.replicate w s) zs).heads % w = 0 := by
  have hsum : (List.replicate w s).sum = w * s := (equal_lens rfl).2.1
  rw [← hsum] at hshape
  exact ⟨heads_shards hw length_replicate hshape, heads_mod _ _ _ _ length_replicate zs⟩

section

variable (hc : c.WellFormed env)
include hc

/-- **Round trip.** -/
theorem roundTrip : RoundTrip α env c := by
  intro head_dim hhead xs mems hshape
  have hX := rows_shards (length_replicate) (uniform_shape hshape)
  have hin : ∀ g, ∃ out : Handle α × Memory α, g < env.world_size →
      usp_input_all_to_all env head_dim xs g (mems g) = .ok out
        ∧ (whole_of_rows head_dim c.batch c.heads c.head_size
            (List.replicate env.world_size c.seq_len) xs).HeadShard head_dim g
              (out.2.read out.1) := by
    intro g
    by_cases hg : g < env.world_size
    · obtain ⟨out, m', hout, hshard⟩ :=
        usp_input_all_to_all_headShard env hhead rfl hc.divides hX hg (mems g)
      exact ⟨(out, m'), fun _ => ⟨hout, hshard⟩⟩
    · exact ⟨(mems g).alloc (xs g), fun h => absurd h hg⟩
  choose out hout using hin
  refine ⟨fun g => (out g).2.read (out g).1, fun g => (out g).2,
    fun g hg => ⟨(out g).1, (hout g hg).1, rfl⟩, fun r hr => ?_⟩
  obtain ⟨out', m', hout', hshard⟩ := usp_output_all_to_all_seqShard env hhead rfl hc.divides
    (fun g hg => (hout g hg).2) hr (out r).2
  exact ⟨out', m', hout', hshard.same (hX r hr)⟩

/-- **The variable-length exchanges are inverse to each other.** -/
theorem varlenInverse : VarlenInverse α env c := by
  intro head_dim hhead zs stale
  refine ⟨fun hshape => ?_, fun hshape => ?_⟩
  · have hX := rows_shards hc.lens_length hshape
    have hin : ∀ g, ∃ y : Tensor α, g < env.world_size →
        usp_input_all_to_all_varlen env head_dim c.lens zs g (stale g) = .ok y
          ∧ (whole_of_rows head_dim c.batch c.heads c.head_size c.lens zs).HeadShard head_dim g
              y := by
      intro g
      by_cases hg : g < env.world_size
      · obtain ⟨y, hy, hshard⟩ := usp_input_all_to_all_varlen_headShard env hhead hc.lens_length
          hc.divides hX hg (stale g)
        exact ⟨y, fun _ => ⟨hy, hshard⟩⟩
      · exact ⟨zs g, fun h => absurd h hg⟩
    choose ys hys using hin
    refine ⟨ys, fun g hg => (hys g hg).1, fun r hr => ?_⟩
    obtain ⟨x, hx, hshard⟩ := usp_output_all_to_all_varlen_seqShard env hhead hc.lens_length
      hc.divides (fun g hg => (hys g hg).2) hr (stale r)
    exact ⟨x, hx, hshard.same (hX r hr)⟩
  · have hX := heads_shards hc.ranks hc.lens_length hshape
    have hmod := heads_mod head_dim c.batch (c.heads / env.world_size) c.head_size hc.lens_length zs
    have hout : ∀ g, ∃ x : Tensor α, g < env.world_size →
        usp_output_all_to_all_varlen env head_dim c.lens zs g (stale g) = .ok x
          ∧ (whole_of_heads head_dim c.batch (c.heads / env.world_size) c.head_size c.lens
              zs).SeqShard head_dim g x := by
      intro g
      by_cases hg : g < env.world_size
      · obtain ⟨x, hx, hshard⟩ := usp_output_all_to_all_varlen_seqShard env hhead hc.lens_length
          hmod hX hg (stale g)
        exact ⟨x, fun _ => ⟨hx, hshard⟩⟩
      · exact ⟨zs g, fun h => absurd h hg⟩
    choose xs hxs using hout
    refine ⟨xs, fun g hg => (hxs g hg).1, fun r hr => ?_⟩
    obtain ⟨y, hy, hshard⟩ := usp_input_all_to_all_varlen_headShard env hhead hc.lens_length
      hmod (fun g hg => (hxs g hg).2) hr (stale r)
    exact ⟨y, hy, hshard.same (hX r hr)⟩

/-- **Equal lengths.** -/
theorem varlenUniform : VarlenUniform α env c := by
  intro head_dim hhead zs stale m r hr
  refine ⟨fun hshape => ?_, fun hshape => ?_⟩
  · have hX := rows_shards (length_replicate) (uniform_shape hshape)
    obtain ⟨y, hy, hshard⟩ := usp_input_all_to_all_varlen_headShard env hhead (length_replicate)
      hc.divides hX hr stale
    obtain ⟨out, m', hout, hshard'⟩ :=
      usp_input_all_to_all_headShard env hhead rfl hc.divides hX hr m
    exact ⟨y, out, m', hy, hout, hshard.same hshard'⟩
  · obtain ⟨hX, hmod⟩ := uniform_heads hc.ranks hshape
    obtain ⟨x, hx, hshard⟩ := usp_output_all_to_all_varlen_seqShard env hhead (length_replicate)
      hmod hX hr stale
    obtain ⟨out, m', hout, hshard'⟩ :=
      usp_output_all_to_all_seqShard env hhead rfl hmod hX hr m
    exact ⟨x, out, m', hx, hout, hshard.same hshard'⟩

/-- **The two-rank path of the uniform exchanges.** -/
theorem ipcUniform : IpcUniform α env c := by
  intro head_dim hhead zs m r hr
  refine ⟨fun hshape => ?_, fun hshape => ?_⟩
  · have hX := rows_shards (length_replicate) (uniform_shape hshape)
    obtain ⟨out, m', hout, hshard⟩ := usp_input_all_to_all_headShard
      { env with ipc := true } hhead rfl hc.divides hX hr m
    obtain ⟨out', m'', hout', hshard'⟩ := usp_input_all_to_all_headShard
      { env with ipc := false } hhead rfl hc.divides hX hr m
    exact ⟨out, m', out', m'', hout, hout', hshard.same hshard'⟩
  · obtain ⟨hX, hmod⟩ := uniform_heads hc.ranks hshape
    obtain ⟨out, m', hout, hshard⟩ := usp_output_all_to_all_seqShard
      { env with ipc := true } hhead rfl hmod hX hr m
    obtain ⟨out', m'', hout', hshard'⟩ := usp_output_all_to_all_seqShard
      { env with ipc := false } hhead rfl hmod hX hr m
    exact ⟨out, m', out', m'', hout, hout', hshard.same hshard'⟩

/-- **The two-rank path of the variable-length exchanges.** -/
theorem ipcVarlen : IpcVarlen α env c := by
  intro head_dim hhead zs stale r hr
  refine ⟨fun hshape => ?_, fun hshape => ?_⟩
  · have hX := rows_shards hc.lens_length hshape
    obtain ⟨y, hy, hshard⟩ := usp_input_all_to_all_varlen_headShard
      { env with ipc := true } hhead hc.lens_length hc.divides hX hr stale
    obtain ⟨y', hy', hshard'⟩ := usp_input_all_to_all_varlen_headShard
      { env with ipc := false } hhead hc.lens_length hc.divides hX hr stale
    exact ⟨y, y', hy, hy', hshard.same hshard'⟩
  · have hX := heads_shards hc.ranks hc.lens_length hshape
    have hmod := heads_mod head_dim c.batch (c.heads / env.world_size) c.head_size hc.lens_length zs
    obtain ⟨x, hx, hshard⟩ := usp_output_all_to_all_varlen_seqShard
      { env with ipc := true } hhead hc.lens_length hmod hX hr stale
    obtain ⟨x', hx', hshard'⟩ := usp_output_all_to_all_varlen_seqShard
      { env with ipc := false } hhead hc.lens_length hmod hX hr stale
    exact ⟨x, x', hx, hx', hshard.same hshard'⟩

end

end Agree

section Ipc

variable {env : Env} {c : Call}

/-- **The two-rank exchange of three operands.** -/
theorem ipcQkv (hc : c.WellFormed env) : IpcQkv α env c := by
  intro hw r hr stale m
  have hdiv := hc.divides
  rw [hw] at hdiv
  refine ⟨fun xs hshape => ?_, fun xs pads hshape hpads => ?_⟩
  · have hX : ∀ i < 3, ∀ g < 2, (whole_of_rows 2 c.batch c.heads c.head_size
        (List.replicate 2 c.seq_len) (fun g => (xs g).part i)).SeqShard 2 g ((xs g).part i) :=
      fun i hi => rows_shards (length_replicate)
        (uniform_shape (hshape i hi))
    obtain ⟨y, hy, hshard⟩ := ipc_input_a2a_qkv_headShard { env with ipc := true }
      (fun i => whole_of_rows 2 c.batch c.heads c.head_size (List.replicate 2 c.seq_len)
        (fun g => (xs g).part i)) xs stale hw rfl (fun _ _ => ⟨rfl, rfl, rfl, rfl⟩) hdiv hX hr
    refine ⟨y, hy, fun i hi => ?_⟩
    obtain ⟨out, m', hout, hshard'⟩ := usp_input_all_to_all_headShard { env with ipc := false }
      (.inr rfl) (by rw [← hw]; rfl) (by exact hc.divides)
      (fun g hg => hX i hi g (by rw [← hw]; exact hg)) (by rw [← hw] at hr; exact hr) m
    exact ⟨out, m', hout, (hshard i hi).same hshard'⟩
  · have hjoin : ∀ i < 3, ∀ g < 2, (join_seqs ((xs g).part i) (pads g)).shape
        = axes 2 c.batch c.heads (c.txt_len + c.img_len) c.head_size := fun i hi g hg =>
      (join_seqs_tabulates (hshape i hi g hg).1 (hshape i hi g hg).2 (hpads g hg)).shape_eq
    have hX : ∀ i < 3, ∀ g < 2, (whole_of_rows 2 c.batch c.heads c.head_size
        (List.replicate 2 (c.txt_len + c.img_len))
        (fun g => join_seqs ((xs g).part i) (pads g))).SeqShard 2 g
          (join_seqs ((xs g).part i) (pads g)) :=
      fun i hi => rows_shards (length_replicate) (uniform_shape (hjoin i hi))
    obtain ⟨y, hy, hshard⟩ := ipc_input_a2a_qkv_segmented_headShard { env with ipc := true }
      (fun i => whole_of_rows 2 c.batch c.heads c.head_size
        (List.replicate 2 (c.txt_len + c.img_len))
        (fun g => join_seqs ((xs g).part i) (pads g))) xs stale hw rfl
      (fun _ _ => ⟨rfl, rfl, rfl, rfl⟩) hdiv
      (fun i hi g hg => (hshape i hi g hg).1) (fun i hi g hg => (hshape i hi g hg).2) hpads hX hr
    refine ⟨y, hy, fun i hi => ?_⟩
    obtain ⟨out, m', hout, hshard'⟩ := usp_input_all_to_all_headShard { env with ipc := false }
      (.inr rfl) (by rw [← hw]; rfl) (by exact hc.divides)
      (fun g hg => hX i hi g (by rw [← hw]; exact hg)) (by rw [← hw] at hr; exact hr) m
    exact ⟨out, m', hout, (hshard i hi).same hshard'⟩

end Ipc

end LightningH3.Ulysses
