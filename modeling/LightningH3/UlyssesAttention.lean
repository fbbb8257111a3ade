/-
Attention under Ulysses: the exchange of the packed operands, the kernel on each rank's heads, and
the exchange of what the kernels give.

`_minimax_h3_attention_core_impl` of `minimax_h3.py` with a dense backend and no ring. The kernel is
a parameter; all that is asked of it is that a head of the result depends on that head of the
operands alone. Then every rank gets its rows of what one device computes on the joined operands.
-/
import LightningH3.UlyssesLossless

set_option autoImplicit false

namespace LightningH3.Ulysses

open Segments Tensors List

variable {α : Type} {env : Env} {c : Call}

/-! ## The kernel -/

def Shaped (shape : List ℕ) (x : Qkv (Tensor α)) : Prop := ∀ i < 3, (x.part i).shape = shape

/-- The result has the shape of the operands, and each of its heads is a function of that head of
the operands, the same for every head and for any number of them. -/
structure HeadWise (attn : Qkv (Tensor α) → Tensor α) : Prop where
  shape_eq {s h d : ℕ} {x : Qkv (Tensor α)} : Shaped [s, h, d] x → (attn x).shape = [s, h, d]
  get_eq {s h h' d j j' : ℕ} {x y : Qkv (Tensor α)} : Shaped [s, h, d] x → Shaped [s, h', d] y →
    j < h → j' < h' →
    (∀ i < 3, ∀ t < s, ∀ l < d, (x.part i).get [t, j, l] = (y.part i).get [t, j', l]) →
    ∀ t < s, ∀ l < d, (attn x).get [t, j, l] = (attn y).get [t, j', l]

/-- `_minimax_h3_attention_core_impl` up to the kernel `forward_varlen`, on one rank. -/
def attention_core_impl (env : Env) (attn : Qkv (Tensor α) → Tensor α) (xs : ℕ → Qkv (Strided α))
    (rank : ℕ) (mems : ℕ → Memory α) : Except UspError (Tensor α × Memory α) := do
  let (hs, m) ← usp_input_all_to_all_packed_qkv env xs rank mems
  return (attn ⟨m.read hs.q, m.read hs.k, m.read hs.v⟩, m)

/-- The operands of one device: the rows of all ranks, in the order of the ranks. -/
def joined (env : Env) (c : Call) (data : ℕ → ℕ → ℕ → α) : Qkv (Tensor α) :=
  let rows := fun index => (⟨[env.world_size * c.seq_len, c.heads, c.head_size], fun idx =>
    ((c.strided (data (idx.headD 0 / c.seq_len))).part index).tensor.get
      (idx.headD 0 % c.seq_len :: idx.tail)⟩ : Tensor α)
  ⟨rows 0, rows 1, rows 2⟩

theorem shaped_joined (env : Env) (c : Call) (data : ℕ → ℕ → ℕ → α) :
    Shaped [env.world_size * c.seq_len, c.heads, c.head_size] (joined env c data) := by
  intro i hi
  interval_cases i <;> rfl

variable {attn : Qkv (Tensor α) → Tensor α}

/-- The result of one device, as the exchanges see it. -/
def whole_result (env : Env) (c : Call) (out : Tensor α) : Whole α where
  batch := 1
  heads := c.heads
  head_size := c.head_size
  lens := List.replicate env.world_size c.seq_len
  entry _ n m l := out.get [m, n, l]

section

variable (hattn : HeadWise attn) (hc : c.WellFormed env) (hw : 2 ≤ env.world_size)
  (hfits : packs_3d env c.strides = true →
    c.seq_len * c.heads * c.head_size = 0 ∨ (c.launch_3d env).Fits) (data : ℕ → ℕ → ℕ → α)
  (mems : ℕ → Memory α)
include hattn hc hw hfits

/-- **A rank's kernel gives all rows of the rank's heads.** -/
theorem attention_core_headShard {r : ℕ} (hr : r < env.world_size) :
    ∃ y m', attention_core_impl env attn (fun g => c.strided (data g)) r mems = .ok (y, m') ∧
      (whole_result env c (attn (joined env c data))).HeadShard 2 r (y.reshape (1 :: y.shape)) := by
  obtain ⟨hs, m', hok, hres⟩ := packed_3d_result hw (fun i hi => shape_strided (data r) hi)
    hc.divides (fun g _ => packed_source_packedBy hc hw hfits (data g) (mems g)) hr
  have hpart : ∀ i, (Qkv.part ⟨m'.read hs.q, m'.read hs.k, m'.read hs.v⟩ i)
      = m'.read (hs.part i) := by
    intro i
    match i with
    | 0 => rfl
    | 1 => rfl
    | _ + 2 => rfl
  have hx : Shaped [env.world_size * c.seq_len, c.heads / env.world_size, c.head_size]
      ⟨m'.read hs.q, m'.read hs.k, m'.read hs.v⟩ := by
    intro i hi
    rw [hpart]
    exact (hres i hi).1
  obtain ⟨hlength, hsum, -⟩ := equal_lens (w := env.world_size) (s := c.seq_len) rfl
  refine ⟨_, m', by rw [attention_core_impl, hok]; rfl, ?_⟩
  unfold Whole.HeadShard
  dsimp only [whole_result]
  rw [hlength, hsum]
  refine ⟨by rw [hattn.shape_eq hx]; rfl, fun i j m l hi hj hm hl => ?_⟩
  obtain rfl : i = 0 := by omega
  show ((attn _).reshape (1 :: (attn _).shape)).get [0, m, j, l] = _
  rw [Tensor.get_reshape_unit rfl (by rw [hattn.shape_eq hx]; simpa using ⟨hm, hj, hl⟩)]
  refine hattn.get_eq hx (shaped_joined env c data) hj (head_lt hc.divides hr hj)
    (fun i hi t ht l hl => ?_) m hm l hl
  rw [hpart, (hres i hi).2 t j l ht hj hl]
  interval_cases i <;> rfl

/-- **Attention under Ulysses is attention on one device**: whatever the kernel, if it works head by
head, every rank ends with its rows of the kernel's result on the joined operands. -/
theorem attention_agrees : ∃ (ys : ℕ → Tensor α) (mems' : ℕ → Memory α), (∀ g < env.world_size,
      attention_core_impl env attn (fun g => c.strided (data g)) g mems = .ok (ys g, mems' g)) ∧
    ∀ r < env.world_size, ∃ out m',
      usp_output_all_to_all env 2 (fun g => (ys g).reshape (1 :: (ys g).shape)) r (mems' r)
        = .ok (out, m') ∧
      Tensor.Same ((attn (joined env c data)).narrow 0 (r * c.seq_len) c.seq_len)
        ((m'.read out).select 0) := by
  have hcore : ∀ g, ∃ y : Tensor α × Memory α, g < env.world_size →
      attention_core_impl env attn (fun g => c.strided (data g)) g mems = .ok y ∧
        (whole_result env c (attn (joined env c data))).HeadShard 2 g
          (y.1.reshape (1 :: y.1.shape)) := by
    intro g
    by_cases hg : g < env.world_size
    · obtain ⟨y, m', hok, hshard⟩ :=
        attention_core_headShard hattn hc hw hfits data mems hg
      exact ⟨(y, m'), fun _ => ⟨hok, hshard⟩⟩
    · exact ⟨(attn (joined env c data), mems g), fun h => absurd h hg⟩
  choose ys hys using hcore
  refine ⟨fun g => (ys g).1, fun g => (ys g).2, fun g hg => (hys g hg).1, fun r hr => ?_⟩
  obtain ⟨out, m', hout, hshard⟩ := usp_output_all_to_all_seqShard env (.inr rfl) rfl hc.divides
    (fun g hg => (hys g hg).2) hr (ys r).2
  obtain ⟨-, -, hlen⟩ := equal_lens (w := env.world_size) (s := c.seq_len) rfl
  refine ⟨out, m', hout, ?_⟩
  unfold Whole.SeqShard at hshard
  dsimp only [whole_result] at hshard
  rw [hlen r hr, ← Nat.one_mul c.seq_len] at hshard
  refine same_select ?_ (fun k j l hk hj hl => ?_) hshard
  · rw [Nat.one_mul]
    show List.set (attn (joined env c data)).shape 0 _ = _
    rw [hattn.shape_eq (shaped_joined env c data)]
    rfl
  · rw [Nat.one_mul] at hk ⊢
    show (attn (joined env c data)).get [r * c.seq_len + k, j, l] = _
    rw [start_replicate (Nat.le_of_lt hr)]

end

/-- Every row of the result is the first row of `v`. -/
def first_row (x : Qkv (Tensor ℕ)) : Tensor ℕ := ⟨x.q.shape, fun idx => x.v.get (idx.set 0 0)⟩

theorem headWise_first_row : HeadWise first_row where
  shape_eq hx := hx 0 (by omega)
  get_eq _ _ _ _ heq t ht l hl := heq 2 (by omega) 0 (by omega) l hl

/-- The rank and the address in every entry. -/
def pair_data (g _ n : ℕ) : ℕ := g + n

theorem attention_agrees_pair : ∃ (ys : ℕ → Tensor ℕ) (mems' : ℕ → Memory ℕ),
    (∀ g < 2, attention_core_impl eager_pair first_row
      (fun g => (dense_call 4).strided (pair_data g)) g (fun _ => blank_memory 0 0)
        = .ok (ys g, mems' g)) ∧ ∀ r < 2, ∃ out m', usp_output_all_to_all eager_pair 2
      (fun g => (ys g).reshape (1 :: (ys g).shape)) r (mems' r) = .ok (out, m') ∧
      Tensor.Same ((first_row (joined eager_pair (dense_call 4) pair_data)).narrow 0 (r * 4) 4)
        ((m'.read out).select 0) :=
  attention_agrees headWise_first_row (dense_call_wellFormed rfl) (Nat.le_refl 2)
    (fun _ => .inr (by decide)) pair_data fun _ => blank_memory 0 0

end LightningH3.Ulysses
