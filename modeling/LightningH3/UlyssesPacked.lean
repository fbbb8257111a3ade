/-
The packed QKV exchanges of `usp.py`, and three input exchanges one after the other.
-/
import LightningH3.UlyssesIpc
import LightningH3.UlyssesPack

set_option autoImplicit false

namespace LightningH3.Ulysses

open Segments Tensors List

variable {α : Type}

/-! ## The exchanges -/

/-- Three new tensors. -/
def alloc_qkv (m : Memory α) (x : Qkv (Tensor α)) : Qkv (Handle α) × Memory α :=
  let (q, m) := m.alloc x.q
  let (k, m) := m.alloc x.k
  let (v, m) := m.alloc x.v
  (⟨q, k, v⟩, m)

/-- Three input exchanges, one after the other. -/
def separate (env : Env) (xs : ℕ → Qkv (Tensor α)) (rank : ℕ) (m : Memory α) :
    Except UspError (Qkv (Handle α) × Memory α) := do
  let (q, m) ← usp_input_all_to_all env 2 (fun j => (xs j).q) rank m
  let (k, m) ← usp_input_all_to_all env 2 (fun j => (xs j).k) rank m
  let (v, m) ← usp_input_all_to_all env 2 (fun j => (xs j).v) rank m
  return (⟨q, k, v⟩, m)

/-- The packing without the kernel: three strided copies. -/
def pack_copies (world_size s_local h_local head_size : ℕ) (x : Qkv (Tensor α))
    (before : ℕ → α) : Tensor α :=
  (List.range 3).foldl (fun packed index => packed.copy_into 3 (index * head_size)
      (((x.part index).reshape [s_local, world_size, h_local, head_size]).permute [1, 0, 2, 3]))
    (Tensor.of_flat [world_size, s_local, h_local, 3 * head_size] before)

/-- The kernel packs 3D operands. -/
def packs_3d (env : Env) (strides : Qkv (List ℕ)) : Bool :=
  env.is_cuda && env.half && strides.q.getD 2 0 == strides.k.getD 2 0
    && strides.k.getD 2 0 == strides.v.getD 2 0 && strides.v.getD 2 0 == 1 && !env.compiling

/-- The strides of three operands. -/
def strides_of (x : Qkv (Strided α)) : Qkv (List ℕ) := ⟨x.q.strides, x.k.strides, x.v.strides⟩

def tensors_of (x : Qkv (Strided α)) : Qkv (Tensor α) := ⟨x.q.tensor, x.k.tensor, x.v.tensor⟩

/-- What a rank sends in `_usp_input_all_to_all_packed_qkv`. -/
def packed_source (env : Env) (s_local h_local head_size : ℕ) (x : Qkv (Strided α))
    (m : Memory α) : Tensor α × Memory α :=
  if packs_3d env (strides_of x) then
    let (src, m) := m.a2a_staging_buffer env .usp_packed_qkv_src
      [env.world_size, s_local, h_local, 3 * head_size].prod
    let packed := pack_qkv_destination_major env.world_size x (m.cells src) m.fault
    (packed, m.write src packed.numel packed.flat)
  else
    let (src, m) := m.empty
    let packed := pack_copies env.world_size s_local h_local head_size (tensors_of x) (m.cells src)
    (packed, m.write src packed.numel packed.flat)

/-- One of the three parts of a received buffer: `packed.split(head_size, dim=-1)`. -/
def split_view (shape out : List ℕ) (head_size index : ℕ) (data : ℕ → α) : Tensor α :=
  ((Tensor.of_flat shape data).reshape out).narrow (out.length - 1) (index * head_size) head_size

def usp_input_all_to_all_packed_qkv (env : Env) (xs : ℕ → Qkv (Strided α)) (rank : ℕ)
    (mems : ℕ → Memory α) : Except UspError (Qkv (Handle α) × Memory α) :=
  if env.world_size ≤ 1 then .ok (alloc_qkv (mems rank) (tensors_of (xs rank)))
  else match (xs rank).q.shape with
  | [s_local, h_global, head_size] =>
    if ¬ ((xs rank).q.shape = (xs rank).k.shape ∧ (xs rank).k.shape = (xs rank).v.shape) then
      .error (.assertion "")
    else if h_global % env.world_size ≠ 0 then .error (.assertion "")
    else
      let h_local := h_global / env.world_size
      let source := fun j => packed_source env s_local h_local head_size (xs j) (mems j)
      let (buffer, m) := usp_all_to_all_single env .usp_packed_qkv_recv
        (fun j => (source j).1) rank (source rank).2
      let part := fun index => (⟨buffer, split_view
        [env.world_size, s_local, h_local, 3 * head_size]
        [s_local * env.world_size, h_local, 3 * head_size] head_size index⟩ : Handle α)
      .ok (⟨part 0, part 1, part 2⟩, m)
  | _ => .error (.assertion "")

/-- `_can_use_packed_qkv_a2a_4d`; `contiguous` when all three operands are. -/
def can_use_packed_qkv_a2a_4d (env : Env) (contiguous : Bool) (x : Qkv (Tensor α)) : Bool :=
  env.is_cuda && x.q.shape.length == 4 && x.q.shape == x.k.shape && x.k.shape == x.v.shape
    && env.half && contiguous && x.q.shape.getD 2 0 % env.world_size == 0 && !env.compiling

/-- `q.view(rows, h_global, d)` of contiguous operands. -/
def rows_view (rows h_global d : ℕ) (x : Qkv (Tensor α)) : Qkv (Strided α) :=
  let view := fun x : Tensor α => (⟨[rows, h_global, d], [h_global * d, d, 1], x.flat⟩ : Strided α)
  ⟨view x.q, view x.k, view x.v⟩

/-- What a rank sends in `_usp_input_all_to_all_qkv`. -/
def packed_source_4d (env : Env) (rows h_local d : ℕ) (x : Qkv (Strided α)) (m : Memory α) :
    Tensor α × Memory α :=
  let (src, m) := m.a2a_staging_buffer env .usp_packed_qkv_src
    [env.world_size, rows, h_local, 3 * d].prod
  let packed := pack_qkv_destination_major env.world_size x (m.cells src) m.fault
  (packed, m.write src packed.numel packed.flat)

/-- The received buffer as `[b, world_size * s_local, h_local, 3 * d]`. -/
def gathered_4d (world_size b s_local h_local d : ℕ) (data : ℕ → α) : Tensor α :=
  let packed := Tensor.of_flat [world_size, b * s_local, h_local, 3 * d] data
  if b = 1 then packed.reshape [1, world_size * s_local, h_local, 3 * d]
  else ((packed.reshape [world_size, b, s_local, h_local, 3 * d]).permute [1, 0, 2, 3, 4]).reshape
    [b, world_size * s_local, h_local, 3 * d]

def usp_input_all_to_all_qkv (env : Env) (contiguous : Bool) (xs : ℕ → Qkv (Tensor α))
    (rank : ℕ) (mems : ℕ → Memory α) : Except UspError (Qkv (Handle α) × Memory α) :=
  if env.world_size ≤ 1 then .ok (alloc_qkv (mems rank) (xs rank))
  else if !can_use_packed_qkv_a2a_4d env contiguous (xs rank) then separate env xs rank (mems rank)
  else match (xs rank).q.shape with
  | [b, s_local, h_global, d] =>
    let h_local := h_global / env.world_size
    let rows := b * s_local
    let source := fun j =>
      packed_source_4d env rows h_local d (rows_view rows h_global d (xs j)) (mems j)
    let (buffer, m) := usp_all_to_all_single env .usp_packed_qkv_recv
      (fun j => (source j).1) rank (source rank).2
    let packed := gathered_4d env.world_size b s_local h_local d (m.cells buffer)
    .ok (alloc_qkv m ⟨packed.narrow 3 0 d, packed.narrow 3 d d, packed.narrow 3 (2 * d) d⟩)
  | _ => .error .shape_error

/-! ## Packing -/

/-- A buffer that holds three operands by destination. -/
structure PackedBy (w rows hl d : ℕ) (f : ℕ → ℕ → ℕ → ℕ → α) (p : Tensor α) : Prop where
  shape_eq : p.shape = [w, rows, hl, 3 * d]
  get_eq : ∀ dest row j index l, dest < w → row < rows → j < hl → index < 3 → l < d →
    p.get [dest, row, j, index * d + l] = f index row (dest * hl + j) l

theorem pack_copies_packedBy {w s hl d : ℕ} {x : Qkv (Tensor α)} {before : ℕ → α}
    {f : ℕ → ℕ → ℕ → ℕ → α} (hshape : ∀ i < 3, (x.part i).shape = [s, w * hl, d])
    (hget : ∀ i < 3, ∀ row n l, row < s → n < w * hl → l < d →
      (x.part i).get [row, n, l] = f i row n l) :
    PackedBy w s hl d f (pack_copies w s hl d x before) := by
  refine ⟨rfl, fun dest row j index l hdest hrow hj hindex hlt => ?_⟩
  have hsize : ∀ i, ((((x.part i).reshape [s, w, hl, d]).permute [1, 0, 2, 3]).shape).getD 3 0
      = d := fun _ => rfl
  have hn : dest * hl + j < w * hl := by
    rw [Nat.mul_comm dest]
    exact Nat.mul_add_lt_mul_of_lt_of_lt hdest hj
  -- a copy of operand `i` reaches the dimensions of operand `i` only
  have hhit : ∀ packed : Tensor α,
      (packed.copy_into 3 (index * d) (((x.part index).reshape [s, w, hl, d]).permute
        [1, 0, 2, 3])).get [dest, row, j, index * d + l] = f index row (dest * hl + j) l := by
    intro packed
    have hmem : index * d ≤ index * d + l ∧ index * d + l < index * d
        + ((((x.part index).reshape [s, w, hl, d]).permute [1, 0, 2, 3]).shape).getD 3 0 := by
      rw [hsize]
      omega
    rw [Tensor.get_copy_into_of_mem rfl hmem]
    show ((x.part index).reshape [s, w, hl, d]).get [row, dest, j, index * d + l - index * d] = _
    rw [Nat.add_sub_cancel_left, Tensor.get_reshape_split_second (hshape index hindex) rfl hdest hj
      (by simpa using hlt)]
    exact hget index hindex row _ l hrow hn hlt
  have hmiss : ∀ (packed : Tensor α) (i : ℕ), index < i →
      (packed.copy_into 3 (i * d) (((x.part i).reshape [s, w, hl, d]).permute
        [1, 0, 2, 3])).get [dest, row, j, index * d + l]
        = packed.get [dest, row, j, index * d + l] := by
    intro packed i hi
    have hle : (index + 1) * d ≤ i * d := Nat.mul_le_mul_right _ hi
    rw [Nat.add_mul] at hle
    have hnot : ¬ (i * d ≤ index * d + l ∧ index * d + l < i * d
        + ((((x.part i).reshape [s, w, hl, d]).permute [1, 0, 2, 3]).shape).getD 3 0) := by
      rintro ⟨h, -⟩
      omega
    exact Tensor.get_copy_into_of_not_mem rfl hnot
  show (((Tensor.copy_into _ 3 (0 * d) _).copy_into 3 (1 * d) _).copy_into 3 (2 * d) _).get _ = _
  interval_cases index
  · rw [hmiss _ 2 (by omega), hmiss _ 1 (by omega), hhit]
  · rw [hmiss _ 2 (by omega), hhit]
  · rw [hhit]

section Kernel

variable {w rows h d : ℕ} {x : Qkv (Strided α)} {before fault : ℕ → α}

/-- Three operands of one shape whose last axis is dense. -/
structure Dense (rows h d : ℕ) (x : Qkv (Strided α)) : Prop where
  shape_eq : ∀ i < 3, (x.part i).shape = [rows, h, d]
  strides_eq : ∀ i < 3, (x.part i).strides
    = [(x.part i).strides.getD 0 0, (x.part i).strides.getD 1 0, 1]

section

variable (hx : Dense rows h d x)
include hx

theorem launch_of_sizes :
    (launch_of w x).rows = rows ∧ (launch_of w x).heads = h ∧ (launch_of w x).head_size = d := by
  have hq : x.q.shape = [rows, h, d] := hx.shape_eq 0 (by omega)
  refine ⟨?_, ?_, ?_⟩
  · show x.q.shape.getD 0 0 = rows
    rw [hq]
    rfl
  · show x.q.shape.getD 1 0 = h
    rw [hq]
    rfl
  · show x.q.shape.getD 2 0 = d
    rw [hq]
    rfl

theorem launch_of_valid (hw : 2 ≤ w) (hdiv : h % w = 0) (hpos : rows * h * d ≠ 0) :
    (launch_of w x).Valid := by
  obtain ⟨h1, h2, h3⟩ := launch_of_sizes (w := w) hx
  refine ⟨hw, by rw [h2]; exact hdiv, ?_⟩
  unfold Launch.total_elements
  rw [h1, h2, h3]
  omega

theorem shape_pack :
    (pack_qkv_destination_major w x before fault).shape = [w, rows, h / w, 3 * d] := by
  obtain ⟨h1, h2, h3⟩ := launch_of_sizes (w := w) hx
  show [w, (launch_of w x).rows, (launch_of w x).heads / w, 3 * (launch_of w x).head_size] = _
  rw [h1, h2, h3]

theorem pack_packedBy (hw : 2 ≤ w) (hdiv : h % w = 0)
    (hfits : rows * h * d = 0 ∨ (launch_of w x).Fits) :
    PackedBy w rows (h / w) d (fun index row n l => (x.part index).tensor.get [row, n, l])
      (pack_qkv_destination_major w x before fault) := by
  refine ⟨shape_pack hx, fun dest row j index l hdest hrow hj hindex hlt => ?_⟩
  have hhead : 0 < h := by
    rcases Nat.eq_zero_or_pos h with h0 | h0
    · rw [h0, Nat.zero_div] at hj
      omega
    · exact h0
  have hpos : rows * h * d ≠ 0 :=
    Nat.mul_ne_zero (Nat.mul_ne_zero (by omega) (by omega)) (by omega)
  replace hfits := hfits.resolve_left hpos
  obtain ⟨h1, h2, h3⟩ := launch_of_sizes (w := w) hx
  have hvalid := launch_of_valid hx hw hdiv hpos
  have hlocal : (launch_of w x).local_heads = h / w := by
    show (launch_of w x).heads / w = h / w
    rw [h2]
  have hrun : (launch_of w x).run (fun index => (x.part index).data) before fault
      (((dest * (launch_of w x).rows + row) * (launch_of w x).local_heads + j)
        * (3 * (launch_of w x).head_size) + l + index * (launch_of w x).head_size)
      = (x.part index).data (row * (launch_of w x).stride_row index
          + (dest * (launch_of w x).local_heads + j) * (launch_of w x).stride_head index + l) :=
    Launch.run_get hvalid hfits hdest (by rw [h1]; exact hrow) (by rw [hlocal]; exact hj) hindex
      (by rw [h3]; exact hlt)
  have haddr : ravel [w, (launch_of w x).rows, (launch_of w x).local_heads,
      3 * (launch_of w x).head_size] [dest, row, j, index * d + l]
      = ((dest * (launch_of w x).rows + row) * (launch_of w x).local_heads + j)
          * (3 * (launch_of w x).head_size) + l + index * (launch_of w x).head_size := by
    simp only [ravel, prod_cons, prod_nil]
    rw [h3]
    ring
  show (if (launch_of w x).total_elements = 0 then before else _) (ravel _ _) = _
  rw [if_neg hvalid.nonempty.ne', haddr, hrun]
  show (x.part index).data _
    = (x.part index).data (List.zipWith (· * ·) [row, dest * (h / w) + j, l]
        (x.part index).strides).sum
  rw [hx.strides_eq index hindex, hlocal]
  congr 1
  simp only [zipWith_cons_cons, zipWith_nil_right, sum_cons, sum_nil]
  show row * (x.part index).strides.getD 0 0 + _ * (x.part index).strides.getD 1 0 + l = _
  ring

theorem pack_of_not_fits (hw : 2 ≤ w) (hdiv : h % w = 0) (hpos : rows * h * d ≠ 0)
    (hfits : ¬ (launch_of w x).Fits) : pack_qkv_destination_major w x before fault
      = Tensor.of_flat [w, rows, h / w, 3 * d] fault := by
  obtain ⟨h1, h2, h3⟩ := launch_of_sizes (w := w) hx
  have hvalid := launch_of_valid hx hw hdiv hpos
  unfold pack_qkv_destination_major
  dsimp only
  rw [if_neg hvalid.nonempty.ne', Launch.run_of_not_fits hvalid hfits]
  unfold Launch.local_heads
  rw [h1, h2, h3]
  rfl

end

end Kernel

/-! ## Receiving -/

section Receive

variable {env : Env} {role : Role} {rows hl d r : ℕ} {ps : ℕ → Tensor α} {m : Memory α}
  {f : ℕ → ℕ → ℕ → ℕ → ℕ → α}

variable {j index l : ℕ}

section

variable (hps : ∀ g < env.world_size, PackedBy env.world_size rows hl d (f g) (ps g))
  (hr : r < env.world_size)
include hps hr

theorem received_packed {g row : ℕ} (hg : g < env.world_size) (hrow : row < rows) (hj : j < hl)
    (hindex : index < 3) (hlt : l < d) : (Tensor.of_flat [env.world_size, rows, hl, 3 * d]
        ((usp_all_to_all_single env role ps r m).2.cells
          (usp_all_to_all_single env role ps r m).1)).get [g, row, j, index * d + l]
      = f g index row (r * hl + j) l := by
  have hcol : index * d + l < 3 * d := by
    have := Nat.mul_le_mul_right d (show index ≤ 2 by omega)
    omega
  have hidx : InBounds [row, j, index * d + l] [rows, hl, 3 * d] := by
    simp only [inBounds_cons, inBounds_nil_iff]
    exact ⟨hrow, hj, hcol, trivial⟩
  rw [buffer_chunk (fun j hj => (hps j hj).shape_eq) (prod_cons) hr hg hidx,
    Tensor.get_reshape_self (hps g hg).shape_eq (inBounds_cons.mpr ⟨hr, hidx⟩)]
  exact (hps g hg).get_eq r row j index l hr hrow hj hindex hlt

theorem split_view_get {k : ℕ} (hindex : index < 3) (hk : k < env.world_size * rows) (hj : j < hl)
    (hlt : l < d) :
    (split_view [env.world_size, rows, hl, 3 * d] [rows * env.world_size, hl, 3 * d] d index
        ((usp_all_to_all_single env role ps r m).2.cells
          (usp_all_to_all_single env role ps r m).1)).get [k, j, l]
      = f (k / rows) index (k % rows) (r * hl + j) l := by
  obtain ⟨hg, hrow⟩ := row_bounds hk
  have hcol : index * d + l < 3 * d := by
    have := Nat.mul_le_mul_right d (show index ≤ 2 by omega)
    omega
  have hsplit : ∀ data : ℕ → α, (split_view [env.world_size, rows, hl, 3 * d]
      [rows * env.world_size, hl, 3 * d] d index data).get [k, j, l]
      = ((Tensor.of_flat [env.world_size, rows, hl, 3 * d] data).reshape
          [rows * env.world_size, hl, 3 * d]).get [k, j, index * d + l] := fun _ => rfl
  rw [hsplit, Tensor.get_reshape_merge rfl (by
    simp only [inBounds_cons, inBounds_nil_iff]
    exact ⟨hj, hcol, trivial⟩)]
  exact received_packed hps hr hg hrow hj hindex hlt

end

theorem gathered_4d_get {b s : ℕ}
    (hps : ∀ g < env.world_size, PackedBy env.world_size (b * s) hl d (f g) (ps g))
    (hr : r < env.world_size) {i k : ℕ} (hindex : index < 3) (hi : i < b)
    (hk : k < env.world_size * s) (hj : j < hl) (hlt : l < d) :
    (gathered_4d env.world_size b s hl d ((usp_all_to_all_single env role ps r m).2.cells
        (usp_all_to_all_single env role ps r m).1)).get [i, k, j, index * d + l]
      = f (k / s) index (i * s + k % s) (r * hl + j) l := by
  obtain ⟨hg, ht⟩ := row_bounds hk
  have hcol : index * d + l < 3 * d := by
    have := Nat.mul_le_mul_right d (show index ≤ 2 by omega)
    omega
  have hidx : InBounds [j, index * d + l] [hl, 3 * d] := by
    simp only [inBounds_cons, inBounds_nil_iff]
    exact ⟨hj, hcol, trivial⟩
  have hrow : i * s + k % s < b * s := by
    rw [Nat.mul_comm i]
    exact Nat.mul_add_lt_mul_of_lt_of_lt hi ht
  unfold gathered_4d
  split
  · rename_i hb
    subst hb
    have hi0 : i = 0 := by omega
    subst hi0
    rw [Tensor.get_reshape]
    show (Tensor.of_flat _ _).get (unravel [env.world_size, 1 * s, hl, 3 * d]
      (ravel (1 :: (env.world_size * s) :: [hl, 3 * d]) (0 :: k :: [j, index * d + l]))) = _
    rw [Nat.one_mul] at hps ⊢
    rw [ravel_cons, Nat.zero_mul, Nat.zero_add, unravel_split hidx, Nat.zero_mul, Nat.zero_add]
    exact received_packed hps hr hg ht hj hindex hlt
  · rw [Tensor.get_reshape_merge_second rfl rfl hk hidx]
    have hswap : ∀ x : Tensor α, (x.permute [1, 0, 2, 3, 4]).get
        [i, k / s, k % s, j, index * d + l] = x.get [k / s, i, k % s, j, index * d + l] :=
      fun _ => rfl
    rw [hswap, Tensor.get_reshape_split_second rfl rfl hi ht hidx]
    exact received_packed hps hr hg hrow hj hindex hlt

end Receive

end LightningH3.Ulysses
