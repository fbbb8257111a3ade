/-
`pack_qkv_destination_major`: the Triton kernel that lays Q, K and V out for one collective.

A lane computes its addresses in 32-bit integers. As long as they fit, the stores put the
entry of each operand where the exchange expects it. Once one does not fit, a lane reads or
writes outside of its operand, and what the buffer holds then is not determined. The
addresses fit exactly when the packed buffer has at most `2 ^ 31` elements before the last
two operands of its last head, and no row or head offset of a strided operand is larger.
-/
import Mathlib.Tactic.Linarith
import LightningH3.UlyssesExchange

set_option autoImplicit false

namespace LightningH3.Ulysses

open Tensors List Nat

variable {α : Type}

/-! ## The kernel -/

/-- A view of a storage with strides; entry 0 is the one at `data_ptr`. -/
structure Strided (α : Type) where
  shape : List ℕ
  strides : List ℕ
  data : ℕ → α

def Strided.tensor (x : Strided α) : Tensor α where
  shape := x.shape
  get idx := x.data (List.zipWith (· * ·) idx x.strides).sum

/-- The value of a 32-bit integer after an operation. -/
def wrap32 (x : ℤ) : ℤ := x.bmod (2 ^ 32)

/-- The result of an operation on kernel arguments: 32-bit, unless an argument was passed
with 64 bits because it does not fit. -/
def narrowed (args : List ℕ) (x : ℤ) : ℤ := if ∀ a ∈ args, a < 2 ^ 31 then wrap32 x else x

/-- `output_base` of a lane. -/
def output_base (head_size : ℕ) (offsets : ℤ) : ℤ :=
  let dim := offsets.tmod head_size
  let head_slot := offsets.tdiv head_size
  narrowed [head_size]
    (narrowed [head_size] (head_slot * narrowed [head_size] (3 * head_size)) + dim)

/-- Where a lane stores the entry of operand `index`. -/
def store_address (head_size index : ℕ) (offsets : ℤ) : ℤ :=
  output_base head_size offsets + narrowed [head_size] (index * head_size)

/-- Where a lane loads the entry of an operand. The head number cannot overflow: it is
bounded by the offset. -/
def load_address (rows local_heads head_size stride_row stride_head : ℕ) (offsets : ℤ) : ℤ :=
  let dim := offsets.tmod head_size
  let head_slot := offsets.tdiv head_size
  let local_head := head_slot.tmod local_heads
  let row_slot := head_slot.tdiv local_heads
  let row := row_slot.tmod rows
  let destination := row_slot.tdiv rows
  let global_head := destination * local_heads + local_head
  narrowed [head_size, local_heads, rows, stride_row] (row * stride_row)
    + narrowed [head_size, local_heads, rows, stride_head] (global_head * stride_head) + dim

/-- The sizes of a launch: `q.shape` and the share of the heads. -/
structure Launch where
  world_size : ℕ
  rows : ℕ
  heads : ℕ
  head_size : ℕ
  /-- the row and head strides of each operand -/
  stride_row : ℕ → ℕ
  stride_head : ℕ → ℕ

namespace Launch

def local_heads (p : Launch) : ℕ := p.heads / p.world_size

def total_elements (p : Launch) : ℕ := p.rows * p.heads * p.head_size

/-- The lanes of the grid: `cdiv(total_elements, 1024)` blocks. -/
def lanes (p : Launch) : ℕ := (p.total_elements + 1023) / 1024 * 1024

/-- The elements between the first and the last entry of an operand. -/
def extent (p : Launch) (index : ℕ) : ℕ :=
  (p.rows - 1) * p.stride_row index + (p.heads - 1) * p.stride_head index + p.head_size

def load (p : Launch) (index : ℕ) (offsets : ℤ) : ℤ :=
  load_address p.rows p.local_heads p.head_size (p.stride_row index) (p.stride_head index) offsets

/-- No lane leaves its operands. -/
def Safe (p : Launch) : Prop :=
  ∀ lane < p.lanes, wrap32 lane < p.total_elements → ∀ index < 3,
    (0 ≤ p.load index (wrap32 lane) ∧ p.load index (wrap32 lane) < p.extent index) ∧
    (0 ≤ store_address p.head_size index (wrap32 lane)
      ∧ store_address p.head_size index (wrap32 lane) < 3 * p.total_elements)

instance (p : Launch) : Decidable p.Safe :=
  inferInstanceAs (Decidable (∀ lane < p.lanes, _ → ∀ index < 3, _))

/-- The stores of a lane. -/
def writes (p : Launch) (data : ℕ → ℕ → α) (lane : ℕ) : List (ℕ × α) :=
  if wrap32 lane < p.total_elements then
    (List.range 3).map (fun index => ((store_address p.head_size index (wrap32 lane)).toNat,
      data index (p.load index (wrap32 lane)).toNat))
  else []

/-- `_pack_qkv_destination_major_kernel`: the buffer after the launch. -/
def run (p : Launch) (data : ℕ → ℕ → α) (before fault : ℕ → α) : ℕ → α :=
  if p.Safe then
    ((List.range p.lanes).flatMap (p.writes data)).foldl
      (fun buffer w => Function.update buffer w.1 w.2) before
  else fault

end Launch

/-- The launch for three operands. -/
def launch_of (world_size : ℕ) (x : Qkv (Strided α)) : Launch where
  world_size := world_size
  rows := x.q.shape.getD 0 0
  heads := x.q.shape.getD 1 0
  head_size := x.q.shape.getD 2 0
  stride_row index := (x.part index).strides.getD 0 0
  stride_head index := (x.part index).strides.getD 1 0

/-- `pack_qkv_destination_major`, on a buffer with the given contents. Its argument checks
hold at both call sites. -/
def pack_qkv_destination_major (world_size : ℕ) (x : Qkv (Strided α)) (before fault : ℕ → α) :
    Tensor α :=
  let p := launch_of world_size x
  Tensor.of_flat [world_size, p.rows, p.local_heads, 3 * p.head_size]
    (if p.total_elements = 0 then before
      else p.run (fun index => (x.part index).data) before fault)

/-! ## When the addresses fit -/

/-- An offset `i * stride` with `i < n` fits, or the stride is passed with 64 bits. -/
def StrideFits (n stride : ℕ) : Prop := (n - 1) * stride < 2 ^ 31 ∨ 2 ^ 31 ≤ stride

instance (n stride : ℕ) : Decidable (StrideFits n stride) := inferInstanceAs (Decidable (_ ∨ _))

/-- Every address of a launch fits. -/
def Launch.Fits (p : Launch) : Prop :=
  3 * p.total_elements ≤ 2 ^ 31 + 2 * p.head_size ∧
    ∀ index < 3, StrideFits p.rows (p.stride_row index) ∧ StrideFits p.heads (p.stride_head index)

instance (p : Launch) : Decidable p.Fits := inferInstanceAs (Decidable (_ ∧ _))

variable {x : ℤ}

theorem wrap32_of_lt (h₀ : 0 ≤ x) (h : x < 2 ^ 31) : wrap32 x = x := by
  unfold wrap32
  rw [Int.bmod_def]
  omega

theorem narrowed_of_lt {args : List ℕ} {x : ℕ} (hargs : ∀ a ∈ args, a < 2 ^ 31) (h : x < 2 ^ 31) :
    narrowed args x = x := by
  unfold narrowed
  rw [if_pos hargs, wrap32_of_lt (by omega) (by omega)]

theorem narrowed_three {head_size : ℕ} (hsize : 3 * head_size < 2 ^ 31) :
    (∀ a ∈ [head_size], a < 2 ^ 31)
      ∧ narrowed [head_size] (3 * (head_size : ℤ)) = (3 * head_size : ℕ) := by
  have hargs : ∀ a ∈ [head_size], a < 2 ^ 31 := by
    intro a ha
    rw [mem_singleton] at ha
    omega
  refine ⟨hargs, ?_⟩
  rw [← narrowed_of_lt hargs hsize]
  rfl

theorem output_base_of_lt {head_size lane : ℕ} (hsize : 3 * head_size < 2 ^ 31)
    (h : lane / head_size * (3 * head_size) + lane % head_size < 2 ^ 31) :
    output_base head_size lane = (lane / head_size * (3 * head_size) + lane % head_size : ℕ) := by
  obtain ⟨hargs, h3⟩ := narrowed_three hsize
  unfold output_base
  dsimp only
  rw [← Int.ofNat_tmod, ← Int.ofNat_tdiv, h3]
  rw [show ((lane / head_size : ℕ) : ℤ) * ((3 * head_size : ℕ) : ℤ)
    = (lane / head_size * (3 * head_size) : ℕ) by push_cast; rfl,
    narrowed_of_lt hargs (by omega),
    show ((lane / head_size * (3 * head_size) : ℕ) : ℤ) + ((lane % head_size : ℕ) : ℤ)
      = (lane / head_size * (3 * head_size) + lane % head_size : ℕ) by push_cast; rfl,
    narrowed_of_lt hargs h]

namespace Launch

section Fits

variable {p : Launch}

/-- The conditions under which both callers launch the kernel. -/
structure Valid (p : Launch) : Prop where
  world : 2 ≤ p.world_size
  divides : p.heads % p.world_size = 0
  nonempty : 0 < p.total_elements

theorem Valid.sizes (h : p.Valid) : 0 < p.rows ∧ 2 ≤ p.heads ∧ 0 < p.head_size ∧ 0 < p.local_heads
      ∧ p.world_size * p.local_heads = p.heads := by
  have hne := h.nonempty
  have hprod := Nat.pos_of_mul_pos_right hne
  have hrows : 0 < p.rows := Nat.pos_of_mul_pos_right hprod
  have hheads : 0 < p.heads := Nat.pos_of_mul_pos_left hprod
  have hmul : p.world_size * p.local_heads = p.heads :=
    Nat.mul_div_cancel' (dvd_of_mod_eq_zero h.divides)
  have hlocal : 0 < p.local_heads := by
    rcases Nat.eq_zero_or_pos p.local_heads with h0 | h0
    · rw [h0] at hmul
      omega
    · exact h0
  refine ⟨hrows, ?_, Nat.pos_of_mul_pos_left hne, hlocal, hmul⟩
  calc 2 ≤ p.world_size * 1 := by have := h.world; omega
    _ ≤ p.world_size * p.local_heads := Nat.mul_le_mul_left _ hlocal
    _ = p.heads := hmul

theorem Valid.total_ge (h : p.Valid) : 2 * p.head_size ≤ p.total_elements := by
  obtain ⟨hrows, hheads, -, -, -⟩ := h.sizes
  calc 2 * p.head_size ≤ p.heads * p.head_size := Nat.mul_le_mul_right _ hheads
    _ = 1 * p.heads * p.head_size := by ring
    _ ≤ p.rows * p.heads * p.head_size :=
        Nat.mul_le_mul_right _ (Nat.mul_le_mul_right _ hrows)

variable {lane : ℕ}

theorem lane_lt (h : p.Valid) (hlane : lane < p.total_elements) :
    lane / p.head_size < p.rows * p.heads
      ∧ lane / p.head_size / p.local_heads / p.rows < p.world_size := by
  obtain ⟨-, -, -, -, hmul⟩ := h.sizes
  have hslot : lane / p.head_size < p.rows * p.heads :=
    Nat.div_lt_of_lt_mul (by rw [Nat.mul_comm]; exact hlane)
  refine ⟨hslot, ?_⟩
  rw [Nat.div_div_eq_div_mul]
  refine Nat.div_lt_of_lt_mul ?_
  calc lane / p.head_size < p.rows * p.heads := hslot
    _ = p.local_heads * p.rows * p.world_size := by rw [← hmul]; ring

theorem base_lt (h : p.Valid) (hfits : 3 * p.total_elements ≤ 2 ^ 31 + 2 * p.head_size)
    (hlane : lane < p.total_elements) :
    lane / p.head_size * (3 * p.head_size) + lane % p.head_size + 2 * p.head_size
        < 3 * p.total_elements
      ∧ lane / p.head_size * (3 * p.head_size) + lane % p.head_size < 2 ^ 31 := by
  obtain ⟨-, -, hsize, -, -⟩ := h.sizes
  have hslot := (lane_lt h hlane).1
  have hdim := mod_lt lane hsize
  have hle : (lane / p.head_size + 1) * (3 * p.head_size) ≤ 3 * p.total_elements := by
    calc (lane / p.head_size + 1) * (3 * p.head_size)
        ≤ p.rows * p.heads * (3 * p.head_size) := Nat.mul_le_mul_right _ hslot
      _ = 3 * (p.rows * p.heads * p.head_size) := by ring
  rw [Nat.add_mul] at hle
  omega

/-- The index of a lane's entry in an operand. -/
def row_of (p : Launch) (lane : ℕ) : ℕ := lane / p.head_size / p.local_heads % p.rows

def head_of (p : Launch) (lane : ℕ) : ℕ :=
  lane / p.head_size / p.local_heads / p.rows * p.local_heads
    + lane / p.head_size % p.local_heads

theorem entry_lt (h : p.Valid) (hlane : lane < p.total_elements) :
    p.row_of lane < p.rows ∧ p.head_of lane < p.heads := by
  obtain ⟨hrows, -, -, hlocal, hmul⟩ := h.sizes
  refine ⟨mod_lt _ hrows, ?_⟩
  have hdest := (lane_lt h hlane).2
  unfold head_of
  rw [Nat.mul_comm _ p.local_heads, ← hmul]
  exact Nat.mul_add_lt_mul_of_lt_of_lt hdest (mod_lt _ hlocal)

theorem narrowed_stride {args : List ℕ} {n i stride : ℕ} (hargs : ∀ a ∈ args, a < 2 ^ 31)
    (hi : i < n) (hfits : StrideFits n stride) :
    narrowed (args ++ [stride]) ((i : ℤ) * stride) = (i * stride : ℕ) := by
  rw [← Nat.cast_mul]
  rcases hfits with hlt | hge
  · have hle : i * stride ≤ (n - 1) * stride := Nat.mul_le_mul_right _ (by omega)
    rcases Nat.lt_or_ge stride (2 ^ 31) with hs | hs
    · refine narrowed_of_lt (fun a ha => ?_) (by omega)
      rcases mem_append.mp ha with ha | ha
      · exact hargs a ha
      · rw [mem_singleton] at ha
        omega
    · unfold narrowed
      rw [if_neg (fun hall => absurd (hall stride (by simp)) (by omega))]
  · unfold narrowed
    rw [if_neg (fun hall => absurd (hall stride (by simp)) (by omega))]

theorem sizes_lt (h : p.Valid) (htotal : p.total_elements < 2 ^ 31) :
    ∀ a ∈ [p.head_size, p.local_heads, p.rows], a < 2 ^ 31 := by
  obtain ⟨hrows, hheads, hsize, -, hmul⟩ := h.sizes
  have hge := h.total_ge
  have h1 : p.heads ≤ p.total_elements := by
    calc p.heads = 1 * p.heads * 1 := by ring
      _ ≤ p.rows * p.heads * p.head_size := Nat.mul_le_mul (Nat.mul_le_mul_right _ hrows) hsize
  have h2 : p.rows ≤ p.total_elements := by
    calc p.rows = p.rows * 1 * 1 := by ring
      _ ≤ p.rows * p.heads * p.head_size :=
          Nat.mul_le_mul (Nat.mul_le_mul_left _ (by omega)) hsize
  have h3 : p.local_heads ≤ p.heads := Nat.div_le_self _ _
  intro a ha
  simp only [mem_cons, not_mem_nil, or_false] at ha
  omega

theorem load_eq (p : Launch) (index lane : ℕ) : p.load index lane
      = narrowed [p.head_size, p.local_heads, p.rows, p.stride_row index]
          (p.row_of lane * p.stride_row index : ℕ)
        + narrowed [p.head_size, p.local_heads, p.rows, p.stride_head index]
          (p.head_of lane * p.stride_head index : ℕ) + (lane % p.head_size : ℕ) := by
  unfold load load_address
  rfl

theorem load_exact (h : p.Valid) (hfits : p.Fits) {index : ℕ} (hlane : lane < p.total_elements)
    (hindex : index < 3) : p.load index lane = (p.row_of lane * p.stride_row index
      + p.head_of lane * p.stride_head index + lane % p.head_size : ℕ) := by
  obtain ⟨hrow, hhead⟩ := entry_lt h hlane
  have hge := h.total_ge
  have hargs := sizes_lt h (show p.total_elements < 2 ^ 31 by have := hfits.1; omega)
  obtain ⟨hsr, hsh⟩ := hfits.2 index hindex
  have h1 := narrowed_stride hargs hrow hsr
  have h2 := narrowed_stride hargs hhead hsh
  simp only [cons_append, nil_append, ← Nat.cast_mul] at h1 h2
  rw [load_eq, h1, h2]
  rfl

/-- **The addresses of a launch that fits stay inside the operands.** -/
theorem safe_of_fits (h : p.Valid) (hfits : p.Fits) : p.Safe := by
  obtain ⟨hrows, hheads, hsize, -, hmul⟩ := h.sizes
  have htotal := h.total_ge
  have hsmall : p.total_elements ≤ 2 ^ 30 := by
    have := hfits.1
    omega
  have hlanes : p.lanes ≤ p.total_elements + 1023 := div_mul_le_self _ _
  intro lane hlane hmask index hindex
  rw [wrap32_of_lt (by omega) (by omega)] at hmask ⊢
  replace hmask : lane < p.total_elements := by omega
  obtain ⟨hrow, hhead⟩ := entry_lt h hmask
  obtain ⟨hbase, hbase'⟩ := base_lt h hfits.1 hmask
  have hdim := mod_lt lane hsize
  refine ⟨?_, ?_⟩
  · rw [load_exact h hfits hmask hindex]
    unfold extent
    have h1 : p.row_of lane * p.stride_row index ≤ (p.rows - 1) * p.stride_row index :=
      Nat.mul_le_mul_right _ (by omega)
    have h2 : p.head_of lane * p.stride_head index ≤ (p.heads - 1) * p.stride_head index :=
      Nat.mul_le_mul_right _ (by omega)
    omega
  · unfold store_address
    have hi : index * p.head_size ≤ 2 * p.head_size := Nat.mul_le_mul_right _ (by omega)
    rw [output_base_of_lt (by omega) hbase', ← Nat.cast_mul,
      narrowed_of_lt (by simp only [mem_singleton]; omega) (by omega)]
    omega

end Fits

end Launch

/-! ### Overflow

The other direction names a lane that leaves its operand. -/

theorem wrap32_of_ge' (h₀ : 2 ^ 31 ≤ x) (h : x < 2 ^ 32) : wrap32 x = x - 2 ^ 32 := by
  unfold wrap32
  rw [Int.bmod_def]
  omega

theorem wrap32_of_neg (h₀ : -2 ^ 31 ≤ x) (h : x < 0) : wrap32 x = x := by
  unfold wrap32
  rw [Int.bmod_def]
  omega

theorem output_base_neg {head_size slot dim : ℕ} (hsize : 3 * head_size < 2 ^ 31)
    (hdim : dim < head_size) (hge : 2 ^ 31 ≤ slot * (3 * head_size) + dim)
    (hlt : slot * (3 * head_size) + dim < 2 ^ 32) :
    output_base head_size (slot * head_size + dim : ℕ) < 0 := by
  obtain ⟨hargs, h3⟩ := narrowed_three hsize
  have hdiv : (slot * head_size + dim) / head_size = slot := by
    rw [Nat.add_comm, add_mul_div_right _ _ (by omega), div_eq_of_lt hdim, Nat.zero_add]
  have hmod : (slot * head_size + dim) % head_size = dim := by
    rw [Nat.add_comm, add_mul_mod_self_right, mod_eq_of_lt hdim]
  unfold output_base
  dsimp only
  rw [← Int.ofNat_tmod, ← Int.ofNat_tdiv, h3, hdiv, ← Nat.cast_mul]
  unfold narrowed
  rw [if_pos hargs, if_pos hargs]
  -- the product leaves the 32 bits by itself, or the dimension takes it out
  rcases Nat.lt_or_ge (slot * (3 * head_size)) (2 ^ 31) with hprod | hprod
  · rw [wrap32_of_lt (x := (slot * (3 * head_size) : ℕ)) (by omega) (by omega),
      wrap32_of_ge' (by omega) (by omega)]
    omega
  · rw [wrap32_of_ge' (x := (slot * (3 * head_size) : ℕ)) (by omega) (by omega),
      wrap32_of_neg (by omega) (by omega)]
    omega

namespace Launch

section Overflow

variable {p : Launch}

theorem total_le_lanes : p.total_elements ≤ p.lanes := by
  unfold lanes
  omega

theorem base_nonneg_of_safe (hsafe : p.Safe) {lane : ℕ} (hmem : lane < p.total_elements)
    (hlane : lane < 2 ^ 31) (hsize : p.head_size < 2 ^ 31) : 0 ≤ output_base p.head_size lane := by
  have hwrap : wrap32 (lane : ℤ) = lane := wrap32_of_lt (by omega) (by omega)
  have hlanes := total_le_lanes (p := p)
  have hstore := (hsafe lane (by omega) (by rw [hwrap]; omega) 0 (by omega)).2.1
  have hzero : narrowed [p.head_size] (((0 : ℕ) : ℤ) * p.head_size) = 0 := by
    rw [← Nat.cast_mul, Nat.zero_mul]
    exact narrowed_of_lt (by simp only [mem_singleton]; omega) (by omega)
  unfold store_address at hstore
  rw [hwrap] at hstore
  omega

theorem slot_lt_of_safe (hsafe : p.Safe) (hsize : 3 * p.head_size < 2 ^ 31) {slot dim : ℕ}
    (hdim : dim < p.head_size) (hslot : slot < p.rows * p.heads)
    (hlt : slot * (3 * p.head_size) + dim < 2 ^ 31 + 3 * p.head_size) :
    slot * (3 * p.head_size) + dim < 2 ^ 31 := by
  by_contra hge
  have hmem : slot * p.head_size + dim < p.total_elements := by
    rw [Nat.mul_comm slot]
    exact Nat.mul_add_lt_mul_of_lt_of_lt hslot hdim
  have hneg : output_base p.head_size (slot * p.head_size + dim : ℕ) < 0 :=
    output_base_neg hsize hdim (by omega) (by omega)
  have hthree : slot * (3 * p.head_size) = 3 * (slot * p.head_size) := by ring
  have hlane : slot * p.head_size + dim < 2 ^ 31 := by omega
  exact absurd (base_nonneg_of_safe hsafe hmem hlane (by omega)) (by omega)

theorem total_le_of_safe (h : p.Valid) (hsafe : p.Safe) :
    3 * p.total_elements ≤ 2 ^ 31 + 2 * p.head_size := by
  by_contra hbig
  obtain ⟨-, -, hsize, -, -⟩ := h.sizes
  have hlanes := total_le_lanes (p := p)
  have hslots : p.total_elements = p.rows * p.heads * p.head_size := rfl
  rcases Nat.lt_or_ge (3 * p.head_size) (2 ^ 31) with h3 | h3
  · -- the first base at or behind `2 ^ 31`
    have hpos : 0 < 3 * p.head_size := by omega
    obtain ⟨k, e, hdm, hmod⟩ :
        ∃ k e, k * (3 * p.head_size) + e = 2 ^ 31 ∧ e < 3 * p.head_size :=
      ⟨_, _, div_add_mod' (2 ^ 31) (3 * p.head_size), mod_lt (2 ^ 31) hpos⟩
    have hthree : p.rows * p.heads * (3 * p.head_size) = 3 * p.total_elements := by
      rw [hslots]
      ring
    rcases Nat.lt_or_ge e p.head_size with he | he
    · have hslot : k < p.rows * p.heads := by
        by_contra hge
        have := Nat.mul_le_mul_right (3 * p.head_size) (Nat.not_lt.mp hge)
        omega
      have := slot_lt_of_safe hsafe h3 he hslot (by omega)
      omega
    · have hnext : (k + 1) * (3 * p.head_size) = k * (3 * p.head_size) + 3 * p.head_size := by ring
      have hslot : k + 1 < p.rows * p.heads := by
        by_contra hge
        have := Nat.mul_le_mul_right (3 * p.head_size) (Nat.not_lt.mp hge)
        omega
      have := slot_lt_of_safe hsafe h3 hsize hslot (by omega)
      omega
  rcases Nat.lt_or_ge p.head_size (2 ^ 30) with h30 | h30
  · -- `3 * head_size` itself is negative: the first lane of the second head
    have hargs : ∀ a ∈ [p.head_size], a < 2 ^ 31 := by
      simp only [mem_singleton]
      omega
    have hwrap : wrap32 (p.head_size : ℕ) = (p.head_size : ℕ) := wrap32_of_lt (by omega) (by omega)
    have hstore := (hsafe p.head_size (by omega) (by rw [hwrap]; omega) 0 (by omega)).2.1
    rw [hwrap] at hstore
    unfold store_address output_base narrowed at hstore
    rw [← Int.ofNat_tmod, ← Int.ofNat_tdiv, mod_self, Nat.div_self hsize] at hstore
    simp only [if_pos hargs, Nat.cast_one, one_mul, Nat.cast_zero, add_zero, zero_mul] at hstore
    have hthree : wrap32 (3 * (p.head_size : ℤ)) = 3 * (p.head_size : ℤ) - 2 ^ 32 :=
      wrap32_of_ge' (by omega) (by omega)
    have hkeep : wrap32 (3 * (p.head_size : ℤ) - 2 ^ 32) = 3 * (p.head_size : ℤ) - 2 ^ 32 :=
      wrap32_of_neg (by omega) (by omega)
    have hzero : wrap32 0 = 0 := wrap32_of_lt (by omega) (by omega)
    rw [hthree, hkeep] at hstore
    omega
  rcases Nat.lt_or_ge p.head_size (2 ^ 31) with h31 | h31
  · -- `2 * head_size` is negative: the first lane
    have hargs : ∀ a ∈ [p.head_size], a < 2 ^ 31 := by
      simp only [mem_singleton]
      omega
    have hzero : wrap32 0 = 0 := wrap32_of_lt (by omega) (by omega)
    have hstore := (hsafe 0 (by omega) (by rw [Nat.cast_zero]; omega) 2 (by omega)).2.1
    unfold store_address output_base narrowed at hstore
    rw [Nat.cast_zero] at hstore
    simp only [if_pos hargs, Int.zero_tmod, Int.zero_tdiv, zero_mul, hzero, zero_add]
      at hstore
    rw [wrap32_of_ge' (x := ((2 : ℕ) : ℤ) * (p.head_size : ℤ)) (by omega) (by omega)] at hstore
    omega
  · -- lanes from `2 ^ 31` on have a negative offset
    have hargs : ¬ ∀ a ∈ [p.head_size], a < 2 ^ 31 := by
      simp only [mem_singleton, forall_eq]
      omega
    have hwrap : wrap32 ((2 ^ 31 : ℕ) : ℤ) = -((2 ^ 31 : ℕ) : ℤ) := by
      rw [wrap32_of_ge' (by omega) (by omega)]
      norm_num
    have hstore := (hsafe (2 ^ 31) (by omega) (by rw [hwrap]; omega) 0 (by omega)).2.1
    rw [hwrap] at hstore
    unfold store_address output_base narrowed at hstore
    rw [Int.neg_tmod, Int.neg_tdiv, ← Int.ofNat_tmod, ← Int.ofNat_tdiv] at hstore
    simp only [if_neg hargs] at hstore
    have hdm := div_add_mod' (2 ^ 31) p.head_size
    have hcast : -((2 ^ 31 / p.head_size : ℕ) : ℤ) * (3 * (p.head_size : ℤ))
        + -((2 ^ 31 % p.head_size : ℕ) : ℤ)
        = -((3 * (2 ^ 31 / p.head_size * p.head_size) + 2 ^ 31 % p.head_size : ℕ) : ℤ) := by
      push_cast
      ring
    omega

end Overflow

end Launch

theorem exists_overflow {n stride : ℕ} (h : ¬ StrideFits n stride) :
    ∃ i < n, 2 ^ 31 ≤ i * stride ∧ i * stride < 2 ^ 32 ∧ stride < 2 ^ 31 := by
  unfold StrideFits at h
  rw [not_or, Nat.not_le] at h
  obtain ⟨hge, hlt⟩ := h
  have hpos : 0 < stride := by
    rcases Nat.eq_zero_or_pos stride with rfl | hpos
    · omega
    · exact hpos
  obtain ⟨k, e, hdm, hmod⟩ : ∃ k e, k * stride + e = 2 ^ 31 - 1 ∧ e < stride :=
    ⟨_, _, div_add_mod' (2 ^ 31 - 1) stride, mod_lt (2 ^ 31 - 1) hpos⟩
  have hnext : (k + 1) * stride = k * stride + stride := by ring
  refine ⟨k + 1, ?_, by omega, by omega, hlt⟩
  by_contra hle
  have := Nat.mul_le_mul_right stride (show n - 1 ≤ k by omega)
  omega

theorem narrowed_neg {args : List ℕ} {x : ℕ} (hargs : ∀ a ∈ args, a < 2 ^ 31) (hge : 2 ^ 31 ≤ x)
    (hlt : x < 2 ^ 32) : narrowed args x = x - 2 ^ 32 := by
  unfold narrowed
  rw [if_pos hargs]
  exact wrap32_of_ge' (by omega) (by omega)

namespace Launch

section Overflow

variable {p : Launch}

def lane_of (p : Launch) (destination row local_head dim : ℕ) : ℕ :=
  ((destination * p.rows + row) * p.local_heads + local_head) * p.head_size + dim

theorem lane_of_spec (h : p.Valid) {destination row local_head dim : ℕ}
    (hdest : destination < p.world_size) (hrow : row < p.rows) (hlocal : local_head < p.local_heads)
    (hdim : dim < p.head_size) : p.lane_of destination row local_head dim < p.total_elements ∧
    p.lane_of destination row local_head dim % p.head_size = dim ∧
    p.lane_of destination row local_head dim / p.head_size
      = (destination * p.rows + row) * p.local_heads + local_head ∧
    p.row_of (p.lane_of destination row local_head dim) = row ∧
    p.head_of (p.lane_of destination row local_head dim)
      = destination * p.local_heads + local_head := by
  obtain ⟨hrows, -, hsize, hlocal', hmul⟩ := h.sizes
  have hdiv : p.lane_of destination row local_head dim / p.head_size
      = (destination * p.rows + row) * p.local_heads + local_head := by
    unfold lane_of
    rw [Nat.add_comm, add_mul_div_right _ _ hsize, div_eq_of_lt hdim, Nat.zero_add]
  have hmod : p.lane_of destination row local_head dim % p.head_size = dim := by
    unfold lane_of
    rw [Nat.add_comm, add_mul_mod_self_right, mod_eq_of_lt hdim]
  have hslot : ((destination * p.rows + row) * p.local_heads + local_head) / p.local_heads
      = destination * p.rows + row := by
    rw [Nat.add_comm, add_mul_div_right _ _ hlocal', div_eq_of_lt hlocal, Nat.zero_add]
  have hslot' : ((destination * p.rows + row) * p.local_heads + local_head) % p.local_heads
      = local_head := by
    rw [Nat.add_comm, add_mul_mod_self_right, mod_eq_of_lt hlocal]
  refine ⟨?_, hmod, hdiv, ?_, ?_⟩
  · have hplace : p.rows * destination + row < p.world_size * p.rows :=
      Nat.mul_add_lt_mul_of_lt_of_lt hdest hrow
    have hhead := Nat.mul_add_lt_mul_of_lt_of_lt hplace hlocal
    have hlane := Nat.mul_add_lt_mul_of_lt_of_lt hhead hdim
    calc ((destination * p.rows + row) * p.local_heads + local_head) * p.head_size + dim
        = p.head_size * (p.local_heads * (p.rows * destination + row) + local_head) + dim := by ring
      _ < p.world_size * p.rows * p.local_heads * p.head_size := hlane
      _ = p.rows * (p.world_size * p.local_heads) * p.head_size := by ring
      _ = p.rows * p.heads * p.head_size := by rw [hmul]
  · unfold row_of
    rw [hdiv, hslot, Nat.add_comm, add_mul_mod_self_right, mod_eq_of_lt hrow]
  · unfold head_of
    rw [hdiv, hslot, hslot', Nat.add_comm (destination * p.rows), add_mul_div_right _ _ hrows,
      div_eq_of_lt hrow, Nat.zero_add]

theorem load_nonneg_of_safe (hsafe : p.Safe) {lane index : ℕ} (hmem : lane < p.total_elements)
    (hlane : lane < 2 ^ 31) (hindex : index < 3) : 0 ≤ p.load index lane := by
  have hwrap : wrap32 (lane : ℤ) = lane := wrap32_of_lt (by omega) (by omega)
  have hlanes := total_le_lanes (p := p)
  have hload := (hsafe lane (by omega) (by rw [hwrap]; omega) index hindex).1.1
  rw [hwrap] at hload
  exact hload

/-- **The addresses of a launch that stays inside its operands fit.** -/
theorem fits_of_safe (h : p.Valid) (hsafe : p.Safe) : p.Fits := by
  obtain ⟨hrows, -, hsize, hlocal, hmul⟩ := h.sizes
  have hbound := total_le_of_safe h hsafe
  have hge := h.total_ge
  have hsmall : p.total_elements < 2 ^ 31 := by omega
  have hargs := sizes_lt h hsmall
  have hargs' : ∀ stride < 2 ^ 31, ∀ a ∈ [p.head_size, p.local_heads, p.rows, stride],
      a < 2 ^ 31 := by
    intro stride hstride a ha
    simp only [mem_cons, not_mem_nil, or_false] at ha hargs
    rcases ha with ha | ha | ha | ha
    · exact hargs a (by simp [ha])
    · exact hargs a (by simp [ha])
    · exact hargs a (by simp [ha])
    · omega
  have hzero : ∀ args : List ℕ, narrowed args ((0 : ℕ) : ℤ) = 0 := by
    intro args
    unfold narrowed
    split
    · exact wrap32_of_lt (by omega) (by omega)
    · rfl
  refine ⟨hbound, fun index hindex => ⟨?_, ?_⟩⟩
  · by_contra hnot
    obtain ⟨row, hrow, hlo, hhi, hstride⟩ := exists_overflow hnot
    obtain ⟨hmem, hmod, -, hrow', hhead'⟩ := lane_of_spec h
      (show 0 < p.world_size from Nat.lt_of_lt_of_le Nat.two_pos h.world) hrow hlocal hsize
    have hload := load_nonneg_of_safe hsafe hmem (by omega) hindex
    rw [load_eq, hrow', hhead', Nat.zero_mul, Nat.zero_mul, hzero,
      narrowed_neg (hargs' _ hstride) hlo hhi] at hload
    omega
  · by_contra hnot
    obtain ⟨head, hhead, hlo, hhi, hstride⟩ := exists_overflow hnot
    have hdest : head / p.local_heads < p.world_size :=
      Nat.div_lt_of_lt_mul (by rw [Nat.mul_comm, hmul]; exact hhead)
    obtain ⟨hmem, hmod, -, hrow', hhead'⟩ := lane_of_spec h hdest hrows
      (mod_lt head hlocal) hsize
    have hload := load_nonneg_of_safe hsafe hmem (by omega) hindex
    rw [load_eq, hrow', hhead', div_add_mod', Nat.zero_mul, hzero,
      narrowed_neg (hargs' _ hstride) hlo hhi] at hload
    omega

end Overflow

end Launch

/-! ## What the buffer holds -/

theorem foldl_update_of_mem {ws : List (ℕ × α)} {a : ℕ} {v : α}
    (hagree : ∀ v', (a, v') ∈ ws → v' = v) : ∀ before : ℕ → α, ((a, v) ∈ ws ∨ before a = v) →
      ws.foldl (fun buffer w => Function.update buffer w.1 w.2) before a = v := by
  induction ws with
  | nil =>
    intro before h
    rcases h with h | h
    · exact absurd h not_mem_nil
    · exact h
  | cons w rest ih =>
    intro before h
    rw [foldl_cons]
    refine ih (fun v' hv' => hagree v' (mem_cons_of_mem _ hv')) _ ?_
    by_cases hw : a = w.1
    · right
      rw [hw, Function.update_self]
      exact hagree w.2 (by rw [hw]; exact mem_cons_self)
    · rw [Function.update_of_ne hw]
      rcases h with h | h
      · rcases mem_cons.mp h with h | h
        · exact absurd (by rw [← h]) hw
        · exact .inl h
      · exact .inr h

theorem address_unique {size slot slot' index index' dim dim' : ℕ} (hdim : dim < size)
    (hdim' : dim' < size) (hindex : index < 3) (hindex' : index' < 3)
    (h : slot * (3 * size) + dim + index * size = slot' * (3 * size) + dim' + index' * size) :
    slot = slot' ∧ index = index' ∧ dim = dim' := by
  have hrest : ∀ i d, i < 3 → d < size → d + i * size < 3 * size := by
    intro i d hi hd
    have := Nat.mul_le_mul_right size (show i ≤ 2 by omega)
    omega
  have hdigit : ∀ {n a b q k : ℕ}, a < n → b < n → a + q * n = b + k * n → q = k := by
    intro n a b q k ha hb heq
    have hdiv := congrArg (· / n) heq
    have hn : 0 < n := by omega
    simpa [add_mul_div_right _ _ hn, div_eq_of_lt ha, div_eq_of_lt hb] using hdiv
  obtain rfl : slot = slot' :=
    hdigit (hrest index dim hindex hdim) (hrest index' dim' hindex' hdim') (by omega)
  obtain rfl : index = index' := hdigit hdim hdim' (by omega)
  exact ⟨rfl, rfl, by omega⟩

namespace Launch

section Run

variable {p : Launch} {data : ℕ → ℕ → α} {before fault : ℕ → α}

theorem store_exact (h : p.Valid) (hfits : p.Fits) {lane index : ℕ}
    (hlane : lane < p.total_elements) (hindex : index < 3) : store_address p.head_size index lane
      = (lane / p.head_size * (3 * p.head_size) + lane % p.head_size + index * p.head_size : ℕ) := by
  obtain ⟨-, hbase⟩ := base_lt h hfits.1 hlane
  have hge := h.total_ge
  have hsmall := hfits.1
  have hi : index * p.head_size ≤ 2 * p.head_size := Nat.mul_le_mul_right _ (by omega)
  unfold store_address
  rw [output_base_of_lt (by omega) hbase, ← Nat.cast_mul,
    narrowed_of_lt (by simp only [mem_singleton]; omega) (by omega), ← Nat.cast_add]

theorem lane_of_mask (h : p.Valid) (hfits : p.Fits) {lane : ℕ} (hlane : lane < p.lanes) :
    wrap32 (lane : ℤ) = lane ∧ (wrap32 (lane : ℤ) < p.total_elements ↔ lane < p.total_elements) := by
  have hge := h.total_ge
  have hsmall := hfits.1
  have hlanes : p.lanes ≤ p.total_elements + 1023 := div_mul_le_self _ _
  have hwrap : wrap32 (lane : ℤ) = lane := wrap32_of_lt (by omega) (by omega)
  rw [hwrap]
  exact ⟨rfl, by omega⟩

/-- **A launch that fits packs the operands by destination.** -/
theorem run_get (h : p.Valid) (hfits : p.Fits) {destination row local_head index dim : ℕ}
    (hdest : destination < p.world_size) (hrow : row < p.rows) (hlocal : local_head < p.local_heads)
    (hindex : index < 3) (hdim : dim < p.head_size) :
    p.run data before fault (((destination * p.rows + row) * p.local_heads + local_head)
        * (3 * p.head_size) + dim + index * p.head_size) = data index (row * p.stride_row index
          + (destination * p.local_heads + local_head) * p.stride_head index + dim) := by
  obtain ⟨hmem, hmod, hdiv, hrow', hhead'⟩ := lane_of_spec h hdest hrow hlocal hdim
  obtain ⟨-, -, hsize, -, -⟩ := h.sizes
  have hlanes := total_le_lanes (p := p)
  unfold run
  rw [if_pos (safe_of_fits h hfits)]
  refine foldl_update_of_mem ?_ _ (.inl ?_)
  · intro v' hv'
    obtain ⟨lane, hlane, hw⟩ := mem_flatMap.mp hv'
    rw [mem_range] at hlane
    obtain ⟨hwrap, hmask⟩ := lane_of_mask h hfits hlane
    unfold writes at hw
    split at hw
    · rename_i hmem'
      replace hmem' := hmask.mp hmem'
      obtain ⟨index', hindex', heq⟩ := mem_map.mp hw
      rw [mem_range] at hindex'
      rw [hwrap, store_exact h hfits hmem' hindex', Int.toNat_natCast,
        load_exact h hfits hmem' hindex', Int.toNat_natCast] at heq
      obtain ⟨haddr, hval⟩ := Prod.mk.inj heq
      obtain ⟨hs, hi, hd⟩ := address_unique (mod_lt lane hsize) hdim hindex' hindex haddr
      have hlane_eq : lane = p.lane_of destination row local_head dim := by
        rw [← div_add_mod' lane p.head_size, hs, hd]
        rfl
      rw [← hval, hi, hlane_eq, hrow', hhead', hmod]
    · exact absurd hw not_mem_nil
  · refine mem_flatMap.mpr ⟨p.lane_of destination row local_head dim, mem_range.mpr (by omega), ?_⟩
    obtain ⟨hwrap, hmask⟩ := lane_of_mask h hfits (Nat.lt_of_lt_of_le hmem hlanes)
    unfold writes
    rw [if_pos (hmask.mpr hmem)]
    refine mem_map.mpr ⟨index, mem_range.mpr hindex, ?_⟩
    rw [hwrap, store_exact h hfits hmem hindex, Int.toNat_natCast,
      load_exact h hfits hmem hindex, Int.toNat_natCast, hrow', hhead', hmod, hdiv]

theorem run_of_not_fits (h : p.Valid) (hfits : ¬ p.Fits) : p.run data before fault = fault := by
  unfold run
  rw [if_neg (fun hsafe => hfits (fits_of_safe h hsafe))]

end Run

end Launch

end LightningH3.Ulysses
