/-
The buddy allocator of the transfer buffer
(`multimodal_gen/runtime/disaggregation/transport/allocator.py`, class `BuddyAllocator`).

The dictionary of blocks and the free lists are read as functions of the offset and of the order;
a lookup of a missing key and the removal of a missing entry raise. The lock makes the calls atomic
and is left out, and so are the statistics.
-/
import Mathlib.Algebra.BigOperators.Group.Finset.Basic
import LightningH3.Lib.Dyadic

set_option autoImplicit false

namespace LightningH3.BuddyAllocator

open Nat

inductive Fault
  | min_block_size_not_power_of_2
  | size_not_positive
  | missing_key
  | not_in_list
  | out_of_fuel
  deriving DecidableEq, Repr

structure Block where
  offset : ℕ
  size : ℕ
  allocated : Bool
  request_id : Option String

structure Allocator where
  min_block_size : ℕ
  pool_size : ℕ
  max_order : ℕ
  free_lists : ℕ → List ℕ
  blocks : ℕ → Option Block
  allocated_bytes : ℤ
  num_allocations : ℤ

/-- `_next_power_of_2`: the bits of `n - 1` smeared to the right. -/
def next_power_of_2 (n : ℤ) : ℕ :=
  if n ≤ 0 then 1
  else
    let n := n.toNat - 1
    let n := n ||| n >>> 1
    let n := n ||| n >>> 2
    let n := n ||| n >>> 4
    let n := n ||| n >>> 8
    let n := n ||| n >>> 16
    let n := n ||| n >>> 32
    n + 1

/-- The loop of `_size_to_order`, with `s` the size of the order reached. -/
def size_to_order_loop (size : ℕ) : ℕ → ℕ → ℕ → ℕ
  | 0, _, order => order
  | fuel + 1, s, order =>
    if s < size then size_to_order_loop size fuel (s <<< 1) (order + 1) else order

def size_to_order (min_block_size size : ℕ) : ℕ :=
  size_to_order_loop size size min_block_size 0

/-- `__init__` -/
def init (pool_size : ℤ) (min_block_size : ℕ) : Except Fault Allocator :=
  if min_block_size = 0 ∨ min_block_size &&& (min_block_size - 1) ≠ 0 then
    .error .min_block_size_not_power_of_2
  else
    let pool_size := next_power_of_2 (max pool_size min_block_size)
    let max_order := size_to_order min_block_size pool_size
    .ok {
      min_block_size := min_block_size
      pool_size := pool_size
      max_order := max_order
      free_lists := fun order => if order = max_order then [0] else []
      blocks := fun offset => if offset = 0 then some ⟨0, pool_size, false, none⟩ else none
      allocated_bytes := 0
      num_allocations := 0 }

section ops

variable (s : Allocator)

/-- The splits of `_allocate_locked`, from the order of the block found down to the target order. -/
def split_down (offset target_order : ℕ) : Allocator → Block → ℕ → Allocator × Block
  | s, block, 0 => (s, block)
  | s, block, found_order + 1 =>
    if found_order + 1 > target_order then
      let buddy_size := s.min_block_size <<< found_order
      let buddy_offset := offset + buddy_size
      let block := { block with size := buddy_size }
      split_down offset target_order
        { s with
          blocks := Function.update
            (Function.update s.blocks buddy_offset (some ⟨buddy_offset, buddy_size, false, none⟩))
            offset (some block)
          free_lists := Function.update s.free_lists found_order
            (s.free_lists found_order ++ [buddy_offset]) }
        block found_order
    else (s, block)

/-- The first order from `target_order` on with a free block. -/
def find_order (target_order : ℕ) : Option ℕ :=
  (List.range' target_order (s.max_order + 1 - target_order)).find? fun order =>
    !(s.free_lists order).isEmpty

def allocate_locked (target_order : ℕ) (request_id : Option String) :
    Except Fault (Allocator × Option ℕ) :=
  match find_order s target_order with
  | none => .ok (s, none)
  | some found_order =>
    match s.free_lists found_order with
    | [] => .error .not_in_list
    | offset :: rest =>
      match s.blocks offset with
      | none => .error .missing_key
      | some block =>
        let (s, block) := split_down offset target_order
          { s with free_lists := Function.update s.free_lists found_order rest }
          block found_order
        .ok ({ s with
          blocks := Function.update s.blocks offset
            (some { block with allocated := true, request_id := request_id })
          allocated_bytes := s.allocated_bytes + block.size
          num_allocations := s.num_allocations + 1 }, some offset)

def allocate (size : ℤ) (request_id : Option String) : Except Fault (Allocator × Option ℕ) :=
  if size ≤ 0 then .error .size_not_positive
  else
    let alloc_size := max (next_power_of_2 size) s.min_block_size
    let target_order := size_to_order s.min_block_size alloc_size
    if target_order > s.max_order then .ok (s, none)
    else allocate_locked s target_order request_id

/-- The end of `_coalesce`: the block goes to its free list. -/
def list_block (block : Block) : Allocator :=
  let order := size_to_order s.min_block_size block.size
  { s with free_lists := Function.update s.free_lists order (s.free_lists order ++ [block.offset]) }

def coalesce : ℕ → Allocator → Block → Except Fault Allocator
  | 0, _, _ => .error .out_of_fuel
  | fuel + 1, s, block =>
    if block.size < s.pool_size then
      let buddy_offset := block.offset ^^^ block.size
      match s.blocks buddy_offset with
      | none => .ok (list_block s block)
      | some buddy =>
        if buddy.allocated || buddy.size != block.size then .ok (list_block s block)
        else
          let order := size_to_order s.min_block_size buddy.size
          if buddy_offset ∉ s.free_lists order then .error .not_in_list
          else
            let free_lists :=
              Function.update s.free_lists order ((s.free_lists order).erase buddy_offset)
            if buddy_offset < block.offset then
              let buddy := { buddy with size := buddy.size * 2 }
              coalesce fuel { s with
                free_lists := free_lists
                blocks := Function.update (Function.update s.blocks block.offset none)
                  buddy_offset (some buddy) } buddy
            else
              let block := { block with size := block.size * 2 }
              coalesce fuel { s with
                free_lists := free_lists
                blocks := Function.update (Function.update s.blocks buddy_offset none)
                  block.offset (some block) } block
    else .ok (list_block s block)

/-- `free`, with one round of `_coalesce` for each order there is. -/
def free (offset : ℕ) : Except Fault (Allocator × Bool) :=
  match s.blocks offset with
  | none => .ok (s, false)
  | some block =>
    if !block.allocated then .ok (s, false)
    else do
      let block := { block with allocated := false, request_id := none }
      let s ← coalesce (s.max_order + 1) { s with
        blocks := Function.update s.blocks offset (some block)
        allocated_bytes := s.allocated_bytes - block.size
        num_allocations := s.num_allocations - 1 } block
      pure (s, true)

end ops

/-! ## Powers of two -/

section powers

variable {n : ℕ}

theorem testBit_smear {m k : ℕ} (h : ∀ i, m.testBit i = true ↔ ∃ j < k, n.testBit (i + j) = true)
    (i : ℕ) : (m ||| m >>> k).testBit i = true ↔ ∃ j < 2 * k, n.testBit (i + j) = true := by
  rw [testBit_or, testBit_shiftRight, Bool.or_eq_true, h, h]
  constructor
  · rintro (⟨j, hj, hb⟩ | ⟨j, hj, hb⟩)
    · exact ⟨j, by omega, hb⟩
    · refine ⟨k + j, by omega, ?_⟩
      rwa [← Nat.add_assoc, Nat.add_comm i k]
  · rintro ⟨j, hj, hb⟩
    by_cases hlt : j < k
    · exact .inl ⟨j, hlt, hb⟩
    · refine .inr ⟨j - k, by omega, ?_⟩
      rwa [show k + i + (j - k) = i + j by omega]

/-- **`_next_power_of_2`** is one more than `n - 1` with each bit smeared over 64 places. -/
theorem next_power_of_2_eq {n : ℤ} (hn : 0 < n) : ∃ m, next_power_of_2 n = m + 1 ∧
    ∀ i, m.testBit i = true ↔ ∃ j < 64, (n.toNat - 1).testBit (i + j) = true := by
  refine ⟨_, by rw [next_power_of_2, if_neg (by omega)], ?_⟩
  have h₀ : ∀ i, (n.toNat - 1).testBit i = true ↔
      ∃ j < 1, (n.toNat - 1).testBit (i + j) = true := by
    intro i
    constructor
    · exact fun h => ⟨0, Nat.one_pos, h⟩
    · rintro ⟨j, hj, h⟩
      rwa [lt_one_iff.mp hj] at h
  exact testBit_smear (testBit_smear (testBit_smear (testBit_smear (testBit_smear
    (testBit_smear h₀)))))

/-- Below its leading bit the number has no 64 zero bits in a row. -/
def NoGap (n : ℕ) : Prop := ∀ i, 2 ^ i ≤ n → ∃ j < 64, n.testBit (i + j) = true

theorem noGap_of_lt (h : n < 2 ^ 64) : NoGap n := by
  intro i hi
  have hne : n ≠ 0 := by
    have := Nat.two_pow_pos i
    omega
  obtain ⟨top, htop, hmax⟩ := exists_most_significant_bit hne
  have hge : i ≤ top := by
    by_contra hlt
    have hsmall : n < 2 ^ i := by
      refine lt_pow_two_of_testBit n ?_
      intro k hk
      exact hmax k (by omega)
    omega
  have hlt : top < 64 := by
    by_contra hge'
    have := ge_two_pow_of_testBit htop
    have hpow := Nat.pow_le_pow_right (show 0 < 2 by omega) (Nat.not_lt.mp hge')
    omega
  exact ⟨top - i, by omega, by rwa [Nat.add_sub_cancel' hge]⟩

theorem testBit_two_pow_of_smear {m L : ℕ} (hL : n < 2 ^ L) (hge : 0 < L → 2 ^ (L - 1) ≤ n)
    (hgap : NoGap n) (h : ∀ i, m.testBit i = true ↔ ∃ j < 64, n.testBit (i + j) = true) :
    m + 1 = 2 ^ L := by
  have hm : m = 2 ^ L - 1 := by
    apply eq_of_testBit_eq
    intro i
    rw [testBit_two_pow_sub_one, Bool.eq_iff_iff, h, decide_eq_true_eq]
    constructor
    · rintro ⟨j, -, hb⟩
      have hpow := ge_two_pow_of_testBit hb
      have hlt : i + j < L := (Nat.pow_lt_pow_iff_right (by omega)).mp (Nat.lt_of_le_of_lt hpow hL)
      omega
    · intro hi
      apply hgap
      exact Nat.le_trans (Nat.pow_le_pow_right (by omega) (by omega)) (hge (by omega))
  omega

/-- **Exactly without a gap is the result a power of two.** -/
theorem next_power_of_2_iff {n : ℤ} (hn : 0 < n) :
    (∃ p, next_power_of_2 n = 2 ^ p) ↔ NoGap (n.toNat - 1) := by
  obtain ⟨m, hm, hbits⟩ := next_power_of_2_eq hn
  rw [hm]
  constructor
  · rintro ⟨p, hp⟩ i hi
    -- a leading bit of `n - 1` at or above `i` makes bit `i` of `2 ^ p - 1` set
    have hmp : m = 2 ^ p - 1 := by omega
    rw [← hbits i, hmp, testBit_two_pow_sub_one, decide_eq_true_eq]
    by_contra hlt
    have hne : n.toNat - 1 ≠ 0 := by
      have := Nat.two_pow_pos i
      omega
    obtain ⟨top, htop, hmax⟩ := exists_most_significant_bit hne
    have hge : i ≤ top := by
      by_contra hlt'
      have hsmall : n.toNat - 1 < 2 ^ i := by
        refine lt_pow_two_of_testBit _ ?_
        intro k hk
        exact hmax k (by omega)
      omega
    have hset := (hbits top).mpr ⟨0, by omega, htop⟩
    rw [hmp, testBit_two_pow_sub_one, decide_eq_true_eq] at hset
    omega
  · intro hgap
    by_cases hz : n.toNat - 1 = 0
    · refine ⟨0, testBit_two_pow_of_smear (by rw [hz]; decide) (fun h => absurd h (by omega)) hgap
        hbits⟩
    · obtain ⟨top, htop, hmax⟩ := exists_most_significant_bit hz
      refine ⟨top + 1, testBit_two_pow_of_smear ?_ ?_ hgap hbits⟩
      · refine lt_pow_two_of_testBit _ ?_
        intro k hk
        exact hmax k (by omega)
      · intro _
        exact ge_two_pow_of_testBit htop

theorem next_power_of_2_bounds {n : ℤ} (hn : 0 < n) : n ≤ next_power_of_2 n ∧
    ∀ k : ℕ, n ≤ (2 ^ k : ℕ) → next_power_of_2 n ≤ 2 ^ k := by
  obtain ⟨m, hm, hbits⟩ := next_power_of_2_eq hn
  constructor
  · have hle : n.toNat - 1 ≤ m := by
      apply le_of_testBit
      intro i hi
      exact (hbits i).mpr ⟨0, by omega, hi⟩
    omega
  · intro k hk
    have hlt : m < 2 ^ k := by
      refine lt_pow_two_of_testBit m ?_
      intro i hi
      rw [← Bool.not_eq_true, hbits]
      rintro ⟨j, -, hb⟩
      have hpow := ge_two_pow_of_testBit hb
      have := Nat.pow_le_pow_right (show 0 < 2 by omega) (show k ≤ i + j by omega)
      omega
    omega

/-- **`_size_to_order`**: the least order whose blocks hold `size`. -/
theorem size_to_order_loop_spec {a size : ℕ} {fuel order : ℕ} : size ≤ fuel + 2 ^ (a + order) →
    (∀ k < order, 2 ^ (a + k) < size) →
    size ≤ 2 ^ (a + size_to_order_loop size fuel (2 ^ (a + order)) order) ∧
      ∀ k < size_to_order_loop size fuel (2 ^ (a + order)) order, 2 ^ (a + k) < size := by
  induction fuel generalizing order with
  | zero =>
    intro hle hmin
    exact ⟨by simpa [size_to_order_loop] using hle, hmin⟩
  | succ fuel ih =>
    intro hle hmin
    unfold size_to_order_loop
    split
    · rename_i hlt
      have hpow : 2 ^ (a + order) <<< 1 = 2 ^ (a + (order + 1)) := by
        rw [Nat.shiftLeft_eq, Nat.pow_one, ← Nat.add_assoc, Nat.pow_succ]
      rw [hpow]
      apply ih
      · have hpos := Nat.two_pow_pos (a + order)
        omega
      · intro k hk
        rcases Nat.lt_succ_iff_lt_or_eq.mp hk with hk | rfl
        · exact hmin k hk
        · exact hlt
    · rename_i hge
      exact ⟨Nat.not_lt.mp hge, hmin⟩

theorem size_to_order_spec (a size : ℕ) : size ≤ 2 ^ (a + size_to_order (2 ^ a) size) ∧
    ∀ k < size_to_order (2 ^ a) size, 2 ^ (a + k) < size := by
  have h := @size_to_order_loop_spec a size size 0
    (Nat.le_add_right _ _) (fun k hk => absurd hk (Nat.not_lt_zero k))
  exact h

theorem size_to_order_pow (a k : ℕ) : size_to_order (2 ^ a) (2 ^ (a + k)) = k := by
  obtain ⟨hle, hmin⟩ := size_to_order_spec a (2 ^ (a + k))
  have h₁ : a + k ≤ a + size_to_order (2 ^ a) (2 ^ (a + k)) :=
    (Nat.pow_le_pow_iff_right (by omega)).mp hle
  by_contra hne
  exact Nat.lt_irrefl _ (hmin k (by omega))

end powers

end LightningH3.BuddyAllocator
