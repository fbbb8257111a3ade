/-
Which layers are streamed while the others stay on the GPU, and in which order they are fetched.

Under `strided` the streamed layers are the points of a ramp, rounded half to even. Two neighbouring
points are apart by more than the step of the ramp less one and by less than the step and one, also
where both are halves: a step that is an integer moves both points alike, and another step is never
at a bound. So the layers are distinct, and no two gaps differ by two.
-/
import Mathlib.Data.Int.Range
import Mathlib.Data.List.Rotate
import Mathlib.Data.List.Sort
import LightningH3.Lib.Rounding

set_option autoImplicit false

namespace LightningH3.LayerwiseOffload

open List Rounding

/-! ## 1. The code -/

def RESIDENCY_POLICY_LEADING : String := "leading"

def RESIDENCY_POLICY_STRIDED : String := "strided"

def RESIDENCY_POLICIES : List String := [RESIDENCY_POLICY_LEADING, RESIDENCY_POLICY_STRIDED]

/-- `unknown residency policy {policy!r}, expected one of {RESIDENCY_POLICIES}`; the policy is kept
as it is. -/
inductive ResidencyError where
  | unknown_policy (policy : String)
  deriving DecidableEq

/-- The indices of the layers that do not stay on the GPU. -/
def compute_streamed_layers (num_layers : ℕ) (resident_layers : ℤ) (policy : String) :
    Except ResidencyError (List ℤ) :=
  if policy ∉ RESIDENCY_POLICIES then .error (.unknown_policy policy)
  else
    let resident := min (max 0 resident_layers) num_layers
    let streamed_count := num_layers - resident
    if streamed_count ≤ 0 then .ok []
    else if resident ≤ 0 then .ok (Int.range 0 num_layers)
    else if policy = RESIDENCY_POLICY_LEADING then .ok (Int.range resident num_layers)
    else .ok ((range streamed_count.toNat).map
      (fun index : ℕ => nearest_even ((index : ℚ) * num_layers / streamed_count)))

/-- `bisect.bisect_right` on a sorted list: the entries that are not past `x`. -/
def bisect_right (a : List ℤ) (x : ℤ) : ℕ := (a.filter (· ≤ x)).length

/-- `_next_streamed`, from `_streamed_order`. -/
def next_streamed (streamed_order : List ℤ) (after count : ℤ) : List ℤ :=
  let total := streamed_order.length
  if total = 0 then []
  else
    let start := bisect_right streamed_order after
    (range (min count total).toNat).map
      (fun offset => streamed_order.getD ((start + offset) % total) 0)

/-! ## 2. What they are for -/

/-- The layers met when walking cyclically from `after + 1`: those past `after`, then the others
from the first on. -/
def cyclic_walk (num_layers : ℕ) (after : ℤ) : List ℤ :=
  (Int.range 0 num_layers).filter (after < ·) ++ (Int.range 0 num_layers).filter (· ≤ after)

/-- From the `i`-th layer to the next one; after the last one comes the first, a stack later. -/
def gap (num_layers : ℕ) (layers : List ℤ) (i : ℕ) : ℤ :=
  (layers ++ [layers.headD 0 + num_layers]).getD (i + 1) 0 - layers.getD i 0

/-! ## 3. A ramp -/

/-- The ramp that climbs to `n` in `count` steps. -/
def ramp (n count i : ℕ) : ℤ := nearest_even (i * n / count)

variable {n count : ℕ}

theorem ramp_of_mul {i : ℕ} {k : ℤ} (hc : 0 < count) (h : (i : ℚ) * n = k * count) :
    ramp n count i = k := by
  have hc' : (count : ℚ) ≠ 0 := by exact_mod_cast hc.ne'
  unfold ramp
  rw [h, mul_div_cancel_right₀ _ hc', nearest_even_intCast]

theorem ramp_zero (hc : 0 < count) : ramp n count 0 = 0 := ramp_of_mul hc (by simp)

theorem ramp_end (hc : 0 < count) : ramp n count count = n :=
  ramp_of_mul hc (by rw [Int.cast_natCast, mul_comm])

theorem ramp_step (i : ℕ) : (n / count : ℚ) - 1 < ramp n count (i + 1) - ramp n count i ∧
      (ramp n count (i + 1) - ramp n count i : ℚ) < n / count + 1 := by
  have hnext : ((i + 1 : ℕ) : ℚ) * n / count = i * n / count + n / count := by
    push_cast
    ring
  unfold ramp
  rw [hnext]
  refine nearest_even_add (fun m hm => ⟨i * m, ?_⟩)
  rw [mul_div_assoc, hm]
  push_cast
  rfl

theorem ramp_lt_succ (hc : 0 < count) (hle : count ≤ n) (i : ℕ) :
    ramp n count i < ramp n count (i + 1) := by
  have hstep : (1 : ℚ) ≤ n / count := by
    rw [le_div_iff₀ (by exact_mod_cast hc), one_mul]
    exact_mod_cast hle
  have hlow := (@ramp_step n count i).1
  have hlt : (ramp n count i : ℚ) < ramp n count (i + 1) := by linarith
  exact_mod_cast hlt

theorem gap_ramp {i : ℕ} (hi : i < count) : gap n ((range count).map (ramp n count)) i
    = ramp n count (i + 1) - ramp n count i := by
  have hc : 0 < count := by omega
  have hhead : ((range count).map (ramp n count)).headD 0 = 0 := by
    obtain ⟨m, rfl⟩ := Nat.exists_eq_add_one.mpr hc
    rw [range_succ_eq_map, map_cons, headD_cons, ramp_zero hc]
  have hnext : (range count).map (ramp n count) ++ [0 + (n : ℤ)]
      = (range (count + 1)).map (ramp n count) := by
    rw [range_succ, map_append, map_singleton, ramp_end hc, Int.zero_add]
  unfold gap
  rw [hhead, hnext]
  simp [hi]

theorem gap_ramp_le {i j : ℕ} (hi : i < count) (hj : j < count) :
    gap n ((range count).map (ramp n count)) i - gap n ((range count).map (ramp n count)) j
      ≤ 1 := by
  have hhigh := (@ramp_step n count i).2
  have hlow := (@ramp_step n count j).1
  have hlt : ((ramp n count (i + 1) - ramp n count i
      - (ramp n count (j + 1) - ramp n count j) : ℤ) : ℚ) < (2 : ℤ) := by
    push_cast
    linarith
  have := Int.cast_lt.mp hlt
  rw [gap_ramp hi, gap_ramp hj]
  omega

/-! ## 4. The streamed layers -/

/-- Layers of a stack, in order. -/
structure Streams (n : ℕ) (layers : List ℤ) : Prop where
  strict : layers.Pairwise (· < ·)
  bounds : ∀ l ∈ layers, 0 ≤ l ∧ l < n

theorem range_strict (a b : ℤ) : (Int.range a b).Pairwise (· < ·) := by
  unfold Int.range
  rw [pairwise_map]
  exact pairwise_lt_range.imp (fun h => by omega)

theorem streams_range {first : ℤ} (h : 0 ≤ first) : Streams n (Int.range first n) where
  strict := range_strict first n
  bounds l hl := by
    have := Int.mem_range_iff.mp hl
    omega

theorem streams_ramp (hle : count ≤ n) : Streams n ((range count).map (ramp n count)) := by
  rcases Nat.eq_zero_or_pos count with rfl | hc
  · exact ⟨Pairwise.nil, by simp⟩
  have hmono : StrictMono (ramp n count) := strictMono_nat_of_lt_succ (ramp_lt_succ hc hle)
  constructor
  · rw [pairwise_map]
    exact pairwise_lt_range.imp (fun h => hmono h)
  · intro l hl
    obtain ⟨i, hi, rfl⟩ := mem_map.mp hl
    have hlow := hmono.monotone (Nat.zero_le i)
    have hhigh := hmono (mem_range.mp hi)
    rw [ramp_zero hc] at hlow
    rw [ramp_end hc] at hhigh
    exact ⟨hlow, hhigh⟩

/-- Each branch of the code, as a range or as a ramp. -/
theorem compute_streamed_layers_eq {policy : String} (hpolicy : policy ∈ RESIDENCY_POLICIES)
    (n : ℕ) (r : ℤ) : compute_streamed_layers n r policy = .ok
      (if policy = RESIDENCY_POLICY_LEADING then Int.range (min (max r 0) n) n
      else (range (n - min (max r 0) n).toNat).map (ramp n (n - min (max r 0) n).toNat)) := by
  unfold compute_streamed_layers
  rw [if_neg (not_not.mpr hpolicy), max_comm 0 r]
  dsimp only
  generalize hres : min (max r 0) (n : ℤ) = resident
  split
  · next hnone =>
    have heq : resident = n := by omega
    subst heq
    simp [Int.range]
  · next hsome =>
    split
    · next hzero =>
      have heq : resident = 0 := by omega
      subst heq
      split
      · rfl
      · rw [Int.sub_zero, Int.toNat_natCast]
        refine congrArg _ (map_congr_left (fun i hi => ?_))
        have hn : 0 < n := by
          omega
        rw [Int.zero_add, ramp_of_mul (k := i) hn (by rw [Int.cast_natCast])]
    · next hpos =>
      split
      · rfl
      · refine congrArg _ (map_congr_left (fun i _ => ?_))
        unfold ramp
        have hcast : (((n - resident).toNat : ℕ) : ℚ) = ((n - resident : ℤ) : ℚ) := by
          rw [← Int.cast_natCast, Int.toNat_of_nonneg (by omega)]
        rw [hcast]

/-! ## 5. The order of fetching -/

variable {order : List ℤ}

theorem split_at (h : order.Pairwise (· < ·)) (x : ℤ) :
    order.filter (· ≤ x) ++ order.filter (x < ·) = order := by
  refine Pairwise.eq_of_mem_iff (r := (· < ·)) ?_ h (fun l => ?_)
  · rw [pairwise_append]
    refine ⟨h.filter _, h.filter _, fun a ha b hb => ?_⟩
    rw [mem_filter, decide_eq_true_eq] at ha hb
    omega
  · rw [mem_append, mem_filter, mem_filter, decide_eq_true_eq, decide_eq_true_eq, ← and_or_left]
    exact and_iff_left (le_or_gt l x)

theorem next_streamed_eq (h : order.Pairwise (· < ·)) (after count : ℤ) :
    next_streamed order after count = (order.filter (after < ·) ++ order.filter (· ≤ after)).take
        (min count order.length).toNat := by
  have hrotate := rotate_append_length_eq (order.filter (· ≤ after)) (order.filter (after < ·))
  rw [split_at h after] at hrotate
  rw [← hrotate]
  unfold next_streamed bisect_right
  dsimp only
  split
  · next hnone =>
    rw [length_eq_zero_iff.mp hnone]
    simp
  · next hsome =>
    refine ext_getElem (by simp) (fun i hi hi' => ?_)
    rw [getElem_map, getElem_range, getElem_take, getElem_rotate, Nat.add_comm,
      getD_eq_getElem?_getD, getElem?_eq_getElem, Option.getD_some]

theorem walk_streamed {layers : List ℤ} (h : Streams n layers) (after : ℤ) :
    (cyclic_walk n after).filter (· ∈ layers)
      = layers.filter (after < ·) ++ layers.filter (· ≤ after) := by
  have hall : (Int.range 0 n).filter (· ∈ layers) = layers := by
    refine Pairwise.eq_of_mem_iff (r := (· < ·)) ((range_strict 0 n).filter _) h.strict
      (fun l => ?_)
    rw [mem_filter, Int.mem_range_iff, decide_eq_true_eq]
    exact and_iff_right_of_imp (h.bounds l)
  unfold cyclic_walk
  rw [filter_append, filter_comm, filter_comm (· ∈ layers), hall]

/-- **The streamed layers and their order.** -/
theorem streamed_schedule {policy : String} (hpolicy : policy ∈ RESIDENCY_POLICIES) (n : ℕ)
    (r : ℤ) : ∃ layers, compute_streamed_layers n r policy = .ok layers ∧
      layers.Pairwise (· < ·) ∧ (∀ l ∈ layers, 0 ≤ l ∧ l < n) ∧
      (layers.length : ℤ) = n - min (max r 0) n ∧ (policy = RESIDENCY_POLICY_STRIDED →
        ∀ i < layers.length, ∀ j < layers.length, gap n layers i - gap n layers j ≤ 1) ∧
      ∀ after count, next_streamed layers after count
          = ((cyclic_walk n after).filter (· ∈ layers)).take (min count layers.length).toNat ∧
        (layers.length ≤ count → (next_streamed layers after count).Perm layers) := by
  refine ⟨_, compute_streamed_layers_eq hpolicy n r, ?_⟩
  generalize hres : min (max r 0) (n : ℤ) = resident
  have hbound : 0 ≤ resident ∧ resident ≤ n := by omega
  -- the layers of either policy are layers of the stack, in order
  have hstreams : Streams n (if policy = RESIDENCY_POLICY_LEADING then Int.range resident n
      else (range (n - resident).toNat).map (ramp n (n - resident).toNat)) := by
    split
    · exact streams_range hbound.1
    · exact streams_ramp (by omega)
  refine ⟨hstreams.strict, hstreams.bounds, ?_, ?_, ?_⟩
  · split
    · rw [Int.range, length_map, length_range]
      omega
    · rw [length_map, length_range]
      omega
  · rintro rfl
    rw [if_neg (by decide)]
    rw [length_map, length_range]
    exact fun i hi j hj => gap_ramp_le hi hj
  · intro after count
    have heq := next_streamed_eq hstreams.strict after count
    refine ⟨by rw [walk_streamed hstreams, heq], fun hfull => ?_⟩
    have hperm : (filter (after < ·) _ ++ filter (· ≤ after) _).Perm _ :=
      perm_append_comm.trans (Perm.of_eq (split_at hstreams.strict after))
    rw [heq, min_eq_right hfull, Int.toNat_natCast, take_of_length_le hperm.length_eq.le]
    exact hperm

theorem streamed_schedule_seven : ∃ layers,
    compute_streamed_layers 7 2 RESIDENCY_POLICY_STRIDED = .ok layers ∧ layers.Nodup := by
  obtain ⟨layers, hok, hstrict, _⟩ :=
    @streamed_schedule RESIDENCY_POLICY_STRIDED (by decide) 7 2
  exact ⟨layers, hok, hstrict.imp (fun h => h.ne)⟩

end LightningH3.LayerwiseOffload
