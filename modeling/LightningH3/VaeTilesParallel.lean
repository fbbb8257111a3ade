/-
Tile parallelism does not change the tiles.
-/
import LightningH3.VaeTilesAssemble

set_option autoImplicit false

namespace LightningH3.VaeTiles

open Fallible LocalEmbedding List

variable {A B : Type}

/-! ## The tasks of a rank -/

variable {num_tiles rank world_size k : ℕ}

theorem lt_task_count (hws : 0 < world_size) :
    k < (num_tiles - rank + world_size - 1) / world_size ↔ k * world_size + rank < num_tiles := by
  rw [Nat.lt_div_iff_mul_lt hws]
  constructor
  · intro h
    omega
  · intro h
    omega

theorem expected_tasks_eq (hrank : rank < world_size) (hle : world_size ≤ num_tiles) :
    expected_tasks num_tiles rank world_size
      = ((num_tiles - rank + world_size - 1) / world_size : ℕ) := by
  unfold expected_tasks
  rw [Int.natCast_ediv]
  congr 1
  omega

/-- **No rank is without tasks.** -/
theorem local_tile_indices_ne_nil (hrank : rank < world_size) (hle : world_size ≤ num_tiles) :
    local_tile_indices num_tiles rank world_size ≠ [] := by
  intro hnil
  have hlen := congrArg List.length hnil
  rw [local_tile_indices, py_range, length_range', length_nil] at hlen
  have hpos : 0 < (num_tiles - rank + world_size - 1) / world_size :=
    (lt_task_count (show 0 < world_size by omega)).mpr (by omega)
  omega

variable {size : ℕ}

theorem drop_take_flatten {xss : List (List A)} (hlen : ∀ xs ∈ xss, xs.length = size)
    (hk : k < xss.length) : (xss.flatten.drop (k * size)).take size = xss.getD k [] := by
  induction xss generalizing k with
  | nil => simp at hk
  | cons xs xss ih =>
    have hxs := hlen xs (by simp)
    rw [flatten_cons]
    cases k with
    | zero =>
      rw [Nat.zero_mul, drop_zero, take_append_of_le_length (by omega),
        take_of_length_le (by omega), getD_cons_zero]
    | succ k =>
      rw [Nat.add_mul, Nat.one_mul, Nat.add_comm (k * size), ← drop_drop, ← hxs, drop_left, hxs]
      exact ih (fun ys hys => hlen ys (by simp [hys])) (by simpa using hk)

/-- The coder treats batch entries independently. -/
def Independent (forward_fn : List A → List B) (f : A → B) : Prop :=
  ∀ batch, forward_fn batch = batch.map f

theorem run_tile_tasks_eq {tiles : List (List A)} {indices : List ℕ} {forward_fn : List A → List B}
    {f : A → B} (hf : Independent forward_fn f) (hlen : ∀ t ∈ tiles, t.length = size)
    (hidx : ∀ i ∈ indices, i < tiles.length) (stack_tiling : Bool) :
    run_tile_tasks tiles indices forward_fn stack_tiling
      = indices.map (fun i => (tiles.getD i []).map f) := by
  have hsize : ∀ i < tiles.length, (tiles.getD i []).length = size := by
    intro i hi
    rw [getD_eq_getElem _ _ hi]
    exact hlen _ (getElem_mem hi)
  unfold run_tile_tasks
  split
  · rename_i hstack
    simp only [Bool.and_eq_true, Bool.not_eq_true', isEmpty_eq_false_iff] at hstack
    obtain ⟨i₀, hi₀⟩ := exists_mem_of_ne_nil _ hstack.2
    have hfirst := hsize 0 (by have := hidx i₀ hi₀; omega)
    simp only [hf _, hfirst]
    refine ext_getElem (by simp) (fun k hk hk' => ?_)
    have hflat : (indices.flatMap (fun i => tiles.getD i [])).map f
        = (indices.map (fun i => (tiles.getD i []).map f)).flatten := by
      rw [List.flatMap, map_flatten, map_map]
      rfl
    have hparts : ∀ xs ∈ indices.map (fun i => (tiles.getD i []).map f), xs.length = size := by
      intro xs hxs
      obtain ⟨i, hi, rfl⟩ := mem_map.mp hxs
      rw [length_map, hsize i (hidx i hi)]
    rw [getElem_map, getElem_range, hflat, drop_take_flatten hparts (by simpa using hk'),
      getD_eq_getElem _ _ (by simpa using hk')]
  · refine map_congr_left (fun i _ => ?_)
    exact hf _

/-! ## The gather -/

theorem mod_div_of_lt (hrank : rank < world_size) :
    (k * world_size + rank) % world_size = rank ∧ (k * world_size + rank) / world_size = k := by
  rw [Nat.add_comm, Nat.add_mul_mod_self_right, Nat.mod_eq_of_lt hrank,
    Nat.add_mul_div_right _ _ (by omega), Nat.div_eq_of_lt hrank, Nat.zero_add]
  exact ⟨rfl, rfl⟩

/-- The results with some of the tiles filled in. -/
def partial_results (num_tiles : ℕ) (F : ℕ → B) (filled : ℕ → Prop) [DecidablePred filled] :
    List (Option B) :=
  (List.range num_tiles).map (fun g => if filled g then some (F g) else none)

variable {F : ℕ → B}

theorem set_partial_results {g : ℕ} {filled filled' : ℕ → Prop} [DecidablePred filled]
    [DecidablePred filled'] (h : ∀ i, filled' i ↔ filled i ∨ i = g) :
    (partial_results num_tiles F filled).set g (some (F g)) = partial_results num_tiles F filled' := by
  unfold partial_results
  refine ext_getElem (by simp) (fun i hi hi' => ?_)
  rw [getElem_set]
  simp only [getElem_map, getElem_range, h i]
  by_cases hig : g = i
  · subst hig
    simp
  · rw [if_neg hig]
    have : ¬ i = g := fun hc => hig hc.symm
    simp [this]

theorem gather_rank {stacked : List B} (hrank : rank < world_size)
    (hstacked : ∀ k, k * world_size + rank < num_tiles →
      stacked[k]? = some (F (k * world_size + rank))) :
    ∀ n, (∀ k < n, k * world_size + rank < num_tiles) →
      (List.range n).foldl (fun results k => results.set (k * world_size + rank) stacked[k]?)
          (partial_results num_tiles F (fun g => g % world_size < rank))
        = partial_results num_tiles F (fun g => g % world_size < rank
            ∨ (g % world_size = rank ∧ g / world_size < n)) := by
  intro n
  induction n with
  | zero =>
    intro _
    simp [partial_results]
  | succ n ih =>
    intro hn
    have hlt := hn n (by omega)
    rw [range_succ, foldl_append, ih (fun k hk => hn k (by omega)), foldl_cons, hstacked n hlt]
    refine set_partial_results (fun g => ?_)
    obtain ⟨hmod, hdiv⟩ := mod_div_of_lt (k := n) hrank
    constructor
    · rintro (h | ⟨h1, h2⟩)
      · exact Or.inl (Or.inl h)
      · rcases Nat.lt_succ_iff_lt_or_eq.mp h2 with h3 | h3
        · exact Or.inl (Or.inr ⟨h1, h3⟩)
        · refine Or.inr ?_
          have := Nat.div_add_mod g world_size
          rw [h3, Nat.mul_comm] at this
          omega
    · rintro ((h | ⟨h1, h2⟩) | rfl)
      · exact Or.inl h
      · exact Or.inr ⟨h1, by omega⟩
      · exact Or.inr ⟨hmod, by omega⟩

/-- **The gather restores the order.** Every rank gets all results, each at its tile. -/
theorem all_gather_eq {zero : B} {tasks : ℕ → List B} (hrank : rank < world_size)
    (hle : world_size ≤ num_tiles)
    (htasks : ∀ r < world_size, tasks r = (local_tile_indices num_tiles r world_size).map F) :
    all_gather_tiled_results num_tiles rank world_size zero tasks
      = .ok ((List.range num_tiles).map (fun g => some (F g))) := by
  have hws : 0 < world_size := by omega
  have hlen : ∀ r < world_size, (tasks r).length
      = (num_tiles - r + world_size - 1) / world_size := by
    intro r hr
    rw [htasks r hr, length_map, local_tile_indices, py_range, length_range']
  have hne : (tasks rank).isEmpty = false := by
    rw [htasks rank hrank, isEmpty_eq_false_iff, ne_eq, map_eq_nil_iff]
    exact local_tile_indices_ne_nil hrank hle
  have hcount : ((tasks rank).length : ℤ) = expected_tasks num_tiles rank world_size := by
    rw [hlen rank hrank, expected_tasks_eq hrank hle]
  unfold all_gather_tiled_results
  rw [if_neg (by simp [hne]), if_neg (by simp [hcount])]
  congr 1
  -- after the ranks below `n`, the tiles of these ranks are filled in
  have hloop : ∀ n ≤ world_size, (List.range n).foldl (fun results r =>
      (List.range (expected_tasks num_tiles r world_size).toNat).foldl
        (fun results k => results.set (k * world_size + r)
          (stacked_tasks num_tiles world_size zero (tasks r))[k]?) results)
      (List.replicate num_tiles none)
      = partial_results num_tiles F (fun g => g % world_size < n) := by
    intro n hn
    induction n with
    | zero =>
      simp [partial_results]
    | succ n ih =>
      have hn' : n < world_size := by omega
      have hstacked : ∀ k, k * world_size + n < num_tiles →
          (stacked_tasks num_tiles world_size zero (tasks n))[k]?
            = some (F (k * world_size + n)) := by
        intro k hk
        have hklt := (lt_task_count hws).mpr hk
        unfold stacked_tasks
        rw [getElem?_append_left (by rw [hlen n hn']; exact hklt), htasks n hn',
          getElem?_map, local_tile_indices, py_range, getElem?_range' hklt]
        simp only [Option.map_some]
        congr 2
        ring
      rw [range_succ, foldl_append, ih (by omega), foldl_cons,
        expected_tasks_eq hn' hle, Int.toNat_natCast,
        gather_rank hn' hstacked _ (fun k hk => (lt_task_count hws).mp hk)]
      refine map_congr_left (fun g hg => ?_)
      rw [mem_range] at hg
      congr 1
      rw [eq_iff_iff]
      have hdm := Nat.div_add_mod g world_size
      constructor
      · rintro (h | ⟨h, -⟩)
        · omega
        · omega
      · intro h
        by_cases heq : g % world_size = n
        · refine Or.inr ⟨heq, (lt_task_count hws).mpr ?_⟩
          rw [Nat.mul_comm] at hdm
          omega
        · exact Or.inl (by omega)
  rw [hloop world_size (Nat.le_refl _)]
  refine map_congr_left (fun g _ => ?_)
  rw [if_pos (Nat.mod_lt _ hws)]

/-- **Every rank codes all tiles**, whatever the number of ranks, stacked or not. -/
theorem code_tiles_eq {tiles : List (List A)} {forward_fn : List A → List B} {f : A → B}
    {zero : List B} (parallel_tiling stack_tiling : Bool) (hf : Independent forward_fn f)
    (hlen : ∀ t ∈ tiles, t.length = size) (hne : tiles ≠ []) (hrank : rank < world_size) :
    code_tiles parallel_tiling stack_tiling rank world_size zero forward_fn tiles
      = .ok (tiles.map (fun t => some (t.map f))) := by
  have hpos := length_pos_of_ne_nil hne
  have htasks : ∀ ws r, run_tile_tasks tiles (local_tile_indices tiles.length r ws) forward_fn
      stack_tiling = (local_tile_indices tiles.length r ws).map (fun i => (tiles.getD i []).map f) := by
    intro ws r
    refine run_tile_tasks_eq hf hlen (fun i hi => ?_) stack_tiling
    rw [local_tile_indices, py_range, mem_range'] at hi
    obtain ⟨k, hk, rfl⟩ := hi
    rcases Nat.eq_zero_or_pos ws with hzero | hws
    · subst hzero
      simp at hk
    · have := (lt_task_count hws).mp hk
      rw [Nat.mul_comm ws]
      omega
  have hall : (List.range tiles.length).map (fun i => some ((tiles.getD i []).map f))
      = tiles.map (fun t => some (t.map f)) := by
    refine ext_getElem (by simp) (fun i hi hi' => ?_)
    rw [length_map] at hi'
    rw [getElem_map, getElem_range, getElem_map, getD_eq_getElem _ _ hi']
  have hstate : ∀ st, st = tile_parallel_state parallel_tiling rank world_size tiles.length →
      st.1 < st.2 ∧ st.2 ≤ tiles.length := by
    rintro st rfl
    unfold tile_parallel_state
    cases parallel_tiling <;> simp only [Bool.false_eq_true, if_false, if_true] <;> split <;> omega
  obtain ⟨hlt, hle⟩ := hstate _ rfl
  unfold code_tiles
  simp only [htasks]
  split
  · rw [all_gather_eq hlt hle (fun r _ => rfl), hall]
  · have h1 : (tile_parallel_state parallel_tiling rank world_size tiles.length).2 = 1 := by omega
    have h0 : (tile_parallel_state parallel_tiling rank world_size tiles.length).1 = 0 := by omega
    rw [h1, h0, ← hall]
    simp [local_tile_indices, py_range, range_eq_range']

end LightningH3.VaeTiles
