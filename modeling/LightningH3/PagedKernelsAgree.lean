/-
The kernels of the paged allocation and their reference hand out the same slots.

Everything is compared with one description: token `t` of request `g` gets the slot that `slot_at`
gives for its position, in the request's last page or in the free pages from `first_page` on. A
program's sums are the starts of the segments that the requests cut the output and the free pages
into (`Segments.start`), and the search of the reference finds the segment again. The stores of all
programs go to different places, so their order does not matter (`stored_of_perm`).
-/
import LightningH3.PagedAllocator
import LightningH3.PagedKernels

set_option autoImplicit false

namespace LightningH3.PagedKernels

open List PagedAllocator

open IndexOps (scatter searchsorted_right)
open UnifiedPool (ExtendRequest pages_of arange num_new_pages_extend num_new_pages_decode
  extend_tokens extend_kernel)
open PagedAllocator (pages_of_natCast new_pages_natCast extend_num_tokens)

/-! ## 1. One request -/

/-- The length before the extend. -/
def prefix_nat (r : ExtendRequest) : ℕ := r.prefix_len.toNat

theorem prefix_len_eq (r : ExtendRequest) : r.prefix_len = prefix_nat r :=
  (Int.toNat_of_nonneg r.prefix_nonneg).symm

theorem seq_len_eq (r : ExtendRequest) : r.seq_len = prefix_nat r + extend_len r := by
  have hle := r.prefix_le_seq
  rw [← prefix_len_eq, extend_len]
  omega

section request

variable {page_size : ℕ} (hp : 0 < page_size) (r : ExtendRequest)

/-- The pages of the prefix, the last of them perhaps partial. -/
def old_pages (page_size : ℕ) (r : ExtendRequest) : ℕ := page_count page_size (prefix_nat r)

/-- The pages that the extend opens. -/
def new_pages (page_size : ℕ) (r : ExtendRequest) : ℕ :=
  opened page_size (prefix_nat r) (extend_len r)

/-- The slot of token `t` of the extend, whose new pages begin at `first` in `free_pages`. -/
def slot (page_size : ℕ) (free_pages : List ℤ) (r : ExtendRequest) (first t : ℕ) : ℤ :=
  slot_at page_size (r.last_loc / page_size) (old_pages page_size r) (free_pages.drop first)
    (prefix_nat r + t)

/-- The last slot of the prefix stands where the prefix ends. -/
def EndsAt (page_size : ℕ) (r : ExtendRequest) : Prop :=
  (r.last_loc + 1) % page_size = r.prefix_len % page_size

include hp

theorem ceil_prefix_eq : pages_of page_size r.prefix_len = old_pages page_size r := by
  rw [prefix_len_eq, pages_of_natCast hp, old_pages]

theorem ceil_seq_eq : pages_of page_size r.seq_len
    = (page_count page_size (prefix_nat r + extend_len r) : ℕ) := by
  rw [seq_len_eq, ← Int.natCast_add, pages_of_natCast hp]

theorem new_pages_eq : r.new_pages page_size = new_pages page_size r :=
  new_pages_natCast hp r (prefix_len_eq r) (seq_len_eq r)

theorem le_old_pages : prefix_nat r ≤ old_pages page_size r * page_size ∧
    old_pages page_size r * page_size < prefix_nat r + page_size := by
  have hmod := Nat.mod_lt (prefix_nat r) hp
  have hdm := Nat.div_add_mod' (prefix_nat r) page_size
  unfold old_pages
  rcases page_count_cases hp (prefix_nat r) with ⟨-, -, hend⟩ | ⟨hz, -, hend⟩
  · omega
  · omega

theorem last_offset (hr : EndsAt page_size r) (hz : prefix_nat r % page_size ≠ 0) :
    r.last_loc % page_size + 1 = (prefix_nat r % page_size : ℕ) := by
  have hpos : (0 : ℤ) < page_size := by exact_mod_cast hp
  have hbelow := Int.emod_lt_of_pos r.last_loc hpos
  have hnonneg := Int.emod_nonneg r.last_loc hpos.ne'
  unfold EndsAt at hr
  rw [prefix_len_eq, ← Int.emod_add_emod] at hr
  by_cases hwrap : r.last_loc % page_size + 1 = page_size
  · rw [hwrap, Int.emod_self] at hr
    omega
  · rw [Int.emod_eq_of_lt (by omega) (by omega)] at hr
    exact hr

variable {t : ℕ}

theorem slot_old {free_pages : List ℤ} {first : ℕ} (hr : EndsAt page_size r)
    (ht : prefix_nat r + t < old_pages page_size r * page_size) :
    slot page_size free_pages r first t = r.last_loc + 1 + t := by
  obtain ⟨len, hlen⟩ : ∃ len, prefix_nat r = len := ⟨_, rfl⟩
  have hcases := page_count_cases hp len
  have hdm := Nat.div_add_mod' len page_size
  unfold slot
  unfold old_pages at ht ⊢
  rw [hlen] at ht ⊢
  rcases hcases with ⟨-, -, hend⟩ | ⟨hz, hcount, hend⟩
  · omega
  · have hin : len % page_size + t < page_size := by omega
    have hsplit : len + t = page_size * (len / page_size) + (len % page_size + t) := by
      rw [Nat.mul_comm]
      omega
    have hdiv : (len + t) / page_size = len / page_size := by
      rw [hsplit, Nat.mul_add_div hp, Nat.div_eq_of_lt hin, Nat.add_zero]
    have hrem : (len + t) % page_size = len % page_size + t := by
      rw [hsplit, Nat.mul_add_mod, Nat.mod_eq_of_lt hin]
    rw [slot_at, if_pos (by omega)]
    have hlast := last_offset hp r hr (by rw [hlen]; exact hz)
    have hdiv := Int.mul_ediv_add_emod r.last_loc page_size
    rw [hlen] at hlast
    rw [Int.mul_comm]
    omega

theorem slot_new {free_pages : List ℤ} {first : ℕ}
    (ht : old_pages page_size r * page_size ≤ prefix_nat r + t) :
    slot page_size free_pages r first t
      = free_pages.getD (first + ((prefix_nat r + t) / page_size - old_pages page_size r)) 0
          * page_size + ((prefix_nat r + t) % page_size : ℕ) := by
  have hge : old_pages page_size r ≤ (prefix_nat r + t) / page_size :=
    (Nat.le_div_iff_mul_le hp).mpr ht
  rw [slot, slot_at, if_neg (Nat.not_lt.mpr hge), getD_eq_getElem?_getD,
    getD_eq_getElem?_getD, getElem?_drop]

theorem page_of_new (hlt : t < extend_len r)
    (ht : old_pages page_size r * page_size ≤ prefix_nat r + t) :
    (prefix_nat r + t) / page_size - old_pages page_size r < new_pages page_size r := by
  rcases new_position hp (Nat.le_add_right (prefix_nat r) t) (Nat.add_lt_add_left hlt _) with
    ⟨-, -, hold⟩ | ⟨-, hnew⟩
  · have hge : old_pages page_size r ≤ (prefix_nat r + t) / page_size :=
      (Nat.le_div_iff_mul_le hp).mpr ht
    unfold old_pages at hge
    omega
  · exact hnew

/-- **What one program computes for its request.** -/
theorem extend_tokens_slot (hr : EndsAt page_size r) (free_pages : List ℤ) (first : ℕ) :
    extend_tokens page_size free_pages first r
      = (List.range (extend_len r)).map (slot page_size free_pages r first) := by
  refine extend_tokens_eq hp free_pages first r (prefix_len_eq r) (seq_len_eq r)
    fun hz => ?_
  have hlast := last_offset hp r hr hz
  have hdiv := Int.mul_ediv_add_emod r.last_loc page_size
  have hmod := Nat.mod_lt (prefix_nat r) hp
  have hprev : (prefix_nat r - 1) % page_size = prefix_nat r % page_size - 1 := by
    have hdm := Nat.div_add_mod' (prefix_nat r) page_size
    have hsplit : prefix_nat r - 1
        = (prefix_nat r % page_size - 1) + page_size * (prefix_nat r / page_size) := by
      rw [Nat.mul_comm]
      omega
    rw [hsplit, Nat.add_mul_mod_self_left, Nat.mod_eq_of_lt (by omega)]
  rw [Int.mul_comm]
  omega

end request

/-! ## 2. Sums over the batch -/

/-- The tokens of each request. -/
def lens (reqs : List ExtendRequest) : List ℕ := reqs.map extend_len

/-- The new pages of each request. -/
def page_counts (page_size : ℕ) (reqs : List ExtendRequest) : List ℕ :=
  reqs.map (new_pages page_size)

/-- Where the slots of request `g` begin in the output. -/
def first_slot (reqs : List ExtendRequest) (g : ℕ) : ℕ := Segments.start (lens reqs) g

/-- Where its new pages begin among the free ones. -/
def first_page (page_size : ℕ) (reqs : List ExtendRequest) (g : ℕ) : ℕ :=
  Segments.start (page_counts page_size reqs) g

theorem sum_lanes (sizes : List ℕ) {bs_upper pid : ℕ} (hpid : pid < sizes.length)
    (hbs : sizes.length ≤ bs_upper) (lane : ℕ → ℤ)
    (hlane : ∀ i, i ≤ pid → lane i = (sizes.getD i 0 : ℕ)) (hoff : ∀ i, pid < i → lane i = 0) :
    ((List.range bs_upper).map lane).sum - (sizes.getD pid 0 : ℕ) = Segments.start sizes pid := by
  have hsum : ∀ n, n ≤ pid + 1 →
      ((List.range n).map lane).sum = (Segments.start sizes n : ℕ) := by
    intro n
    induction n with
    | zero =>
      intro _
      rfl
    | succ n ih =>
      intro hn
      have hlt : n < sizes.length := by omega
      rw [range_succ, map_append, sum_append, ih (by omega), map_singleton,
        hlane n (by omega), Segments.start_succ hlt, getD_eq_getElem _ _ hlt]
      rfl
  have hrest : ((List.range (bs_upper - (pid + 1))).map fun i => lane (pid + 1 + i)).sum = 0 := by
    apply sum_eq_zero
    intro x hx
    obtain ⟨i, -, rfl⟩ := mem_map.mp hx
    exact hoff _ (by omega)
  have hsplit : (List.range bs_upper).map lane = (List.range (pid + 1)).map lane
      ++ (List.range (bs_upper - (pid + 1))).map fun i => lane (pid + 1 + i) := by
    rw [← range_map_append]
    congr 2
    omega
  rw [hsplit, sum_append, hsum _ (Nat.le_refl _),
    Segments.start_succ hpid, getD_eq_getElem _ _ hpid]
  omega

theorem le_next_power_of_2 (n : ℕ) : n ≤ next_power_of_2 n := by
  unfold next_power_of_2
  split
  · have := Nat.lt_size_self (n - 1)
    omega
  · omega

theorem zipWith_load (bs_upper pid : ℕ) (f : ℤ → ℤ → ℤ) (xs ys : List ℤ) (u v : ℤ → ℤ) :
    List.zipWith f ((load bs_upper pid xs).map u) ((load bs_upper pid ys).map v)
      = (List.range bs_upper).map fun i =>
          if i ≤ pid then f (u (xs.getD i 0)) (v (ys.getD i 0)) else f (u 0) (v 0) := by
  unfold load
  rw [map_map, map_map, zipWith_map, zipWith_self]
  apply map_congr_left
  intro i _
  by_cases hi : i ≤ pid
  · simp only [Function.comp_apply, if_pos hi]
  · simp only [Function.comp_apply, if_neg hi]

section sums

variable {page_size : ℕ} (reqs : List ExtendRequest)

variable {r : ExtendRequest}

theorem getD_map (f : ExtendRequest → ℤ) {g : ℕ} (hr : reqs[g]? = some r) :
    (reqs.map f).getD g 0 = f r := by
  rw [getD_eq_getElem?_getD, getElem?_map, hr]
  rfl

theorem getD_map_nat (f : ExtendRequest → ℕ) {g : ℕ} (hr : reqs[g]? = some r) :
    (reqs.map f).getD g 0 = f r := by
  rw [getD_eq_getElem?_getD, getElem?_map, hr]
  rfl

theorem sum_loads {pid bs_upper : ℕ} (hbs : reqs.length ≤ bs_upper) {f : ℤ → ℤ}
    (size : ExtendRequest → ℕ) (hsize : ∀ r ∈ reqs, f r.seq_len - f r.prefix_len = size r)
    (hr : reqs[pid]? = some r) :
    (List.zipWith (· - ·) ((load bs_upper pid (reqs.map ExtendRequest.seq_len)).map f)
        ((load bs_upper pid (reqs.map ExtendRequest.prefix_len)).map f)).sum
      - (f r.seq_len - f r.prefix_len) = Segments.start (reqs.map size) pid := by
  have hlt : pid < (reqs.map size).length := by
    rw [length_map]
    exact (List.getElem?_eq_some_iff.mp hr).1
  rw [zipWith_load, hsize r (mem_of_getElem? hr), ← getD_map_nat reqs size hr]
  apply sum_lanes _ hlt (by rw [length_map]; exact hbs)
  · intro i hi
    have hin : i < reqs.length := by
      rw [length_map] at hlt
      omega
    have hri : reqs[i]? = some reqs[i] := getElem?_eq_getElem hin
    rw [if_pos hi, getD_map reqs _ hri, getD_map reqs _ hri, getD_map_nat reqs size hri,
      hsize _ (getElem_mem hin)]
  · intro i hi
    rw [if_neg (Nat.not_le.mpr hi), Int.sub_self]

end sums

/-! ## 3. The programs -/

theorem masked_range {n : ℕ} {bound : ℤ} (h : bound ≤ n) :
    masked (List.range n) bound = List.range bound.toNat := by
  obtain ⟨m, hm⟩ : ∃ m, bound.toNat = m := ⟨_, rfl⟩
  have hsplit : List.range n = List.range m ++ (List.range (n - m)).map (m + ·) := by
    rw [← range_add]
    congr 1
    omega
  unfold masked
  rw [hm, hsplit, filter_append, filter_eq_self.mpr, filter_eq_nil_iff.mpr, append_nil]
  · intro i hi
    obtain ⟨j, -, rfl⟩ := mem_map.mp hi
    rw [decide_eq_true_eq]
    omega
  · intro i hi
    rw [mem_range] at hi
    exact decide_eq_true (by omega)

theorem masked_blocks {block : ℕ} (hb : 0 < block) (n : ℕ) :
    (List.range (((n : ℤ) + block - 1) / block).toNat).flatMap (fun block_id =>
      masked ((List.range block).map fun o => block_id * block + o) n) = List.range n := by
  have hcount : (((n : ℤ) + block - 1) / block).toNat = page_count block n := by
    unfold page_count
    have hcast : (n : ℤ) + block - 1 = ((n + block - 1 : ℕ) : ℤ) := by omega
    rw [hcast, ← Int.natCast_ediv, Int.toNat_natCast]
  have hblocks : (List.range (page_count block n)).flatMap (fun block_id =>
      (List.range block).map fun o => block_id * block + o)
        = List.range (page_count block n * block) := by
    rw [← Segments.flatMap_blocks]
    exact flatMap_congr fun g _ => (range'_eq_map_range ..).symm
  have hle : n ≤ page_count block n * block := by
    rcases page_count_cases hb n with ⟨-, -, hend⟩ | ⟨-, -, hend⟩
    · omega
    · have := Nat.mod_lt n hb
      omega
  have hfilter : (List.range (page_count block n)).flatMap (fun block_id =>
      masked ((List.range block).map fun o => block_id * block + o) n)
        = masked (List.range (page_count block n * block)) n := by
    rw [← hblocks]
    exact filter_flatMap.symm
  rw [hcount, hfilter, masked_range (by exact_mod_cast hle), Int.toNat_natCast]

/-- Values at consecutive places. -/
def numbered (place : ℤ) (values : List ℤ) : List (ℤ × ℤ) :=
  ((List.range values.length).map fun i : ℕ => place + i).zip values

theorem numbered_append (place : ℤ) (xs ys : List ℤ) :
    numbered place (xs ++ ys) = numbered place xs ++ numbered (place + xs.length) ys := by
  unfold numbered
  rw [length_append, range_map_append, zip_append (by simp)]
  congr 2
  apply map_congr_left
  intro i _
  omega

theorem lanes_numbered (place : ℤ) (n : ℕ) (v : ℤ → ℤ) :
    ((List.range n).map fun o : ℕ => (place + o, v o)) = numbered place ((arange 0 n).map v) := by
  unfold numbered
  rw [arange_map, length_map, length_range, zip_map']

theorem numbered_flatMap (sizes : List ℕ) (blocks : ℕ → List ℤ) {n : ℕ} (hn : n ≤ sizes.length)
    (hlen : ∀ g, g < n → (blocks g).length = sizes.getD g 0) :
    (List.range n).flatMap (fun g => numbered (Segments.start sizes g) (blocks g))
        = numbered 0 ((List.range n).flatMap blocks) ∧
      ((List.range n).flatMap blocks).length = Segments.start sizes n := by
  induction n with
  | zero => exact ⟨rfl, rfl⟩
  | succ n ih =>
    obtain ⟨hnum, hsum⟩ := ih (by omega) fun g hg => hlen g (by omega)
    have hlast := hlen n (Nat.lt_succ_self n)
    rw [range_succ, flatMap_append, flatMap_append, hnum, flatMap_singleton,
      flatMap_singleton, numbered_append, Int.zero_add, length_append, hsum, hlast,
      Segments.start_succ hn, getD_eq_getElem _ _ hn]
    exact ⟨rfl, rfl⟩

section program

variable {page_size : ℕ} (hp : 0 < page_size) {reqs : List ExtendRequest} {g : ℕ}
  {r : ExtendRequest}

include hp

/-- **A program of `alloc_extend_kernel`** stores the slots of its request at its place. -/
theorem extend_program_eq (hr : reqs[g]? = some r) (free_pages : List ℤ) :
    alloc_extend_kernel (reqs.map ExtendRequest.prefix_len) (reqs.map ExtendRequest.seq_len)
        (reqs.map ExtendRequest.last_loc) free_pages (next_power_of_2 reqs.length) page_size g
      = numbered (first_slot reqs g)
          (extend_tokens page_size free_pages (first_page page_size reqs g) r) := by
  have hbs := le_next_power_of_2 reqs.length
  have hpos : (0 : ℤ) < page_size := by exact_mod_cast hp
  have hplace := sum_loads reqs hbs (f := fun x => x) extend_len (fun r _ => by
    rw [seq_len_eq, prefix_len_eq]
    omega) hr
  rw [map_id', map_id'] at hplace
  have hpage := sum_loads reqs hbs (f := pages_of page_size) (new_pages page_size)
    (fun r _ => new_pages_eq hp r) hr
  obtain ⟨first, hfirst⟩ : ∃ first : ℤ, (first_page page_size reqs g : ℤ) = first := ⟨_, rfl⟩
  change _ = (first_slot reqs g : ℤ) at hplace
  change _ = (first_page page_size reqs g : ℤ) at hpage
  unfold alloc_extend_kernel extend_tokens
  dsimp only
  rw [getD_map reqs _ hr, getD_map reqs _ hr, getD_map reqs _ hr, hplace, hpage, hfirst]
  obtain ⟨hle, hlt⟩ := le_old_pages hp r
  have hceil : pages_of page_size r.prefix_len * page_size
      = ((old_pages page_size r * page_size : ℕ) : ℤ) := by
    rw [ ceil_prefix_eq hp]
    rfl
  have hprefix := prefix_len_eq r
  have hseq := r.prefix_le_seq
  rw [hceil]
  -- the rest of the last page
  obtain ⟨a, ha⟩ : ∃ a : ℕ, min r.seq_len ((old_pages page_size r * page_size : ℕ) : ℤ)
      - r.prefix_len = a := Int.eq_ofNat_of_zero_le (by omega)
  rw [ha, masked_range (by omega), Int.toNat_natCast,
    lanes_numbered _ _ fun o => r.last_loc + 1 + o]
  by_cases hdone : r.prefix_len + a = r.seq_len
  · rw [if_pos hdone, if_pos hdone]
  · have hfloor := Int.emod_nonneg r.seq_len hpos.ne'
    have hbelow := Int.emod_lt_of_pos r.seq_len hpos
    have hdm := Int.mul_ediv_add_emod r.seq_len page_size
    rw [Int.mul_comm] at hdm
    have hfull : old_pages page_size r ≤ r.seq_len / page_size := by
      rw [Int.le_ediv_iff_mul_le hpos]
      omega
    -- the full new pages
    obtain ⟨b, hb⟩ : ∃ b : ℕ, r.seq_len / page_size * page_size
        - ((old_pages page_size r * page_size : ℕ) : ℤ) = b := by
      apply Int.eq_ofNat_of_zero_le
      have := Int.mul_le_mul_of_nonneg_right hfull hpos.le
      omega
    have hblocks := masked_blocks (show 0 < BLOCK_EXTEND by decide) b
    have hlen : ∀ (n : ℕ) (v : ℤ → ℤ), ((arange 0 n).map v).length = n := fun n v => by
      rw [arange_map, length_map, length_range]
    rw [if_neg hdone, if_neg hdone, hb, ← map_flatMap, hblocks, lanes_numbered _ _ fun o =>
        free_pages.getD (first + o / page_size).toNat 0 * page_size + o % page_size]
    by_cases hwhole : r.prefix_len + a + b = r.seq_len
    · rw [if_pos hwhole, if_pos hwhole, numbered_append, hlen]
    · -- and the new partial page
      obtain ⟨c, hc⟩ : ∃ c : ℕ, r.seq_len - r.seq_len / page_size * page_size = c :=
        Int.eq_ofNat_of_zero_le (by omega)
      have hfresh : pages_of page_size r.seq_len - pages_of page_size r.prefix_len
          = r.new_pages page_size := rfl
      rw [if_neg hwhole, if_neg hwhole, hc, masked_range (by omega), Int.toNat_natCast, hfresh,
        lanes_numbered _ _ fun o =>
          free_pages.getD (first + r.new_pages page_size - 1).toNat 0 * page_size + o,
        numbered_append, numbered_append, length_append, hlen, hlen]
      push_cast
      rw [Int.add_assoc]

end program

/-! ## 4. The launches -/

/-- The slots of request `g`. -/
def block (page_size : ℕ) (reqs : List ExtendRequest) (free_pages : List ℤ) (g : ℕ) : List ℤ :=
  reqs[g]?.elim [] fun r =>
    (List.range (extend_len r)).map (slot page_size free_pages r (first_page page_size reqs g))

def slots (page_size : ℕ) (reqs : List ExtendRequest) (free_pages : List ℤ) : List ℤ :=
  (List.range reqs.length).flatMap (block page_size reqs free_pages)

section launch

variable {page_size : ℕ} {reqs : List ExtendRequest} (free_pages : List ℤ)

theorem block_of {g : ℕ} {r : ExtendRequest} (hr : reqs[g]? = some r) :
    block page_size reqs free_pages g = (List.range (extend_len r)).map
          (slot page_size free_pages r (first_page page_size reqs g)) := by
  rw [block, hr]
  rfl

theorem length_block {g : ℕ} (hg : g < reqs.length) :
    (block page_size reqs free_pages g).length = (lens reqs).getD g 0 := by
  have hr : reqs[g]? = some reqs[g] := getElem?_eq_getElem hg
  rw [block_of free_pages hr, length_map, length_range, lens, getD_map_nat reqs _ hr]

theorem length_lens : (lens reqs).length = reqs.length := length_map _

theorem stored_of_perm {out_indices values : List ℤ} {stores : List (ℤ × ℤ)}
    (hlen : out_indices.length = values.length) (hperm : stores.Perm (numbered 0 values)) :
    stored out_indices stores = values := by
  have hplaces : (numbered 0 values).map (fun s => s.1.toNat) = List.range values.length := by
    have hfst : (numbered 0 values).map Prod.fst
        = (List.range values.length).map fun i : ℕ => 0 + (i : ℤ) :=
      map_fst_zip (by simp)
    rw [show (fun s : ℤ × ℤ => s.1.toNat) = Int.toNat ∘ Prod.fst from rfl, ← map_map, hfst,
      map_map]
    conv_rhs => rw [← map_id (List.range values.length)]
    apply map_congr_left
    intro i _
    rw [Function.comp_apply, Int.zero_add, Int.toNat_natCast, id]
  have hnd : ((stores.map fun s => (s.1.toNat, s.2)).map Prod.fst).Nodup := by
    rw [map_map]
    refine ((hperm.map _).nodup_iff).mpr ?_
    show ((numbered 0 values).map fun s => s.1.toNat).Nodup
    rw [hplaces]
    exact nodup_range
  have hstored : stored out_indices stores
      = scatter out_indices ((stores.map fun s => (s.1.toNat, s.2)).map Prod.fst)
          ((stores.map fun s => (s.1.toNat, s.2)).map Prod.snd) := by
    rw [map_map, map_map]
    rfl
  rw [hstored]
  refine ext_getElem? fun i => ?_
  rcases Nat.lt_or_ge i values.length with hi | hi
  · have hmem : ((i : ℤ), values[i]) ∈ stores := by
      refine hperm.mem_iff.mpr (mem_iff_getElem?.mpr ⟨i, ?_⟩)
      rw [numbered, getElem?_zip_eq_some, getElem?_map, getElem?_range hi, getElem?_eq_getElem hi]
      exact ⟨congrArg some (Int.zero_add _), rfl⟩
    have hwrite : (i, values[i]) ∈ stores.map fun s => (s.1.toNat, s.2) :=
      mem_map.mpr ⟨_, hmem, by rw [Int.toNat_natCast]⟩
    rw [IndexOps.getElem?_scatter_of_mem hnd hwrite (by rw [hlen]; exact hi),
      getElem?_eq_getElem hi]
  · rw [getElem?_eq_none hi, getElem?_eq_none]
    rw [IndexOps.length_scatter, hlen]
    exact hi

variable (hp : 0 < page_size) (hends : ∀ r ∈ reqs, EndsAt page_size r)

include hp hends

/-- **The stores of a launch** are the slots of the batch, each at its place. -/
theorem extend_launch_eq : extend_launch page_size reqs free_pages
    = numbered 0 (slots page_size reqs free_pages) := by
  have hblocks := (numbered_flatMap (lens reqs) (block page_size reqs free_pages)
    (Nat.le_of_eq length_lens.symm) fun g hg => length_block free_pages hg).1
  rw [slots, ← hblocks]
  refine flatMap_congr fun g hg => ?_
  have hlt := mem_range.mp hg
  have hr : reqs[g]? = some reqs[g] := getElem?_eq_getElem hlt
  rw [extend_program_eq hp hr, extend_tokens_slot hp _ (hends _ (getElem_mem hlt)),
    block_of free_pages hr]
  rfl

omit hp hends in
theorem length_slots : (slots page_size reqs free_pages).length = (lens reqs).sum := by
  rw [slots, (numbered_flatMap (lens reqs) (block page_size reqs free_pages)
    (Nat.le_of_eq length_lens.symm) fun g hg => length_block free_pages hg).2,
    ← @length_lens reqs, Segments.start_length]

end launch

/-! ## 5. The decode step -/

/-- Every request adds one token. -/
def ByOne (reqs : List ExtendRequest) : Prop := ∀ r ∈ reqs, r.seq_len = r.prefix_len + 1

section decode

variable {page_size : ℕ} (hp : 0 < page_size) {reqs : List ExtendRequest} {g : ℕ}
  {r : ExtendRequest}

theorem extend_len_one (hone : r.seq_len = r.prefix_len + 1) : extend_len r = 1 := by
  unfold extend_len
  omega

theorem zipWith_decode (bs_upper pid : ℕ) (f : ℤ → ℤ) (xs : List ℤ) :
    List.zipWith (· - ·) ((load bs_upper pid xs).map f)
        (((load bs_upper pid xs).mapIdx fun i s => if i ≤ pid then s - 1 else s).map f)
      = (List.range bs_upper).map fun i =>
          if i ≤ pid then f (xs.getD i 0) - f (xs.getD i 0 - 1) else 0 := by
  unfold load
  refine ext_getElem (by simp) fun i _ _ => ?_
  simp only [getElem_zipWith, getElem_map, getElem_mapIdx, getElem_range]
  by_cases hi : i ≤ pid
  · simp only [if_pos hi]
  · simp only [if_neg hi, Int.sub_self]

include hp

theorem new_pages_one (hone : r.seq_len = r.prefix_len + 1) :
    (new_pages page_size r = 0 ∧ prefix_nat r + 0 < old_pages page_size r * page_size) ∨
      (new_pages page_size r = 1 ∧ prefix_nat r = old_pages page_size r * page_size) := by
  obtain ⟨hle, hlt⟩ := le_old_pages hp r
  have hnext := @lt_page_count page_size hp (prefix_nat r + 1) (old_pages page_size r)
  have hafter := @lt_page_count page_size hp (prefix_nat r + 1) (old_pages page_size r + 1)
  rw [Nat.add_mul] at hafter
  unfold new_pages opened
  rw [extend_len_one hone]
  change _ - old_pages page_size r = 0 ∧ _ ∨ _ - old_pages page_size r = 1 ∧ _
  omega

/-- **A program of `alloc_decode_kernel`** stores the slot of its request's token. -/
theorem decode_program_eq (hone : ByOne reqs) (hr : reqs[g]? = some r) (hend : EndsAt page_size r)
    (free_pages : List ℤ) :
    alloc_decode_kernel (reqs.map ExtendRequest.seq_len) (reqs.map ExtendRequest.last_loc)
        free_pages (next_power_of_2 reqs.length) page_size g
      = ((g : ℤ), slot page_size free_pages r (first_page page_size reqs g) 0) := by
  have hbs := le_next_power_of_2 reqs.length
  have hmem := mem_of_getElem? hr
  have hlt := (List.getElem?_eq_some_iff.mp hr).1
  have hfresh : ∀ r ∈ reqs, pages_of page_size r.seq_len - pages_of page_size (r.seq_len - 1)
      = new_pages page_size r := by
    intro r hr
    rw [← new_pages_eq hp, ExtendRequest.new_pages, hone r hr, Int.add_sub_cancel]
  have hlen : (page_counts page_size reqs).length = reqs.length := length_map _
  have hfirst : ((List.range (next_power_of_2 reqs.length)).map fun i => if i ≤ g then
        pages_of page_size ((reqs.map ExtendRequest.seq_len).getD i 0)
          - pages_of page_size ((reqs.map ExtendRequest.seq_len).getD i 0 - 1)
      else 0).sum - (new_pages page_size r : ℤ) = first_page page_size reqs g := by
    rw [← getD_map_nat reqs (new_pages page_size) hr]
    apply sum_lanes (page_counts page_size reqs) (by omega) (by omega)
    · intro i hi
      have hri : reqs[i]? = some reqs[i] := getElem?_eq_getElem (by omega)
      rw [if_pos hi, getD_map reqs _ hri, page_counts, getD_map_nat reqs _ hri,
        hfresh _ (getElem_mem _)]
    · intro i hi
      exact if_neg (Nat.not_le.mpr hi)
  unfold alloc_decode_kernel
  dsimp only
  rw [zipWith_decode, getD_map reqs _ hr, getD_map reqs _ hr, hfresh r hmem, hfirst]
  rcases new_pages_one hp (hone r hmem) with ⟨hzero, hold⟩ | ⟨hnew, hfull⟩
  · rw [hzero, slot_old hp r hend hold]
    simp
  · have hdiv : prefix_nat r / page_size = old_pages page_size r := by
      rw [hfull, Nat.mul_div_cancel _ hp]
    have hmod : prefix_nat r % page_size = 0 := by
      rw [hfull, Nat.mul_mod_left]
    rw [hnew, if_neg (by decide), slot_new hp r (Nat.le_of_eq hfull.symm), Nat.add_zero, hdiv, hmod,
      Int.toNat_natCast]
    simp

omit hp in
theorem first_slot_one (hone : ByOne reqs) {g : ℕ} (hg : g ≤ reqs.length) :
    first_slot reqs g = g := by
  have hones : lens reqs = List.replicate reqs.length 1 := by
    rw [eq_replicate_iff]
    refine ⟨length_map _, fun n hn => ?_⟩
    obtain ⟨r, hr, rfl⟩ := mem_map.mp hn
    exact extend_len_one (hone r hr)
  rw [first_slot, hones, Segments.start, take_replicate, Nat.min_eq_left hg]
  simp

/-- **The stores of a decode launch** are those of the extend by one token. -/
theorem decode_launch_eq (hone : ByOne reqs) (hends : ∀ r ∈ reqs, EndsAt page_size r)
    (free_pages : List ℤ) : decode_launch page_size reqs free_pages
      = numbered 0 (slots page_size reqs free_pages) := by
  have hblocks := (numbered_flatMap (lens reqs) (block page_size reqs free_pages)
    (Nat.le_of_eq length_lens.symm) fun g hg => length_block free_pages hg).1
  rw [slots, ← hblocks, decode_launch, map_eq_flatMap]
  refine flatMap_congr fun g hg => ?_
  have hlt := mem_range.mp hg
  have hr : reqs[g]? = some reqs[g] := getElem?_eq_getElem hlt
  have hmem := getElem_mem hlt
  rw [decode_program_eq hp hone hr (hends _ hmem), block_of free_pages hr,
    extend_len_one (hone _ hmem), show Segments.start (lens reqs) g = first_slot reqs g from rfl,
    first_slot_one hone hlt.le]
  simp [numbered]

end decode

/-! ## 6. The reference -/

section naive

variable {page_size : ℕ} (hp : 0 < page_size) {reqs : List ExtendRequest} {free_pages : List ℤ}
  {g : ℕ} {r : ExtendRequest}

theorem getElem_lens (hr : reqs[g]? = some r) :
    ∃ hlt : g < (lens reqs).length, (lens reqs)[g] = extend_len r := by
  have hlt : g < (lens reqs).length := by
    rw [length_lens]
    exact (List.getElem?_eq_some_iff.mp hr).1
  refine ⟨hlt, ?_⟩
  rw [← getD_eq_getElem _ 0 hlt, lens, getD_map_nat reqs _ hr]

variable {t : ℕ}

section

variable (hr : reqs[g]? = some r) (ht : t < extend_len r)
include hr ht

theorem owner_eq : owner reqs (first_slot reqs g + t) = g := by
  obtain ⟨hlt, hsize⟩ := getElem_lens hr
  have hend : ∀ i, i < (lens reqs).length →
      (end_pos reqs).getD i 0 = Segments.start (lens reqs) (i + 1) := by
    intro i hi
    rw [end_pos, Segments.cumsum, getD_eq_getElem?_getD, getElem?_map, getElem?_range (by exact hi)]
    rfl
  have hlen : (end_pos reqs).length = (lens reqs).length := Segments.length_cumsum _
  apply IndexOps.search_eq
  · intro i hi
    rw [hend i (by omega), decide_eq_true_eq]
    exact (Segments.start_mono _ hi).trans (Nat.le_add_right _ _)
  · intro i hi hin
    have hmono := Segments.start_mono (lens reqs) (Nat.add_le_add_right hi 1)
    rw [Segments.start_succ hlt] at hmono
    rw [hend i (by omega), decide_eq_false_iff_not, first_slot]
    omega
  · exact Nat.zero_le _
  · omega
  · exact Nat.le_refl _
  · omega

theorem offset_eq : offset_in_req reqs (first_slot reqs g + t) = t := by
  obtain ⟨hlt, hsize⟩ := getElem_lens hr
  have hstart : (start_pos reqs).getD g 0 = first_slot reqs g := by
    rw [start_pos, end_pos, Segments.cumsum, getD_eq_getElem?_getD, getElem?_zipWith,
      getElem?_map, getElem?_range (by exact hlt), getElem?_map, hr]
    show Segments.start (lens reqs) (g + 1) - extend_len r = _
    rw [Segments.start_succ hlt, hsize, Nat.add_sub_cancel]
    rfl
  rw [offset_in_req, owner_eq hr ht]
  omega

theorem val_phase1_eq : val_phase1 reqs (first_slot reqs g + t) = r.last_loc + 1 + t := by
  rw [val_phase1, owner_eq hr ht, offset_eq hr ht, getD_map reqs _ hr]

end

include hp

theorem ceil_prefix_nat : ceil_prefix page_size r = (old_pages page_size r * page_size : ℕ) := by
  rw [ ceil_prefix, ceil_prefix_eq hp]
  rfl

theorem phases_old (hold : prefix_nat r + extend_len r ≤ old_pages page_size r * page_size) :
    num1 page_size r = extend_len r ∧ num2 page_size r = 0 ∧ num3 page_size r = 0 := by
  have hfirst : num1 page_size r = extend_len r := by
    rw [num1, ceil_prefix_nat hp, seq_len_eq, prefix_len_eq]
    omega
  have hdone : done_after_1 page_size r = true := by
    rw [done_after_1, hfirst, seq_len_eq, prefix_len_eq]
    exact decide_eq_true rfl
  exact ⟨hfirst, if_pos hdone, if_pos hdone⟩

theorem phases_new (hnew : old_pages page_size r * page_size < prefix_nat r + extend_len r) :
    num1 page_size r = (old_pages page_size r * page_size - prefix_nat r : ℕ) ∧
      num2 page_size r = (((prefix_nat r + extend_len r) / page_size - old_pages page_size r)
        * page_size : ℕ) ∧ num3 page_size r = ((prefix_nat r + extend_len r) % page_size : ℕ) := by
  obtain ⟨hle, -⟩ := le_old_pages hp r
  have hfirst : num1 page_size r = (old_pages page_size r * page_size - prefix_nat r : ℕ) := by
    rw [num1, ceil_prefix_nat hp, seq_len_eq, prefix_len_eq]
    omega
  have hdone : ¬ done_after_1 page_size r = true := by
    rw [done_after_1, seq_len_eq, prefix_len_eq, decide_eq_true_eq]
    omega
  have hfloor : floor_seq page_size r
      = ((prefix_nat r + extend_len r) / page_size * page_size : ℕ) := by
    rw [floor_seq, seq_len_eq]
    rfl
  have hge : old_pages page_size r ≤ (prefix_nat r + extend_len r) / page_size :=
    (Nat.le_div_iff_mul_le hp).mpr hnew.le
  have hdm := Nat.div_add_mod' (prefix_nat r + extend_len r) page_size
  refine ⟨hfirst, ?_, ?_⟩
  · have hmul := Nat.mul_le_mul_right page_size hge
    rw [num2, if_neg hdone, ceil_prefix_nat hp, Nat.sub_mul]
    omega
  · rw [num3, if_neg hdone, seq_len_eq]
    omega

theorem pages_per_req_eq : pages_per_req page_size r = new_pages page_size r := by
  have hpos : (page_size : ℤ) ≠ 0 := by exact_mod_cast hp.ne'
  unfold pages_per_req new_pages opened
  change _ = ((_ - old_pages page_size r : ℕ) : ℤ)
  by_cases hold : prefix_nat r + extend_len r ≤ old_pages page_size r * page_size
  · obtain ⟨-, h2, h3⟩ := phases_old hp hold
    have hle : page_count page_size (prefix_nat r + extend_len r) ≤ old_pages page_size r := by
      rw [← page_count_mul hp (old_pages page_size r)]
      exact page_count_mono hold
    rw [h2, Int.zero_ediv]
    omega
  · have hnew := Nat.lt_of_not_le hold
    obtain ⟨-, h2, h3⟩ := phases_new hp hnew
    have hge : old_pages page_size r ≤ (prefix_nat r + extend_len r) / page_size :=
      (Nat.le_div_iff_mul_le hp).mpr hnew.le
    rw [h2, Int.natCast_mul, Int.mul_ediv_cancel _ hpos]
    rcases page_count_cases hp (prefix_nat r + extend_len r) with ⟨hz, hc, -⟩ | ⟨hz, hc, -⟩
    · omega
    · omega

omit hp in
theorem getElem_page_counts (hr : reqs[g]? = some r) :
    ∃ hlt : g < (page_counts page_size reqs).length,
      (page_counts page_size reqs)[g] = new_pages page_size r := by
  have hlt : g < (page_counts page_size reqs).length := by
    rw [page_counts, length_map]
    exact (List.getElem?_eq_some_iff.mp hr).1
  refine ⟨hlt, ?_⟩
  rw [← getD_eq_getElem _ 0 hlt, page_counts, getD_map_nat reqs _ hr]

omit hp in
theorem first_page_succ (hr : reqs[g]? = some r) :
    first_page page_size reqs (g + 1) = first_page page_size reqs g + new_pages page_size r := by
  obtain ⟨hlt, hsize⟩ := getElem_page_counts hr
  rw [first_page, Segments.start_succ hlt, hsize]
  rfl

theorem num_new_pages_eq (reqs : List ExtendRequest) :
    num_new_pages_extend page_size reqs = ((page_counts page_size reqs).sum : ℕ) := by
  unfold num_new_pages_extend page_counts
  induction reqs with
  | nil => rfl
  | cons r reqs ih =>
    rw [map_cons, sum_cons, ih, new_pages_eq hp]
    rfl

theorem end_new_pages_eq (hr : reqs[g]? = some r) : (end_new_pages page_size reqs).getD g 0
      = (first_page page_size reqs g + new_pages page_size r : ℕ) := by
  have hlt := (List.getElem?_eq_some_iff.mp hr).1
  have hmap : reqs.map (pages_per_req page_size)
      = (page_counts page_size reqs).map fun n : ℕ => (n : ℤ) := by
    rw [page_counts, map_map]
    exact map_congr_left fun r _ => pages_per_req_eq hp
  have hsum : ∀ xs : List ℕ, (xs.map fun n : ℕ => (n : ℤ)).sum = (xs.sum : ℕ) := by
    intro xs
    induction xs with
    | nil => rfl
    | cons x xs ih =>
      rw [map_cons, sum_cons, ih]
      rfl
  rw [← first_page_succ hr, end_new_pages, cumsum, getD_eq_getElem?_getD,
    getElem?_map, getElem?_range (by rw [length_map]; exact hlt), Option.map_some,
    hmap, ← map_take, hsum]
  rfl

theorem start_new_pages_eq (hr : reqs[g]? = some r) :
    (start_new_pages page_size reqs).getD g 0 = first_page page_size reqs g := by
  have hlt := (List.getElem?_eq_some_iff.mp hr).1
  have hend := end_new_pages_eq hp hr
  have hin : g < (end_new_pages page_size reqs).length := by
    rw [end_new_pages, cumsum, length_map, length_range, length_map]
    exact hlt
  rw [getD_eq_getElem?_getD, getElem?_eq_getElem hin, Option.getD_some] at hend
  rw [start_new_pages, getD_eq_getElem?_getD, getElem?_zipWith,
    getElem?_eq_getElem hin, getElem?_map, hr]
  show (end_new_pages page_size reqs)[g] - pages_per_req page_size r = _
  rw [pages_per_req_eq hp]
  omega

omit hp in
theorem clamp_natCast {n : ℕ} {hi : ℤ} (h : n ≤ hi) : clamp n hi = n := by
  unfold clamp
  omega

/-- **What the reference computes for one position.** The clamps do nothing where the phase is the
position's own. -/
theorem naive_slot_eq (hends : ∀ r ∈ reqs, EndsAt page_size r)
    (henough : (page_counts page_size reqs).sum ≤ free_pages.length) (hr : reqs[g]? = some r)
    (ht : t < extend_len r) : naive_slot page_size reqs free_pages (first_slot reqs g + t)
      = slot page_size free_pages r (first_page page_size reqs g) t := by
  have hend := hends r (mem_of_getElem? hr)
  have hin : first_page page_size reqs g + new_pages page_size r ≤ free_pages.length := by
    rw [← first_page_succ hr]
    exact (Segments.start_le_sum _ _).trans henough
  unfold naive_slot
  rw [val_phase1_eq hr ht, owner_eq hr ht, offset_eq hr ht, getD_map reqs _ hr, getD_map reqs _ hr,
    start_new_pages_eq hp hr, end_new_pages_eq hp hr]
  by_cases hold : prefix_nat r + t < old_pages page_size r * page_size
  · -- in the last page
    have hphase : (t : ℤ) < num1 page_size r := by
      by_cases hall : prefix_nat r + extend_len r ≤ old_pages page_size r * page_size
      · rw [(phases_old hp hall).1]
        exact_mod_cast ht
      · rw [(phases_new hp (Nat.lt_of_not_le hall)).1]
        omega
    rw [if_pos (decide_eq_true hphase), slot_old hp r hend hold]
  · have hpast := Nat.le_of_not_lt hold
    have hpage := page_of_new hp r ht hpast
    obtain ⟨hle, -⟩ := le_old_pages hp r
    obtain ⟨h1, h2, -⟩ := phases_new hp (hpast.trans_lt (Nat.add_lt_add_left ht _))
    have hge : old_pages page_size r ≤ (prefix_nat r + t) / page_size :=
      (Nat.le_div_iff_mul_le hp).mpr hpast
    have hlast : (prefix_nat r + t) / page_size ≤ (prefix_nat r + extend_len r) / page_size :=
      Nat.div_le_div_right (by omega)
    have hdm := Nat.div_add_mod' (prefix_nat r + t) page_size
    have hmul := Nat.sub_mul ((prefix_nat r + extend_len r) / page_size) (old_pages page_size r)
      page_size
    have hmul' := Nat.mul_le_mul_right page_size (hge.trans hlast)
    rw [slot_new hp r hpast, h1, h2, if_neg (by rw [decide_eq_true_eq]; omega)]
    by_cases hfull : prefix_nat r + t < (prefix_nat r + extend_len r) / page_size * page_size
    · -- in a full new page
      have hrel : max ((t : ℤ) - (old_pages page_size r * page_size - prefix_nat r : ℕ)) 0
          = (prefix_nat r + t - old_pages page_size r * page_size : ℕ) := by
        omega
      have hdiv : (prefix_nat r + t - old_pages page_size r * page_size) / page_size
          = (prefix_nat r + t) / page_size - old_pages page_size r := by
        rw [Nat.mul_comm, Nat.sub_mul_div]
      have hrem : (prefix_nat r + t - old_pages page_size r * page_size) % page_size
          = (prefix_nat r + t) % page_size := by
        conv_rhs => rw [← Nat.sub_add_cancel hpast, Nat.add_mul_mod_self_right]
      rw [if_pos (by
          rw [Bool.and_eq_true, Bool.not_eq_true', decide_eq_false_iff_not, decide_eq_true_eq]
          omega), hrel, ← Int.natCast_ediv, ← Int.natCast_emod, hdiv, hrem, ← Int.natCast_add,
        clamp_natCast (by omega)]
    · -- in the new partial page
      have hsame : (prefix_nat r + t) / page_size = (prefix_nat r + extend_len r) / page_size :=
        Nat.le_antisymm hlast ((Nat.le_div_iff_mul_le hp).mpr (Nat.le_of_not_lt hfull))
      have hcount : new_pages page_size r
          = (prefix_nat r + t) / page_size - old_pages page_size r + 1 := by
        have hnext := page_count_cases hp (prefix_nat r + extend_len r)
        have hopen : new_pages page_size r
            = page_count page_size (prefix_nat r + extend_len r) - old_pages page_size r := rfl
        omega
      have hrel : max ((t : ℤ) - (old_pages page_size r * page_size - prefix_nat r : ℕ)
          - (((prefix_nat r + extend_len r) / page_size - old_pages page_size r) * page_size : ℕ)) 0
          = ((prefix_nat r + t) % page_size : ℕ) := by
        have hend : (prefix_nat r + extend_len r) / page_size * page_size
            = (prefix_nat r + t) / page_size * page_size := by rw [hsame]
        omega
      have hidx : ((first_page page_size reqs g + new_pages page_size r : ℕ) : ℤ) - 1
          = (first_page page_size reqs g
            + ((prefix_nat r + t) / page_size - old_pages page_size r) : ℕ) := by
        omega
      rw [if_neg (by
          rw [Bool.and_eq_true, decide_eq_true_eq]
          omega), hrel, hidx, clamp_natCast (by omega)]

omit hp in
theorem map_positions {F : ℕ → ℤ} (hF : ∀ g r, reqs[g]? = some r → ∀ t, t < extend_len r →
    F (first_slot reqs g + t) = slot page_size free_pages r (first_page page_size reqs g) t) :
    (List.range (lens reqs).sum).map F = slots page_size reqs free_pages := by
  have hline := Segments.flatMap_segments (lens reqs) (Nat.le_refl (lens reqs).length)
  rw [Segments.start_length] at hline
  rw [← hline, length_lens, map_flatMap]
  refine flatMap_congr fun g hg => ?_
  have hlt := mem_range.mp hg
  have hr : reqs[g]? = some reqs[g] := getElem?_eq_getElem hlt
  rw [block_of free_pages hr, lens, getD_map_nat reqs _ hr, range'_eq_map_range, map_map]
  refine map_congr_left fun t ht => ?_
  exact hF g _ hr t (mem_range.mp ht)

/-- **The reference** gives the slots of the batch. -/
theorem alloc_extend_naive_eq (hends : ∀ r ∈ reqs, EndsAt page_size r)
    (henough : (page_counts page_size reqs).sum ≤ free_pages.length) {out_indices : List ℤ}
    (hout : out_indices.length = (lens reqs).sum) :
    alloc_extend_naive page_size reqs free_pages out_indices
      = .ok (slots page_size reqs free_pages) := by
  unfold alloc_extend_naive
  by_cases hempty : out_indices.length = 0
  · rw [if_pos hempty, eq_nil_of_length_eq_zero hempty]
    have hnone : (slots page_size reqs free_pages).length = 0 := by
      rw [length_slots, ← hout, hempty]
    rw [eq_nil_of_length_eq_zero hnone]
  · rw [if_neg hempty, hout]
    by_cases hnil : free_pages.length = 0
    · -- no request opens a page
      have hnew : ∀ r ∈ reqs, new_pages page_size r = 0 := by
        intro r hr
        obtain ⟨g, hg⟩ := getElem?_of_mem hr
        have hnext := @first_page_succ page_size _ _ _ hg
        have hle := Segments.start_le_sum (page_counts page_size reqs) (g + 1)
        unfold first_page at hnext
        omega
      have hold : ∀ r ∈ reqs, page_count page_size (prefix_nat r + extend_len r)
          = old_pages page_size r := by
        intro r hr
        have hnone := hnew r hr
        have hmono := @page_count_mono page_size _ _
          (Nat.le_add_right (prefix_nat r) (extend_len r))
        unfold new_pages opened at hnone
        unfold old_pages
        omega
      have hall : (reqs.all fun r => decide (ceil_seq page_size r = ceil_prefix page_size r))
          = true := by
        rw [all_eq_true]
        intro r hr
        rw [decide_eq_true_eq, ceil_seq, ceil_seq_eq hp, ceil_prefix, ceil_prefix_eq hp, hold r hr]
      rw [if_pos hnil, if_pos hall, map_positions]
      intro g r hr t ht
      have hmem := mem_of_getElem? hr
      have hin : prefix_nat r + t < old_pages page_size r * page_size := by
        by_contra hpast
        have hpage := page_of_new hp r ht (Nat.le_of_not_lt hpast)
        rw [hnew r hmem] at hpage
        exact absurd hpage (Nat.not_lt_zero _)
      rw [val_phase1_eq hr ht, slot_old hp r (hends r hmem) hin]
    · rw [if_neg hnil, map_positions]
      intro g r hr t ht
      exact naive_slot_eq hp hends henough hr ht

end naive

/-! ## 7. The pages -/

/-- Page `j` of request `g`. -/
def page (page_size : ℕ) (reqs : List ExtendRequest) (free_pages : List ℤ) (g j : ℕ) : ℤ :=
  reqs[g]?.elim 0 fun r =>
    if j < old_pages page_size r then r.last_loc / page_size
    else free_pages.getD (first_page page_size reqs g + (j - old_pages page_size r)) 0

/-- The pages that request `g` opens. -/
def opened_pages (page_size : ℕ) (reqs : List ExtendRequest) (g : ℕ) : List ℕ :=
  reqs[g]?.elim [] fun r => List.range' (old_pages page_size r) (new_pages page_size r)

/-- No two partial last pages are the same, and none is a free page that is handed out. -/
def OwnLastPages (page_size : ℕ) (reqs : List ExtendRequest) (free_pages : List ℤ) : Prop :=
  (∀ (g g' : ℕ) (r r' : ExtendRequest), reqs[g]? = some r → reqs[g']? = some r' → r.prefix_len % page_size ≠ 0 →
    r'.prefix_len % page_size ≠ 0 → r.last_loc / page_size = r'.last_loc / page_size → g = g') ∧
  ∀ r ∈ reqs, r.prefix_len % page_size ≠ 0 →
    r.last_loc / page_size ∉ free_pages.take (num_new_pages_extend page_size reqs).toNat

/-- The slots of a batch lie in pages, `page g j` being page `j` of request `g`. -/
structure PageStructured (page_size : ℕ) (reqs : List ExtendRequest) (free_pages : List ℤ)
    (slots : List ℤ) (page : ℕ → ℕ → ℤ) : Prop where
  /-- Position `p` has slot `p % page_size` of page `p / page_size`. -/
  laid : ∀ (g : ℕ) (r : ExtendRequest) (p : ℕ), reqs[g]? = some r → prefix_nat r ≤ p → p < prefix_nat r + extend_len r →
    slots[first_slot reqs g + (p - prefix_nat r)]?
      = some (page g (p / page_size) * page_size + (p % page_size : ℕ))
  /-- The partial last page goes on. -/
  continued : ∀ (g : ℕ) (r : ExtendRequest), reqs[g]? = some r → r.prefix_len % page_size ≠ 0 →
    page g (prefix_nat r / page_size) = r.last_loc / page_size
  /-- The new pages are the first free pages. -/
  taken : (List.range reqs.length).flatMap (fun g => (opened_pages page_size reqs g).map (page g))
    = free_pages.take (num_new_pages_extend page_size reqs).toNat
  /-- Each is a page of one request once. -/
  once : ∀ g g' j j', j ∈ opened_pages page_size reqs g → j' ∈ opened_pages page_size reqs g' →
    page g j = page g' j' → g = g' ∧ j = j'
  duplicate_free : OwnLastPages page_size reqs free_pages → slots.Nodup

section pages

variable {page_size : ℕ} (hp : 0 < page_size) {reqs : List ExtendRequest} {free_pages : List ℤ}
  {g : ℕ} {r : ExtendRequest}

section

variable (hr : reqs[g]? = some r)
include hr

theorem slots_at {t : ℕ} (ht : t < extend_len r) :
    (slots page_size reqs free_pages)[first_slot reqs g + t]?
      = some (slot page_size free_pages r (first_page page_size reqs g) t) := by
  have hg := (List.getElem?_eq_some_iff.mp hr).1
  have hlens : ((List.range reqs.length).map (block page_size reqs free_pages)).map List.length
      = lens reqs := by
    refine ext_getElem (by simp [length_lens]) fun i h₁ h₂ => ?_
    rw [getElem_map, getElem_map, getElem_range,
      length_block free_pages (by rwa [length_lens] at h₂), getD_eq_getElem _ _ h₂]
  have hin : g < ((List.range reqs.length).map (block page_size reqs free_pages)).length := by
    rwa [length_map, length_range]
  have hblock : ((List.range reqs.length).map (block page_size reqs free_pages))[g]
      = (List.range (extend_len r)).map
          (slot page_size free_pages r (first_page page_size reqs g)) := by
    rw [getElem_map, getElem_range, block_of free_pages hr]
  have hentry := Segments.getElem?_flatten
    ((List.range reqs.length).map (block page_size reqs free_pages)) (r := t) hin
    (by rw [hblock, length_map, length_range]; exact ht)
  rw [hlens, hblock, getElem?_map, getElem?_range ht] at hentry
  exact hentry

theorem slot_page (t : ℕ) : slot page_size free_pages r (first_page page_size reqs g) t
      = page page_size reqs free_pages g ((prefix_nat r + t) / page_size) * page_size
        + ((prefix_nat r + t) % page_size : ℕ) := by
  rw [slot, slot_at, page, hr]
  dsimp only [Option.elim]
  split
  · rfl
  · rw [getD_eq_getElem?_getD, getD_eq_getElem?_getD, getElem?_drop]

theorem opened_pages_of :
    opened_pages page_size reqs g = List.range' (old_pages page_size r) (new_pages page_size r) := by
  rw [opened_pages, hr]
  rfl

theorem page_of_opened {m : ℕ} : page page_size reqs free_pages g (old_pages page_size r + m)
      = free_pages.getD (first_page page_size reqs g + m) 0 := by
  rw [page, hr]
  dsimp only [Option.elim]
  rw [if_neg (Nat.not_lt.mpr (Nat.le_add_right _ _)), Nat.add_sub_cancel_left]

omit hr in
theorem mem_opened_pages {j : ℕ} (hj : j ∈ opened_pages page_size reqs g) :
    ∃ r m, reqs[g]? = some r ∧ m < new_pages page_size r ∧ j = old_pages page_size r + m := by
  cases hr : reqs[g]? with
  | none =>
    rw [opened_pages, hr] at hj
    exact absurd hj not_mem_nil
  | some r =>
    rw [opened_pages_of hr, mem_range'_1] at hj
    exact ⟨r, j - old_pages page_size r, rfl, by omega, by omega⟩

theorem place_lt {m : ℕ} (hm : m < new_pages page_size r) :
    first_page page_size reqs g + m < (page_counts page_size reqs).sum := by
  have hnext := @first_page_succ page_size _ _ _ hr
  have hle := Segments.start_le_sum (page_counts page_size reqs) (g + 1)
  unfold first_page at hnext ⊢
  omega

end

theorem pages_taken (henough : (page_counts page_size reqs).sum ≤ free_pages.length) :
    (List.range reqs.length).flatMap
        (fun g => (opened_pages page_size reqs g).map (page page_size reqs free_pages g))
      = free_pages.take (page_counts page_size reqs).sum := by
  have hline := Segments.flatMap_segments (page_counts page_size reqs)
    (Nat.le_refl (page_counts page_size reqs).length)
  have hlen : (page_counts page_size reqs).length = reqs.length := length_map _
  rw [Segments.start_length, hlen] at hline
  have htake : (List.range (page_counts page_size reqs).sum).map (fun i => free_pages.getD i 0)
      = free_pages.take (page_counts page_size reqs).sum := by
    refine ext_getElem (by simp [henough]) fun i h₁ h₂ => ?_
    rw [getElem_map, getElem_range, getElem_take, getD_eq_getElem]
  rw [← htake, ← hline, map_flatMap]
  refine flatMap_congr fun g hg => ?_
  have hlt := mem_range.mp hg
  have hr : reqs[g]? = some reqs[g] := getElem?_eq_getElem hlt
  rw [opened_pages_of hr, page_counts, getD_map_nat reqs _ hr, range'_eq_map_range,
    range'_eq_map_range, map_map, map_map]
  exact map_congr_left fun m _ => page_of_opened hr

/-- **Every new page is a page of one request once.** -/
theorem opened_once (hnd : free_pages.Nodup)
    (henough : (page_counts page_size reqs).sum ≤ free_pages.length) {g g' j j' : ℕ}
    (hj : j ∈ opened_pages page_size reqs g) (hj' : j' ∈ opened_pages page_size reqs g')
    (hsame : page page_size reqs free_pages g j = page page_size reqs free_pages g' j') :
    g = g' ∧ j = j' := by
  obtain ⟨r, m, hr, hm, rfl⟩ := mem_opened_pages hj
  obtain ⟨r', m', hr', hm', rfl⟩ := mem_opened_pages hj'
  have hplace := (place_lt hr hm).trans_le henough
  have hplace' := (place_lt hr' hm').trans_le henough
  rw [page_of_opened hr, page_of_opened hr', getD_eq_getElem _ _ hplace,
    getD_eq_getElem _ _ hplace', hnd.getElem_inj_iff] at hsame
  obtain ⟨hlt, hsize⟩ := @getElem_page_counts page_size _ _ _ hr
  obtain ⟨hlt', hsize'⟩ := @getElem_page_counts page_size _ _ _ hr'
  obtain rfl : g = g' := Segments.segment_unique hlt hlt'
    ⟨Nat.le_add_right _ m, by rw [hsize]; exact Nat.add_lt_add_left hm _⟩
    (by
      change _ ≤ first_page page_size reqs g + m ∧ first_page page_size reqs g + m < _
      rw [hsame, hsize']
      exact ⟨Nat.le_add_right _ m', Nat.add_lt_add_left hm' _⟩)
  rw [hr, Option.some.injEq] at hr'
  subst hr'
  exact ⟨rfl, by omega⟩

theorem prefix_mod (r : ExtendRequest) :
    r.prefix_len % page_size = (prefix_nat r % page_size : ℕ) := by
  rw [prefix_len_eq]
  rfl

include hp

theorem page_continued (hr : reqs[g]? = some r) (hz : r.prefix_len % page_size ≠ 0) :
    page page_size reqs free_pages g (prefix_nat r / page_size) = r.last_loc / page_size := by
  have hcount := page_count_cases hp (prefix_nat r)
  have hlt : prefix_nat r / page_size < old_pages page_size r := by
    rcases hcount with ⟨h0, -, -⟩ | ⟨-, hc, -⟩
    · rw [prefix_mod, h0] at hz
      exact absurd rfl hz
    · rw [old_pages, hc]
      exact Nat.lt_succ_self _
  rw [page, hr]
  exact if_pos hlt

theorem token_page (hr : reqs[g]? = some r) {t : ℕ} (ht : t < extend_len r) :
    (r.prefix_len % page_size ≠ 0 ∧ (prefix_nat r + t) / page_size = prefix_nat r / page_size) ∨
      (prefix_nat r + t) / page_size ∈ opened_pages page_size reqs g := by
  rcases new_position hp (Nat.le_add_right (prefix_nat r) t) (Nat.add_lt_add_left ht _) with
    ⟨hz, hsame, -⟩ | ⟨hge, hlt⟩
  · left
    refine ⟨?_, hsame⟩
    rw [prefix_mod]
    exact_mod_cast hz
  · right
    rw [opened_pages_of hr, mem_range'_1]
    unfold old_pages new_pages
    omega

section

variable (hnd : free_pages.Nodup) (henough : (page_counts page_size reqs).sum ≤ free_pages.length)
include hnd henough

/-- **No slot is handed out twice** if the partial last pages are the requests' own. -/
theorem slots_nodup (hown : OwnLastPages page_size reqs free_pages) :
    (slots page_size reqs free_pages).Nodup := by
  have htaken := pages_taken henough
  have hcount : (num_new_pages_extend page_size reqs).toNat = (page_counts page_size reqs).sum := by
    rw [num_new_pages_eq hp, Int.toNat_natCast]
  unfold OwnLastPages at hown
  rw [hcount, ← htaken] at hown
  have hopened : ∀ g j, j ∈ opened_pages page_size reqs g →
      page page_size reqs free_pages g j ∈ (List.range reqs.length).flatMap
        (fun g => (opened_pages page_size reqs g).map (page page_size reqs free_pages g)) := by
    intro g j hj
    obtain ⟨r, m, hr, -, -⟩ := mem_opened_pages hj
    have hlt := (List.getElem?_eq_some_iff.mp hr).1
    exact mem_flatMap.mpr ⟨g, mem_range.mpr hlt, mem_map_of_mem hj⟩
  -- two tokens with the same slot are in the same page at the same offset
  have hsame : ∀ g g' r r' t t', reqs[g]? = some r → reqs[g']? = some r' → t < extend_len r →
      t' < extend_len r' →
      slot page_size free_pages r (first_page page_size reqs g) t
        = slot page_size free_pages r' (first_page page_size reqs g') t' → g = g' ∧ t = t' := by
    intro g g' r r' t t' hr hr' ht ht' heq
    rw [slot_page hr, slot_page hr'] at heq
    obtain ⟨hpage, hoff⟩ := slot_inj hp (Nat.mod_lt _ hp) (Nat.mod_lt _ hp) heq
    have hpos : g = g' ∧ (prefix_nat r + t) / page_size = (prefix_nat r' + t') / page_size := by
      rcases token_page hp hr ht with ⟨hz, hj⟩ | hj
      · rcases token_page hp hr' ht' with ⟨hz', hj'⟩ | hj'
        · rw [hj, hj', page_continued hp hr hz, page_continued hp hr' hz'] at hpage
          obtain rfl := hown.1 g g' r r' hr hr' hz hz' hpage
          rw [hr, Option.some.injEq] at hr'
          subst hr'
          exact ⟨rfl, hj.trans hj'.symm⟩
        · rw [hj, page_continued hp hr hz] at hpage
          exact absurd (hpage ▸ hopened g' _ hj') (hown.2 r (mem_of_getElem? hr) hz)
      · rcases token_page hp hr' ht' with ⟨hz', hj'⟩ | hj'
        · rw [hj', page_continued hp hr' hz'] at hpage
          exact absurd (hpage ▸ hopened g _ hj) (hown.2 r' (mem_of_getElem? hr') hz')
        · exact opened_once hnd henough hj hj' hpage
    obtain ⟨rfl, hdiv⟩ := hpos
    rw [hr, Option.some.injEq] at hr'
    subst hr'
    refine ⟨rfl, ?_⟩
    have hdm := Nat.div_add_mod' (prefix_nat r + t) page_size
    have hdm' := Nat.div_add_mod' (prefix_nat r + t') page_size
    rw [hdiv] at hdm
    omega
  have hplaced : ∀ i, i < (slots page_size reqs free_pages).length → ∃ g r t,
      reqs[g]? = some r ∧ t < extend_len r ∧ i = first_slot reqs g + t := by
    intro i hi
    rw [length_slots] at hi
    obtain ⟨g, hg, hle, hlt⟩ := Segments.exists_segment (lens reqs) hi
    have hlen := hg
    rw [length_lens] at hlen
    have hr : reqs[g]? = some reqs[g] := getElem?_eq_getElem hlen
    obtain ⟨_, hsize⟩ := getElem_lens hr
    exact ⟨g, _, i - first_slot reqs g, hr, by unfold first_slot; omega,
      by unfold first_slot; omega⟩
  rw [nodup_iff_getElem?_ne_getElem?]
  intro i j hij hj heq
  obtain ⟨g, r, t, hr, ht, rfl⟩ := hplaced i (hij.trans hj)
  obtain ⟨g', r', t', hr', ht', rfl⟩ := hplaced j hj
  rw [slots_at hr ht, slots_at hr' ht', Option.some.injEq] at heq
  obtain ⟨rfl, rfl⟩ := hsame g g' r r' t t' hr hr' ht ht' heq
  exact Nat.lt_irrefl _ hij

theorem page_structured : PageStructured page_size reqs free_pages (slots page_size reqs free_pages)
      (page page_size reqs free_pages) where
  laid g r p hr hle hlt := by
    have ht : p - prefix_nat r < extend_len r := by omega
    have hp' : prefix_nat r + (p - prefix_nat r) = p := by omega
    rw [slots_at hr ht, slot_page hr, hp']
  continued _ _ hr hz := page_continued hp hr hz
  taken := by
    rw [pages_taken henough, num_new_pages_eq hp, Int.toNat_natCast]
  once _ _ _ _ hj hj' hsame := opened_once hnd henough hj hj' hsame
  duplicate_free hown := slots_nodup hp hnd henough hown

end

end pages

/-! ## 8. The kernels and the reference -/

section agree

variable {page_size : ℕ} (hp : 0 < page_size) {reqs : List ExtendRequest}
  {free_pages out_indices : List ℤ}

theorem sum_lens (reqs : List ExtendRequest) : ((lens reqs).sum : ℤ) = extend_num_tokens reqs := by
  unfold lens extend_num_tokens
  induction reqs with
  | nil => rfl
  | cons r reqs ih =>
    have hle := r.prefix_le_seq
    rw [map_cons, sum_cons, map_cons, sum_cons, ← ih]
    unfold extend_len
    omega

include hp

/-- **The kernels and their reference.** For requests whose last slots stand where their prefixes
end, and enough distinct free pages, the extend kernel leaves the slots of the reference whatever the
order of its stores; the slots lie in pages that go on from the last ones and are the first free
pages, each used once; and when every request adds one token, the decode kernel leaves the same
slots and its pages are counted the same. -/
theorem paged_kernels_agree (hends : ∀ r ∈ reqs, EndsAt page_size r) (hnd : free_pages.Nodup)
    (henough : num_new_pages_extend page_size reqs ≤ free_pages.length)
    (hout : (out_indices.length : ℤ) = extend_num_tokens reqs) : ∃ slots page,
      (∀ stores, stores.Perm (extend_launch page_size reqs free_pages) →
        stored out_indices stores = slots) ∧
      alloc_extend_naive page_size reqs free_pages out_indices = .ok slots ∧
      PageStructured page_size reqs free_pages slots page ∧
      (ByOne reqs → (∀ stores, stores.Perm (decode_launch page_size reqs free_pages) →
          stored out_indices stores = slots) ∧
        (1 < page_size → num_new_pages_decode page_size (reqs.map ExtendRequest.seq_len)
          = num_new_pages_extend page_size reqs)) := by
  have hcount : (page_counts page_size reqs).sum ≤ free_pages.length := by
    rw [num_new_pages_eq hp] at henough
    exact_mod_cast henough
  have hlen : out_indices.length = (lens reqs).sum := by
    rw [← sum_lens] at hout
    exact_mod_cast hout
  have hslots : out_indices.length = (slots page_size reqs free_pages).length := by
    rw [length_slots, hlen]
  refine ⟨slots page_size reqs free_pages, page page_size reqs free_pages, ?_, ?_, ?_, ?_⟩
  · intro stores hperm
    rw [extend_launch_eq free_pages hp hends] at hperm
    exact stored_of_perm hslots hperm
  · exact alloc_extend_naive_eq hp hends hcount hlen
  · exact page_structured hp hnd hcount
  · intro hone
    refine ⟨fun stores hperm => ?_, fun hlarge => ?_⟩
    · rw [decode_launch_eq hp hone hends] at hperm
      exact stored_of_perm hslots hperm
    · have hcounts := num_new_pages_decode_eq hlarge fun r hr =>
        ⟨r.prefix_nonneg, hone r hr⟩
      rw [map_map] at hcounts
      exact hcounts

end agree

/-- A request of six tokens with three of them cached, and one of five tokens. -/
def batch : List ExtendRequest := [⟨3, 6, 6, by decide, by decide⟩, ⟨0, 5, -1, by decide, by decide⟩]

/-- Its slots, with the stores made backwards: the rest of page `1`, half of page `2`, page `3` and
one slot of page `5`. -/
theorem batch_stored : stored (List.replicate 8 0) (extend_launch 4 batch [2, 3, 5]).reverse
    = [7, 8, 9, 12, 13, 14, 15, 20] := by
  have hends : ∀ r ∈ batch, EndsAt 4 r := by
    unfold EndsAt
    decide
  obtain ⟨slots, page, hstored, hnaive, -, -⟩ :=
    @paged_kernels_agree 4 (by decide) batch [2, 3, 5] (List.replicate 8 0) hends (by decide)
      (by decide) rfl
  have hslots : alloc_extend_naive 4 batch [2, 3, 5] (List.replicate 8 0)
      = .ok [7, 8, 9, 12, 13, 14, 15, 20] := rfl
  rw [hnaive, Except.ok.injEq] at hslots
  rw [hstored _ (reverse_perm _), hslots]

end LightningH3.PagedKernels
