/-
The paged allocator of KV slots (`srt/mem_cache/allocator/paged.py`, class
`PagedTokenToKVPoolAllocator`; the group switch is in `allocator/base.py`).

Page `p` has the slots `p * page_size + o`; page `0` is the padding page and is never handed out.
The kernels that compute the slots of an extend or a decode step are those of the unified pool
(`kernels/ops/memory/allocator.py`). The debug assertions, which are off by default, are left out.

What the allocator holds back is `pool`: the free pages, the staged ones, and those a free group
defers. `Hands` says what a successful allocation does to it, `Frees` what a free does.
-/
import Mathlib.Algebra.Order.BigOperators.Group.List
import LightningH3.Lib.PagedRows
import LightningH3.UnifiedPool

set_option autoImplicit false

namespace LightningH3.PagedAllocator

open List Nat

open UnifiedPool (arange sorted unique ExtendRequest pages_of num_new_pages_extend
  num_new_pages_decode extend_tokens extend_kernel decode_kernel)

inductive Fault
  | nested_group
  | unaligned_segment
  deriving DecidableEq, Repr

structure PagedConfig where
  size : ℕ
  page_size : ℕ
  need_sort : Bool
  page_pos : 0 < page_size

def PagedConfig.num_pages (c : PagedConfig) : ℕ := c.size / c.page_size

structure Paged where
  free_pages : List ℤ
  staged_pages : List (List ℤ)
  num_staged_pages : ℕ
  free_group : Option (List (List ℤ))
  free_page_ids_group : List (List ℤ)

/-- `xs[::step]` -/
def stride (step : ℕ) (xs : List ℤ) : List ℤ :=
  (List.range ((xs.length + step - 1) / step)).map fun i => xs.getD (i * step) 0

section ops

variable (c : PagedConfig) (s : Paged)

def available_size : ℕ := (s.free_pages.length + s.num_staged_pages) * c.page_size

def get_all_free_pages : List ℤ := s.free_pages ++ s.staged_pages.flatten

def merge_and_sort_free : Paged :=
  if s.staged_pages = [] then s
  else { s with
    free_pages := sorted (get_all_free_pages s)
    staged_pages := []
    num_staged_pages := 0 }

def extend_num_tokens (reqs : List ExtendRequest) : ℤ :=
  (reqs.map fun r => r.seq_len - r.prefix_len).sum

/-- What `alloc_extend` and `alloc_decode` end with: the pages the kernel used are taken off. -/
def take_new_pages (num_new_pages : ℤ) (out_indices : List ℤ) : Paged × Option (List ℤ) :=
  if num_new_pages > s.free_pages.length then (s, none)
  else ({ s with free_pages := s.free_pages.drop num_new_pages.toNat }, some out_indices)

def alloc_extend (reqs : List ExtendRequest) : Paged × Option (List ℤ) :=
  let s :=
    if extend_num_tokens reqs / c.page_size + reqs.length + 1 > s.free_pages.length then
      merge_and_sort_free s
    else s
  take_new_pages s (num_new_pages_extend c.page_size reqs)
    (extend_kernel c.page_size s.free_pages 0 reqs)

/-- `alloc_decode`, over pairs of a sequence length and the last slot. -/
def alloc_decode (reqs : List (ℤ × ℤ)) : Paged × Option (List ℤ) :=
  let s := if reqs.length > s.free_pages.length then merge_and_sort_free s else s
  take_new_pages s (num_new_pages_decode c.page_size (reqs.map Prod.fst))
    (decode_kernel c.page_size s.free_pages 0 reqs)

def release_page_ids (page_ids : List ℤ) : Paged :=
  if c.need_sort then { s with
    staged_pages := s.staged_pages ++ [page_ids]
    num_staged_pages := s.num_staged_pages + page_ids.length }
  else { s with free_pages := page_ids ++ s.free_pages }

/-- `free_page_ids`: exactly these pages, now or when the group ends. -/
def free_page_ids (page_ids : List ℤ) : Paged :=
  if page_ids = [] then s
  else match s.free_group with
    | none => release_page_ids c s page_ids
    | some _ => { s with free_page_ids_group := s.free_page_ids_group ++ [page_ids] }

/-- `free_segment`: one representative slot per page. -/
def free_segment (free_index : List ℤ) (start_pos : ℕ) : Except Fault Paged :=
  if free_index = [] then .ok s
  else if start_pos % c.page_size ≠ 0 then .error .unaligned_segment
  else .ok (free_page_ids c s ((stride c.page_size free_index).map fun slot => slot / c.page_size))

/-- `free`: the pages of any slots. -/
def free (free_index : List ℤ) : Paged :=
  if free_index = [] then s
  else match s.free_group with
    | none => release_page_ids c s (unique (free_index.map fun slot => slot / c.page_size))
    | some group => { s with free_group := some (group ++ [free_index]) }

def free_group_begin : Except Fault Paged :=
  match s.free_group with
  | some _ => .error .nested_group
  | none => .ok { s with free_group := some [], free_page_ids_group := [] }

def free_group_end : Paged :=
  let pending := s.free_group.getD []
  let s := { s with free_group := none }
  let s := if pending = [] then s else free c s pending.flatten
  if s.free_page_ids_group = [] then s
  else { release_page_ids c s s.free_page_ids_group.flatten with free_page_ids_group := [] }

end ops

/-- `clear`: page `0` stays out. -/
def clear (c : PagedConfig) : Paged where
  free_pages := arange 1 (c.num_pages + 1)
  staged_pages := []
  num_staged_pages := 0
  free_group := none
  free_page_ids_group := []

/-! ## The pool -/

/-- Every page the allocator holds: free, staged, or deferred by a group. -/
def pool (s : Paged) : List ℤ :=
  s.free_pages ++ s.staged_pages.flatten ++ s.free_page_ids_group.flatten

/-- What holds between two calls if pages are freed by their ids only. -/
structure Tidy (s : Paged) : Prop where
  counted : s.num_staged_pages = s.staged_pages.flatten.length
  group : s.free_group = none ∨ s.free_group = some []
  undeferred : s.free_group = none → s.free_page_ids_group = []

/-- The pages that can be handed out at once. -/
def on_hand (s : Paged) : ℕ := s.free_pages.length + s.num_staged_pages

/-- Two states that hold the same pages in the same group. -/
structure Regrouped (s s' : Paged) : Prop where
  tidy : Tidy s'
  pool : (pool s').Perm (pool s)
  on_hand : on_hand s' = on_hand s
  free_group : s'.free_group = s.free_group

/-- A successful allocation: the first `n` pages of `free_pages` are handed out. -/
structure Hands (s s' : Paged) (free_pages : List ℤ) (n : ℕ) : Prop where
  tidy : Tidy s'
  enough : n ≤ free_pages.length
  pool : (free_pages.take n ++ pool s').Perm (pool s)
  on_hand : on_hand s' + n = on_hand s
  free_group : s'.free_group = s.free_group

/-- A free of some pages: they go to the pool. -/
structure Frees (s s' : Paged) (page_ids : List ℤ) : Prop where
  tidy : Tidy s'
  pool : (pool s').Perm (page_ids ++ pool s)
  free_group : s'.free_group = s.free_group

theorem tidy_clear (c : PagedConfig) : Tidy (clear c) := ⟨rfl, .inl rfl, fun _ => rfl⟩

theorem mem_arange {a b x : ℤ} : x ∈ arange a b ↔ a ≤ x ∧ x < b := by
  unfold arange
  rw [mem_map]
  constructor
  · rintro ⟨i, hi, rfl⟩
    rw [mem_range] at hi
    omega
  · rintro ⟨ha, hb⟩
    refine ⟨(x - a).toNat, ?_, by omega⟩
    rw [mem_range]
    omega

theorem nodup_arange (a b : ℤ) : (arange a b).Nodup := by
  refine (nodup_map_iff fun i j hij => ?_).mpr nodup_range
  omega

theorem mem_pool_clear (c : PagedConfig) (p : ℤ) : p ∈ pool (clear c) ↔ 1 ≤ p ∧ p ≤ c.num_pages := by
  simp only [pool, clear, flatten_nil, append_nil, mem_arange]
  omega

theorem nodup_pool_clear (c : PagedConfig) : (pool (clear c)).Nodup := by
  simp only [pool, clear, flatten_nil, append_nil]
  exact nodup_arange _ _

variable {s : Paged}

theorem Regrouped.refl (h : Tidy s) : Regrouped s s := ⟨h, List.Perm.refl _, rfl, rfl⟩

theorem merge_spec (h : Tidy s) : Regrouped s (merge_and_sort_free s) ∧
    (merge_and_sort_free s).free_pages.length = on_hand s := by
  unfold merge_and_sort_free
  split
  · rename_i hnil
    refine ⟨.refl h, ?_⟩
    rw [on_hand, h.counted, hnil]
    rfl
  · have hsort : (sorted (get_all_free_pages s)).Perm (get_all_free_pages s) :=
      perm_insertionSort _ _
    have hlen : (sorted (get_all_free_pages s)).length = on_hand s := by
      rw [hsort.length_eq, get_all_free_pages, length_append, on_hand, h.counted]
    refine ⟨⟨⟨rfl, h.group, h.undeferred⟩, ?_, ?_, rfl⟩, hlen⟩
    · simp only [pool, flatten_nil, append_nil]
      exact hsort.append_right _
    · dsimp only [on_hand] at hlen ⊢
      omega

theorem merged_spec (h : Tidy s) (short : Prop) [Decidable short] (n : ℕ)
    (hshort : ¬ short → n ≤ s.free_pages.length) :
    ∃ s₁, (if short then merge_and_sort_free s else s) = s₁ ∧ Regrouped s s₁ ∧
      (n ≤ on_hand s → n ≤ s₁.free_pages.length) := by
  refine ⟨_, rfl, ?_⟩
  split
  · obtain ⟨hr, hlen⟩ := merge_spec h
    exact ⟨hr, fun hn => by rw [hlen]; exact hn⟩
  · rename_i hs
    exact ⟨.refl h, fun _ => hshort hs⟩

variable {s₁ : Paged} {n : ℕ}

theorem take_new_pages_spec (r : Regrouped s s₁) (out_indices : List ℤ)
    (hn : n ≤ s₁.free_pages.length) :
    ∃ s', take_new_pages s₁ n out_indices = (s', some out_indices) ∧
      Hands s s' s₁.free_pages n := by
  refine ⟨{ s₁ with free_pages := s₁.free_pages.drop n }, ?_, ?_⟩
  · unfold take_new_pages
    rw [if_neg (by omega), Int.toNat_natCast]
  · refine ⟨⟨r.tidy.counted, r.tidy.group, r.tidy.undeferred⟩, hn, ?_, ?_, r.free_group⟩
    · refine List.Perm.trans (List.Perm.of_eq ?_) r.pool
      simp only [pool, ← append_assoc, take_append_drop]
    · have hhand := r.on_hand
      dsimp only [on_hand] at hhand ⊢
      rw [length_drop]
      omega

theorem take_new_pages_none (out_indices : List ℤ) (hn : ¬ n ≤ s₁.free_pages.length) :
    take_new_pages s₁ n out_indices = (s₁, none) := by
  unfold take_new_pages
  rw [if_pos (by omega)]

theorem Regrouped.free_le (r : Regrouped s s₁) :
    s₁.free_pages.length ≤ PagedAllocator.on_hand s := by
  rw [← r.on_hand, PagedAllocator.on_hand]
  omega

/-! ## New pages -/

variable {page_size : ℤ}

section

variable (hp : 0 < page_size)
include hp

theorem pages_of_mono {a b : ℤ} (h : a ≤ b) : pages_of page_size a ≤ pages_of page_size b :=
  Int.ediv_le_ediv hp (by omega)

theorem new_pages_nonneg (r : ExtendRequest) : 0 ≤ r.new_pages page_size := by
  have := pages_of_mono hp r.prefix_le_seq
  unfold ExtendRequest.new_pages
  omega

theorem num_new_pages_nonneg (reqs : List ExtendRequest) :
    0 ≤ num_new_pages_extend page_size reqs := by
  apply sum_nonneg
  intro x hx
  obtain ⟨r, -, rfl⟩ := mem_map.mp hx
  exact new_pages_nonneg hp r

theorem new_pages_le (r : ExtendRequest) :
    r.new_pages page_size ≤ (r.seq_len - r.prefix_len) / page_size + 1 := by
  unfold ExtendRequest.new_pages pages_of
  -- `seq_len` is `prefix_len` plus the tokens, and these fill `q` pages and a rest
  obtain ⟨d, hd⟩ : ∃ d, r.seq_len - r.prefix_len = d := ⟨_, rfl⟩
  have hq := Int.mul_ediv_add_emod d page_size
  have hr := Int.emod_lt_of_pos d hp
  have hb : r.seq_len + page_size - 1 ≤ (r.prefix_len + page_size - 1) + page_size * (d / page_size + 1) := by
    rw [Int.mul_add]
    omega
  have := Int.ediv_le_ediv hp hb
  rw [Int.add_mul_ediv_left _ _ hp.ne'] at this
  rw [hd]
  omega

theorem num_new_pages_le (reqs : List ExtendRequest) :
    num_new_pages_extend page_size reqs ≤ extend_num_tokens reqs / page_size + reqs.length := by
  induction reqs with
  | nil => simp [num_new_pages_extend, extend_num_tokens]
  | cons r reqs ih =>
    have hr := new_pages_le hp r
    unfold num_new_pages_extend extend_num_tokens at ih ⊢
    rw [map_cons, sum_cons, map_cons, sum_cons, length_cons]
    -- whole pages of the parts are whole pages of the sum
    obtain ⟨d, hd⟩ : ∃ d, r.seq_len - r.prefix_len = d := ⟨_, rfl⟩
    obtain ⟨t, ht⟩ : ∃ t, (reqs.map fun r => r.seq_len - r.prefix_len).sum = t := ⟨_, rfl⟩
    rw [hd] at hr ⊢
    rw [ht] at ih ⊢
    have hsum : d / page_size + t / page_size ≤ (d + t) / page_size := by
      rw [Int.le_ediv_iff_mul_le hp, Int.add_mul]
      have h₁ := Int.ediv_mul_le d hp.ne'
      have h₂ := Int.ediv_mul_le t hp.ne'
      omega
    omega

end

variable {reqs : List ExtendRequest}

section

variable (c : PagedConfig) (h : Tidy s)
include c h

/-- **`alloc_extend`** hands out the pages of the kernel where there are enough. -/
theorem alloc_extend_spec (hn : num_new_pages_extend c.page_size reqs = n)
    (hhand : n ≤ on_hand s) : ∃ s' free_pages, alloc_extend c s reqs
      = (s', some (extend_kernel c.page_size free_pages 0 reqs)) ∧ Hands s s' free_pages n := by
  have hpos : (0 : ℤ) < c.page_size := by exact_mod_cast c.page_pos
  have hle := num_new_pages_le hpos reqs
  obtain ⟨s₁, hs₁, r, henough⟩ := merged_spec h
    (extend_num_tokens reqs / c.page_size + reqs.length + 1 > s.free_pages.length) n
    (by intro hs; omega)
  unfold alloc_extend
  rw [hs₁, hn]
  obtain ⟨s', hok, hh⟩ := take_new_pages_spec r (extend_kernel c.page_size s₁.free_pages 0 reqs)
    (henough hhand)
  exact ⟨s', _, hok, hh⟩

omit h in
theorem num_new_pages_decode_le {reqs : List (ℤ × ℤ)}
    (hn : num_new_pages_decode c.page_size (reqs.map Prod.fst) = n) : n ≤ reqs.length := by
  have hcount := countP_le_length (p := fun n => n % (c.page_size : ℤ) == 1)
    (l := reqs.map Prod.fst)
  rw [length_map] at hcount
  unfold num_new_pages_decode at hn
  omega

/-- **`alloc_decode`** -/
theorem alloc_decode_spec {reqs : List (ℤ × ℤ)}
    (hn : num_new_pages_decode c.page_size (reqs.map Prod.fst) = n) :
    (n ≤ on_hand s → ∃ s' free_pages, alloc_decode c s reqs
        = (s', some (decode_kernel c.page_size free_pages 0 reqs)) ∧ Hands s s' free_pages n) ∧
    (¬ n ≤ on_hand s → ∃ s', alloc_decode c s reqs = (s', none) ∧ Regrouped s s') := by
  have hle := num_new_pages_decode_le c hn
  obtain ⟨s₁, hs₁, r, henough⟩ := merged_spec h
    (reqs.length > s.free_pages.length) n (by intro hs; omega)
  unfold alloc_decode
  rw [hs₁, hn]
  constructor
  · intro hhand
    obtain ⟨s', hok, hh⟩ := take_new_pages_spec r (decode_kernel c.page_size s₁.free_pages 0 reqs)
      (henough hhand)
    exact ⟨s', _, hok, hh⟩
  · intro hhand
    have hfree := r.free_le
    exact ⟨s₁, take_new_pages_none _ (by omega), r⟩

/-! ## Freeing -/

theorem release_spec (page_ids : List ℤ) : Frees s (release_page_ids c s page_ids) page_ids := by
  unfold release_page_ids
  split
  · refine ⟨⟨?_, h.group, h.undeferred⟩, ?_, rfl⟩
    · rw [h.counted]
      simp
    · simp only [pool, flatten_append, flatten_cons, append_assoc]
      -- the new pages are staged behind the others
      rw [← append_assoc s.free_pages, ← append_assoc s.free_pages]
      exact perm_append_comm_assoc _ _ _
  · refine ⟨⟨h.counted, h.group, h.undeferred⟩, ?_, rfl⟩
    simp only [pool, append_assoc]
    exact List.Perm.refl _

theorem free_page_ids_spec (page_ids : List ℤ) : Frees s (free_page_ids c s page_ids) page_ids := by
  unfold free_page_ids
  split
  · rename_i hnil
    rw [hnil]
    exact ⟨h, List.Perm.refl _, rfl⟩
  · cases hg : s.free_group with
    | none => exact release_spec c h page_ids
    | some group =>
      refine ⟨⟨h.counted, ?_, ?_⟩, ?_, hg.symm⟩
      · have hgroup := h.group
        rw [hg] at hgroup
        exact hgroup
      · intro hn
        cases hn
      · simp only [pool, flatten_append, flatten_cons, flatten_nil, append_nil]
        rw [← append_assoc]
        exact perm_append_comm

/-- **`free_segment`** frees the pages of the representatives. -/
theorem free_segment_spec (free_index : List ℤ) {start_pos : ℕ} (hs : start_pos % c.page_size = 0) :
    ∃ s', free_segment c s free_index start_pos = .ok s' ∧
      Frees s s' ((stride c.page_size free_index).map fun slot => slot / c.page_size) := by
  unfold free_segment
  split
  · rename_i hnil
    refine ⟨s, rfl, h, ?_, rfl⟩
    have hzero : (c.page_size - 1) / c.page_size = 0 :=
      div_eq_of_lt (sub_lt c.page_pos Nat.one_pos)
    rw [hnil]
    simp [stride, hzero]
  · rw [if_neg (not_not.mpr hs)]
    exact ⟨_, rfl, free_page_ids_spec c h _⟩

omit c h in
theorem free_group_begin_spec (h : Tidy s) (hg : s.free_group = none) :
    ∃ s', free_group_begin s = .ok s' ∧ Tidy s' ∧ pool s' = pool s ∧ s'.free_group = some [] := by
  unfold free_group_begin
  rw [hg]
  refine ⟨_, rfl, ⟨h.counted, .inr rfl, ?_⟩, ?_, rfl⟩
  · intro hn
    cases hn
  · unfold pool
    rw [h.undeferred hg]

theorem free_group_end_spec :
    Tidy (free_group_end c s) ∧ (pool (free_group_end c s)).Perm (pool s) ∧
      (free_group_end c s).free_group = none := by
  have hpending : s.free_group.getD [] = [] := by
    rcases h.group with hg | hg
    · rw [hg]
      rfl
    · rw [hg]
      rfl
  unfold free_group_end
  simp only [hpending, if_true]
  split
  · rename_i hnil
    exact ⟨⟨h.counted, .inl rfl, fun _ => hnil⟩, List.Perm.refl _, rfl⟩
  · unfold release_page_ids
    split
    · refine ⟨⟨?_, .inl rfl, fun _ => rfl⟩, List.Perm.of_eq ?_, rfl⟩
      · rw [h.counted]
        simp
      · simp [pool]
    · refine ⟨⟨h.counted, .inl rfl, fun _ => rfl⟩, ?_, rfl⟩
      simp only [pool, flatten_nil, append_nil]
      rw [append_assoc]
      exact perm_append_comm

end

/-! ## The slots of an extend -/

variable {page_size : ℕ}

theorem pages_of_natCast (hp : 0 < page_size) (len : ℕ) :
    pages_of page_size len = page_count page_size len := by
  unfold pages_of page_count
  have : ((len + page_size - 1 : ℕ) : ℤ) = (len : ℤ) + page_size - 1 := by omega
  rw [Int.natCast_ediv, this]

theorem range_map_append {α : Type} (a b : ℕ) (g : ℕ → α) :
    (List.range (a + b)).map g = (List.range a).map g ++ (List.range b).map fun i => g (a + i) := by
  rw [range_add, map_append, map_map]
  rfl

theorem arange_map {α : Type} (n : ℕ) (g : ℤ → α) :
    (arange 0 n).map g = (List.range n).map fun i : ℕ => g i := by
  unfold arange
  rw [map_map]
  apply map_congr_left
  intro i _
  rw [Function.comp_apply, Int.zero_add]

/-- **The slots of one request**: position after position, through the rest of its last page and
the new pages. -/
theorem extend_tokens_eq (hp : 0 < page_size) (free_pages : List ℤ) (first : ℕ)
    (r : ExtendRequest) {len extra : ℕ} (hlen : r.prefix_len = len) (hseq : r.seq_len = len + extra)
    {base : ℤ} (hlast : len % page_size ≠ 0 →
      r.last_loc = base * page_size + ((len - 1) % page_size : ℕ)) :
    extend_tokens page_size free_pages first r = (List.range extra).map fun t =>
      slot_at page_size base (page_count page_size len) (free_pages.drop first) (len + t) := by
  obtain ⟨c₀, hc₀⟩ : ∃ c₀, page_count page_size len = c₀ := ⟨_, rfl⟩
  have hpages : pages_of page_size r.prefix_len = c₀ := by rw [hlen, pages_of_natCast hp, hc₀]
  have hcases := page_count_cases hp len
  rw [hc₀] at hcases ⊢
  have hmod := mod_lt len hp
  -- the rest of the last page
  have hpart : ∀ a, len + a ≤ c₀ * page_size →
      ((arange 0 a).map fun o => r.last_loc + 1 + o) = (List.range a).map fun t =>
        slot_at page_size base c₀ (free_pages.drop first) (len + t) := by
    intro a ha
    rw [arange_map]
    apply map_congr_left
    intro t ht
    rw [mem_range] at ht
    rcases hcases with ⟨-, -, hend⟩ | ⟨hz, hcount, hend⟩
    · omega
    · have hdm := div_add_mod' len page_size
      have hin : len % page_size + t < page_size := by omega
      have hsplit : len + t = page_size * (len / page_size) + (len % page_size + t) := by
        rw [Nat.mul_comm]
        omega
      have hprev : (len - 1) % page_size = len % page_size - 1 := by
        have hpre : len - 1 = (len % page_size - 1) + page_size * (len / page_size) := by
          omega
        rw [hpre, add_mul_mod_self_left, mod_eq_of_lt (by omega)]
      have hdiv : (len + t) / page_size = len / page_size := by
        rw [hsplit, mul_add_div hp, div_eq_of_lt hin, Nat.add_zero]
      have hrem : (len + t) % page_size = len % page_size + t := by
        rw [hsplit, mul_add_mod, mod_eq_of_lt hin]
      rw [slot_at, if_pos (by omega)]
      omega
  unfold extend_tokens
  dsimp only
  rw [hpages, hseq, hlen]
  by_cases hfit : len + extra ≤ c₀ * page_size
  · -- everything fits into the last page
    have hmin : min ((len : ℤ) + extra) (c₀ * page_size) - len = extra := by
      omega
    rw [hmin, if_pos rfl]
    exact hpart extra hfit
  · obtain ⟨a, ha⟩ : ∃ a, len + a = c₀ * page_size := ⟨c₀ * page_size - len, by omega⟩
    have hmin : min ((len : ℤ) + extra) (c₀ * page_size) - len = a := by
      omega
    obtain ⟨q, hq⟩ : ∃ q, (len + extra) / page_size = q := ⟨_, rfl⟩
    have hqm := div_add_mod' (len + extra) page_size
    have hqlt := mod_lt (len + extra) hp
    rw [hq] at hqm
    have hcq : c₀ ≤ q := by
      rw [← hq, Nat.le_div_iff_mul_le hp]
      omega
    obtain ⟨k, rfl⟩ : ∃ k, q = c₀ + k := ⟨q - c₀, by omega⟩
    have hqz : ((len : ℤ) + extra) / page_size = (c₀ + k : ℕ) := by
      rw [← hq]
      rfl
    have htwo : ((c₀ + k : ℕ) : ℤ) * page_size - c₀ * page_size = (k * page_size : ℕ) := by
      push_cast
      rw [Int.add_mul]
      omega
    -- the full new pages
    have hfull : ((arange 0 (k * page_size : ℕ)).map fun o : ℤ =>
        free_pages.getD (first + o / page_size).toNat 0 * page_size + o % page_size)
        = (List.range (k * page_size)).map fun t =>
          slot_at page_size base c₀ (free_pages.drop first) (len + (a + t)) := by
      rw [arange_map]
      apply map_congr_left
      intro t _
      have hpos : len + (a + t) = page_size * c₀ + t := by
        rw [Nat.mul_comm]
        omega
      rw [slot_at, hpos, mul_add_div hp]
      have hidx : ((first : ℤ) + (t : ℤ) / page_size).toNat = first + t / page_size := by
        rw [← Int.natCast_ediv, ← Int.natCast_add, Int.toNat_natCast]
      rw [hidx]
      simp [getElem?_drop]
    rw [hmin, if_neg (by omega), hqz, htwo]
    by_cases hwhole : (len + extra) % page_size = 0
    · have hextra : extra = a + k * page_size := by omega
      rw [if_pos (by push_cast at htwo ⊢; omega), hpart a (by omega), hfull, hextra, range_map_append]
    · -- and the new partial page
      have hextra : extra = a + (k * page_size + (len + extra) % page_size) := by omega
      have hthree : (len : ℤ) + extra - (c₀ + k : ℕ) * page_size = ((len + extra) % page_size : ℕ) := by
        omega
      have hnew : r.new_pages page_size = (k + 1 : ℕ) := by
        have hcount := page_count_cases hp (len + extra)
        unfold ExtendRequest.new_pages
        have hcast : r.seq_len = ((len + extra : ℕ) : ℤ) := by rw [hseq]; push_cast; rfl
        rw [hcast, pages_of_natCast hp]
        rcases hcount with ⟨hz, -, -⟩ | ⟨-, hc, -⟩
        · exact absurd hz hwhole
        · omega
      have hpartial : ((arange 0 ((len + extra) % page_size : ℕ)).map fun o : ℤ =>
          free_pages.getD (first + r.new_pages page_size - 1).toNat 0 * page_size + o)
          = (List.range ((len + extra) % page_size)).map fun t =>
            slot_at page_size base c₀ (free_pages.drop first) (len + (a + (k * page_size + t))) := by
        rw [arange_map]
        apply map_congr_left
        intro t ht
        rw [mem_range] at ht
        have hpos : len + (a + (k * page_size + t)) = page_size * (c₀ + k) + t := by
          rw [Nat.mul_comm page_size]
          omega
        have hidx : ((first : ℤ) + r.new_pages page_size - 1).toNat = first + k := by
          omega
        rw [slot_at, hpos, mul_add_div hp, mul_add_mod, div_eq_of_lt (by omega),
          mod_eq_of_lt (by omega), Nat.add_zero, hidx]
        simp [getElem?_drop]
      rw [if_neg (by push_cast at htwo ⊢; omega), hthree, hpart a (by omega), hfull, hpartial]
      conv_rhs => rw [hextra, range_map_append, range_map_append]
      rw [append_assoc]

theorem new_pages_natCast (hp : 0 < page_size) (r : ExtendRequest) {len extra : ℕ}
    (hlen : r.prefix_len = len) (hseq : r.seq_len = len + extra) : r.new_pages page_size
      = (page_count page_size (len + extra) - page_count page_size len : ℕ) := by
  have hmono : page_count page_size len ≤ page_count page_size (len + extra) := by
    exact Nat.div_le_div_right (by omega)
  have hcast : r.seq_len = ((len + extra : ℕ) : ℤ) := by rw [hseq]; push_cast; rfl
  rw [ExtendRequest.new_pages, hcast, hlen, pages_of_natCast hp, pages_of_natCast hp]
  omega

theorem decode_kernel_eq (hp : 1 < page_size) (free_pages : List ℤ)
    (reqs : List ExtendRequest) : ∀ first : ℤ, (∀ r ∈ reqs, 0 ≤ r.prefix_len ∧
      r.seq_len = r.prefix_len + 1) → decode_kernel page_size free_pages first
        (reqs.map fun r => (r.seq_len, r.last_loc)) = extend_kernel page_size free_pages first reqs := by
  induction reqs with
  | nil => exact fun _ _ => rfl
  | cons r reqs ih =>
    intro first hone
    obtain ⟨hnonneg, hseq⟩ := hone r mem_cons_self
    obtain ⟨len, hlen⟩ := Int.eq_ofNat_of_zero_le hnonneg
    have hpos : 0 < page_size := by omega
    have hfresh : pages_of page_size r.seq_len - pages_of page_size (r.seq_len - 1)
        = r.new_pages page_size := by
      rw [ExtendRequest.new_pages, hseq, Int.add_sub_cancel]
    rw [map_cons, decode_kernel, extend_kernel, hfresh, ih _ fun r' hr' => hone r' (mem_cons_of_mem _ hr')]
    suffices htoken : extend_tokens page_size free_pages first r
        = [if r.new_pages page_size = 0 then r.last_loc + 1
            else free_pages.getD first.toNat 0 * page_size] by
      rw [htoken]
      rfl
    have hnew := @new_pages_natCast page_size hpos r len 1 hlen (by rw [hseq, hlen]; rfl)
    have hcount := page_count_cases hpos len
    have hnext := page_count_cases hpos (len + 1)
    have hmod := mod_lt len hpos
    have hpages : pages_of page_size r.prefix_len = page_count page_size len := by
      rw [hlen, pages_of_natCast hpos]
    obtain ⟨c₀, hc₀⟩ : ∃ c₀, page_count page_size len = c₀ := ⟨_, rfl⟩
    unfold extend_tokens
    rw [hpages, hc₀, hseq, hlen]
    rw [hc₀] at hcount
    by_cases hz : len % page_size = 0
    · -- the last page is full: the token opens a new one
      have hend : c₀ * page_size = len := by
        rcases hcount with ⟨-, -, hend⟩ | ⟨hnz, -, -⟩
        · exact hend
        · exact absurd hz hnz
      have hquot : (len + 1) / page_size = c₀ := by
        rw [← hend, Nat.mul_comm, mul_add_div hpos, div_eq_of_lt hp, Nat.add_zero]
      have hquot' : ((len : ℤ) + 1) / page_size = c₀ := by
        rw [← hquot]
        rfl
      have hrem : (len + 1) % page_size ≠ 0 := by
        rw [← hend, Nat.mul_comm, mul_add_mod, mod_eq_of_lt hp]
        exact one_ne_zero
      have hone : r.new_pages page_size = 1 := by
        rcases hnext with ⟨h0, -, -⟩ | ⟨-, hc, -⟩
        · exact absurd h0 hrem
        · omega
      have hmin : min ((len : ℤ) + 1) (c₀ * page_size) - len = 0 := by
        omega
      rw [hmin, hquot', hone]
      have hthree : (len : ℤ) + 1 - c₀ * page_size = 1 := by omega
      rw [hthree]
      simp [arange]
    · have hzero : r.new_pages page_size = 0 := by
        have hle : page_count page_size (len + 1) ≤ c₀ := by
          unfold page_count
          rw [div_le_iff_le_mul_add_pred hpos, Nat.mul_comm]
          omega
        omega
      have hmin : min ((len : ℤ) + 1) (c₀ * page_size) - len = 1 := by
        omega
      rw [hmin, hzero]
      simp [arange]

theorem num_new_pages_decode_eq (hp : 1 < page_size)
    (hone : ∀ r ∈ reqs, 0 ≤ r.prefix_len ∧ r.seq_len = r.prefix_len + 1) :
    num_new_pages_decode page_size ((reqs.map fun r => (r.seq_len, r.last_loc)).map Prod.fst)
      = num_new_pages_extend page_size reqs := by
  induction reqs with
  | nil => rfl
  | cons r reqs ih =>
    obtain ⟨hnonneg, hseq⟩ := hone r mem_cons_self
    obtain ⟨len, hlen⟩ := Int.eq_ofNat_of_zero_le hnonneg
    have hpos : 0 < page_size := by omega
    have ih' := ih fun r' hr' => hone r' (mem_cons_of_mem _ hr')
    unfold num_new_pages_decode num_new_pages_extend at ih' ⊢
    rw [map_cons, map_cons, countP_cons, map_cons]
    push_cast
    rw [Int.add_comm]
    congr 1
    rw [@new_pages_natCast page_size hpos r len 1 hlen (by rw [hseq, hlen]; rfl), hseq, hlen]
    have hcast : ((len : ℤ) + 1) % page_size = ((len + 1) % page_size : ℕ) := by push_cast; rfl
    have hcount := page_count_cases hpos len
    have hnext := page_count_cases hpos (len + 1)
    have hdm := div_add_mod' len page_size
    have hdm' := div_add_mod' (len + 1) page_size
    have hmod := mod_lt len hpos
    rw [hcast]
    by_cases hz : len % page_size = 0
    · have hquot : (len + 1) / page_size = len / page_size := by
        have hl : len + 1 = page_size * (len / page_size) + 1 := by
          rw [Nat.mul_comm]
          omega
        rw [hl, mul_add_div hpos, div_eq_of_lt hp, Nat.add_zero]
      have hrem : (len + 1) % page_size = 1 := by
        rw [hquot] at hdm'
        omega
      rw [hrem]
      rcases hcount with ⟨-, hc, -⟩ | ⟨hnz, -, -⟩
      · rcases hnext with ⟨h0, -, -⟩ | ⟨-, hc', -⟩
        · rw [hrem] at h0
          cases h0
        · rw [hc', hc, hquot]
          simp
      · exact absurd hz hnz
    · have hrem : (len + 1) % page_size ≠ 1 := by
        intro h1
        apply hz
        have hl : len = page_size * ((len + 1) / page_size) := by
          rw [Nat.mul_comm]
          omega
        rw [hl, mul_mod_right]
      have hle : page_count page_size (len + 1) ≤ page_count page_size len := by
        rcases hcount with ⟨h0, -, -⟩ | ⟨-, -, hend⟩
        · exact absurd h0 hz
        · rw [page_count, div_le_iff_le_mul_add_pred hpos, Nat.mul_comm]
          omega
      have hne : ((((len + 1) % page_size : ℕ) : ℤ) == 1) = false := by
        rw [beq_eq_false_iff_ne]
        exact_mod_cast hrem
      simp
      omega

/-- **`alloc_decode`** is `alloc_extend` by one token each. -/
theorem alloc_decode_requests (c : PagedConfig) (hp : 1 < c.page_size) (h : Tidy s)
    (hone : ∀ r ∈ reqs, 0 ≤ r.prefix_len ∧ r.seq_len = r.prefix_len + 1)
    (hn : num_new_pages_extend c.page_size reqs = n) :
    (n ≤ on_hand s → ∃ s' free_pages, alloc_decode c s (reqs.map fun r => (r.seq_len, r.last_loc))
        = (s', some (extend_kernel c.page_size free_pages 0 reqs)) ∧ Hands s s' free_pages n) ∧
    (¬ n ≤ on_hand s → ∃ s', alloc_decode c s (reqs.map fun r => (r.seq_len, r.last_loc))
        = (s', none) ∧ Regrouped s s') := by
  obtain ⟨hok, hnone⟩ := alloc_decode_spec c h ((num_new_pages_decode_eq hp hone).trans hn)
  refine ⟨?_, hnone⟩
  intro hhand
  obtain ⟨s', free_pages, heq, hh⟩ := hok hhand
  rw [decode_kernel_eq hp free_pages reqs 0 hone] at heq
  exact ⟨s', free_pages, heq, hh⟩

end LightningH3.PagedAllocator
