/-
What a failed allocation of the hybrid allocator leaves behind (`srt/mem_cache/allocator/swa.py`,
`alloc`, `alloc_extend`, `alloc_extend_swa_tail` and `alloc_decode`).

Three of the four entry points look at both pools before they take from either, so they fail with
nothing taken. A pool that runs short has only merged its staged pages: it holds the same pages in
another order. `alloc_decode` does not look: it asks one pool after the other, and when just one of
them is short, the pages of the other are gone (`failed_allocation_atomic`).

At page size one the pools are `TokenToKVPoolAllocator`s (`allocator/token.py`), which have an
`alloc` only.
-/
import LightningH3.SwaAllocatorRuns

set_option autoImplicit false

namespace LightningH3.SwaAllocator

open List

open PageTable (assign)
open UnifiedPool (ExtendRequest sorted num_new_pages_extend num_new_pages_decode)
open PagedAllocator (Paged PagedConfig get_all_free_pages merge_and_sort_free take_new_pages
  extend_num_tokens)

/-! ## 1. Page size one -/

/-- `TokenToKVPoolAllocator`: the slots themselves are the pages. -/
structure Token where
  free_pages : List ℤ
  release_pages : List ℤ

namespace Token

def available_size (s : Token) : ℕ := s.free_pages.length + s.release_pages.length

/-- `merge_and_sort_free` of the base class. -/
def merge_and_sort_free (s : Token) : Token :=
  if s.release_pages.length > 0 then
    { free_pages := sorted (s.free_pages ++ s.release_pages), release_pages := [] }
  else s

def alloc (need_sort : Bool) (s : Token) (need_size : ℕ) : Token × Option (List ℤ) :=
  let s := if need_sort ∧ need_size > s.free_pages.length then s.merge_and_sort_free else s
  if need_size > s.free_pages.length then (s, none)
  else ({ s with free_pages := s.free_pages.drop need_size }, some (s.free_pages.take need_size))

end Token

/-- The hybrid allocator at page size one. -/
structure SwaTokens where
  full_attn_allocator : Token
  swa_attn_allocator : Token
  full_to_swa_index_mapping : ℤ → ℤ

def alloc (need_sort : Bool) (s : SwaTokens) (need_size : ℕ) :
    Except Fault (SwaTokens × Option (List ℤ)) :=
  if need_size > s.full_attn_allocator.available_size then .ok (s, none)
  else if need_size > s.swa_attn_allocator.available_size then .ok (s, none)
  else
    let full := s.full_attn_allocator.alloc need_sort need_size
    let swa := s.swa_attn_allocator.alloc need_sort need_size
    match full.2, swa.2 with
    | some alloc_full_indices, some alloc_swa_indices =>
      .ok ({
        full_attn_allocator := full.1
        swa_attn_allocator := swa.1
        full_to_swa_index_mapping :=
          assign s.full_to_swa_index_mapping (alloc_full_indices.zip alloc_swa_indices) },
        some alloc_full_indices)
    | _, _ => .error .pools_out_of_step

/-! ## 2. The tail allocation -/

inductive TailFault
  | tail_out_of_range
  | pools_out_of_step
  deriving DecidableEq, Repr

theorem zero_prefix : (0 : ℤ) ≤ 0 := by decide

/-- The tail as the SWA allocator is asked for it: a sequence of its own. -/
def tail_request (swa_tail_len : ℤ) (h : 0 ≤ swa_tail_len) : ExtendRequest where
  prefix_len := 0
  seq_len := swa_tail_len
  last_loc := -1
  prefix_nonneg := zero_prefix
  prefix_le_seq := h

/-- `alloc_extend_swa_tail`, of the one request it takes. -/
def alloc_extend_swa_tail (c : SwaConfig) (s : Swa) (req : ExtendRequest) (swa_tail_len : ℤ) :
    Except TailFault (Swa × Option (List ℤ)) :=
  if h : 0 ≤ swa_tail_len ∧ swa_tail_len ≤ extend_num_tokens [req] then
    let num_full_pages := num_new_pages_extend c.page_size [req]
    let num_swa_pages := (swa_tail_len + c.page_size - 1) / c.page_size
    if !new_pages_available c s num_full_pages num_swa_pages then .ok (s, none)
    else
      let full := PagedAllocator.alloc_extend c.full s.full_attn_allocator [req]
      if c.swa_req_ring then .ok ({ s with full_attn_allocator := full.1 }, full.2)
      else
        match full.2 with
        | none => .error .pools_out_of_step
        | some alloc_full_indices =>
          if swa_tail_len = 0 then
            .ok ({ s with full_attn_allocator := full.1 }, some alloc_full_indices)
          else
            -- the pages of a sequence from zero on are `num_swa_pages`
            let swa := PagedAllocator.alloc_extend c.swa s.swa_attn_allocator
              [tail_request swa_tail_len h.1]
            match swa.2 with
            | none => .error .pools_out_of_step
            | some alloc_swa_indices =>
              let head := alloc_full_indices.length - swa_tail_len.toNat
              let mapped := { s with
                full_attn_allocator := full.1
                swa_attn_allocator := swa.1
                full_to_swa_index_mapping := assign s.full_to_swa_index_mapping
                  ((alloc_full_indices.drop head).zip alloc_swa_indices) }
              .ok (if swa_tail_len < extend_num_tokens [req] then
                  clear_full_to_swa_mapping mapped (alloc_full_indices.take head)
                else mapped, some alloc_full_indices)
  else .error .tail_out_of_range

/-! ## 3. The paged allocators -/

section paged

variable (c : PagedConfig) (p : Paged)

theorem merge_free_pages :
    (get_all_free_pages (merge_and_sort_free p)).Perm (get_all_free_pages p) ∧
    (merge_and_sort_free p).free_pages.length = (get_all_free_pages p).length := by
  have hsort : (sorted (get_all_free_pages p)).Perm (get_all_free_pages p) :=
    perm_insertionSort _ _
  unfold merge_and_sort_free
  split
  · next hnil =>
    refine ⟨List.Perm.refl _, ?_⟩
    rw [get_all_free_pages, hnil, flatten_nil, append_nil]
  · refine ⟨?_, hsort.length_eq⟩
    rw [get_all_free_pages, flatten_nil, append_nil]
    exact hsort

theorem merged_free_pages (few : Prop) [Decidable few] :
    (get_all_free_pages (if few then merge_and_sort_free p else p)).Perm (get_all_free_pages p) := by
  split
  · exact (merge_free_pages p).1
  · exact List.Perm.refl _

theorem eq_of_take_new_pages_none {p' : Paged} {n : ℤ} {out : List ℤ}
    (h : take_new_pages p n out = (p', none)) : p' = p := by
  unfold take_new_pages at h
  split at h
  · exact (Prod.mk.inj h).1.symm
  · cases (Prod.mk.inj h).2

theorem alloc_extend_none {reqs : List ExtendRequest} {p' : Paged}
    (h : PagedAllocator.alloc_extend c p reqs = (p', none)) :
    (get_all_free_pages p').Perm (get_all_free_pages p) := by
  rw [eq_of_take_new_pages_none _ h]
  exact merged_free_pages p _

/-- The pool has fewer free pages than a decode step needs. -/
def lacks (seq_lens : List ℤ) : Bool :=
  decide (((get_all_free_pages p).length : ℤ) < num_new_pages_decode c.page_size seq_lens)

/-- **A decode step of one pool**: if it lacks pages, it keeps those it has, and else it gives away
as many as are needed. -/
theorem alloc_decode_cases (reqs : List (ℤ × ℤ)) :
    (lacks c p (reqs.map Prod.fst) = true → ∃ p', PagedAllocator.alloc_decode c p reqs = (p', none) ∧
      (get_all_free_pages p').Perm (get_all_free_pages p)) ∧
    (lacks c p (reqs.map Prod.fst) = false → ∃ p' out,
      PagedAllocator.alloc_decode c p reqs = (p', some out) ∧
      ((get_all_free_pages p').length : ℤ) + num_new_pages_decode c.page_size (reqs.map Prod.fst)
        = (get_all_free_pages p).length) := by
  obtain ⟨n, hn⟩ : ∃ n : ℕ, num_new_pages_decode c.page_size (reqs.map Prod.fst) = n := ⟨_, rfl⟩
  have hle := PagedAllocator.num_new_pages_decode_le c hn
  obtain ⟨p₁, hp₁⟩ : ∃ p₁, (if reqs.length > p.free_pages.length then merge_and_sort_free p
      else p) = p₁ := ⟨_, rfl⟩
  have hperm : (get_all_free_pages p₁).Perm (get_all_free_pages p) := by
    rw [← hp₁]
    exact merged_free_pages p _
  -- after the merge all free pages are on the list, and without one there are enough on it
  have hfree : n ≤ p₁.free_pages.length ↔ n ≤ (get_all_free_pages p).length := by
    by_cases hfew : reqs.length > p.free_pages.length
    · rw [if_pos hfew] at hp₁
      rw [← hp₁, (merge_free_pages p).2]
    · rw [if_neg hfew] at hp₁
      rw [← hp₁, get_all_free_pages, length_append]
      omega
  unfold PagedAllocator.alloc_decode lacks
  rw [hp₁]
  constructor
  · intro hlacks
    have hshort := of_decide_eq_true hlacks
    exact ⟨p₁, if_pos (by omega), hperm⟩
  · intro hhas
    have henough := of_decide_eq_false hhas
    refine ⟨_, _, if_neg (by omega), ?_⟩
    have hlen := hperm.length_eq
    rw [get_all_free_pages, length_append] at hlen
    rw [get_all_free_pages, length_append]
    dsimp only
    rw [length_drop]
    omega

end paged

/-! ## 4. The entry points -/

/-- The same slots are free in both pools, and the mapping is the same. -/
structure TokensUnchanged (s s' : SwaTokens) : Prop where
  full : (s'.full_attn_allocator.free_pages ++ s'.full_attn_allocator.release_pages).Perm
    (s.full_attn_allocator.free_pages ++ s.full_attn_allocator.release_pages)
  swa : (s'.swa_attn_allocator.free_pages ++ s'.swa_attn_allocator.release_pages).Perm
    (s.swa_attn_allocator.free_pages ++ s.swa_attn_allocator.release_pages)
  mapping : s'.full_to_swa_index_mapping = s.full_to_swa_index_mapping

/-- The same pages are free in both pools, and the mapping is the same. -/
structure Unchanged (s s' : Swa) : Prop where
  full : (get_all_free_pages s'.full_attn_allocator).Perm
    (get_all_free_pages s.full_attn_allocator)
  swa : (get_all_free_pages s'.swa_attn_allocator).Perm (get_all_free_pages s.swa_attn_allocator)
  mapping : s'.full_to_swa_index_mapping = s.full_to_swa_index_mapping

theorem Unchanged.refl (s : Swa) : Unchanged s s := ⟨List.Perm.refl _, List.Perm.refl _, rfl⟩

/-- A call at page size above one. -/
inductive Call
  | alloc_extend (reqs : List ExtendRequest)
  | alloc_extend_swa_tail (req : ExtendRequest) (swa_tail_len : ℤ)
  | alloc_decode (reqs : List (ℤ × ℤ))

/-- The call returns `None` and leaves `s'`. -/
def Fails (c : SwaConfig) (s : Swa) : Call → Swa → Prop
  | .alloc_extend reqs, s' => alloc_extend c s reqs = .ok (s', none)
  | .alloc_extend_swa_tail req swa_tail_len, s' =>
    alloc_extend_swa_tail c s req swa_tail_len = .ok (s', none)
  | .alloc_decode reqs, s' => alloc_decode c s reqs = (s', none)

/-- If `alloc` fails at page size one, it has changed nothing. -/
def TokensAtomic (need_sort : Bool) (s : SwaTokens) (need_size : ℕ) : Prop :=
  ∀ s', alloc need_sort s need_size = .ok (s', none) → TokensUnchanged s s'

/-- If the call fails, it has changed nothing. -/
def Atomic (c : SwaConfig) (s : Swa) (call : Call) : Prop :=
  ∀ s', Fails c s call s' → Unchanged s s'

/-- A decode step pages the full pool alone, or finds both pools short of pages or neither. -/
def Whole (c : SwaConfig) (s : Swa) : Call → Prop
  | .alloc_decode reqs => c.swa_req_ring = true ∨
      lacks c.full s.full_attn_allocator (reqs.map Prod.fst)
        = lacks c.swa s.swa_attn_allocator (reqs.map Prod.fst)
  | _ => True

theorem atomic_alloc (need_sort : Bool) (s : SwaTokens) (need_size : ℕ) :
    TokensAtomic need_sort s need_size := by
  intro s' h
  have hsame : s' = s := by
    unfold alloc at h
    split at h
    · exact (Prod.mk.inj (Except.ok.inj h)).1.symm
    · split at h
      · exact (Prod.mk.inj (Except.ok.inj h)).1.symm
      · dsimp only at h
        split at h
        · cases (Prod.mk.inj (Except.ok.inj h)).2
        · cases h
  rw [hsame]
  exact ⟨List.Perm.refl _, List.Perm.refl _, rfl⟩

section paged

variable {c : SwaConfig} {s : Swa}

theorem unchanged_of_full {reqs : List ExtendRequest} {s' : Swa}
    (h : ((⟨(PagedAllocator.alloc_extend c.full s.full_attn_allocator reqs).1,
        s.swa_attn_allocator, s.full_to_swa_index_mapping, s.in_free_group,
        s.swa_page_ids_group⟩ : Swa),
      (PagedAllocator.alloc_extend c.full s.full_attn_allocator reqs).2) = (s', none)) :
    Unchanged s s' := by
  obtain ⟨rfl, hnone⟩ := Prod.mk.inj h
  exact ⟨alloc_extend_none c.full _ (Prod.ext rfl hnone), List.Perm.refl _, rfl⟩

theorem atomic_alloc_extend (reqs : List ExtendRequest) : Atomic c s (.alloc_extend reqs) := by
  intro s' h
  change alloc_extend c s reqs = .ok (s', none) at h
  unfold alloc_extend at h
  dsimp only at h
  split at h
  · rw [← (Prod.mk.inj (Except.ok.inj h)).1]
    exact .refl s
  · split at h
    · exact unchanged_of_full (Except.ok.inj h)
    · -- both pools have the pages, so the call fails no more
      split at h
      · cases (Prod.mk.inj (Except.ok.inj h)).2
      · cases h

theorem atomic_alloc_extend_swa_tail (req : ExtendRequest) (swa_tail_len : ℤ) :
    Atomic c s (.alloc_extend_swa_tail req swa_tail_len) := by
  intro s' h
  change alloc_extend_swa_tail c s req swa_tail_len = .ok (s', none) at h
  unfold alloc_extend_swa_tail at h
  split at h
  · dsimp only at h
    split at h
    · rw [← (Prod.mk.inj (Except.ok.inj h)).1]
      exact .refl s
    · split at h
      · exact unchanged_of_full (Except.ok.inj h)
      · split at h
        · cases h
        · split at h
          · cases (Prod.mk.inj (Except.ok.inj h)).2
          · split at h
            · cases h
            · cases (Prod.mk.inj (Except.ok.inj h)).2
  · cases h

theorem alloc_decode_eq (hring : c.swa_req_ring = false) (reqs : List (ℤ × ℤ))
    {full swa : Paged} {out out' : Option (List ℤ)}
    (hfull : PagedAllocator.alloc_decode c.full s.full_attn_allocator reqs = (full, out))
    (hswa : PagedAllocator.alloc_decode c.swa s.swa_attn_allocator
      (reqs.map fun r => (r.1, s.full_to_swa_index_mapping r.2)) = (swa, out'))
    (hnone : out = none ∨ out' = none) : alloc_decode c s reqs
      = ({ s with full_attn_allocator := full, swa_attn_allocator := swa }, none) := by
  unfold alloc_decode
  rw [hfull, hswa, if_neg (by rw [hring]; decide)]
  rcases hnone with rfl | rfl
  · rfl
  · cases out with
    | none => rfl
    | some _ => rfl

theorem map_fst_translated (reqs : List (ℤ × ℤ)) :
    (reqs.map fun r => (r.1, s.full_to_swa_index_mapping r.2)).map Prod.fst
      = reqs.map Prod.fst := by
  rw [map_map]
  rfl

theorem not_perm_of_handed {pc : PagedConfig} {p p' q : Paged} {seq_lens : List ℤ}
    (hlacks : lacks pc q seq_lens = true)
    (hlen : ((get_all_free_pages p').length : ℤ) + num_new_pages_decode pc.page_size seq_lens
      = (get_all_free_pages p).length) : ¬ (get_all_free_pages p').Perm (get_all_free_pages p) := by
  intro hperm
  have hshort := of_decide_eq_true hlacks
  have hsame := hperm.length_eq
  omega

theorem atomic_alloc_decode_iff (reqs : List (ℤ × ℤ)) :
    Atomic c s (.alloc_decode reqs) ↔ Whole c s (.alloc_decode reqs) := by
  by_cases hring : c.swa_req_ring = true
  · refine iff_of_true (fun s' h => ?_) (Or.inl hring)
    change alloc_decode c s reqs = (s', none) at h
    unfold alloc_decode at h
    rw [if_pos hring] at h
    obtain ⟨rfl, hnone⟩ := Prod.mk.inj h
    cases hlacks : lacks c.full s.full_attn_allocator (reqs.map Prod.fst) with
    | true =>
      obtain ⟨full, hfull, hperm⟩ := (alloc_decode_cases c.full s.full_attn_allocator reqs).1 hlacks
      rw [hfull]
      exact ⟨hperm, List.Perm.refl _, rfl⟩
    | false =>
      obtain ⟨full, out, hfull, -⟩ :=
        (alloc_decode_cases c.full s.full_attn_allocator reqs).2 hlacks
      rw [hfull] at hnone
      cases hnone
  · rw [Bool.not_eq_true] at hring
    have hwhole : Whole c s (.alloc_decode reqs)
        ↔ lacks c.full s.full_attn_allocator (reqs.map Prod.fst)
          = lacks c.swa s.swa_attn_allocator (reqs.map Prod.fst) :=
      or_iff_right (by rw [hring]; decide)
    have hfull := alloc_decode_cases c.full s.full_attn_allocator reqs
    have hswa := alloc_decode_cases c.swa s.swa_attn_allocator
      (reqs.map fun r => (r.1, s.full_to_swa_index_mapping r.2))
    rw [map_fst_translated] at hswa
    rw [hwhole]
    cases hlf : lacks c.full s.full_attn_allocator (reqs.map Prod.fst) with
    | true =>
      obtain ⟨full, hfok, hfperm⟩ := hfull.1 hlf
      cases hls : lacks c.swa s.swa_attn_allocator (reqs.map Prod.fst) with
      | true =>
        obtain ⟨swa, hsok, hsperm⟩ := hswa.1 hls
        refine iff_of_true (fun s' h => ?_) rfl
        change alloc_decode c s reqs = (s', none) at h
        rw [alloc_decode_eq hring reqs hfok hsok (Or.inl rfl)] at h
        obtain ⟨rfl, -⟩ := Prod.mk.inj h
        exact ⟨hfperm, hsperm, rfl⟩
      | false =>
        obtain ⟨swa, out, hsok, hslen⟩ := hswa.2 hls
        refine iff_of_false (fun h => ?_) Bool.noConfusion
        exact not_perm_of_handed hlf hslen
          (h _ (alloc_decode_eq hring reqs hfok hsok (Or.inl rfl))).swa
    | false =>
      obtain ⟨full, out, hfok, hflen⟩ := hfull.2 hlf
      cases hls : lacks c.swa s.swa_attn_allocator (reqs.map Prod.fst) with
      | true =>
        obtain ⟨swa, hsok, -⟩ := hswa.1 hls
        refine iff_of_false (fun h => ?_) Bool.noConfusion
        exact not_perm_of_handed hls hflen
          (h _ (alloc_decode_eq hring reqs hfok hsok (Or.inr rfl))).full
      | false =>
        obtain ⟨swa, out', hsok, -⟩ := hswa.2 hls
        refine iff_of_true (fun s' h => ?_) rfl
        change alloc_decode c s reqs = (s', none) at h
        unfold alloc_decode at h
        rw [hfok, hsok, if_neg (by rw [hring]; decide)] at h
        cases (Prod.mk.inj h).2

end paged

/-- **A failed call changes nothing**, at page size one by `alloc`, and above by every call but a
decode step that finds just one of the two pools short of pages. -/
theorem failed_allocation_atomic (need_sort : Bool) (t : SwaTokens) (need_size : ℕ)
    (c : SwaConfig) (s : Swa) (call : Call) :
    TokensAtomic need_sort t need_size ∧ (Atomic c s call ↔ Whole c s call) := by
  refine ⟨atomic_alloc need_sort t need_size, ?_⟩
  cases call with
  | alloc_extend reqs => exact iff_of_true (atomic_alloc_extend reqs) trivial
  | alloc_extend_swa_tail req swa_tail_len =>
    exact iff_of_true (atomic_alloc_extend_swa_tail req swa_tail_len) trivial
  | alloc_decode reqs => exact atomic_alloc_decode_iff reqs

/-- **A failed decode step takes a page.** After a first request for two tokens the full pool has a
page left and the SWA pool none; a decode step returns `None`, and the page is gone. -/
theorem failed_decode_takes_page : ∃ s,
    alloc_extend uneven (clear uneven) [⟨0, 2, -1, by decide, by decide⟩] = .ok (s, some [2, 3]) ∧
    ¬ Atomic uneven s (.alloc_decode [(3, 3)]) := by
  refine ⟨_, rfl, fun h => ?_⟩
  have hfull := (h _ rfl).full.length_eq
  revert hfull
  decide

end LightningH3.SwaAllocator
