/-
What the diffusion scheduler selects from its waiting queue, and how long a request waits.

A dispatch is described by the positions it takes: increasing, beginning with the head. The
scan compares each candidate with the head only. Compatibility is a property of each request
and one key that both share, so any two requests of a batch are compatible.

A request that is not taken moves up by the number of taken entries before it. The head is
always taken, so every dispatch moves it up, and requests that arrive join behind it.
-/
import LightningH3.Lib.Positions
import LightningH3.SchedulerReplies

set_option autoImplicit false

namespace LightningH3.Scheduler

open List Option

open Positions (without rank)

variable {c : ServerArgs}

/-! ## 1. Compatibility -/

/-- A request that may stand in a batch at all. -/
structure Eligible (c : ServerArgs) (r : Req) : Prop where
  not_warmup : r.is_warmup = false
  single_output : c.pipeline_config.supports_sequential_multi_output_inference = true →
    c.pipeline_config.supports_sequential_dit_inference = false → r.output_count ≤ 1
  supported : c.pipeline_config.supports_dynamic_batching_for_request r = true
  no_session : has_realtime_session r = false
  prompt : r.prompt_is_str = true
  no_image : r.image_path = none
  signature : (build_dynamic_batch_signature c r).isSome = true

/-- Two requests with the same signature and the same way of returning files. -/
def SameKey (c : ServerArgs) (r r' : Req) : Prop :=
  r.return_file_paths_only = r'.return_file_paths_only ∧
    build_dynamic_batch_signature c r = build_dynamic_batch_signature c r'

theorem requires_sequential_pair (r r' : Req) : requires_sequential_multi_output c [r, r'] = false ↔
      (c.pipeline_config.supports_sequential_multi_output_inference = true →
        c.pipeline_config.supports_sequential_dit_inference = false →
          r.output_count ≤ 1 ∧ r'.output_count ≤ 1) := by
  unfold requires_sequential_multi_output
  cases c.pipeline_config.supports_sequential_multi_output_inference with
  | false => simp
  | true =>
    cases c.pipeline_config.supports_sequential_dit_inference with
    | true => simp
    | false => simp

/-- **Compatibility is a key.** Two requests can be batched when both are eligible and share
the key. -/
theorem can_dynamic_batch_iff (r r' : Req) :
    can_dynamic_batch c r r' = true ↔ Eligible c r ∧ Eligible c r' ∧ SameKey c r r' := by
  constructor
  · intro h
    unfold can_dynamic_batch at h
    split_ifs at h with hwarm hseq hsupp hsess hprompt himage hfiles
    rw [Bool.and_eq_true, decide_eq_true_eq] at h
    obtain ⟨hsome, heq⟩ := h
    rw [Bool.or_eq_true, not_or, Bool.not_eq_true, Bool.not_eq_true] at hwarm
    rw [Bool.not_eq_true, requires_sequential_pair] at hseq
    rw [Bool.not_eq_true', Bool.not_eq_false, all_cons, all_cons, all_nil,
      Bool.and_true, Bool.and_eq_true] at hsupp
    rw [Bool.or_eq_true, not_or, Bool.not_eq_true, Bool.not_eq_true] at hsess
    rw [Bool.or_eq_true, not_or, Bool.not_eq_true', Bool.not_eq_true', Bool.not_eq_false,
      Bool.not_eq_false] at hprompt
    rw [Bool.or_eq_true, not_or, Bool.not_eq_true, Bool.not_eq_true, isSome_eq_false_iff,
      isSome_eq_false_iff, isNone_iff_eq_none, isNone_iff_eq_none] at himage
    rw [bne_iff_ne, not_not] at hfiles
    exact ⟨⟨hwarm.1, fun h₁ h₂ => (hseq h₁ h₂).1, hsupp.1, hsess.1, hprompt.1, himage.1, hsome⟩,
      ⟨hwarm.2, fun h₁ h₂ => (hseq h₁ h₂).2, hsupp.2, hsess.2, hprompt.2, himage.2, heq ▸ hsome⟩,
      hfiles, heq⟩
  · rintro ⟨h, h', hfiles, heq⟩
    unfold can_dynamic_batch
    rw [h.not_warmup, h'.not_warmup, (requires_sequential_pair r r').mpr
        fun h₁ h₂ => ⟨h.single_output h₁ h₂, h'.single_output h₁ h₂⟩]
    rw [all_cons, all_cons, all_nil, h.supported, h'.supported,
      h.no_session, h'.no_session, h.prompt, h'.prompt,
      h.no_image, h'.no_image, hfiles, bne_self_eq_false]
    dsimp only
    rw [h.signature, decide_eq_true heq]
    rfl

variable {base r : Req}

theorem can_dynamic_batch_trans {r' : Req} (h : can_dynamic_batch c base r = true)
    (h' : can_dynamic_batch c base r' = true) : can_dynamic_batch c r r' = true := by
  rw [can_dynamic_batch_iff] at h h' ⊢
  obtain ⟨_, hr, hfiles, hsig⟩ := h
  obtain ⟨_, hr', hfiles', hsig'⟩ := h'
  exact ⟨hr, hr', hfiles.symm.trans hfiles', hsig.symm.trans hsig'⟩

/-! ## 2. The scan -/

/-- **What the scan has gathered** before position `idx`: the head and requests after it, at
increasing positions, each compatible with the head, within the limits unless the head stands
alone. -/
structure Gathered (c : ServerArgs) (base : Req) (queue : List (Option String × Item)) (idx : ℕ)
    (indices : List ℕ) (reqs : List Req) : Prop where
  first : indices.head? = some 0
  sorted : indices.Pairwise (· < ·)
  below : ∀ i ∈ indices, i < idx
  found : indices.map (fun i => (queue[i]?).map Prod.snd) = reqs.map (fun r => some (.req r))
  head : reqs.head? = some base
  compatible : ∀ r ∈ reqs, can_dynamic_batch c base r = true
  size : (indices.length : ℤ) ≤ max 1 c.batching_max_size
  admitted : reqs = [base] ∨
    effective_batch_size reqs ≤ (limit_for c base).max_batch_size ∧
      ∀ max_cost ∈ (limit_for c base).max_cost, estimate_batch_cost c reqs ≤ max_cost

variable {queue : List (Option String × Item)}

theorem Gathered.start (hself : can_dynamic_batch c base base = true)
    (hat : (queue[0]?).map Prod.snd = some (.req base)) : Gathered c base queue 1 [0] [base] := by
  refine ⟨rfl, pairwise_singleton _ _, ?_, ?_, rfl, ?_, le_max_left _ _, Or.inl rfl⟩
  · intro i hi
    rw [mem_singleton.mp hi]
    exact Nat.one_pos
  · rw [map_singleton, map_singleton, hat]
  · intro r hr
    rw [mem_singleton.mp hr]
    exact hself

variable {idx : ℕ} {indices : List ℕ} {reqs : List Req}

theorem Gathered.join (h : Gathered c base queue idx indices reqs)
    (hon : admission_enabled c = true) (hat : (queue[idx]?).map Prod.snd = some (.req r))
    (hroom : ¬ c.batching_max_size ≤ (indices.length : ℤ))
    (hcan : can_dynamic_batch c base r = true) (hadmits : rejects_candidate c reqs r = false) :
    Gathered c base queue (idx + 1) (indices ++ [idx]) (reqs ++ [r]) := by
  have hhead : (reqs ++ [r]).head? = some base := by
    rw [head?_append, h.head]
    rfl
  refine ⟨?_, ?_, ?_, ?_, hhead, ?_, ?_, ?_⟩
  · rw [head?_append, h.first]
    rfl
  · rw [pairwise_append]
    refine ⟨h.sorted, pairwise_singleton _ _, ?_⟩
    intro i hi j hj
    rw [mem_singleton.mp hj]
    exact h.below i hi
  · intro i hi
    rcases mem_append.mp hi with hi | hi
    · exact Nat.lt_succ_of_lt (h.below i hi)
    · rw [mem_singleton.mp hi]
      exact Nat.lt_succ_self idx
  · rw [map_append, map_append, h.found, map_singleton, map_singleton, hat]
  · intro r' hr'
    rcases mem_append.mp hr' with hr' | hr'
    · exact h.compatible r' hr'
    · rw [mem_singleton.mp hr']
      exact hcan
  · rw [length_append, length_singleton]
    omega
  · right
    have hfirst : (reqs ++ [r]).headD r = base := by
      rw [headD_eq_head?_getD, hhead]
      rfl
    unfold rejects_candidate at hadmits
    rw [hon, Bool.not_true, if_neg Bool.false_ne_true] at hadmits
    dsimp only at hadmits
    rw [hfirst] at hadmits
    unfold AdmissionLimit.rejects at hadmits
    rw [Bool.or_eq_false_iff, decide_eq_false_iff_not, not_lt] at hadmits
    refine ⟨hadmits.1, fun max_cost hcost => ?_⟩
    have hnone := hadmits.2
    rw [Option.mem_def.mp hcost, any_some, decide_eq_false_iff_not, not_lt] at hnone
    exact hnone

theorem Gathered.skip (h : Gathered c base queue idx indices reqs) :
    Gathered c base queue (idx + 1) indices reqs :=
  ⟨h.first, h.sorted, fun i hi => Nat.lt_succ_of_lt (h.below i hi), h.found, h.head, h.compatible,
    h.size, h.admitted⟩

theorem gather_gathered (hon : admission_enabled c = true) :
    ∀ (rest : List (Option String × Item)) (idx : ℕ) (indices : List ℕ) (reqs : List Req),
      rest = queue.drop idx → idx + rest.length = queue.length →
      Gathered c base queue idx indices reqs →
      Gathered c base queue queue.length (gather c base idx rest (indices, reqs)).1
        (gather c base idx rest (indices, reqs)).2 := by
  intro rest
  induction rest with
  | nil =>
    intro idx indices reqs _ hlength h
    rw [← hlength]
    exact h
  | cons x rest ih =>
    intro idx indices reqs hrest hlength h
    obtain ⟨identity, candidate⟩ := x
    have hat : queue[idx]? = some (identity, candidate) := by
      rw [← head?_drop, ← hrest]
      rfl
    have htail : rest = queue.drop (idx + 1) := by
      rw [← tail_drop, ← hrest]
      rfl
    have hlength' : idx + 1 + rest.length = queue.length := by
      rw [length_cons] at hlength
      omega
    unfold gather
    by_cases hfull : (decide (c.batching_max_size ≤ (indices.length : ℤ)) ||
        batch_is_full c reqs) = true
    · rw [if_pos hfull]
      refine ⟨h.first, h.sorted, fun i hi => ?_, h.found, h.head, h.compatible, h.size, h.admitted⟩
      have hlt := h.below i hi
      omega
    · rw [if_neg hfull]
      cases candidate with
      | group rs => exact ih (idx + 1) indices reqs htail hlength' h.skip
      | control tag => exact ih (idx + 1) indices reqs htail hlength' h.skip
      | req r =>
        dsimp only
        split_ifs with hjoin
        · rw [Bool.and_eq_true, Bool.not_eq_true'] at hjoin
          rw [Bool.or_eq_true, not_or, decide_eq_true_eq] at hfull
          apply ih (idx + 1) (indices ++ [idx]) (reqs ++ [r]) htail hlength'
          exact h.join hon (by rw [hat, map_some]) hfull.1 hjoin.1 hjoin.2
        · exact ih (idx + 1) indices reqs htail hlength' h.skip

/-! ## 3. One dispatch -/

/-- The positions that `get_next_batch_to_run` dispatches at time `now`. -/
def selected (c : ServerArgs) (now : ℚ) (queue : List Entry) : List ℕ :=
  match queue with
  | [] => []
  | head :: rest =>
    if !dynamic_batching_enabled c then [0]
    else
      match head.req with
      | .req base =>
        if !can_dynamic_batch c base base then [0]
        else
          let batch := compatible c base ((head :: rest).map Entry.item)
          if can_grow c batch && decide (now - head.enqueue_time < c.batching_delay_s) then []
          else batch.1
      | _ => [0]

/-- The plain requests at some positions of the queue. -/
def requests_at (queue : List Entry) (indices : List ℕ) : List Req :=
  indices.filterMap fun i => queue[i]?.bind fun e => e.req.plain

/-- The items at some positions of the queue. -/
def items_at (queue : List Entry) (indices : List ℕ) : List (Option String × Item) :=
  indices.filterMap fun i => queue[i]?.map Entry.item

/-- Two requests that may share a batch: the same signature, and neither a warm-up, in a
session or conditioned on an image. -/
structure Compatible (c : ServerArgs) (r r' : Req) : Prop where
  batched : can_dynamic_batch c r r' = true
  signature : build_dynamic_batch_signature c r = build_dynamic_batch_signature c r'
  warmup : r.is_warmup = false ∧ r'.is_warmup = false
  session : has_realtime_session r = false ∧ has_realtime_session r' = false
  image : r.image_path = none ∧ r'.image_path = none

/-- **A fair selection.** Increasing positions that begin with the head; within the limit on
requests; several entries are mutually compatible requests; and their outputs are within
the admission limit of the head, unless the head is alone and exceeds it by itself. -/
structure FairSelection (c : ServerArgs) (queue : List Entry) (indices : List ℕ) : Prop where
  first : indices.head? = some 0
  sorted : indices.Pairwise (· < ·)
  in_queue : ∀ i ∈ indices, i < queue.length
  size : (indices.length : ℤ) ≤ max 1 c.batching_max_size
  compatible : 1 < indices.length → ∀ i ∈ indices, ∀ j ∈ indices, ∃ e e' r r',
    queue[i]? = some e ∧ queue[j]? = some e' ∧ e.req = .req r ∧ e'.req = .req r' ∧
      Compatible c r r'
  outputs : ∀ head base, queue[0]? = some head → head.req = .req base →
    effective_batch_size (requests_at queue indices) ≤ (limit_for c base).max_batch_size ∨
      requests_at queue indices = [base] ∧ (limit_for c base).max_batch_size < base.output_count
  costs : ∀ head base max_cost, queue[0]? = some head → head.req = .req base →
    max_cost ∈ (limit_for c base).max_cost → 1 < indices.length →
      estimate_batch_cost c (requests_at queue indices) ≤ max_cost

theorem Compatible.of_batched {r' : Req} (h : can_dynamic_batch c r r' = true) :
    Compatible c r r' := by
  obtain ⟨hr, hr', _, hsig⟩ := (can_dynamic_batch_iff r r').mp h
  exact ⟨h, hsig, ⟨hr.not_warmup, hr'.not_warmup⟩, ⟨hr.no_session, hr'.no_session⟩,
    hr.no_image, hr'.no_image⟩

theorem effective_singleton (r : Req) : effective_batch_size [r] = r.output_count := by
  unfold effective_batch_size
  rw [map_singleton, sum_singleton]

theorem outputs_alone (r : Req) (limit : ℤ) :
    effective_batch_size [r] ≤ limit ∨ [r] = [r] ∧ limit < r.output_count := by
  rw [effective_singleton]
  rcases le_or_gt r.output_count limit with hle | hlt
  · exact Or.inl hle
  · exact Or.inr ⟨rfl, hlt⟩

theorem FairSelection.alone (head : Entry) (rest : List Entry) :
    FairSelection c (head :: rest) [0] := by
  refine ⟨rfl, pairwise_singleton _ _, ?_, le_max_left _ _, ?_, ?_, ?_⟩
  · intro i hi
    rw [mem_singleton.mp hi]
    exact Nat.succ_pos _
  · intro hlt
    exact absurd hlt (by decide)
  · intro head' base hat hreq
    rw [getElem?_cons_zero, Option.some.injEq] at hat
    subst hat
    have hreqs : requests_at (head :: rest) [0] = [base] := by
      unfold requests_at
      rw [filterMap_cons_some (b := base)]
      · rfl
      · rw [getElem?_cons_zero, bind_some, hreq]
        rfl
    rw [hreqs]
    exact outputs_alone base _
  · intro _ _ _ _ _ _ hlt
    exact absurd hlt (by decide)

section

variable {queue : List Entry} (h : Gathered c base (queue.map Entry.item) idx indices reqs)
include h

theorem Gathered.requests_at : Scheduler.requests_at queue indices = reqs := by
  have hfound := h.found
  clear h
  unfold Scheduler.requests_at
  induction indices generalizing reqs with
  | nil =>
    rw [map_nil, eq_comm, map_eq_nil_iff] at hfound
    rw [hfound]
    rfl
  | cons i indices ih =>
    cases reqs with
    | nil => cases hfound
    | cons r reqs =>
      rw [map_cons, map_cons, List.cons.injEq] at hfound
      obtain ⟨hat, hrest⟩ := hfound
      rw [filterMap_cons_some (b := r), ih hrest]
      rw [getElem?_map, Option.map_map] at hat
      obtain ⟨e, he, hreq⟩ := map_eq_some_iff.mp hat
      rw [he, bind_some, show e.req = .req r from hreq]
      rfl

theorem Gathered.at_index {i : ℕ} (hi : i ∈ indices) :
    ∃ e r, queue[i]? = some e ∧ e.req = .req r ∧ can_dynamic_batch c base r = true := by
  have hmem : ((queue.map Entry.item)[i]?).map Prod.snd
      ∈ reqs.map (fun r => some (Item.req r)) := by
    rw [← h.found]
    exact mem_map.mpr ⟨i, hi, rfl⟩
  obtain ⟨r, hr, heq⟩ := mem_map.mp hmem
  rw [getElem?_map, Option.map_map] at heq
  obtain ⟨e, he, hreq⟩ := map_eq_some_iff.mp heq.symm
  exact ⟨e, r, he, hreq, h.compatible r hr⟩

end

theorem Gathered.fair {head : Entry} {rest : List Entry} (hitem : head.req = .req base)
    (h : Gathered c base ((head :: rest).map Entry.item) (head :: rest).length indices reqs) :
    FairSelection c (head :: rest) indices := by
  have hreqs := h.requests_at
  have hcount : indices.length = reqs.length := by
    have hlength := congrArg List.length h.found
    rwa [length_map, length_map] at hlength
  refine ⟨h.first, h.sorted, h.below, h.size, ?_, ?_, ?_⟩
  · intro _ i hi j hj
    obtain ⟨e, r, he, hr, hcan⟩ := h.at_index hi
    obtain ⟨e', r', he', hr', hcan'⟩ := h.at_index hj
    exact ⟨e, e', r, r', he, he', hr, hr', Compatible.of_batched (can_dynamic_batch_trans hcan hcan')⟩
  · intro head' base' hat hreq
    rw [getElem?_cons_zero, Option.some.injEq] at hat
    subst hat
    rw [hitem, Item.req.injEq] at hreq
    subst hreq
    rw [hreqs]
    rcases h.admitted with hone | hmany
    · rw [hone]
      exact outputs_alone base _
    · exact Or.inl hmany.1
  · intro head' base' max_cost hat hreq hcost hlt
    rw [getElem?_cons_zero, Option.some.injEq] at hat
    subst hat
    rw [hitem, Item.req.injEq] at hreq
    subst hreq
    rw [hreqs]
    rcases h.admitted with hone | hmany
    · rw [hcount, hone] at hlt
      exact absurd hlt (Nat.lt_irrefl 1)
    · exact hmany.2 max_cost hcost

theorem take_out_eq : ∀ (indices : List ℕ) (queue : List Entry)
    (items : List (Option String × Item)), indices.Pairwise (· > ·) →
    (∀ i ∈ indices, i < queue.length) →
    take_out queue indices items = (items_at queue indices.reverse ++ items, without queue indices) := by
  intro indices
  induction indices with
  | nil =>
    intro queue items _ _
    rw [show without queue [] = queue from Positions.keep_of_lt (by simp) queue]
    rfl
  | cons idx indices ih =>
    intro queue items hsorted hin
    obtain ⟨hfirst, hsorted⟩ := pairwise_cons.mp hsorted
    have hlt := hin idx mem_cons_self
    have hat := getElem?_eq_getElem hlt
    unfold take_out
    rw [hat]
    dsimp only
    rw [ih _ _ hsorted, Positions.without_eraseIdx hfirst, reverse_cons]
    · congr 1
      unfold items_at
      rw [filterMap_append, append_assoc]
      congr 1
      · -- the entries before a gap have not moved
        apply filterMap_congr
        intro i hi
        rw [getElem?_eraseIdx_of_lt (hfirst i (mem_reverse.mp hi))]
      · rw [filterMap_cons_some (by rw [hat, map_some])]
        rfl
    · intro i hi
      have hbefore := hfirst i hi
      rw [length_eraseIdx_of_lt hlt]
      omega

/-- What a call of `get_next_batch_to_run` returns when it dispatches some positions. -/
structure Dispatches (c : ServerArgs) (queue : List Entry) (indices : List ℕ)
    (result : Option (List (Option String × Item)) × List Entry) : Prop where
  items : result.1 = if indices = [] then none else some (items_at queue indices)
  rest : result.2 = without queue indices
  fair : indices ≠ [] → FairSelection c queue indices

theorem Dispatches.alone (head : Entry) (rest : List Entry) :
    Dispatches c (head :: rest) [0] (some [head.item], rest) := by
  refine ⟨rfl, ?_, fun _ => FairSelection.alone head rest⟩
  have hnone : ∀ (k j : ℕ), j ∈ ([] : List ℕ) → j < k := fun k j hj => absurd hj not_mem_nil
  exact ((Positions.without_eraseIdx (hnone 0) (head :: rest)).trans
    (Positions.keep_of_lt (hnone 0) rest)).symm

/-- **One dispatch.** The items at the selected positions are dispatched in their order and the
others stay in theirs; when nothing is selected, the queue stays as it is. -/
theorem dispatches_selected (c : ServerArgs) (now : ℚ) (queue : List Entry) :
    Dispatches c queue (selected c now queue) (get_next_batch_to_run c now queue) := by
  cases queue with
  | nil => exact ⟨rfl, rfl, fun h => absurd rfl h⟩
  | cons head rest =>
    unfold get_next_batch_to_run selected
    dsimp only
    cases hon : dynamic_batching_enabled c with
    | false => exact Dispatches.alone head rest
    | true =>
      cases hitem : head.req with
      | group rs => exact Dispatches.alone head rest
      | control tag => exact Dispatches.alone head rest
      | req base =>
        dsimp only
        rw [Bool.not_true, if_neg Bool.false_ne_true, if_neg Bool.false_ne_true]
        cases hself : can_dynamic_batch c base base with
        | false => exact Dispatches.alone head rest
        | true =>
          rw [Bool.not_true, if_neg Bool.false_ne_true, if_neg Bool.false_ne_true]
          split_ifs with hwait
          · exact ⟨rfl, (Positions.keep_of_lt (by simp) _).symm, fun h => absurd rfl h⟩
          · have hadmission : admission_enabled c = true := by
              unfold dynamic_batching_enabled at hon
              rw [Bool.and_eq_true] at hon
              exact hon.1
            have hlength : 1 + ((head :: rest).map Entry.item).tail.length
                = ((head :: rest).map Entry.item).length := by
              rw [map_cons, tail_cons, length_cons, Nat.add_comm]
            have hstart : Gathered c base ((head :: rest).map Entry.item) 1 [0] [base] :=
              Gathered.start hself (congrArg some hitem)
            have hgathered := gather_gathered hadmission _ 1 [0] [base]
              drop_one.symm hlength hstart
            rw [length_map] at hgathered
            have hfair := Gathered.fair hitem hgathered
            have htake := take_out_eq _ (head :: rest) []
              (pairwise_reverse.mpr hfair.sorted)
              (fun i hi => hfair.in_queue i (mem_reverse.mp hi))
            rw [reverse_reverse, append_nil] at htake
            unfold compatible
            rw [htake]
            refine ⟨?_, ?_, fun _ => hfair⟩
            · rw [if_neg]
              intro hnil
              have hfirst := hfair.first
              rw [hnil] at hfirst
              cases hfirst
            · exact Positions.keep_congr (fun i => mem_reverse) 0 _

theorem Dispatches.waiting {queue : List Entry}
    {result : Option (List (Option String × Item)) × List Entry}
    (h : Dispatches c queue indices result) (hnone : result.1 = none) :
    indices = [] ∧ result.2 = queue := by
  have hnil : indices = [] := by
    by_contra hne
    have hitems := h.items
    rw [hnone, if_neg hne] at hitems
    cases hitems
  refine ⟨hnil, ?_⟩
  rw [h.rest, hnil]
  exact Positions.keep_of_lt (by simp) queue

/-! ## 4. Waiting -/

section waiting

variable (c) (clock : ℕ → Clock) (recv_reqs : ℕ → List (Option String × Item))

/-- The positions that iteration `n` dispatches. -/
def selected_at (n : ℕ) : List ℕ := selected c (clock n).dispatch (queue_at c clock recv_reqs n)

/-- Where the entry at position `k` of iteration `n` stands `m` iterations later, unless it was
dispatched. -/
def place (n k : ℕ) : ℕ → Option ℕ
  | 0 => some k
  | m + 1 => (place n k m).bind fun p =>
    if p ∈ selected_at c clock recv_reqs (n + m) then none
    else some (rank (selected_at c clock recv_reqs (n + m)) p)

/-- How many of the `m` iterations from `n` on dispatch something. -/
def dispatches (n m : ℕ) : ℕ :=
  (List.range m).countP fun j => (dispatched c clock recv_reqs (n + j)).isSome

theorem dispatches_at (n : ℕ) : Dispatches c (queue_at c clock recv_reqs n)
    (selected_at c clock recv_reqs n)
    (dispatched c clock recv_reqs n, (run c clock recv_reqs (n + 1)).waiting_queue) :=
  dispatches_selected c (clock n).dispatch (queue_at c clock recv_reqs n)

theorem queue_at_succ (n : ℕ) : ∃ arrivals, queue_at c clock recv_reqs (n + 1)
    = without (queue_at c clock recv_reqs n) (selected_at c clock recv_reqs n) ++ arrivals := by
  rw [← (dispatches_at c clock recv_reqs n).rest]
  exact ⟨_, rfl⟩

variable {c clock recv_reqs}

variable {n k : ℕ}

theorem getElem?_place {e : Entry} (hk : (queue_at c clock recv_reqs n)[k]? = some e) :
    ∀ {m p : ℕ}, place c clock recv_reqs n k m = some p →
      (queue_at c clock recv_reqs (n + m))[p]? = some e := by
  intro m
  induction m with
  | zero =>
    intro p hp
    cases hp
    exact hk
  | succ m ih =>
    intro p hp
    obtain ⟨p', hp', hmove⟩ := bind_eq_some_iff.mp hp
    have hat := ih hp'
    split_ifs at hmove with hsel
    rw [Option.some.injEq] at hmove
    obtain ⟨arrivals, harrivals⟩ := queue_at_succ c clock recv_reqs (n + m)
    have hstay := Positions.getElem?_without hsel (queue_at c clock recv_reqs (n + m))
    rw [hmove, hat] at hstay
    rw [← Nat.add_assoc, harrivals, getElem?_append_left (List.getElem?_eq_some_iff.mp hstay).1]
    exact hstay

theorem head_selected {items : List (Option String × Item)}
    (h : dispatched c clock recv_reqs n = some items) : 0 ∈ selected_at c clock recv_reqs n := by
  have hd := dispatches_at c clock recv_reqs n
  have hne : selected_at c clock recv_reqs n ≠ [] := by
    intro hnil
    have hitems := hd.items
    rw [hnil] at hitems
    rw [h] at hitems
    cases hitems
  exact mem_of_head? (hd.fair hne).first

/-- **Every dispatch moves a waiting entry up.** The induction is on the iterations. -/
theorem place_add_dispatches_le {m p : ℕ} :
    place c clock recv_reqs n k m = some p → p + dispatches c clock recv_reqs n m ≤ k := by
  induction m generalizing p with
  | zero =>
    intro hp
    cases hp
    exact Nat.le_refl k
  | succ m ih =>
    intro hp
    obtain ⟨p', hp', hmove⟩ := bind_eq_some_iff.mp hp
    have hle := ih hp'
    split_ifs at hmove with hsel
    rw [Option.some.injEq] at hmove
    unfold dispatches at hle ⊢
    rw [range_succ, countP_append, countP_singleton]
    split_ifs with hsome
    · -- the head went, and this entry stood behind it
      obtain ⟨items, hitems⟩ := isSome_iff_exists.mp hsome
      have hhead := head_selected hitems
      have hpos : 0 < p' := Nat.pos_of_ne_zero fun hzero => hsel (hzero ▸ hhead)
      have hlt := Positions.rank_lt hhead hpos
      omega
    · have hrank := Positions.rank_le (selected_at c clock recv_reqs (n + m)) p'
      omega

theorem dispatched_of_place_none {m : ℕ} : place c clock recv_reqs n k m = none →
    ∃ j < m, ∃ p, place c clock recv_reqs n k j = some p ∧
      p ∈ selected_at c clock recv_reqs (n + j) := by
  induction m with
  | zero =>
    intro h
    cases h
  | succ m ih =>
    intro h
    cases hm : place c clock recv_reqs n k m with
    | none =>
      obtain ⟨j, hj, hplace⟩ := ih hm
      exact ⟨j, Nat.lt_succ_of_lt hj, hplace⟩
    | some p =>
      refine ⟨m, Nat.lt_succ_self m, p, hm, ?_⟩
      unfold place at h
      rw [hm, bind_some] at h
      by_contra hsel
      rw [if_neg hsel] at h
      cases h

theorem item_dispatched {p : ℕ} {e : Entry} (hat : (queue_at c clock recv_reqs n)[p]? = some e)
    (hsel : p ∈ selected_at c clock recv_reqs n) :
    ∃ items, dispatched c clock recv_reqs n = some items ∧ e.item ∈ items := by
  have hitems := (dispatches_at c clock recv_reqs n).items
  rw [if_neg (ne_nil_of_mem hsel)] at hitems
  refine ⟨_, hitems, mem_filterMap.mpr ⟨p, hsel, ?_⟩⟩
  rw [hat, map_some]

end waiting

/-- **Fair and exact selection.** Every call dispatches the items at a fair selection of
positions and keeps the others in order, or changes nothing; and in every run, an entry with
`k` entries before it is dispatched by the `k + 1`-st dispatch at the latest. -/
theorem selection_fair (c : ServerArgs) : (∀ (now : ℚ) (queue : List Entry),
      (∃ indices, Dispatches c queue indices (get_next_batch_to_run c now queue)) ∧
      ((get_next_batch_to_run c now queue).1 = none →
        (get_next_batch_to_run c now queue).2 = queue)) ∧
    ∀ (clock : ℕ → Clock) (recv_reqs : ℕ → List (Option String × Item)) (n k : ℕ) (e : Entry),
      (queue_at c clock recv_reqs n)[k]? = some e → ∀ m, k + 1 ≤ dispatches c clock recv_reqs n m →
        ∃ j < m, dispatches c clock recv_reqs n j ≤ k ∧
          ∃ p items, place c clock recv_reqs n k j = some p ∧
            (queue_at c clock recv_reqs (n + j))[p]? = some e ∧
            p ∈ selected_at c clock recv_reqs (n + j) ∧
            dispatched c clock recv_reqs (n + j) = some items ∧ e.item ∈ items := by
  constructor
  · intro now queue
    have h := dispatches_selected c now queue
    exact ⟨⟨_, h⟩, fun hnone => (h.waiting hnone).2⟩
  · intro clock recv_reqs n k e hk m hm
    have hgone : place c clock recv_reqs n k m = none := by
      cases hplace : place c clock recv_reqs n k m with
      | none => rfl
      | some p =>
        have hle := place_add_dispatches_le hplace
        omega
    obtain ⟨j, hj, p, hplace, hsel⟩ := dispatched_of_place_none hgone
    have hat := getElem?_place hk hplace
    obtain ⟨items, hitems, hmem⟩ := item_dispatched hat hsel
    have hle := place_add_dispatches_le hplace
    exact ⟨j, hj, by omega, p, items, hplace, hat, hsel, hitems, hmem⟩

/-- A request with another message behind it. -/
def two_arrivals (n : ℕ) : List (Option String × Item) :=
  if n = 0 then [(some "client", .req plain_req), (some "client", .control "ListLorasReq")] else []

/-- The second dispatch takes the second. -/
theorem selection_fair_two :
    ∃ j < 2, ∃ items, dispatched pairs_args (fun _ => ⟨0, 2⟩) two_arrivals (0 + j) = some items ∧
      (some "client", Item.control "ListLorasReq") ∈ items := by
  have hk : (queue_at pairs_args (fun _ => ⟨0, 2⟩) two_arrivals 0)[1]?
      = some ⟨some "client", .control "ListLorasReq", 0⟩ := rfl
  have hm : 1 + 1 ≤ dispatches pairs_args (fun _ => ⟨0, 2⟩) two_arrivals 0 2 := by decide +kernel
  obtain ⟨j, hj, _, p, items, _, _, _, hitems, hmem⟩ :=
    (selection_fair pairs_args).2 (fun _ => ⟨0, 2⟩) two_arrivals 0 1 _ hk 2 hm
  exact ⟨j, hj, items, hitems, hmem⟩

end LightningH3.Scheduler
