/-
One reply for each item that the diffusion scheduler dispatches.

An item is run alone, in a group, in a merged batch, in a native group or one after the other, and
each way has its own errors. In every run of the event loop each item that leaves the waiting queue
is answered once, with an output that was computed for it or with an error (`one_reply_each`), as
long as no request of a sequential batch is prepared after one whose preparation raised: the
pipeline does not advance for a request whose forward function was not called, so the next request
takes its output (`shifted_outputs`).
-/
import LightningH3.SchedulerDispatch
import Mathlib.Data.List.Perm.Basic

set_option autoImplicit false

namespace LightningH3.Scheduler

open List

variable {c : ServerArgs} {h : Host} {w : Worker}

/-! ## Whose output it is -/

/-- The entries of request `k` when the requests have `counts` entries each. -/
def share {α : Type} (counts : List ℕ) (k : ℕ) (xs : List α) : List α :=
  (xs.drop (counts.take k).sum).take (counts.getD k 0)

/-- The part of a value that is for request `k`: its entries when there is one for each output of
the batch. Anything else is for the whole batch. -/
def own_value (counts : List ℕ) (k : ℕ) : Value → Value
  | .entries xs => if xs.length = counts.sum then .entries (share counts k xs) else .entries xs
  | v => v

/-- The part of an output batch that is for request `k`. -/
def own_batch (b : OutputBatch) (counts : List ℕ) (k : ℕ) (req : Req) : OutputBatch :=
  { OutputBatch.empty with
    output := own_value counts k b.output
    audio := own_value counts k b.audio
    audio_sample_rate := b.audio_sample_rate
    action_pred := own_value counts k b.action_pred
    trajectory_timesteps := own_value counts k b.trajectory_timesteps
    trajectory_latents := own_value counts k b.trajectory_latents
    trajectory_decoded := own_value counts k b.trajectory_decoded
    error := b.error
    output_file_paths := own_value counts k b.output_file_paths
    metrics := split_metrics b k req
    noise_pred := own_value counts k b.noise_pred
    peak_memory_mb := b.peak_memory_mb }

/-- The output of a request from what the pipeline yielded for it. -/
def combine (w : Worker) : List OutputBatch → Except String OutputBatch
  | [o] => .ok o
  | os => w.merge_expanded_output_batches os

/-- The requests that are run together. -/
def requests : List (Option String × Item) → List Req
  | [(_, .group rs)] => rs
  | items => items.filterMap fun i => i.2.plain

/-- A worker's result that is one output batch. -/
def Result.Gives (r : Result) (o : OutputBatch) : Prop := r = .batch o ∨ r = .list [o]

/-- What the worker computed for item `k`: the result of a call for this item, its part of the
output of a batch, or what the pipeline yielded for it. -/
inductive OutputOf (c : ServerArgs) (w : Worker) (items : List (Option String × Item)) (k : ℕ) :
    OutputBatch → Prop
  | handled {identity : Option String} {tag : String} {r : Result} {o : OutputBatch}
      (hitem : items[k]? = some (identity, .control tag)) (hr : w.handler tag = some (.ok r))
      (ho : r.Gives o) : OutputOf c w items k o
  | group {identity : Option String} {rs : List Req} {r : Result} {o : OutputBatch}
      (hitem : items[k]? = some (identity, .group rs))
      (hr : w.execute_forward 0 (.reqs rs) = .ok r) (ho : r.Gives o) : OutputOf c w items k o
  | alone {identity : Option String} {req : Req} {r : Result} {o : OutputBatch}
      (hitem : items[k]? = some (identity, .req req))
      (hr : w.execute_forward k (.reqs [req]) = .ok r) (ho : r.Gives o) : OutputOf c w items k o
  | split {batch : Batch} {b : OutputBatch} {counts : List ℤ} {req : Req}
      (hitems : 1 < items.length)
      (hbatch : batch = .reqs (requests items) ∨ ∃ m, batch = .merged m (requests items))
      (hb : w.execute_forward 0 batch = .ok (.batch b))
      (hcounts : (requests items).mapM Req.num_outputs_per_prompt = some counts)
      (hreq : (requests items)[k]? = some req) :
      OutputOf c w items k (own_batch b (counts.map Int.toNat) k req)
  | sequential {req : Req} {os : List OutputBatch} {o : OutputBatch}
      (hreq : (requests items)[k]? = some req)
      (hos : share ((requests items).map (sequential_count c)) k w.results = os)
      (hlength : os.length = sequential_count c req) (ho : combine w os = .ok o) :
      OutputOf c w items k (finished w k req o)

/-- An answer to item `k`: an error, or an output of that item. -/
def Answer (c : ServerArgs) (w : Worker) (items : List (Option String × Item)) (k : ℕ)
    (r : Returned) : Prop :=
  ∃ o, r = .batch o ∧ (o.error ≠ none ∨ OutputOf c w items k o)

/-- Each item is answered once, in order. -/
def Answered (c : ServerArgs) (w : Worker) (items : List (Option String × Item))
    (replies : List Reply) : Prop :=
  replies.map Reply.item = items ∧
    ∀ k reply, replies[k]? = some reply → Answer c w items k reply.output

/-- What the worker has to keep to. A request asks for a positive number of outputs, as sampling
parameters check; in a sequential batch no request is prepared after one whose preparation raised;
and the calls for the single requests of a batch do not return lists. -/
structure InStep (c : ServerArgs) (items : List (Option String × Item)) (w : Worker) : Prop where
  counts : ∀ req ∈ requests items, ∀ n, req.num_outputs_per_prompt = some n → 0 < n
  prepared : ∀ i j, i < j → j < (requests items).length → w.prepare i ≠ none → w.prepare j ≠ none
  single : 1 < items.length → ∀ i req os, w.execute_forward i (.reqs [req]) ≠ .ok (.list os)

/-! ## Splitting -/

theorem py_slice_nat {α : Type} {xs : List α} {start count : ℕ} (hle : start + count ≤ xs.length) :
    py_slice xs (start : ℤ) ((start : ℤ) + (count : ℤ)) = (xs.drop start).take count := by
  unfold py_slice
  have hstart : (if (start : ℤ) < 0 then max 0 ((start : ℤ) + xs.length)
      else min (start : ℤ) xs.length).toNat = start := by
    rw [if_neg (by omega), min_eq_left (by omega), Int.toNat_natCast]
  have hstop : (if (start : ℤ) + (count : ℤ) < 0 then max 0 ((start : ℤ) + count + xs.length)
      else min ((start : ℤ) + count) xs.length).toNat = start + count := by
    omega
  dsimp only
  rw [hstart, hstop, Nat.add_sub_cancel_left]

theorem sum_take_add_getD_le (counts : List ℕ) (k : ℕ) :
    (counts.take k).sum + counts.getD k 0 ≤ counts.sum := by
  induction counts generalizing k with
  | nil => simp
  | cons n counts ih =>
    cases k with
    | zero => simp
    | succ k =>
      have hle := ih k
      simp only [take_succ_cons, sum_cons, getD_cons_succ]
      omega

theorem slice_own (counts : List ℕ) (k : ℕ) (v : Value) :
    slice_batched_value v ((counts.take k).sum : ℕ)
      (((counts.take k).sum : ℕ) + ((counts.getD k 0 : ℕ) : ℤ)) (counts.sum : ℕ)
        = own_value counts k v := by
  cases v with
  | none => rfl
  | other x => rfl
  | entries xs =>
    unfold slice_batched_value own_value
    dsimp only
    by_cases hlength : xs.length = counts.sum
    · have hle := sum_take_add_getD_le counts k
      rw [if_pos (by exact_mod_cast hlength), if_pos hlength, py_slice_nat (by omega)]
      rfl
    · rw [if_neg (by exact_mod_cast hlength), if_neg hlength]

theorem split_for_own (b : OutputBatch) (counts : List ℕ) (k : ℕ) (req : Req) :
    split_for b (counts.sum : ℕ) k req ((counts.take k).sum : ℕ)
      (((counts.take k).sum : ℕ) + ((counts.getD k 0 : ℕ) : ℤ)) = own_batch b counts k req := by
  unfold split_for own_batch
  simp only [slice_own]

theorem split_from_getElem? (b : OutputBatch) (total : ℤ) : ∀ (l : List (Req × ℤ)) (i : ℕ)
    (start : ℤ) (k : ℕ), (split_from b total i start l)[k]? = l[k]?.map fun p =>
      split_for b total (i + k) p.1 (start + ((l.map Prod.snd).take k).sum)
        (start + ((l.map Prod.snd).take k).sum + p.2) := by
  intro l
  induction l with
  | nil => exact fun i start k => rfl
  | cons p rest ih =>
    obtain ⟨req, count⟩ := p
    intro i start k
    unfold split_from
    cases k with
    | zero => simp
    | succ k =>
      rw [getElem?_cons_succ, ih]
      simp only [map_cons, take_succ_cons, sum_cons]
      congr 1
      funext p
      rw [Nat.add_assoc, Nat.add_comm 1 k, add_assoc start count]

theorem split_from_length (b : OutputBatch) (total : ℤ) : ∀ (l : List (Req × ℤ)) (i : ℕ)
    (start : ℤ), (split_from b total i start l).length = l.length := by
  intro l
  induction l with
  | nil => exact fun i start => rfl
  | cons p rest ih =>
    intro i start
    unfold split_from
    rw [length_cons, length_cons, ih]

theorem mapM_getElem? {α β : Type} {f : α → Option β} {l : List α} {ys : List β} :
    l.mapM f = some ys → ys.length = l.length ∧ ∀ k : ℕ, ys[k]? = l[k]?.bind f := by
  induction l generalizing ys with
  | nil =>
    intro hys
    cases hys
    exact ⟨rfl, fun k => rfl⟩
  | cons x l ih =>
    intro hys
    rw [mapM_cons] at hys
    cases hx : f x with
    | none =>
      rw [hx] at hys
      cases hys
    | some y =>
      cases hl : l.mapM f with
      | none =>
        rw [hx, hl] at hys
        cases hys
      | some zs =>
        rw [hx, hl] at hys
        cases hys
        obtain ⟨hlength, hget⟩ := ih hl
        refine ⟨by rw [length_cons, length_cons, hlength], ?_⟩
        intro k
        cases k with
        | zero => exact hx.symm
        | succ k => exact hget k

variable {reqs : List Req}

theorem counts_nonneg {counts : List ℤ}
    (hpos : ∀ req ∈ reqs, ∀ n, req.num_outputs_per_prompt = some n → 0 < n)
    (hcounts : reqs.mapM Req.num_outputs_per_prompt = some counts) : ∀ n ∈ counts, 0 ≤ n := by
  intro n hn
  obtain ⟨k, hk⟩ := mem_iff_getElem?.mp hn
  rw [(mapM_getElem? hcounts).2 k, Option.bind_eq_some_iff] at hk
  obtain ⟨req, hreq, hnum⟩ := hk
  exact le_of_lt (hpos req (mem_of_getElem? hreq) n hnum)

theorem natCast_sum_toNat {counts : List ℤ} (hnonneg : ∀ n ∈ counts, 0 ≤ n) :
    (((counts.map Int.toNat).sum : ℕ) : ℤ) = counts.sum := by
  induction counts with
  | nil => rfl
  | cons n counts ih =>
    rw [map_cons, sum_cons, sum_cons, Nat.cast_add, ih fun m hm => hnonneg m (mem_cons_of_mem n hm),
      Int.toNat_of_nonneg (hnonneg n mem_cons_self)]

/-- **A split gives each request its own part** of the output. -/
theorem split_batched_output_spec {b : OutputBatch} {os : List OutputBatch}
    (hpos : ∀ req ∈ reqs, ∀ n, req.num_outputs_per_prompt = some n → 0 < n)
    (hsplit : split_batched_output b reqs = .ok (some os)) : os.length = reqs.length ∧
      ∃ counts, reqs.mapM Req.num_outputs_per_prompt = some counts ∧ ∀ k o, os[k]? = some o →
          ∃ req, reqs[k]? = some req ∧ o = own_batch b (counts.map Int.toNat) k req := by
  unfold split_batched_output at hsplit
  cases hcounts : reqs.mapM Req.num_outputs_per_prompt with
  | none =>
    rw [hcounts] at hsplit
    cases hsplit
  | some counts =>
    rw [hcounts] at hsplit
    dsimp only at hsplit
    split_ifs at hsplit
    · cases hsplit
    · cases hsplit
    · cases hsplit
    rw [Except.ok.injEq, Option.some.injEq] at hsplit
    obtain ⟨hlength, -⟩ := mapM_getElem? hcounts
    have hnonneg := counts_nonneg hpos hcounts
    have hsnd : (reqs.zip counts).map Prod.snd = counts :=
      map_snd_zip (le_of_eq hlength)
    rw [← hsplit]
    refine ⟨?_, counts, rfl, ?_⟩
    · rw [split_from_length, length_zip, hlength, min_self]
    · intro k o ho
      rw [split_from_getElem?, Option.map_eq_some_iff] at ho
      obtain ⟨⟨req, count⟩, hp, ho⟩ := ho
      rw [getElem?_zip_eq_some] at hp
      obtain ⟨hreq, hcount⟩ := hp
      refine ⟨req, hreq, ?_⟩
      -- the bounds of the slice are sums of natural numbers
      have hstart : (counts.take k).sum = ((((counts.map Int.toNat).take k).sum : ℕ) : ℤ) := by
        rw [← map_take]
        exact (natCast_sum_toNat fun n hn => hnonneg n (mem_of_mem_take hn)).symm
      have hcountk : count = (((counts.map Int.toNat).getD k 0 : ℕ) : ℤ) := by
        rw [getD_eq_getElem?_getD, getElem?_map, hcount, Option.map_some,
          Option.getD_some, Int.toNat_of_nonneg (hnonneg count (mem_of_getElem? hcount))]
      rw [← ho, hsnd, zero_add, zero_add, hstart, hcountk, ← natCast_sum_toNat hnonneg]
      exact split_for_own b (counts.map Int.toNat) k req

/-! ## Sequential batches -/

theorem collect_sequential_outputs_spec {results : List OutputBatch} {n : ℕ}
    {r : OutputBatch × List OutputBatch} (hn : 0 < n)
    (hr : collect_sequential_outputs w results n = .ok r) :
    combine w (results.take n) = .ok r.1 ∧ (results.take n).length = n ∧ r.2 = results.drop n := by
  unfold collect_sequential_outputs at hr
  split_ifs at hr with hshort hone
  · subst hone
    cases results with
    | nil => cases hr
    | cons o rest =>
      cases hr
      exact ⟨rfl, rfl, rfl⟩
  · have hlength : (results.take n).length = n := by
      rw [length_take]
      omega
    have hcombine : combine w (results.take n)
        = w.merge_expanded_output_batches (results.take n) := by
      unfold combine
      split
      · rename_i o heq
        rw [heq] at hlength
        exact absurd hlength.symm hone
      · rfl
    cases hm : w.merge_expanded_output_batches (results.take n) with
    | error e =>
      rw [hm] at hr
      cases hr
    | ok o =>
      rw [hm] at hr
      cases hr
      exact ⟨hcombine.trans hm, hlength, rfl⟩

theorem sequential_count_pos (c : ServerArgs) (req : Req) : 0 < sequential_count c req := by
  unfold sequential_count
  split_ifs
  · unfold Req.output_count
    split
    · decide
    · split_ifs
      · decide
      · omega
  · exact Nat.one_pos

theorem sequential_failed : ∀ (batch : List Req) (i : ℕ) (results : List OutputBatch),
    (∀ j, i ≤ j → j < i + batch.length → w.prepare j ≠ none) →
    ∀ o ∈ (execute_forward_sequentially c w i results batch).1, o.error ≠ none := by
  intro batch
  induction batch with
  | nil => exact fun i results _ o ho => absurd ho not_mem_nil
  | cons req batch ih =>
    intro i results hall o ho
    unfold execute_forward_sequentially at ho
    cases hp : w.prepare i with
    | none =>
      refine absurd hp (hall i le_rfl ?_)
      rw [length_cons]
      omega
    | some e =>
      rw [hp] at ho
      rw [mem_cons] at ho
      rcases ho with rfl | ho
      · exact Option.some_ne_none _
      · refine ih (i + 1) results ?_ o ho
        intro j hle hlt
        apply hall j (by omega)
        rw [length_cons]
        omega

/-- **A sequential batch in step** yields errors, or what the pipeline yielded for the request. -/
theorem sequential_spec (batch : List Req) (i : ℕ) (results : List OutputBatch) :
    (∀ a b, i ≤ a → a < b → b < i + batch.length → w.prepare a ≠ none → w.prepare b ≠ none) →
    ∀ k o, (execute_forward_sequentially c w i results batch).1[k]? = some o → o.error ≠ none ∨
      ∃ req os o', batch[k]? = some req ∧ share (batch.map (sequential_count c)) k results = os ∧
        os.length = sequential_count c req ∧ combine w os = .ok o' ∧
          o = finished w (i + k) req o' := by
  induction batch generalizing i results with
  | nil =>
    intro _ k o ho
    cases ho
  | cons req batch ih =>
    intro hstep k o ho
    unfold execute_forward_sequentially at ho
    cases hp : w.prepare i with
    | some e =>
      -- nothing after it is prepared
      left
      rw [hp] at ho
      have hmem := mem_of_getElem? ho
      rw [mem_cons] at hmem
      rcases hmem with rfl | hmem
      · exact Option.some_ne_none _
      · refine sequential_failed batch (i + 1) results ?_ o hmem
        intro j hle hlt
        refine hstep i j le_rfl (by omega) ?_ (by rw [hp]; exact Option.some_ne_none e)
        rw [length_cons]
        omega
    | none =>
      rw [hp] at ho
      cases hcollect : collect_sequential_outputs w results (sequential_count c req) with
      | error e =>
        rw [hcollect] at ho
        cases ho
      | ok r =>
        obtain ⟨o', rest⟩ := r
        rw [hcollect] at ho
        obtain ⟨hcombine, hlength, hrest⟩ :=
          collect_sequential_outputs_spec (sequential_count_pos c req) hcollect
        dsimp only at hcombine hrest
        cases k with
        | zero =>
          right
          rw [getElem?_cons_zero, Option.some.injEq] at ho
          exact ⟨req, _, o', rfl, rfl, hlength, hcombine, ho.symm⟩
        | succ k =>
          have hnext := ih (i + 1) rest ?_ k o ho
          · rcases hnext with herror | ⟨req', os, o'', hreq, hos, hlen, hcomb, heq⟩
            · exact Or.inl herror
            · right
              refine ⟨req', os, o'', hreq, ?_, hlen, hcomb, ?_⟩
              · rw [← hos, hrest]
                unfold share
                rw [map_cons, take_succ_cons, sum_cons, getD_cons_succ, drop_drop]
              · rw [heq, Nat.add_assoc, Nat.add_comm 1 k]
          · intro a b ha hab hb
            apply hstep a b (by omega) hab
            rw [length_cons]
            omega

/-! ## Replies -/

theorem return_results_batch : ∀ l : List ((Option String × Item) × OutputBatch),
    return_results h (l.map fun p => (p.1, .batch p.2))
      = (l.map fun p => ⟨p.1, .batch p.2⟩, true) := by
  intro l
  induction l with
  | nil => rfl
  | cons p l ih =>
    rw [map_cons, return_results, ih]
    rfl

theorem answered_failed (items : List (Option String × Item)) (error : String) :
    Answered c w items (items.map fun i => ⟨i, .batch (.failed error)⟩) := by
  refine ⟨?_, ?_⟩
  · rw [map_map]
    exact map_id items
  · intro k reply hreply
    rw [getElem?_map, Option.map_eq_some_iff] at hreply
    obtain ⟨i, _, rfl⟩ := hreply
    exact ⟨_, rfl, Or.inl (Option.some_ne_none _)⟩

variable {items : List (Option String × Item)}

theorem return_list_answered {os : List OutputBatch} (hos : os.length = items.length →
      ∀ k o, os[k]? = some o → o.error ≠ none ∨ OutputOf c w items k o) :
    Answered c w items (return_list h items (os.map .batch)).1 := by
  unfold return_list
  by_cases hlength : os.length = items.length
  · rw [if_pos (by rw [length_map]; exact hlength)]
    have hzip : items.zip (os.map Returned.batch)
        = (items.zip os).map fun p => (p.1, Returned.batch p.2) := zip_map_right
    rw [hzip, return_results_batch]
    refine ⟨?_, ?_⟩
    · rw [map_map]
      exact map_fst_zip (le_of_eq hlength.symm)
    · intro k reply hreply
      rw [getElem?_map, Option.map_eq_some_iff] at hreply
      obtain ⟨⟨i, o⟩, hp, rfl⟩ := hreply
      rw [getElem?_zip_eq_some] at hp
      exact ⟨o, rfl, hos hlength k o hp.2⟩
  · rw [if_neg (by rw [length_map]; exact hlength)]
    have hmap : (items.map fun i => (i, Returned.batch
        (.failed (mismatch_error items.length (os.map Returned.batch).length))))
          = (items.map fun i => (i, OutputBatch.failed
              (mismatch_error items.length (os.map Returned.batch).length))).map
            fun p => (p.1, Returned.batch p.2) := by
      rw [map_map]
      rfl
    rw [hmap, return_results_batch]
    rw [map_map]
    exact answered_failed items _

/-- **Replies of an iterator.** The items get its outputs as long as it yields, the rest of them get
an error. -/
theorem return_results_sequentially_spec (raised : Option String) :
    ∀ (items : List (Option String × Item)) (outputs : List OutputBatch),
      (return_results_sequentially raised items outputs).map Reply.item = items ∧
      ∀ (k : ℕ) (reply : Reply), (return_results_sequentially raised items outputs)[k]? = some reply →
        ∃ o, reply.output = .batch o ∧ (o.error ≠ none ∨ outputs[k]? = some o) := by
  intro items
  induction items with
  | nil =>
    intro outputs
    refine ⟨rfl, ?_⟩
    intro k reply hreply
    cases hreply
  | cons item items ih =>
    intro outputs
    cases outputs with
    | nil =>
      unfold return_results_sequentially
      refine ⟨?_, ?_⟩
      · rw [map_map]
        exact map_id (item :: items)
      intro k reply hreply
      rw [getElem?_map, Option.map_eq_some_iff] at hreply
      obtain ⟨i, _, rfl⟩ := hreply
      exact ⟨_, rfl, Or.inl (Option.some_ne_none _)⟩
    | cons o outputs =>
      obtain ⟨hitems, hall⟩ := ih outputs
      unfold return_results_sequentially
      refine ⟨by rw [map_cons, hitems], ?_⟩
      intro k reply hreply
      cases k with
      | zero =>
        rw [getElem?_cons_zero, Option.some.injEq] at hreply
        rw [← hreply]
        exact ⟨o, rfl, Or.inr rfl⟩
      | succ k =>
        exact hall k reply hreply

/-! ## One dispatch -/

theorem execute_generation_sequential_getElem? {reqs : List Req} {i : ℕ} {rs : List Result} :
    execute_generation_sequential w i reqs = .ok rs → rs.length = reqs.length ∧
      ∀ k r, rs[k]? = some r →
        ∃ req, reqs[k]? = some req ∧ w.execute_forward (i + k) (.reqs [req]) = .ok r := by
  induction reqs generalizing i rs with
  | nil =>
    intro hrs
    cases hrs
    refine ⟨rfl, ?_⟩
    intro k r hr
    cases hr
  | cons req reqs ih =>
    intro hrs
    unfold execute_generation_sequential at hrs
    cases hfirst : w.execute_forward i (.reqs [req]) with
    | error e =>
      rw [hfirst] at hrs
      cases hrs
    | ok first =>
      cases hrest : execute_generation_sequential w (i + 1) reqs with
      | error e =>
        rw [hfirst, hrest] at hrs
        cases hrs
      | ok rest =>
        rw [hfirst, hrest] at hrs
        cases hrs
        obtain ⟨hlength, hget⟩ := ih hrest
        refine ⟨by rw [length_cons, length_cons, hlength], ?_⟩
        intro k r hr
        cases k with
        | zero =>
          rw [getElem?_cons_zero, Option.some.injEq] at hr
          exact ⟨req, rfl, hr ▸ hfirst⟩
        | succ k =>
          obtain ⟨req', hreq', hr'⟩ := hget k r hr
          refine ⟨req', hreq', ?_⟩
          rw [← hr', Nat.add_assoc, Nat.add_comm 1 k]

/-- An exception of a handler becomes an output batch. -/
def caught : Except String Returned → Returned
  | .ok r => r
  | .error e => .batch (.failed e)

/-- The replies to what a handler returned. -/
def replies_to (c : ServerArgs) (h : Host) (w : Worker) (items : List (Option String × Item)) :
    Returned → List Reply × Bool
  | .sequential reqs =>
    let outputs := execute_forward_sequentially c w 0 w.results reqs
    (return_results_sequentially outputs.2 items outputs.1, w.close.isNone)
  | .list output_batches => return_list h items output_batches
  | .batch o => return_list h items [.batch o]

theorem serve_items_eq (items : List (Option String × Item)) :
    serve_items c h w items = replies_to c h w items (caught (dispatch_items c w items)) := rfl

theorem replies_to_failed (items : List (Option String × Item)) (e : String) :
    Answered c w items (replies_to c h w items (.batch (.failed e))).1 := by
  apply @return_list_answered c h w items [.failed e]
  intro _ k o ho
  have hmem := mem_of_getElem? ho
  rw [mem_singleton] at hmem
  rw [hmem]
  exact Or.inl (Option.some_ne_none e)

theorem replies_to_result {item : Option String × Item} {r : Result}
    (hr : ∀ o, r.Gives o → OutputOf c w [item] 0 o) :
    Answered c w [item] (replies_to c h w [item] r.returned).1 := by
  cases r with
  | batch o =>
    apply @return_list_answered c h w [item] [o]
    intro _ k o' ho'
    cases k with
    | zero =>
      rw [getElem?_cons_zero, Option.some.injEq] at ho'
      exact Or.inr (ho' ▸ hr o (Or.inl rfl))
    | succ k => cases ho'
  | list os =>
    apply @return_list_answered c h w [item] os
    intro hlength k o' ho'
    obtain ⟨o, rfl⟩ := length_eq_one_iff.mp hlength
    cases k with
    | zero =>
      rw [getElem?_cons_zero, Option.some.injEq] at ho'
      exact Or.inr (ho' ▸ hr o (Or.inr rfl))
    | succ k => cases ho'

theorem replies_to_sequential (hstep : InStep c items w) :
    Answered c w items (replies_to c h w items (.sequential (requests items))).1 := by
  obtain ⟨hitems, hall⟩ := return_results_sequentially_spec
    (execute_forward_sequentially c w 0 w.results (requests items)).2 items
    (execute_forward_sequentially c w 0 w.results (requests items)).1
  refine ⟨hitems, ?_⟩
  intro k reply hreply
  obtain ⟨o, houtput, ho⟩ := hall k reply hreply
  refine ⟨o, houtput, ?_⟩
  rcases ho with herror | hyield
  · exact Or.inl herror
  · have hspec := sequential_spec (requests items) 0 w.results ?_ k o hyield
    · rcases hspec with herror | ⟨req, os, o', hreq, hos, hlength, hcombine, heq⟩
      · exact Or.inl herror
      · right
        rw [heq, Nat.zero_add]
        exact OutputOf.sequential hreq hos hlength hcombine
    · intro a b _ hab hb
      rw [Nat.zero_add] at hb
      exact hstep.prepared a b hab hb

theorem replies_to_split {batch : Batch} {failure no_split : String} (hstep : InStep c items w)
    (hitems : 1 < items.length)
    (hbatch : batch = .reqs (requests items) ∨ ∃ m, batch = .merged m (requests items)) :
    Answered c w items
      (replies_to c h w items (execute_and_split w batch (requests items) failure no_split)).1 := by
  apply @return_list_answered c h w items
  intro _ k o ho
  have herrors : ∀ msg, (build_dynamic_batch_error_outputs (requests items) msg)[k]? = some o →
      o.error ≠ none := by
    intro msg hmsg
    unfold build_dynamic_batch_error_outputs at hmsg
    rw [getElem?_map, Option.map_eq_some_iff] at hmsg
    obtain ⟨req, _, rfl⟩ := hmsg
    exact Option.some_ne_none msg
  cases hforward : w.execute_forward 0 batch with
  | error e =>
    rw [hforward] at ho
    exact Or.inl (herrors _ ho)
  | ok r =>
    rw [hforward] at ho
    cases r with
    | list os => exact Or.inl (herrors _ ho)
    | batch b =>
      dsimp only at ho
      split_ifs at ho
      · exact Or.inl (herrors _ ho)
      · cases hsplit : split_batched_output b (requests items) with
        | error e =>
          rw [hsplit] at ho
          exact Or.inl (herrors _ ho)
        | ok parts =>
          rw [hsplit] at ho
          cases parts with
          | none => exact Or.inl (herrors _ ho)
          | some os =>
            obtain ⟨_, counts, hcounts, hget⟩ :=
              split_batched_output_spec hstep.counts hsplit
            obtain ⟨req, hreq, heq⟩ := hget k o ho
            right
            rw [heq]
            exact OutputOf.split hitems hbatch hforward hcounts hreq

theorem generation_alone {item : Option String × Item} {allow : Bool}
    (hreqs : requests [item] = reqs) (hsmall : allow = false ∨ reqs.length ≤ 1)
    (hstep : InStep c [item] w)
    (hforward : ∀ r o, w.execute_forward 0 (.reqs reqs) = .ok r → r.Gives o →
      OutputOf c w [item] 0 o) :
    Answered c w [item] (replies_to c h w [item] (caught (handle_generation c w reqs allow))).1 := by
  unfold handle_generation
  by_cases hsleep : w.is_sleeping = true
  · rw [if_pos hsleep]
    exact replies_to_failed _ _
  · rw [if_neg hsleep]
    cases reqs with
    | nil => exact replies_to_failed _ _
    | cons req rest =>
      have hone : (rest.isEmpty || !allow) = true := by
        rcases hsmall with rfl | hsmall
        · rw [Bool.not_false, Bool.or_true]
        · rw [length_cons, Nat.succ_le_succ_iff, Nat.le_zero, length_eq_zero_iff] at hsmall
          rw [hsmall]
          rfl
      dsimp only
      split_ifs with hseq
      · rw [← hreqs]
        exact replies_to_sequential hstep
      · cases hcall : w.execute_forward 0 (.reqs (req :: rest)) with
        | error e => exact replies_to_failed _ _
        | ok r => exact replies_to_result fun o ho => hforward r o hcall ho

theorem requests_plain (hplain : ∀ x ∈ items, ∃ r, x.2 = .req r) :
    items.map Prod.snd = (requests items).map Item.req := by
  have hfilter : ∀ l : List (Option String × Item), (∀ x ∈ l, ∃ r, x.2 = .req r) →
      l.map Prod.snd = (l.filterMap fun i => i.2.plain).map Item.req := by
    intro l
    induction l with
    | nil => exact fun _ => rfl
    | cons x l ih =>
      intro hall
      obtain ⟨r, hr⟩ := hall x mem_cons_self
      rw [map_cons, ih fun y hy => hall y (mem_cons_of_mem x hy)]
      simp only [filterMap_cons, hr, Item.plain, map_cons]
  unfold requests
  split
  · rename_i identity rs
    obtain ⟨r, hr⟩ := hplain (identity, .group rs) mem_cons_self
    cases hr
  · exact hfilter items hplain

theorem mapM_plain (rs : List Req) : (rs.map Item.req).mapM Item.plain = some rs := by
  induction rs with
  | nil => rfl
  | cons r rs ih =>
    rw [map_cons, mapM_cons, ih]
    rfl

theorem results_batch {rs : List Result} (hall : ∀ r ∈ rs, ∀ os, r ≠ .list os) :
    ∃ os : List OutputBatch, rs = os.map .batch := by
  induction rs with
  | nil => exact ⟨[], rfl⟩
  | cons r rs ih =>
    obtain ⟨os, rfl⟩ := ih fun r' hr' => hall r' (mem_cons_of_mem r hr')
    cases r with
    | batch o => exact ⟨o :: os, rfl⟩
    | list os' => exact absurd rfl (hall _ mem_cons_self os')

theorem generation_together (hstep : InStep c items w) (hitems : 1 < items.length)
    (hplain : ∀ x ∈ items, ∃ r, x.2 = .req r) : Answered c w items
      (replies_to c h w items (caught (handle_generation c w (requests items) true))).1 := by
  have hmap := requests_plain hplain
  have hlength : (requests items).length = items.length := by
    rw [← length_map Item.req, ← hmap, length_map]
  unfold handle_generation
  by_cases hsleep : w.is_sleeping = true
  · rw [if_pos hsleep]
    exact replies_to_failed _ _
  · rw [if_neg hsleep]
    obtain ⟨reqs, hreqs⟩ : ∃ reqs, requests items = reqs := ⟨_, rfl⟩
    rw [hreqs]
    cases reqs with
    | nil => exact replies_to_failed _ _
    | cons req rest =>
      have hmany : rest.isEmpty = false := by
        cases rest with
        | nil =>
          rw [hreqs, length_singleton] at hlength
          omega
        | cons req' rest => rfl
      dsimp only
      rw [hmany, Bool.false_and, Bool.false_and, if_neg Bool.false_ne_true, Bool.not_true,
        Bool.false_or, if_neg Bool.false_ne_true, ← hreqs]
      by_cases hnative : c.pipeline_config.supports_native_grouped_requests = true
      · unfold execute_generation_grouped
        split_ifs
        · exact replies_to_sequential hstep
        · exact replies_to_split hstep hitems (Or.inl rfl)
      · rw [if_neg hnative]
        cases hmerge : try_merge_generation_reqs c w (requests items) with
        | error e => exact replies_to_failed _ _
        | ok batch =>
          cases batch with
          | some batch =>
            apply replies_to_split hstep hitems
            right
            rw [hreqs] at hmerge ⊢
            unfold try_merge_generation_reqs at hmerge
            cases rest with
            | nil => cases hmany
            | cons req' rest =>
              dsimp only at hmerge
              split_ifs at hmerge
              · cases hmerge
              · cases hmerge
              · rw [Except.ok.injEq, Option.some.injEq] at hmerge
                exact ⟨_, hmerge.symm⟩
          | none =>
            cases hseq : execute_generation_sequential w 0 (requests items) with
            | error e => exact replies_to_failed _ _
            | ok rs =>
              obtain ⟨_, hget⟩ := execute_generation_sequential_getElem? hseq
              obtain ⟨os, rfl⟩ : ∃ os : List OutputBatch, rs = os.map .batch := by
                apply results_batch
                intro r hr os
                obtain ⟨k, hk⟩ := mem_iff_getElem?.mp hr
                obtain ⟨req', _, hcall⟩ := hget k r hk
                rintro rfl
                exact hstep.single hitems _ _ _ hcall
              have hreturned : (os.map Result.batch).map Result.returned
                  = os.map Returned.batch := by
                rw [map_map]
                rfl
              change Answered c w items
                (return_list h items ((os.map Result.batch).map Result.returned)).1
              rw [hreturned]
              apply return_list_answered
              intro _ k o ho
              right
              have hk : (os.map Result.batch)[k]? = some (.batch o) := by
                rw [getElem?_map, ho]
                rfl
              obtain ⟨req', hreq', hcall⟩ := hget k _ hk
              rw [Nat.zero_add] at hcall
              -- request `k` is that of item `k`
              have hitem : (items.map Prod.snd)[k]? = some (.req req') := by
                rw [hmap, getElem?_map, hreq']
                rfl
              rw [getElem?_map, Option.map_eq_some_iff] at hitem
              obtain ⟨⟨identity, x⟩, hx, rfl⟩ := hitem
              exact OutputOf.alone hx hcall (Or.inl rfl)

theorem dispatch_items_single (item : Option String × Item) :
    dispatch_items c w [item] = dispatch_single_request c w item.2 := rfl

theorem dispatch_items_plain (hitems : 1 < items.length) (hplain : ∀ x ∈ items, ∃ r, x.2 = .req r) :
    dispatch_items c w items = handle_generation c w (requests items) true := by
  have hmapM := mapM_plain (requests items)
  rw [← requests_plain hplain] at hmapM
  unfold dispatch_items
  split
  · rename_i hnil
    rw [map_eq_nil_iff] at hnil
    rw [hnil] at hitems
    cases hitems
  · rename_i req hone
    have hlength := congrArg List.length hone
    rw [length_map, length_singleton] at hlength
    omega
  · rw [hmapM]

/-- **One dispatch.** Every item is answered once, with an output of its own or an error. -/
theorem serve_items_answered (hstep : InStep c items w)
    (hplain : items.length = 1 ∨ ∀ x ∈ items, ∃ r, x.2 = .req r) (hne : items ≠ []) :
    Answered c w items (serve_items c h w items).1 := by
  rw [serve_items_eq]
  by_cases hitems : 1 < items.length
  · have hall : ∀ x ∈ items, ∃ r, x.2 = .req r := by
      rcases hplain with hone | hall
      · omega
      · exact hall
    rw [dispatch_items_plain hitems hall]
    exact generation_together hstep hitems hall
  · have hone : items.length = 1 := by
      have hpos := length_pos_iff.mpr hne
      omega
    obtain ⟨⟨identity, x⟩, rfl⟩ := length_eq_one_iff.mp hone
    rw [dispatch_items_single]
    cases x with
    | req r =>
      refine generation_alone rfl (Or.inr le_rfl) hstep ?_
      exact fun r' o hcall ho => OutputOf.alone rfl hcall ho
    | group rs =>
      refine generation_alone rfl (Or.inl rfl) hstep ?_
      exact fun r' o hcall ho => OutputOf.group rfl hcall ho
    | control tag =>
      unfold dispatch_single_request
      dsimp only
      cases hhandler : w.handler tag with
      | none => exact replies_to_failed _ _
      | some result =>
        cases result with
        | error e => exact replies_to_failed _ _
        | ok r => exact replies_to_result fun o ho => OutputOf.handled rfl hhandler ho

/-! ## The queue -/

theorem take_out_perm : ∀ (indices : List ℕ) (queue : List Entry)
    (items : List (Option String × Item)),
    ((take_out queue indices items).1 ++ (take_out queue indices items).2.map Entry.item).Perm
      (items ++ queue.map Entry.item) := by
  intro indices
  induction indices with
  | nil => exact fun queue items => List.Perm.refl _
  | cons idx indices ih =>
    intro queue items
    unfold take_out
    cases hat : queue[idx]? with
    | none => exact ih queue items
    | some e =>
      refine (ih _ _).trans ?_
      obtain ⟨hlt, hget⟩ := List.getElem?_eq_some_iff.mp hat
      have hperm := (getElem_cons_eraseIdx_perm hlt).map Entry.item
      rw [hget] at hperm
      exact (perm_middle.symm).trans (hperm.append_left items)

theorem take_out_mem : ∀ (indices : List ℕ) (queue : List Entry)
    (items : List (Option String × Item)), indices.Pairwise (· > ·) →
    ∀ x ∈ (take_out queue indices items).1,
      x ∈ items ∨ ∃ i ∈ indices, queue[i]?.map Entry.item = some x := by
  intro indices
  induction indices with
  | nil => exact fun queue items _ x hx => Or.inl hx
  | cons idx indices ih =>
    intro queue items hsorted x hx
    rw [pairwise_cons] at hsorted
    obtain ⟨hfirst, hsorted⟩ := hsorted
    unfold take_out at hx
    cases hat : queue[idx]? with
    | none =>
      rw [hat] at hx
      rcases ih queue items hsorted x hx with hmem | ⟨i, hi, hq⟩
      · exact Or.inl hmem
      · exact Or.inr ⟨i, mem_cons_of_mem idx hi, hq⟩
    | some e =>
      rw [hat] at hx
      rcases ih (queue.eraseIdx idx) (e.item :: items) hsorted x hx with hmem | ⟨i, hi, hq⟩
      · rw [mem_cons] at hmem
        rcases hmem with rfl | hmem
        · exact Or.inr ⟨idx, mem_cons_self, by rw [hat]; rfl⟩
        · exact Or.inl hmem
      · -- the entries before a gap have not moved
        rw [getElem?_eraseIdx_of_lt (hfirst i hi)] at hq
        exact Or.inr ⟨i, mem_cons_of_mem idx hi, hq⟩

theorem gather_spec {base : Req} {queue : List (Option String × Item)} :
    ∀ (rest : List (Option String × Item)) (idx : ℕ) (indices : List ℕ) (reqs : List Req),
      rest = queue.drop idx → (∀ i ∈ indices, i < idx) → indices.Pairwise (· < ·) →
      (∀ i ∈ indices, ∃ x r, queue[i]? = some x ∧ x.2 = .req r) →
      (gather c base idx rest (indices, reqs)).1.Pairwise (· < ·) ∧
        ∀ i ∈ (gather c base idx rest (indices, reqs)).1,
          ∃ x r, queue[i]? = some x ∧ x.2 = .req r := by
  intro rest
  induction rest with
  | nil => exact fun idx indices reqs _ _ hsorted hplain => ⟨hsorted, hplain⟩
  | cons x rest ih =>
    intro idx indices reqs hrest hlt hsorted hplain
    obtain ⟨identity, candidate⟩ := x
    have hat : queue[idx]? = some (identity, candidate) := by
      rw [← head?_drop, ← hrest]
      rfl
    have htail : rest = queue.drop (idx + 1) := by
      rw [← tail_drop, ← hrest]
      rfl
    have hlt' : ∀ i ∈ indices, i < idx + 1 := fun i hi => Nat.lt_succ_of_lt (hlt i hi)
    unfold gather
    by_cases hfull : (decide (c.batching_max_size ≤ (indices.length : ℤ)) ||
        batch_is_full c reqs) = true
    · rw [if_pos hfull]
      exact ⟨hsorted, hplain⟩
    · rw [if_neg hfull]
      cases candidate with
      | group rs => exact ih (idx + 1) indices reqs htail hlt' hsorted hplain
      | control tag => exact ih (idx + 1) indices reqs htail hlt' hsorted hplain
      | req r =>
        dsimp only
        split_ifs
        · apply ih (idx + 1) (indices ++ [idx]) (reqs ++ [r]) htail
          · intro i hi
            rw [mem_append, mem_singleton] at hi
            rcases hi with hi | rfl
            · exact hlt' i hi
            · exact Nat.lt_succ_self i
          · rw [pairwise_append]
            refine ⟨hsorted, pairwise_singleton _ _, ?_⟩
            intro i hi j hj
            rw [mem_singleton] at hj
            rw [hj]
            exact hlt i hi
          · intro i hi
            rw [mem_append, mem_singleton] at hi
            rcases hi with hi | rfl
            · exact hplain i hi
            · exact ⟨_, r, hat, rfl⟩
        · exact ih (idx + 1) indices reqs htail hlt' hsorted hplain

theorem get_next_batch_plain {now : ℚ} {queue : List Entry}
    (hnext : (get_next_batch_to_run c now queue).1 = some items) :
    items.length = 1 ∨ ∀ x ∈ items, ∃ r, x.2 = .req r := by
  unfold get_next_batch_to_run at hnext
  cases queue with
  | nil => cases hnext
  | cons head rest =>
    dsimp only at hnext
    split_ifs at hnext
    · cases hnext
      exact Or.inl rfl
    · cases hitem : head.req with
      | group rs =>
        rw [hitem] at hnext
        cases hnext
        exact Or.inl rfl
      | control tag =>
        rw [hitem] at hnext
        cases hnext
        exact Or.inl rfl
      | req base =>
        rw [hitem] at hnext
        dsimp only at hnext
        split_ifs at hnext
        · cases hnext
          exact Or.inl rfl
        · rw [Option.some.injEq] at hnext
          right
          have hhead : ∀ i ∈ [0], ∃ x r,
              ((head :: rest).map Entry.item)[i]? = some x ∧ x.2 = Item.req r := by
            intro i hi
            rw [mem_singleton] at hi
            rw [hi]
            exact ⟨head.item, base, rfl, hitem⟩
          obtain ⟨hsorted, hplain⟩ := @gather_spec c base ((head :: rest).map Entry.item)
            ((head :: rest).map Entry.item).tail 1 [0] [base] rfl
            (fun i hi => by rw [mem_singleton] at hi; rw [hi]; exact Nat.one_pos)
            (pairwise_singleton _ _) hhead
          intro x hx
          rw [← hnext] at hx
          have hreverse : (compatible c base ((head :: rest).map Entry.item)).1.reverse.Pairwise
              (· > ·) := pairwise_reverse.mpr hsorted
          rcases take_out_mem _ _ _ hreverse x hx with hmem | ⟨i, hi, hat⟩
          · exact absurd hmem not_mem_nil
          · rw [mem_reverse] at hi
            obtain ⟨y, r, hy, hr⟩ := hplain i hi
            rw [getElem?_map] at hy
            rw [hy, Option.some.injEq] at hat
            exact ⟨r, by rw [← hat]; exact hr⟩

theorem get_next_batch_perm (now : ℚ) (queue : List Entry) :
    ((get_next_batch_to_run c now queue).1.getD [] ++
      (get_next_batch_to_run c now queue).2.map Entry.item).Perm (queue.map Entry.item) := by
  unfold get_next_batch_to_run
  cases queue with
  | nil => exact List.Perm.refl _
  | cons head rest =>
    dsimp only
    split_ifs
    · exact List.Perm.refl _
    · cases hitem : head.req with
      | group rs => exact List.Perm.refl _
      | control tag => exact List.Perm.refl _
      | req base =>
        dsimp only
        split_ifs
        · exact List.Perm.refl _
        · exact List.Perm.refl _
        · exact take_out_perm _ _ []

/-! ## Runs -/

theorem receive_items (clock : Clock) (recv_reqs : List (Option String × Item)) (s : Rank) :
    (receive c clock recv_reqs s).waiting_queue.map Entry.item = s.waiting_queue.map Entry.item ++
      (process_received_reqs c s.req_based_warmup_scheduled recv_reqs).2 := by
  unfold receive
  rw [map_append, map_map]
  congr 1
  exact map_id _

/-- What holds of the event loop: every item that joined the queue waits or was dispatched, and
every item that was dispatched is answered once. -/
structure Accounted (c : ServerArgs) (s : EventLoop) : Prop where
  items : (s.trace.flatMap Dispatch.items ++ s.rank.waiting_queue.map Entry.item).Perm s.joined
  answered : ∀ d ∈ s.trace, Answered c d.worker d.items d.replies

theorem Accounted.init : Accounted c EventLoop.init := by
  refine ⟨List.Perm.refl _, ?_⟩
  exact fun d hd => absurd hd not_mem_nil

theorem Accounted.step {s : EventLoop} {round : Round} (hs : Accounted c s)
    (hstep : InStep c (next_items c round s) round.worker) :
    Accounted c (event_loop_step c h round s) := by
  unfold event_loop_step
  unfold next_items at hstep
  cases hrecv : round.recv_reqs with
  | error e => exact ⟨hs.items, hs.answered⟩
  | ok messages =>
    rw [hrecv] at hstep
    dsimp only at hstep ⊢
    obtain ⟨new_reqs, hnew⟩ : ∃ new_reqs, (messages.flatMap fun m =>
        normalize_received_payload m.1 m.2) = new_reqs := ⟨_, rfl⟩
    rw [hnew] at hstep ⊢
    have hperm := get_next_batch_perm (c := c) round.clock.dispatch
      (receive c round.clock new_reqs s.rank).waiting_queue
    rw [receive_items] at hperm
    -- the items so far, with the new ones
    have hjoined : (s.trace.flatMap Dispatch.items ++
        ((iteration c round.clock new_reqs s.rank).1.getD [] ++
          (iteration c round.clock new_reqs s.rank).2.waiting_queue.map Entry.item)).Perm
        (s.joined ++ (process_received_reqs c s.rank.req_based_warmup_scheduled new_reqs).2) := by
      refine (hperm.append_left _).trans ?_
      rw [← append_assoc]
      exact hs.items.append_right _
    cases hnext : (iteration c round.clock new_reqs s.rank).1 with
    | none =>
      rw [hnext] at hjoined
      exact ⟨hjoined, hs.answered⟩
    | some items =>
      rw [hnext] at hjoined hstep
      cases items with
      | nil =>
        exact ⟨hjoined, hs.answered⟩
      | cons item rest =>
        refine ⟨?_, ?_⟩
        · rw [flatMap_append, flatMap_singleton, append_assoc]
          exact hjoined
        · intro d hd
          rw [mem_append, mem_singleton] at hd
          rcases hd with hd | rfl
          · exact hs.answered d hd
          · exact serve_items_answered hstep (get_next_batch_plain hnext)
              (cons_ne_nil item rest)

/-- **One reply for each item.** In every run whose workers keep in step, the items that left the
queue are answered once each, with an output of their own or an error, and the others wait. -/
theorem one_reply_each {s : EventLoop} (hs : LoopRun c h (InStep c) s) :
    (s.trace.flatMap Dispatch.items ++ s.rank.waiting_queue.map Entry.item).Perm s.joined ∧
      ∀ d ∈ s.trace, d.replies.map Reply.item = d.items ∧
        ∀ k reply, d.replies[k]? = some reply → ∃ o, reply.output = .batch o ∧
          (o.error ≠ none ∨ OutputOf c d.worker d.items k o) := by
  have haccounted : Accounted c s := by
    induction hs with
    | init => exact Accounted.init
    | step _ _ hstep ih => exact ih.step hstep
  exact ⟨haccounted.items, haccounted.answered⟩

/-! ### Two requests in a sequential batch -/

/-- Native groups of two, whose requests run one after the other. -/
def sequential_args : ServerArgs :=
  { pairs_args with
    pipeline_config :=
      { pairs_args.pipeline_config with
        supports_native_grouped_requests := true
        supports_sequential_dit_inference := true } }

def image (name : String) : OutputBatch := { OutputBatch.empty with output := .entries [name] }

/-- A worker whose pipeline yields two images. -/
def two_images (prepare : ℕ → Option String) : Worker where
  is_sleeping := false
  accepts_seed := fun _ => true
  handler := fun _ => none
  execute_forward := fun _ _ => .error "no call"
  prepare := prepare
  results := [image "first", image "second"]
  results_end := none
  merge_expanded_output_batches := fun os => .ok (os.headD OutputBatch.empty)
  finish := fun _ o => .ok o
  close := none

/-- Two clients send a request each. -/
def two_requests (prepare : ℕ → Option String) : Round where
  clock := ⟨0, 0⟩
  recv_reqs := .ok [("a", .one (.req plain_req)), ("b", .one (.req plain_req))]
  worker := two_images prepare

def one_host : Host := ⟨true, false⟩

theorem two_requests_items (prepare : ℕ → Option String) :
    next_items sequential_args (two_requests prepare) EventLoop.init
      = [(some "a", .req plain_req), (some "b", .req plain_req)] := by
  have hnext : next_items sequential_args (two_requests fun _ => none) EventLoop.init
      = [(some "a", .req plain_req), (some "b", .req plain_req)] := by decide +kernel
  exact hnext

/-- Both clients get their images. -/
theorem both_answered : ∃ d, (event_loop_step sequential_args one_host
    (two_requests fun _ => none) EventLoop.init).trace = [d] ∧
      Answered sequential_args d.worker d.items d.replies := by
  have hstep : InStep sequential_args
      (next_items sequential_args (two_requests fun _ => none) EventLoop.init)
      (two_images fun _ => none) := by
    rw [two_requests_items]
    refine ⟨?_, ?_, ?_⟩
    · intro req hreq n hn
      simp only [requests, filterMap_cons, Item.plain, filterMap_nil, mem_cons,
        not_mem_nil, or_false, or_self] at hreq
      rw [hreq] at hn
      cases hn
    · exact fun i j _ _ hi => absurd rfl hi
    · intro _ i req os hcall
      cases hcall
  refine ⟨_, rfl, ?_⟩
  apply (one_reply_each (LoopRun.init.step rfl hstep)).2
  exact mem_singleton_self _

theorem OutputOf.of_results {k : ℕ} {o : OutputBatch} {identity : Option String} {r : Req}
    (hcalls : ∀ i b, ∃ e, w.execute_forward i b = .error e)
    (hitem : items[k]? = some (identity, .req r)) (ho : OutputOf c w items k o) :
    ∃ req o', combine w (share ((requests items).map (sequential_count c)) k w.results) = .ok o' ∧
      o = finished w k req o' := by
  cases ho with
  | handled htag _ _ =>
    rw [hitem] at htag
    cases htag
  | group _ hr _ =>
    obtain ⟨e, he⟩ := hcalls _ _
    rw [he] at hr
    cases hr
  | alone _ hr _ =>
    obtain ⟨e, he⟩ := hcalls _ _
    rw [he] at hr
    cases hr
  | split _ _ hb _ _ =>
    obtain ⟨e, he⟩ := hcalls _ _
    rw [he] at hb
    cases hb
  | sequential hreq hos hlength ho =>
    rw [← hos] at ho
    exact ⟨_, _, ho, rfl⟩

/-- **A shift.** The preparation of the first request raises, and the second client gets the image
of the first. -/
theorem shifted_outputs : ¬ ∀ s, LoopRun sequential_args one_host (fun _ _ => True) s →
    ∀ d ∈ s.trace, Answered sequential_args d.worker d.items d.replies := by
  intro hall
  obtain ⟨prepare, hprepare⟩ : ∃ prepare : ℕ → Option String,
      prepare = fun i => if i = 0 then some "device error" else none := ⟨_, rfl⟩
  have hrun : ∀ d ∈ (event_loop_step sequential_args one_host (two_requests prepare)
      EventLoop.init).trace, Answered sequential_args d.worker d.items d.replies :=
    hall _ (LoopRun.init.step rfl trivial)
  have htrace : (event_loop_step sequential_args one_host (two_requests prepare)
      EventLoop.init).trace = [⟨two_images prepare,
        [(some "a", .req plain_req), (some "b", .req plain_req)],
        [⟨(some "a", .req plain_req), .batch (.failed (grouped_error plain_req "device error"))⟩,
          ⟨(some "b", .req plain_req), .batch (image "first")⟩]⟩] := by
    rw [hprepare]
    rfl
  rw [htrace] at hrun
  obtain ⟨_, hanswers⟩ := hrun _ (mem_singleton_self _)
  obtain ⟨o, ho, hown⟩ := hanswers 1 _ rfl
  cases ho
  rcases hown with herror | hown
  · exact herror rfl
  · have hitem : [(some "a", Item.req plain_req), (some "b", Item.req plain_req)][1]?
        = some (some "b", Item.req plain_req) := rfl
    obtain ⟨req, o', hcombine, heq⟩ := hown.of_results (fun _ _ => ⟨_, rfl⟩) hitem
    cases hcombine
    have hnames : (image "first").output = (image "second").output := congrArg OutputBatch.output heq
    exact absurd hnames (by decide)

end LightningH3.Scheduler
