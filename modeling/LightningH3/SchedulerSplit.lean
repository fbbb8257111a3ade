/-
A merged generation request and the way back: `_try_merge_generation_reqs` with the prompts,
seeds and output paths it lists, and which entries `_split_batched_output` returns to each
request.

The merge lists outputs request by request, so output `j` of request `i` is entry
`position counts i j` of the merged output. The split cuts at the same places. Whether it
cuts a field at all is inferred from the field's length: a field that is shared by the
whole batch is cut as well when it happens to have one entry for each output. And some fields
it leaves out, so that they come back as their defaults.
-/
import LightningH3.SchedulerReplies
import Mathlib.Algebra.BigOperators.Ring.Finset

set_option autoImplicit false

namespace LightningH3.Scheduler

open List

variable {c : ServerArgs}

/-! ## 1. The merge -/

/-- `seed` of a request. -/
inductive Seed
  | one (n : ℤ)
  | many (ns : List ℤ)
  deriving DecidableEq, Repr

/-- A request with what its merge lists: the prompt, the seed and
`output_file_path(num_outputs, output_idx)`. -/
structure GenerationReq where
  req : Req
  prompt : String
  seed : Seed
  output_file_path : ℤ → ℕ → Option String

/-- `normalize_output_seeds(seed, num_outputs_per_prompt=1)[0]`, which raises for a list that does
not have one seed. -/
def normalize_output_seed : Seed → Option ℤ
  | .one n => some n
  | .many [n] => some n
  | .many _ => none

/-- The merged request, as far as it differs from its first one. -/
structure MergedReq where
  request_id : String
  prompt : List String
  dynamic_batch_seeds : List Seed
  return_file_paths_only : Bool
  dynamic_batch_output_paths : Option (List (Option String))

/-- What a merge gives: nothing, the only request, or a merged one. -/
inductive Merge
  | none
  | single (r : GenerationReq)
  | merged (m : MergedReq)

/-- The seed that stands for a request in the merged one. -/
def batch_seed (r : GenerationReq) : Option Seed :=
  if r.req.output_count = 1 then (normalize_output_seed r.seed).map .one else some r.seed

/-- The paths of one request's outputs, which cannot be counted when the count is missing. -/
def request_output_paths (r : GenerationReq) : Option (List (Option String)) :=
  r.req.num_outputs_per_prompt.map fun n =>
    (List.range n.toNat).map fun output_idx => r.output_file_path n output_idx

/-- `_try_merge_generation_reqs` -/
def try_merge (c : ServerArgs) (reqs : List GenerationReq) : Except String Merge :=
  match reqs with
  | [] => .ok .none
  | [r] => .ok (.single r)
  | base :: rest =>
    if !rest.all fun r => can_dynamic_batch c base.req r.req then .ok .none
    else
      match reqs.mapM batch_seed with
      | none => .ok .none
      | some seeds =>
        let merged : Option (List (Option String)) → Merge := fun paths => .merged
          { request_id := "dynamic_batch::" ++ base.req.request_id
            prompt := reqs.map GenerationReq.prompt
            dynamic_batch_seeds := seeds
            return_file_paths_only := base.req.return_file_paths_only
            dynamic_batch_output_paths := paths }
        if base.req.return_file_paths_only then
          match reqs.mapM request_output_paths with
          | none => .error "'NoneType' object cannot be interpreted as an integer"
          | some paths => .ok (merged (some paths.flatten))
        else .ok (merged none)

def output_counts (reqs : List GenerationReq) : List ℕ :=
  reqs.map fun r => (r.req.num_outputs_per_prompt.getD 0).toNat

/-- Where output `j` of request `i` stands in a merged output. -/
def position (counts : List ℕ) (i j : ℕ) : ℕ := (counts.take i).sum + j

/-! ## 2. Fields -/

/-- The values of an output batch besides the outputs and their paths. -/
inductive Field
  | audio
  | action_pred
  | trajectory_timesteps
  | trajectory_latents
  | trajectory_decoded
  | noise_pred
  | raw_frame_batches
  | raw_frame_content_type
  | raw_frame_metadata
  | action_mode
  | action_domain_id
  | action_raw_action_dim
  | rollout_trajectory_data
  | usage
  deriving DecidableEq, Repr

def OutputBatch.field (b : OutputBatch) : Field → Value
  | .audio => b.audio
  | .action_pred => b.action_pred
  | .trajectory_timesteps => b.trajectory_timesteps
  | .trajectory_latents => b.trajectory_latents
  | .trajectory_decoded => b.trajectory_decoded
  | .noise_pred => b.noise_pred
  | .raw_frame_batches => b.raw_frame_batches
  | .raw_frame_content_type => b.raw_frame_content_type
  | .raw_frame_metadata => b.raw_frame_metadata
  | .action_mode => b.action_mode
  | .action_domain_id => b.action_domain_id
  | .action_raw_action_dim => b.action_raw_action_dim
  | .rollout_trajectory_data => b.rollout_trajectory_data
  | .usage => b.usage

/-- The split passes the field on, cut or whole. -/
def Field.Listed (f : Field) : Prop :=
  f ∈ [audio, action_pred, trajectory_timesteps, trajectory_latents, trajectory_decoded, noise_pred]

instance (f : Field) : Decidable f.Listed := inferInstanceAs (Decidable (f ∈ _))

/-- What the split gives to request `k` of a field. -/
theorem own_batch_field (b : OutputBatch) (counts : List ℕ) (k : ℕ) (req : Req) (f : Field) :
    (own_batch b counts k req).field f
      = if f.Listed then own_value counts k (b.field f) else OutputBatch.empty.field f := by
  cases f <;> rfl

def Value.items : Value → List String
  | .entries xs => xs
  | _ => []

/-- **An output for each request.** The outputs have one entry for each output that the requests
ask for, and so have the paths, and one of the two is there. -/
structure Fits (b : OutputBatch) (total : ℕ) : Prop where
  output : ∀ xs, b.output = .entries xs → xs.length = total
  paths : ∀ xs, b.output_file_paths = .entries xs → xs.length = total
  present : (∃ xs, b.output = .entries xs) ∨ ∃ xs, b.output_file_paths = .entries xs

/-! ## 3. What is asked of a split -/

/-- **A value comes back.** Each request gets the entries that the merge assigned to its outputs,
in their order, and together they are the merged entries. -/
structure ComesBack (counts : List ℕ) (xs : List String) (values : List Value) : Prop where
  own : ∀ i n, counts[i]? = some n → ∃ ys, values[i]? = some (.entries ys) ∧ ys.length = n ∧
    ∀ j < n, ys[j]? = xs[position counts i j]? ∧ position counts i j < xs.length
  restored : (values.map Value.items).flatten = xs

/-- **What the merge assigns.** Prompt and seed of request `i` are at place `i`, and its paths at the
positions of its outputs. -/
structure Assigned (reqs : List GenerationReq) (m : MergedReq) : Prop where
  prompt : ∀ (i : ℕ) (r : GenerationReq), reqs[i]? = some r → m.prompt[i]? = some r.prompt
  seed : ∀ (i : ℕ) (r : GenerationReq), reqs[i]? = some r →
    ∃ s, batch_seed r = some s ∧ m.dynamic_batch_seeds[i]? = some s
  paths : ∀ paths, m.dynamic_batch_output_paths = some paths →
    ∀ (i : ℕ) (r : GenerationReq) (n : ℤ), reqs[i]? = some r →
      r.req.num_outputs_per_prompt = some n → ∀ j < n.toNat,
        paths[position (output_counts reqs) i j]? = some (r.output_file_path n j)

/-- **A merged execution is split back.** The split succeeds with an output for each request,
outputs and paths come back, and each shared field is given whole to every request, as are the sample
rate, the error and the peak of the memory; the places are those that the merge assigned. -/
structure SplitsBack (c : ServerArgs) (reqs : List GenerationReq) (b : OutputBatch)
    (shared : Field → Prop) : Prop where
  assigned : ∀ m, try_merge c reqs = .ok (.merged m) → Assigned reqs m
  split : ∃ os, split_batched_output b (reqs.map GenerationReq.req) = .ok (some os) ∧
    os.length = reqs.length ∧
    (∀ xs, b.output = .entries xs → ComesBack (output_counts reqs) xs (os.map OutputBatch.output)) ∧
    (∀ xs, b.output_file_paths = .entries xs →
      ComesBack (output_counts reqs) xs (os.map OutputBatch.output_file_paths)) ∧
    ∀ o ∈ os, (o.audio_sample_rate = b.audio_sample_rate ∧ o.error = b.error ∧
      o.peak_memory_mb = b.peak_memory_mb) ∧ ∀ f, shared f → o.field f = b.field f

/-- What the split leaves of a field is the whole: a field that it passes on does not have one entry
for each of several outputs, and a field that it leaves out had its default. -/
def GivenWhole (b : OutputBatch) (counts : List ℕ) (f : Field) : Prop :=
  if f.Listed then counts.length ≤ 1 ∨ ∀ xs, b.field f = .entries xs → xs.length ≠ counts.sum
  else counts = [] ∨ b.field f = OutputBatch.empty.field f

/-! ## 4. Positions -/

variable {α : Type} {counts : List ℕ}

theorem share_length {xs : List α} (hlen : xs.length = counts.sum) (k : ℕ) :
    (share counts k xs).length = counts.getD k 0 := by
  have hle := sum_take_add_getD_le counts k
  unfold share
  rw [length_take, length_drop]
  omega

theorem share_getElem? (xs : List α) {k j : ℕ} (hj : j < counts.getD k 0) :
    (share counts k xs)[j]? = xs[position counts k j]? := by
  unfold share position
  rw [getElem?_take_of_lt hj, getElem?_drop]

theorem flatten_shares (counts : List ℕ) : ∀ xs : List α, xs.length = counts.sum →
      ((List.range counts.length).map fun k => share counts k xs).flatten = xs := by
  induction counts with
  | nil =>
    intro xs hlen
    rw [sum_nil, length_eq_zero_iff] at hlen
    rw [hlen]
    rfl
  | cons n counts ih =>
    intro xs hlen
    rw [sum_cons] at hlen
    have hrest : (xs.drop n).length = counts.sum := by
      rw [length_drop]
      omega
    have hshift : ∀ k, share (n :: counts) (k + 1) xs = share counts k (xs.drop n) := by
      intro k
      unfold share
      rw [take_succ_cons, sum_cons, getD_cons_succ, drop_drop]
    rw [length_cons, range_succ_eq_map, map_cons, map_map, flatten_cons]
    have htail : (List.range counts.length).map ((fun k => share (n :: counts) k xs) ∘ Nat.succ)
        = (List.range counts.length).map fun k => share counts k (xs.drop n) :=
      map_congr_left fun k _ => hshift k
    rw [htail, ih (xs.drop n) hrest]
    unfold share
    rw [take_zero, sum_nil, drop_zero, getD_cons_zero, take_append_drop]

theorem ComesBack.of_shares {xs : List String} {values : List Value} (hlen : xs.length = counts.sum)
    (hvalues : values = (List.range counts.length).map fun k => .entries (share counts k xs)) :
    ComesBack counts xs values := by
  constructor
  · intro i n hi
    obtain ⟨hlt, _⟩ := List.getElem?_eq_some_iff.mp hi
    have hn : counts.getD i 0 = n := by
      rw [getD_eq_getElem?_getD, hi]
      rfl
    refine ⟨share counts i xs, ?_, (share_length hlen i).trans hn, ?_⟩
    · rw [hvalues, getElem?_map, getElem?_range hlt]
      rfl
    · intro j hj
      have hle := sum_take_add_getD_le counts i
      refine ⟨share_getElem? xs (by omega), ?_⟩
      unfold position
      omega
  · rw [hvalues, map_map]
    exact flatten_shares counts xs hlen

theorem flatten_getElem? (xss : List (List α)) (i j : ℕ) (ys : List α) :
    xss[i]? = some ys → j < ys.length →
      xss.flatten[position (xss.map List.length) i j]? = ys[j]? := by
  induction xss generalizing i j ys with
  | nil =>
    intro h
    cases h
  | cons xs xss ih =>
    intro h hj
    rw [flatten_cons]
    cases i with
    | zero =>
      rw [getElem?_cons_zero, Option.some.injEq] at h
      subst h
      unfold position
      rw [take_zero, sum_nil, Nat.zero_add, getElem?_append_left hj]
    | succ i =>
      have hnext := ih i j ys h hj
      unfold position at hnext ⊢
      rw [map_cons, take_succ_cons, sum_cons, Nat.add_assoc,
        getElem?_append_right (Nat.le_add_right _ _), Nat.add_sub_cancel_left]
      exact hnext

/-! ## 5. The merge assigns -/

theorem paths_assigned {reqs : List GenerationReq} {paths : List (List (Option String))}
    (h : reqs.mapM request_output_paths = some paths) : paths.map List.length = output_counts reqs ∧
      ∀ (i : ℕ) (r : GenerationReq) (n : ℤ), reqs[i]? = some r →
        r.req.num_outputs_per_prompt = some n →
          paths[i]? = some ((List.range n.toNat).map fun j => r.output_file_path n j) := by
  obtain ⟨hlength, hget⟩ := mapM_getElem? h
  have hat : ∀ (i : ℕ) (r : GenerationReq) (n : ℤ), reqs[i]? = some r →
      r.req.num_outputs_per_prompt = some n →
        paths[i]? = some ((List.range n.toNat).map fun j => r.output_file_path n j) := by
    intro i r n hr hn
    rw [hget i, hr, Option.bind_some]
    unfold request_output_paths
    rw [hn, Option.map_some]
  refine ⟨ext_getElem? fun i => ?_, hat⟩
  unfold output_counts
  rw [getElem?_map, getElem?_map]
  cases hr : reqs[i]? with
  | none =>
    rw [List.getElem?_eq_none_iff, ← hlength, ← List.getElem?_eq_none_iff] at hr
    rw [hr]
    rfl
  | some r =>
    cases hn : r.req.num_outputs_per_prompt with
    | none =>
      -- without a count there is no list of paths at all
      have hnone := hget i
      rw [hr, Option.bind_some] at hnone
      unfold request_output_paths at hnone
      rw [hn, Option.map_none, List.getElem?_eq_none_iff, hlength,
        ← List.getElem?_eq_none_iff, hr] at hnone
      cases hnone
    | some n =>
      rw [hat i r n hr hn, Option.map_some, Option.map_some, length_map, length_range, hn]
      rfl

/-- **A merge assigns places.** -/
theorem try_merge_assigned {reqs : List GenerationReq} {m : MergedReq}
    (h : try_merge c reqs = .ok (.merged m)) : Assigned reqs m := by
  unfold try_merge at h
  split at h
  · cases h
  · cases h
  · next base rest _ =>
    split at h
    · cases h
    · split at h
      · cases h
      · next seeds hseeds =>
        have hseed : ∀ (i : ℕ) (r : GenerationReq), (base :: rest)[i]? = some r →
            ∃ s, batch_seed r = some s ∧ seeds[i]? = some s := by
          intro i r hr
          obtain ⟨hlength, hget⟩ := mapM_getElem? hseeds
          have hi := hget i
          rw [hr] at hi
          obtain ⟨hlt, _⟩ := List.getElem?_eq_some_iff.mp hr
          rw [← hlength] at hlt
          exact ⟨seeds[i], hi ▸ getElem?_eq_getElem hlt, getElem?_eq_getElem hlt⟩
        have hprompt : ∀ (i : ℕ) (r : GenerationReq), (base :: rest)[i]? = some r →
            ((base :: rest).map GenerationReq.prompt)[i]? = some r.prompt := by
          intro i r hr
          rw [getElem?_map, hr, Option.map_some]
        split at h
        · split at h
          · cases h
          · next paths hpaths =>
            cases h
            refine ⟨hprompt, hseed, ?_⟩
            intro listed hlisted i r n hr hn j hj
            cases hlisted
            obtain ⟨hcounts, hat⟩ := paths_assigned hpaths
            rw [← hcounts, flatten_getElem? paths i j _ (hat i r n hr hn) (by simpa using hj),
              getElem?_map, getElem?_range hj, Option.map_some]
        · cases h
          refine ⟨hprompt, hseed, ?_⟩
          intro listed hlisted
          cases hlisted

/-! ## 6. The split -/

section split

variable {reqs : List GenerationReq} {b : OutputBatch}

/-- Counts that sampling parameters accept. -/
def Counted (reqs : List GenerationReq) : Prop :=
  ∀ r ∈ reqs, ∃ n, r.req.num_outputs_per_prompt = some n ∧ 0 < n

theorem counted_mapM (h : Counted reqs) :
    (reqs.map GenerationReq.req).mapM Req.num_outputs_per_prompt
      = some ((output_counts reqs).map fun (n : ℕ) => (n : ℤ)) := by
  induction reqs with
  | nil => rfl
  | cons r rest ih =>
    obtain ⟨n, hn, hpos⟩ := h r mem_cons_self
    rw [map_cons, mapM_cons, ih fun r' hr' => h r' (mem_cons_of_mem r hr')]
    unfold output_counts
    rw [map_cons, map_cons, hn, Option.getD_some, Int.toNat_of_nonneg (le_of_lt hpos)]
    rfl

theorem count_first_dim_eq {v : Value} {n : ℤ} (h : n ∈ count_first_dim v) :
    ∃ xs, v = .entries xs ∧ n = xs.length := by
  cases v with
  | none => cases h
  | other x => cases h
  | entries xs =>
    cases h
    exact ⟨xs, rfl, rfl⟩

theorem split_of_fits (h : Counted reqs) (hfits : Fits b (output_counts reqs).sum) :
    ∃ os, split_batched_output b (reqs.map GenerationReq.req) = .ok (some os) ∧
      os.length = reqs.length ∧ ∀ k o, os[k]? = some o → ∃ req,
        (reqs.map GenerationReq.req)[k]? = some req ∧
          o = own_batch b (output_counts reqs) k req := by
  have hcounts := counted_mapM h
  have hpos : ∀ req ∈ reqs.map GenerationReq.req, ∀ n, req.num_outputs_per_prompt = some n →
      0 < n := by
    intro req hreq n hn
    obtain ⟨r, hr, rfl⟩ := mem_map.mp hreq
    obtain ⟨n', hn', hlt⟩ := h r hr
    rw [hn, Option.some.injEq] at hn'
    rw [hn']
    exact hlt
  have hsplit : ∃ os, split_batched_output b (reqs.map GenerationReq.req) = .ok (some os) := by
    unfold split_batched_output
    rw [hcounts]
    dsimp only
    rw [← Nat.cast_list_sum, if_neg, if_neg, if_neg]
    · exact ⟨_, rfl⟩
    · rintro ⟨n, hn, hne⟩
      obtain ⟨xs, hxs, rfl⟩ := count_first_dim_eq hn
      exact hne (congrArg Nat.cast (hfits.paths xs hxs))
    · rintro ⟨n, hn, hne⟩
      obtain ⟨xs, hxs, rfl⟩ := count_first_dim_eq hn
      exact hne (congrArg Nat.cast (hfits.output xs hxs))
    · rintro ⟨houtput, hpaths⟩
      rcases hfits.present with ⟨xs, hxs⟩ | ⟨xs, hxs⟩
      · rw [hxs] at houtput
        cases houtput
      · rw [hxs] at hpaths
        cases hpaths
  obtain ⟨os, hos⟩ := hsplit
  obtain ⟨hlength, counts, hcounts', hget⟩ := split_batched_output_spec hpos hos
  rw [hcounts, Option.some.injEq] at hcounts'
  refine ⟨os, hos, by rw [hlength, length_map], ?_⟩
  intro k o ho
  obtain ⟨req, hreq, heq⟩ := hget k o ho
  have htoNat : counts.map Int.toNat = output_counts reqs := by
    rw [← hcounts', map_map]
    exact map_id _
  rw [htoNat] at heq
  exact ⟨req, hreq, heq⟩

theorem map_own {os : List OutputBatch} {get : OutputBatch → Value} {counts : List ℕ}
    {reqs : List Req} (hlength : os.length = reqs.length) (hcounts : counts.length = reqs.length)
    (hget : ∀ k o, os[k]? = some o → ∃ req, reqs[k]? = some req ∧ o = own_batch b counts k req)
    (hown : ∀ k req, get (own_batch b counts k req) = own_value counts k (get b)) {xs : List String}
    (hxs : get b = .entries xs) (hlen : xs.length = counts.sum) :
    os.map get = (List.range counts.length).map fun k => .entries (share counts k xs) := by
  refine ext_getElem? fun k => ?_
  rw [getElem?_map, getElem?_map]
  cases ho : os[k]? with
  | none =>
    rw [List.getElem?_eq_none_iff, hlength, ← hcounts] at ho
    rw [getElem?_eq_none (by rw [length_range]; exact ho)]
    rfl
  | some o =>
    obtain ⟨hlt, _⟩ := List.getElem?_eq_some_iff.mp ho
    rw [hlength, ← hcounts] at hlt
    obtain ⟨req, _, heq⟩ := hget k o ho
    rw [getElem?_range hlt, Option.map_some, Option.map_some, heq, hown, hxs]
    unfold own_value
    dsimp only
    rw [if_pos hlen]

theorem own_whole_iff {counts : List ℕ} (hpos : ∀ n ∈ counts, 0 < n) (v : Value) :
    (∀ k < counts.length, own_value counts k v = v) ↔
      counts.length ≤ 1 ∨ ∀ xs, v = .entries xs → xs.length ≠ counts.sum := by
  constructor
  · intro h
    by_contra hno
    rw [not_or] at hno
    obtain ⟨hmany, hcut⟩ := hno
    rw [not_forall] at hcut
    obtain ⟨xs, hxs⟩ := hcut
    rw [Classical.not_imp, not_not] at hxs
    obtain ⟨rfl, hlen⟩ := hxs
    -- the first request gets less than everything
    have hfirst := h 0 (by omega)
    unfold own_value at hfirst
    dsimp only at hfirst
    rw [if_pos hlen, Value.entries.injEq] at hfirst
    have hshare := share_length hlen 0
    rw [hfirst, hlen] at hshare
    obtain ⟨n₀, n₁, rest, rfl⟩ : ∃ n₀ n₁ rest, counts = n₀ :: n₁ :: rest := by
      cases counts with
      | nil => simp at hmany
      | cons n₀ rest =>
        cases rest with
        | nil => simp at hmany
        | cons n₁ rest => exact ⟨n₀, n₁, rest, rfl⟩
    have h₁ := hpos n₁ (by simp)
    rw [sum_cons, sum_cons, getD_cons_zero] at hshare
    omega
  · rintro hor k hk
    cases v with
    | none => rfl
    | other x => rfl
    | entries xs =>
      unfold own_value
      dsimp only
      split_ifs with hlen
      · rcases hor with hone | hne
        · -- the only request gets everything
          obtain ⟨n, rfl⟩ : ∃ n, counts = [n] := length_eq_one_iff.mp (by omega)
          obtain rfl : k = 0 := by omega
          rw [sum_singleton] at hlen
          unfold share
          rw [take_zero, sum_nil, drop_zero, getD_cons_zero, ← hlen, take_length]
        · exact absurd hlen (hne xs rfl)
      · rfl

theorem given_whole_iff {counts : List ℕ} (hpos : ∀ n ∈ counts, 0 < n) (req : ℕ → Req) (f : Field) :
    (∀ k < counts.length, (own_batch b counts k (req k)).field f = b.field f) ↔
      GivenWhole b counts f := by
  simp only [own_batch_field]
  unfold GivenWhole
  split_ifs
  · exact own_whole_iff hpos _
  · constructor
    · intro h
      cases counts with
      | nil => exact .inl rfl
      | cons n rest => exact .inr (h 0 (Nat.succ_pos _)).symm
    · rintro (rfl | heq) k hk
      · exact absurd hk (Nat.not_lt_zero k)
      · exact heq.symm

end split

def one_output (prompt : String) (seed : ℤ) : GenerationReq where
  req := { plain_req with num_outputs_per_prompt := some 1 }
  prompt := prompt
  seed := .one seed
  output_file_path _ _ := none

/-- Two images, with the time steps of the run. -/
def timed_images (timesteps : List String) : OutputBatch :=
  { OutputBatch.empty with output := .entries ["a", "b"], trajectory_timesteps := .entries timesteps }

theorem counted_pair : Counted [one_output "p" 1, one_output "q" 2] := by
  intro r hr
  refine ⟨1, ?_, Int.one_pos⟩
  simp only [mem_cons, not_mem_nil, or_false] at hr
  rcases hr with rfl | rfl <;> rfl

theorem fits_pair (timesteps : List String) :
    Fits (timed_images timesteps) (output_counts [one_output "p" 1, one_output "q" 2]).sum := by
  refine ⟨?_, ?_, Or.inl ⟨_, rfl⟩⟩
  · intro xs hxs
    cases hxs
    rfl
  · intro xs hxs
    cases hxs

end LightningH3.Scheduler
