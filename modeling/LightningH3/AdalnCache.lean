/-
The GPU slot cache of AdaLN plans: `MiniMaxH3AdalnCache` of
`runtime/models/dits/minimax_h3_adaln_cache.py`, on its rebuild path.

A plan is one denoise step's unique timesteps. Its parameters live in one slab slot; the
host keeps the map from plan keys to slots in LRU order and a list of free slots. A
request's `build` takes slots for its missing plans, evicting plans the request does not
want, and fills them either from the host tier or by streaming the projection weights.

The slots of a build under way are in neither the map nor the free list, so the slot
invariant carries them explicitly, as the host tier's ledger carries its pins: `SlotInv
pending` partitions the slots into pending, free and resident ones. Filling pending slots
cannot disturb a resident one, committing turns pending into resident, and a handler that
hands slots back turns pending into free. What an exception leaves behind is then read
off from where it was raised: with pending slots and no handler they are lost.
-/
import Mathlib.Algebra.Ring.Nat
import Mathlib.Data.List.GetD
import LightningH3.AdalnHostTier

set_option autoImplicit false

namespace LightningH3.AdalnCache

open AdalnHostTier List Function OrderedDict

/-! ## State -/

/-- A timestep, as its fp32 bit pattern. -/
abbrev Timestep := BitVec 32

/-- A plan key: `tuple[int, ...]`. -/
abbrev Key := List ℕ

/-- `_plan_key`: the exact bit patterns of one step's timesteps. -/
def plan_key (timesteps : List Timestep) : Key := timesteps.map BitVec.toNat

theorem plan_key_injective : Function.Injective plan_key :=
  map_injective_iff.mpr (fun _ _ h => BitVec.eq_of_toNat_eq h)

/-- The `adaln_proj` weights under `weight_files`, as the maps they compute: row `index`
of the projection of an embedded plan, for each block and for the final layer. `χ` is the
embedding of a whole plan, since the batch size selects the kernel. -/
structure Checkpoint (χ β φ : Type) where
  block : ℕ → χ → ℕ → β
  final : χ → ℕ → φ

/-- One host page: the block parameters of every layer and the final-layer parameters of
one timestep. -/
structure Page (β φ : Type) where
  block : ℕ → β
  final : φ

/-- The cache's state: the four slabs by slot (and timestep index, and layer), the slot
map in LRU order, the free slots, the host tier, and the counters. -/
structure Cache (χ β φ : Type) where
  max_plans : ℕ
  max_plan_width : ℕ
  num_layers : ℕ
  weight_files : Checkpoint χ β φ
  slots : OrderedDict Key ℕ
  free_slots : List ℕ
  plan_timesteps : ℕ → ℕ → Timestep
  plan_lengths : ℕ → ℕ
  block_params : ℕ → ℕ → ℕ → β
  final_params : ℕ → ℕ → φ
  host_tier : Option (HostTier Key (List Key) (Page β φ))
  gpu_hit_plans : ℕ
  host_hit_plans : ℕ
  built_plans : ℕ
  rebuilds : ℕ

section Model

variable {χ β φ : Type}

/-- The computations of the cache. -/
abbrev CacheM (χ β φ : Type) (α : Type) := Exec (PyErr Key) (Cache χ β φ) α

/-! ## Slab writes -/

/-- `row[: len(values)] = values`. -/
def write_slice {ν : Type} (values : List ν) (row : ℕ → ν) : ℕ → ν :=
  fun index => values.getD index (row index)

def timesteps_buffer : Exec.Buffer (Cache χ β φ) ℕ (ℕ → Timestep) where
  read s := s.plan_timesteps
  write rows s := { s with plan_timesteps := rows }
  read_write _ _ := rfl
  write_write _ _ _ := rfl
  write_read _ := rfl

def lengths_buffer : Exec.Buffer (Cache χ β φ) ℕ ℕ where
  read s := s.plan_lengths
  write rows s := { s with plan_lengths := rows }
  read_write _ _ := rfl
  write_write _ _ _ := rfl
  write_read _ := rfl

def block_buffer : Exec.Buffer (Cache χ β φ) ℕ (ℕ → ℕ → β) where
  read s := s.block_params
  write rows s := { s with block_params := rows }
  read_write _ _ := rfl
  write_write _ _ _ := rfl
  write_read _ := rfl

def final_buffer : Exec.Buffer (Cache χ β φ) ℕ (ℕ → φ) where
  read s := s.final_params
  write rows s := { s with final_params := rows }
  read_write _ _ := rfl
  write_write _ _ _ := rfl
  write_read _ := rfl

/-- One slot's parameter rows, block and final together. -/
def page_buffer (slot : ℕ) : Exec.Buffer (Cache χ β φ) ℕ (Page β φ) where
  read s := fun index => ⟨s.block_params slot index, s.final_params slot index⟩
  write rows s :=
    { s with
      block_params := Function.update s.block_params slot (fun index => (rows index).block)
      final_params := Function.update s.final_params slot (fun index => (rows index).final) }
  read_write _ _ := by simp only [update_self]
  write_write _ _ _ := by simp only [update_idem]
  write_read _ := by simp only [update_eq_self]

/-! ## Operations -/

/-- The wanted plans of a request: the first timesteps under each key. -/
def wanted_plans (keys : List Key) (step_timesteps : List (List Timestep)) :
    OrderedDict Key (List Timestep) :=
  (keys.zip step_timesteps).foldl (fun wanted p => wanted.setdefault p.1 p.2) .empty

/-- `self._slots.move_to_end(key)` for a resident plan. -/
def touch (key : Key) : CacheM χ β φ Unit := do
  let s ← Exec.get
  if key ∈ s.slots.keys then
    Exec.modify fun s => { s with slots := s.slots.moveToEnd key }
  else pure ()

/-- Evict one plan: it leaves the slot map, its length is zeroed, and its slot goes to the free
list. -/
def evict (fault : Option (AdalnStep Key)) (key : Key) : CacheM χ β φ Unit := do
  let s ← Exec.get
  match s.slots.get? key with
  | none => Exec.raise .key_error
  | some slot => do
      Exec.modify fun s => { s with slots := s.slots.erase key }
      perform fault (.evict_length slot)
      lengths_buffer.store slot (fun _ => 0)
      Exec.modify fun s => { s with free_slots := s.free_slots ++ [slot] }

/-- `self._free_slots.pop()` for one missing plan. -/
def reserve (key : Key) : CacheM χ β φ (Key × ℕ) := do
  let s ← Exec.get
  match s.free_slots.getLast? with
  | none => Exec.raise .index_error
  | some slot => do
      Exec.modify fun s => { s with free_slots := s.free_slots.dropLast }
      pure (key, slot)

/-- `_allocate_slots`. A shortfall that is not positive evicts nothing, so the
subtraction may be truncated. -/
def allocate_slots (fault : Option (AdalnStep Key))
    (wanted missing : OrderedDict Key (List Timestep)) : CacheM χ β φ (OrderedDict Key ℕ) := do
  Exec.forEach wanted.keys touch
  let s ← Exec.get
  let shortfall := missing.size - s.free_slots.length
  let victims := (s.slots.keys.filter (fun key => decide (key ∉ wanted.keys))).take shortfall
  Exec.forEach victims (evict fault)
  let entries ← Exec.mapEach missing.keys reserve
  pure (OrderedDict.ofList entries)

/-- A call of the host tier, when there is one. -/
def on_host (m : TierM Key (List Key) (Page β φ) Unit) : CacheM χ β φ Unit := fun s =>
  match s.host_tier with
  | none => (.ok (), s)
  | some tier =>
    match m tier with
    | (r, tier') => (r, { s with host_tier := some tier' })

/-- The swap-in's write of one plan's timesteps into its slot. -/
def swap_in_timesteps (fault : Option (AdalnStep Key)) (assignments : OrderedDict Key ℕ)
    (plan : Key × List Timestep) : CacheM χ β φ Unit :=
  match assignments.get? plan.1 with
  | none => Exec.raise .key_error
  | some slot => do
      perform fault (.swap_in_timesteps plan.1)
      timesteps_buffer.store slot (write_slice plan.2)

/-- The H2D copy of one page into row `page.2` of a slot. -/
def copy_page (fault : Option (AdalnStep Key)) (tier : HostTier Key (List Key) (Page β φ))
    (key : Key) (slot : ℕ) (page : ℕ × ℕ) : CacheM χ β φ Unit := do
  perform fault (.copy_to_gpu key page.2)
  (page_buffer slot).store page.2 (fun _ => tier.slab page.1)

def copy_to_gpu (fault : Option (AdalnStep Key)) (tier : HostTier Key (List Key) (Page β φ))
    (assignments : OrderedDict Key ℕ) : CacheM χ β φ Unit :=
  Exec.forEach assignments.items fun p =>
    match tier.plans.get? p.1 with
    | none => Exec.raise .key_error
    | some plan => Exec.forEach plan.pages.zipIdx (copy_page fault tier p.1 p.2)

/-- The swap-in's write of one plan's length. -/
def swap_in_length (fault : Option (AdalnStep Key)) (assignments : OrderedDict Key ℕ)
    (plan : Key × List Timestep) : CacheM χ β φ Unit :=
  match assignments.get? plan.1 with
  | none => Exec.raise .key_error
  | some slot => do
      perform fault (.swap_in_length plan.1)
      lengths_buffer.store slot (fun _ => plan.2.length)

/-- `self._free_slots.extend(slots)`. -/
def hand_back (slots : List ℕ) (s : Cache χ β φ) : Cache χ β φ :=
  { s with free_slots := s.free_slots ++ slots }

def swap_in_from_host (fault : Option (AdalnStep Key))
    (tier : HostTier Key (List Key) (Page β φ)) (wanted missing : OrderedDict Key (List Timestep)) :
    CacheM χ β φ Unit := do
  let assignments ← allocate_slots fault wanted missing
  Exec.onError (do
      Exec.forEach missing.items (swap_in_timesteps fault assignments)
      copy_to_gpu fault tier assignments)
    (hand_back assignments.values)
  perform fault .fence_gpu_reads
  Exec.forEach missing.items (swap_in_length fault assignments)
  Exec.modify fun s =>
    { s with
      slots := s.slots.update assignments.items
      host_hit_plans := s.host_hit_plans + missing.size }

/-- One turn of the rebuild's staging loop: embed a plan and write its timesteps. -/
def stage_slot (fault : Option (AdalnStep Key)) (embed : List Timestep → χ)
    (pending_slots : OrderedDict Key ℕ) (plan : Key × List Timestep) :
    CacheM χ β φ (ℕ × (ℕ × χ)) :=
  match pending_slots.get? plan.1 with
  | none => Exec.raise .key_error
  | some slot => do
      perform fault (.embed plan.1)
      perform fault (.write_timesteps plan.1)
      timesteps_buffer.store slot (write_slice plan.2)
      pure (slot, plan.2.length, embed plan.2)

/-- `self.block_params[slot, :length, layer] = project(...)`. -/
def project_block (fault : Option (AdalnStep Key)) (files : Checkpoint χ β φ) (layer : ℕ)
    (entry : ℕ × (ℕ × χ)) : CacheM χ β φ Unit := do
  perform fault (.project_block layer entry.1)
  block_buffer.store entry.1 fun row index l =>
    if index < entry.2.1 ∧ l = layer then files.block layer entry.2.2 index else row index l

/-- `self.final_params[slot, :length] = project(...)`. -/
def project_final (fault : Option (AdalnStep Key)) (files : Checkpoint χ β φ)
    (entry : ℕ × (ℕ × χ)) : CacheM χ β φ Unit := do
  perform fault (.project_final entry.1)
  final_buffer.store entry.1 fun row index =>
    if index < entry.2.1 then files.final entry.2.2 index else row index

/-- The two reads of one projection's weight and bias. -/
def read_shards (fault : Option (AdalnStep Key)) (stem : String) : CacheM χ β φ Unit := do
  perform fault (.read_shard (stem ++ ".weight"))
  perform fault (.read_shard (stem ++ ".bias"))

/-- One layer of the streaming pass. -/
def project_layer (fault : Option (AdalnStep Key)) (files : Checkpoint χ β φ)
    (slots : List (ℕ × (ℕ × χ))) (layer : ℕ) : CacheM χ β φ Unit := do
  read_shards fault ("blocks." ++ toString layer ++ ".adaln_proj.linear")
  Exec.forEach slots (project_block fault files layer)

def project_plans_from_checkpoint (fault : Option (AdalnStep Key))
    (slots : List (ℕ × (ℕ × χ))) : CacheM χ β φ Unit := do
  let s ← Exec.get
  Exec.forEach (List.range s.num_layers) (project_layer fault s.weight_files slots)
  read_shards fault "final_layer.adaln_proj.linear"
  Exec.forEach slots (project_final fault s.weight_files)

/-- `self.plan_lengths[slot] = length`. -/
def write_length (fault : Option (AdalnStep Key)) (entry : ℕ × (ℕ × χ)) : CacheM χ β φ Unit := do
  perform fault (.write_length entry.1)
  lengths_buffer.store entry.1 (fun _ => entry.2.1)

/-- One entry of the dictionary passed to `store_group`. -/
def store_entry (plan : Key × List Timestep) : CacheM χ β φ (Key × (ℕ × ℕ)) := do
  let s ← Exec.get
  match s.slots.get? plan.1 with
  | none => Exec.raise .key_error
  | some slot => pure (plan.1, slot, plan.2.length)

/-- The store of a freshly built group in the host tier. -/
def store_on_host (fault : Option (AdalnStep Key)) (wanted : OrderedDict Key (List Timestep)) :
    CacheM χ β φ Unit := do
  let s ← Exec.get
  if s.host_tier.isNone then pure ()
  else do
    let entries ← Exec.mapEach wanted.items store_entry
    on_host (store_group fault
      (fun slot index => ⟨s.block_params slot index, s.final_params slot index⟩)
      wanted.keys (OrderedDict.ofList entries))

/-- The rebuild path of `build`, from the slot allocation on. -/
def rebuild (fault : Option (AdalnStep Key)) (embed : List Timestep → χ)
    (wanted missing : OrderedDict Key (List Timestep)) : CacheM χ β φ Unit := do
  let pending_slots ← allocate_slots fault wanted missing
  let slots ← Exec.mapEach missing.items (stage_slot fault embed pending_slots)
  Exec.onError (project_plans_from_checkpoint fault slots) (hand_back pending_slots.values)
  Exec.forEach slots (write_length fault)
  Exec.modify fun s =>
    { s with
      slots := s.slots.update pending_slots.items
      rebuilds := s.rebuilds + 1
      built_plans := s.built_plans + missing.size }
  store_on_host fault wanted

/-- The widest plan of a request. -/
def widest (wanted : OrderedDict Key (List Timestep)) : ℕ :=
  (wanted.values.map List.length).foldl max 0

def too_many_plans (wanted max_plans : ℕ) : String :=
  "MiniMax H3 AdaLN rebuild needs " ++ toString wanted ++ " plans but the slab holds "
    ++ toString max_plans ++ "; raise SGLANG_DIFFUSION_MINIMAX_H3_ADALN_GPU_PLANS"

def too_wide_plan (widest max_plan_width : ℕ) : String :=
  "MiniMax H3 AdaLN rebuild hit a " ++ toString widest
    ++ "-timestep plan but the slab was allocated for " ++ toString max_plan_width
    ++ "; raise --minimax-h3-adaln-plan-width (t2va needs 2, fl2va 3, ref2va 4)"

def not_covered : String :=
  "MiniMax H3 AdaLN cache does not cover the request timestep plan"

def build (fault : Option (AdalnStep Key)) (embed : List Timestep → χ)
    (step_timesteps : List (List Timestep)) (keys : Option (List Key)) : CacheM χ β φ Unit := do
  let s ← Exec.get
  let wanted := wanted_plans (keys.getD (step_timesteps.map plan_key)) step_timesteps
  let missing := wanted.filterKeys (fun key => decide (key ∉ s.slots.keys))
  if missing.items = [] then do
    -- a pure hit still refreshes the LRU stamps
    Exec.forEach wanted.keys touch
    Exec.modify fun s => { s with gpu_hit_plans := s.gpu_hit_plans + wanted.size }
    on_host (register_group wanted.keys wanted.keys)
  else if wanted.size > s.max_plans then
    Exec.raise (.value_error (too_many_plans wanted.size s.max_plans))
  else if widest wanted > s.max_plan_width then
    Exec.raise (.value_error (too_wide_plan (widest wanted) s.max_plan_width))
  else do
    Exec.modify fun s =>
      { s with gpu_hit_plans := s.gpu_hit_plans + (wanted.size - missing.size) }
    match s.host_tier with
    | none => rebuild fault embed wanted missing
    | some tier => do
        perform fault .fence_prepare_start
        if has_all tier missing.keys then do
          swap_in_from_host fault tier wanted missing
          on_host (register_group wanted.keys wanted.keys)
        else rebuild fault embed wanted missing

def invalidate : CacheM χ β φ Unit := do
  on_host clear
  Exec.modify fun s =>
    { s with
      slots := .empty
      free_slots := List.range s.max_plans
      plan_lengths := fun _ => 0 }

/-- One step's slot in `resolve_slots`. -/
def resolve_slot (key : Key) : CacheM χ β φ ℕ := do
  let s ← Exec.get
  match s.slots.get? key with
  | none => Exec.raise (.value_error not_covered)
  | some slot => pure slot

def resolve_slots (step_timesteps : List (List Timestep)) (keys : Option (List Key)) :
    CacheM χ β φ (List ℕ) :=
  Exec.mapEach (keys.getD (step_timesteps.map plan_key)) resolve_slot

/-- Equality of two fp32 values, from their bit patterns: NaN equals nothing, and the two
zeros are equal. -/
def fp32_eq (a b : Timestep) : Bool :=
  let magnitude (x : Timestep) := x.toNat % 2 ^ 31
  let is_nan (x : Timestep) := decide (magnitude x > 0x7F800000)
  !is_nan a && !is_nan b && (a == b || (magnitude a == 0 && magnitude b == 0))

/-- Whether a slot's plan is the given one: the recorded length and every timestep. -/
def plan_matches (s : Cache χ β φ) (unique_timesteps : List Timestep) (slot : ℕ) : Bool :=
  s.plan_lengths slot == unique_timesteps.length &&
    unique_timesteps.zipIdx.all (fun p => fp32_eq (s.plan_timesteps slot p.2) p.1)

/-- `lookup`: the first matching slot. -/
def lookup (unique_timesteps : List Timestep) : CacheM χ β φ ℕ := do
  let s ← Exec.get
  if unique_timesteps.length > s.max_plan_width then Exec.raise (.value_error not_covered)
  else
    match (List.range s.max_plans).find? (plan_matches s unique_timesteps) with
    | none => Exec.raise (.value_error not_covered)
    | some slot => pure slot

end Model

/-! ## The slot invariant -/

section Invariant

variable {χ β φ : Type} {embed : List Timestep → χ}

/-- A slot holds a plan: its length, its timesteps, and for each timestep the parameters
that the weights give for the embedded plan. -/
structure Holds (embed : List Timestep → χ) (s : Cache χ β φ) (plan : List Timestep)
    (slot : ℕ) : Prop where
  nonempty : plan ≠ []
  length : s.plan_lengths slot = plan.length
  timesteps : ∀ i (h : i < plan.length), s.plan_timesteps slot i = plan.get ⟨i, h⟩
  block : ∀ i < plan.length, ∀ layer < s.num_layers,
    s.block_params slot i layer = s.weight_files.block layer (embed plan) i
  final : ∀ i < plan.length, s.final_params slot i = s.weight_files.final (embed plan) i

/-- **The slot invariant**, with the slots a build has taken and not yet committed. -/
structure SlotInv (embed : List Timestep → χ) (pending : List ℕ) (s : Cache χ β φ) : Prop where
  partition : (pending ++ (s.free_slots ++ s.slots.values)).Perm (List.range s.max_plans)
  lengths : ∀ slot, 0 < s.plan_lengths slot ↔ slot ∈ s.slots.values
  contents : ∀ key slot, s.slots.get? key = some slot →
    ∃ plan, key = plan_key plan ∧ Holds embed s plan slot

/-- A slot that is neither free nor resident: nothing will ever use it again. -/
def Lost (s : Cache χ β φ) : Prop :=
  ∃ slot < s.max_plans, slot ∉ s.free_slots ∧ slot ∉ s.slots.values

/-- What a slot's rows are. -/
def SameRows (s s' : Cache χ β φ) (slot : ℕ) : Prop :=
  s'.plan_timesteps slot = s.plan_timesteps slot ∧ s'.block_params slot = s.block_params slot ∧
    s'.final_params slot = s.final_params slot

variable {s : Cache χ β φ} {slot : ℕ}

theorem Holds.transfer {s' : Cache χ β φ} {plan : List Timestep} (h : Holds embed s plan slot)
    (hlen : s'.plan_lengths slot = s.plan_lengths slot) (hrows : SameRows s s' slot)
    (hlayers : s'.num_layers = s.num_layers) (hfiles : s'.weight_files = s.weight_files) :
    Holds embed s' plan slot := by
  obtain ⟨ht, hb, hf⟩ := hrows
  refine ⟨h.nonempty, hlen.trans h.length, ?_, ?_, ?_⟩
  · intro i hi
    rw [ht]
    exact h.timesteps i hi
  · intro i hi layer hl
    rw [hb, hfiles]
    exact h.block i hi layer (hlayers ▸ hl)
  · intro i hi
    rw [hf, hfiles]
    exact h.final i hi

variable {pending : List ℕ}

theorem lost_of_pending (hne : pending ≠ [])
    (h : (pending ++ (s.free_slots ++ s.slots.values)).Perm (List.range s.max_plans)) : Lost s := by
  obtain ⟨slot, rest, rfl⟩ := exists_cons_of_ne_nil hne
  have hin : slot ∈ List.range s.max_plans := h.mem_iff.mp (by simp)
  have hnd := h.nodup_iff.mpr nodup_range
  rw [nodup_append] at hnd
  have hout : slot ∉ s.free_slots ++ s.slots.values :=
    fun hmem => hnd.2.2 slot (mem_cons_self ..) slot hmem rfl
  rw [mem_append, not_or] at hout
  exact ⟨slot, mem_range.mp hin, hout⟩

section

variable (h : SlotInv embed pending s)
include h

theorem SlotInv.nodup : (pending ++ (s.free_slots ++ s.slots.values)).Nodup :=
  h.partition.nodup_iff.mpr nodup_range

theorem SlotInv.pending_nodup : pending.Nodup :=
  (nodup_append.mp h.nodup).1

theorem SlotInv.not_pending (hslot : slot ∈ s.slots.values) : slot ∉ pending := by
  intro hin
  have hnd := h.nodup
  rw [nodup_append] at hnd
  exact hnd.2.2 slot hin slot (mem_append_right _ hslot) rfl

theorem SlotInv.transfer {s' : Cache χ β φ} (hslots : s'.slots.items.Perm s.slots.items)
    (hfree : s'.free_slots = s.free_slots) (hmax : s'.max_plans = s.max_plans)
    (hlen : s'.plan_lengths = s.plan_lengths) (hrows : ∀ slot, slot ∉ pending → SameRows s s' slot)
    (hlayers : s'.num_layers = s.num_layers) (hfiles : s'.weight_files = s.weight_files) :
    SlotInv embed pending s' := by
  have hvalues : s'.slots.values.Perm s.slots.values := hslots.map _
  refine ⟨?_, ?_, ?_⟩
  · rw [hfree, hmax]
    exact ((hvalues.append_left _).append_left _).trans h.partition
  · intro slot
    rw [hlen, hvalues.mem_iff]
    exact h.lengths slot
  · intro key slot hk
    rw [get?_eq_of_items_perm hslots] at hk
    obtain ⟨plan, hkey, hholds⟩ := h.contents key slot hk
    have hres : slot ∈ s.slots.values := mem_values_iff.mpr ⟨key, hk⟩
    exact ⟨plan, hkey, hholds.transfer (by rw [hlen]) (hrows slot (h.not_pending hres)) hlayers
      hfiles⟩

omit h in
/-- A slot that left the map and did not reach the free list is lost. -/
theorem SlotInv.lost_of_erase {key : Key} (h : SlotInv embed [] s)
    (hk : s.slots.get? key = some slot) : Lost { s with slots := s.slots.erase key } := by
  have hperm : s.slots.values.Perm (slot :: (s.slots.erase key).values) :=
    (items_perm_cons_erase hk).map Prod.snd
  refine lost_of_pending (cons_ne_nil slot []) (List.Perm.trans ?_ h.partition)
  show (slot :: (s.free_slots ++ (s.slots.erase key).values)).Perm _
  exact perm_middle.symm.trans (hperm.symm.append_left s.free_slots)

omit h in
theorem SlotInv.evict {key : Key} (h : SlotInv embed [] s) (hk : s.slots.get? key = some slot) :
    SlotInv embed [] { s with
        slots := s.slots.erase key
        plan_lengths := Function.update s.plan_lengths slot 0
        free_slots := s.free_slots ++ [slot] } := by
  have hperm : s.slots.values.Perm (slot :: (s.slots.erase key).values) :=
    (items_perm_cons_erase hk).map Prod.snd
  have hnd : (slot :: (s.slots.erase key).values).Nodup :=
    hperm.nodup_iff.mp (nodup_append.mp (nodup_append.mp h.nodup).2.1).2.1
  have hgone : slot ∉ (s.slots.erase key).values := (nodup_cons.mp hnd).1
  refine ⟨?_, ?_, ?_⟩
  · rw [append_assoc]
    exact (hperm.symm.append_left s.free_slots).trans h.partition
  · intro q
    show 0 < Function.update s.plan_lengths slot 0 q ↔ q ∈ (s.slots.erase key).values
    by_cases hq : q = slot
    · subst hq
      rw [update_self]
      exact ⟨fun h0 => absurd h0 (Nat.lt_irrefl 0), fun hin => absurd hin hgone⟩
    · rw [update_of_ne hq, h.lengths q, hperm.mem_iff, mem_cons]
      exact ⟨fun hin => hin.resolve_left hq, Or.inr⟩
  · intro k q hkq
    rw [get?_erase] at hkq
    by_cases hkk : k = key
    · rw [if_pos hkk] at hkq; cases hkq
    · rw [if_neg hkk] at hkq
      obtain ⟨plan, hkey, hholds⟩ := h.contents k q hkq
      refine ⟨plan, hkey, hholds.transfer ?_ ⟨rfl, rfl, rfl⟩ rfl rfl⟩
      have hin : q ∈ (s.slots.erase key).values := by
        refine mem_values_iff.mpr ⟨k, ?_⟩
        rw [get?_erase, if_neg hkk]
        exact hkq
      have hne : q ≠ slot := fun heq => hgone (heq ▸ hin)
      exact update_of_ne hne _ _

theorem SlotInv.reserve (hlast : s.free_slots = s.free_slots.dropLast ++ [slot]) :
    SlotInv embed (pending ++ [slot]) { s with free_slots := s.free_slots.dropLast } := by
  refine ⟨?_, h.lengths, ?_⟩
  · refine List.Perm.trans ?_ h.partition
    rw [hlast, dropLast_concat, append_assoc, append_assoc]
    refine List.Perm.append_left _ ?_
    rw [← append_assoc, ← append_assoc]
    exact perm_append_comm.append_right _
  · intro key q hk
    obtain ⟨plan, hkey, hholds⟩ := h.contents key q hk
    exact ⟨plan, hkey, hholds.transfer rfl ⟨rfl, rfl, rfl⟩ rfl rfl⟩

theorem SlotInv.hand_back : SlotInv embed [] (hand_back pending s) := by
  refine ⟨?_, h.lengths, ?_⟩
  · refine List.Perm.trans ?_ h.partition
    show (s.free_slots ++ pending ++ s.slots.values).Perm _
    rw [← append_assoc]
    exact perm_append_comm.append_right _
  · intro key q hk
    obtain ⟨plan, hkey, hholds⟩ := h.contents key q hk
    exact ⟨plan, hkey, hholds.transfer rfl ⟨rfl, rfl, rfl⟩ rfl rfl⟩

end

/-- **The commit.** Pending slots that hold their plans, with their lengths written,
become resident. -/
theorem SlotInv.commit {assignments : OrderedDict Key ℕ} {lengths : ℕ → ℕ}
    (h : SlotInv embed assignments.values s) (hfresh : ∀ p ∈ assignments.items, p.1 ∉ s.slots.keys)
    (hout : ∀ q, q ∉ assignments.values → lengths q = s.plan_lengths q)
    (hnew : ∀ p ∈ assignments.items, ∃ plan, p.1 = plan_key plan ∧
      Holds embed { s with plan_lengths := lengths } plan p.2) : SlotInv embed []
      { s with plan_lengths := lengths, slots := s.slots.update assignments.items } := by
  have hitems : (s.slots.update assignments.items).items = s.slots.items ++ assignments.items :=
    items_update_of_fresh assignments.items s.slots assignments.nodup hfresh
  have hvalues : (s.slots.update assignments.items).values
      = s.slots.values ++ assignments.values := by
    unfold OrderedDict.values
    rw [hitems, map_append]
  refine ⟨?_, ?_, ?_⟩
  · show (s.free_slots ++ (s.slots.update assignments.items).values).Perm _
    rw [hvalues, ← append_assoc]
    exact perm_append_comm.trans h.partition
  · intro q
    show 0 < lengths q ↔ q ∈ (s.slots.update assignments.items).values
    rw [hvalues, mem_append]
    by_cases hq : q ∈ assignments.values
    · obtain ⟨p, hp, rfl⟩ := mem_map.mp hq
      obtain ⟨plan, _, hholds⟩ := hnew p hp
      have hlen : lengths p.2 = plan.length := hholds.length
      refine ⟨fun _ => Or.inr hq, fun _ => ?_⟩
      rw [hlen]
      exact length_pos_of_ne_nil hholds.nonempty
    · rw [hout q hq, h.lengths q]
      exact ⟨Or.inl, fun hin => hin.resolve_right hq⟩
  · intro key q hk
    rw [get?_update_of_fresh assignments.nodup hfresh] at hk
    rcases hk with hk | hk
    · obtain ⟨plan, hkey, hholds⟩ := h.contents key q hk
      have hres : q ∈ s.slots.values := mem_values_iff.mpr ⟨key, hk⟩
      exact ⟨plan, hkey, hholds.transfer (hout q (h.not_pending hres)) ⟨rfl, rfl, rfl⟩ rfl rfl⟩
    · obtain ⟨plan, hkey, hholds⟩ := hnew (key, q) hk
      exact ⟨plan, hkey, hholds.transfer rfl ⟨rfl, rfl, rfl⟩ rfl rfl⟩

end Invariant

/-! ## Slot allocation -/

section Allocation

variable {χ β φ : Type} {embed : List Timestep → χ} {E : PyErr Key → Cache χ β φ → Prop}

section

variable (s₀ : Cache χ β φ)

theorem forEach_touch_spec (keys : List Key) :
    Exec.Triple (fun s => s = s₀) (Exec.forEach keys touch)
      (fun _ s => ∃ slots, s = { s₀ with slots := slots } ∧ slots.items.Perm s₀.slots.items) E := by
  have hloop := Exec.Triple.forEach (E := E) (f := touch (χ := χ) (β := β) (φ := φ))
    (I := fun _ s => ∃ slots, s = { s₀ with slots := slots } ∧ slots.items.Perm s₀.slots.items)
    keys []
    (by
      intro front key back _ _
      refine Exec.Triple.get_bind (fun s₁ => ?_)
      by_cases hk : key ∈ s₁.slots.keys
      · rw [if_pos hk]
        refine Exec.Triple.modify ?_
        rintro s ⟨⟨slots, rfl, hperm⟩, _⟩
        exact ⟨slots.moveToEnd key, rfl, (items_moveToEnd_perm slots key).trans hperm⟩
      · rw [if_neg hk]
        exact Exec.Triple.pure (fun s h => h.1))
  refine hloop.mono ?_ (fun _ _ h => h) (fun _ _ h => h)
  rintro s rfl
  exact ⟨s.slots, rfl, List.Perm.refl _⟩

/-- What an allocation raises, and what that leaves: a length write failed after its slot had left
the map. -/
def EvictFails (fault : Option (AdalnStep Key)) (e : PyErr Key) (s : Cache χ β φ) : Prop :=
  (∃ slot, fault = some (.evict_length slot) ∧ e = .raised (.evict_length slot)) ∧ Lost s

variable (fault : Option (AdalnStep Key))

/-- One eviction: the slot moves from the map to the free list, or it is lost on the way. -/
theorem evict_spec {key : Key} {slot : ℕ} (hinv : SlotInv embed [] s₀)
    (hk : s₀.slots.get? key = some slot) : Exec.Triple (fun s => s = s₀) (evict fault key)
      (fun _ s => s = { s₀ with
        slots := s₀.slots.erase key
        plan_lengths := Function.update s₀.plan_lengths slot 0
        free_slots := s₀.free_slots ++ [slot] }) (EvictFails fault) := by
  refine Exec.Triple.get_bind (fun s₁ => ?_)
  rintro s ⟨rfl, rfl⟩
  simp only [hk]
  rcases perform_cases fault (.evict_length slot) { s with slots := s.slots.erase key } with
    ⟨-, hok⟩ | ⟨hf, herr⟩
  · exact Exec.Triple.of_ok ((Exec.bind_of_ok rfl).trans (Exec.bind_of_ok hok)) rfl
  · exact Exec.Triple.of_error ((Exec.bind_of_ok rfl).trans (Exec.bind_of_error herr))
      ⟨⟨slot, hf, rfl⟩, hinv.lost_of_erase hk⟩

theorem forEach_evict_spec (victims : List Key) (hnd : victims.Nodup)
    (hres : ∀ key ∈ victims, key ∈ s₀.slots.keys) :
    Exec.Triple (fun s => s = s₀ ∧ SlotInv embed [] s) (Exec.forEach victims (evict fault))
      (fun _ s => ∃ slots free lengths,
        s = { s₀ with slots := slots, free_slots := free, plan_lengths := lengths } ∧
        SlotInv embed [] s ∧ free.length = s₀.free_slots.length + victims.length ∧
        ∀ key, key ∉ victims → slots.get? key = s₀.slots.get? key) (EvictFails fault) := by
  have hloop := Exec.Triple.forEach (E := EvictFails fault)
    (f := evict (χ := χ) (β := β) (φ := φ) fault)
    (I := fun front s => ∃ slots free lengths,
      s = { s₀ with slots := slots, free_slots := free, plan_lengths := lengths } ∧
      SlotInv embed [] s ∧ free.length = s₀.free_slots.length + front.length ∧
      ∀ key, key ∉ front → slots.get? key = s₀.slots.get? key)
    victims []
    (by
      intro front x back heq _
      rw [nil_append] at heq
      have hfresh : x ∉ front := by
        rw [heq, nodup_append] at hnd
        exact fun hin => hnd.2.2 x hin x (mem_cons_self ..) rfl
      obtain ⟨slot, hslot⟩ := mem_keys_iff.mp (hres x (by rw [heq]; simp))
      rintro s ⟨slots, free, lengths, hs, hinv, hlen, hkeep⟩
      have hget : s.slots.get? x = some slot := by
        rw [hs]
        exact (hkeep x hfresh).trans hslot
      refine (evict_spec s fault hinv hget).mono (fun _ h => h) ?_ (fun _ _ h => h) s rfl
      rintro _ s' rfl
      refine ⟨slots.erase x, free ++ [slot], Function.update lengths slot 0, by rw [hs], hinv.evict hget,
        ?_, ?_⟩
      · simp only [length_append, length_singleton]
        omega
      · intro key hkey
        rw [mem_append, not_or, mem_singleton] at hkey
        rw [get?_erase, if_neg hkey.2]
        exact hkeep key hkey.1)
  refine hloop.mono ?_ (fun _ _ h => h) (fun _ _ h => h)
  rintro s ⟨rfl, hinv⟩
  exact ⟨s.slots, s.free_slots, s.plan_lengths, rfl, hinv, rfl, fun _ _ => rfl⟩

variable (embed) in
theorem mapEach_reserve_spec (keys : List Key) (hroom : keys.length ≤ s₀.free_slots.length) :
    Exec.Triple (fun s => s = s₀ ∧ SlotInv embed [] s) (Exec.mapEach keys reserve)
      (fun entries s => ∃ free, s = { s₀ with free_slots := free } ∧
        entries.map Prod.fst = keys ∧ SlotInv embed (entries.map Prod.snd) s) E := by
  have hloop := Exec.Triple.mapEach (E := E) (f := reserve (χ := χ) (β := β) (φ := φ))
    (I := fun front entries s => ∃ free, s = { s₀ with free_slots := free } ∧
      entries.map Prod.fst = front ∧ SlotInv embed (entries.map Prod.snd) s ∧
      free.length + front.length = s₀.free_slots.length)
    keys [] []
    (by
      intro front x back entries heq _
      have hshort : front.length < keys.length := by
        rw [nil_append] at heq
        rw [heq, length_append, length_cons]
        omega
      refine Exec.Triple.get_bind (fun s₁ => ?_)
      rintro s ⟨⟨free, hs, hkeys, hinv, hlen⟩, rfl⟩
      have hfree : s.free_slots = free := by rw [hs]
      cases hl : s.free_slots.getLast? with
      | none =>
        -- the list cannot be empty: fewer slots were taken than were free
        rw [getLast?_eq_none_iff, hfree] at hl
        rw [hl, length_nil] at hlen
        omega
      | some slot =>
        have hsplit : s.free_slots = s.free_slots.dropLast ++ [slot] := by
          obtain ⟨ys, hys⟩ := getLast?_eq_some_iff.mp hl
          rw [hys, dropLast_concat]
        refine Exec.Triple.bind (P := fun s' => s' = s)
          (Q := fun _ s' => s' = { s with free_slots := s.free_slots.dropLast })
          (Exec.Triple.modify (by rintro s' rfl; rfl)) (fun _ => Exec.Triple.pure ?_) s rfl
        rintro s' rfl
        refine ⟨s.free_slots.dropLast, by rw [hs], by simp [hkeys], ?_, ?_⟩
        · rw [map_append]
          exact hinv.reserve hsplit
        · have hlast := congrArg List.length hsplit
          rw [hfree] at hlast ⊢
          simp only [length_append, length_singleton] at hlast ⊢
          omega)
  refine hloop.mono ?_ ?_ (fun _ _ h => h)
  · rintro s ⟨rfl, hinv⟩
    exact ⟨s.free_slots, rfl, rfl, hinv, rfl⟩
  · rintro entries s ⟨free, hs, hkeys, hinv, _⟩
    exact ⟨free, hs, hkeys, hinv⟩

theorem shortfall_le_victims {s : Cache χ β φ} {wanted missing : OrderedDict Key (List Timestep)}
    (h : SlotInv embed [] s) (hfit : wanted.size ≤ s.max_plans)
    (hmissing : missing = wanted.filterKeys (fun key => decide (key ∉ s.slots.keys))) :
    missing.size - s.free_slots.length
      ≤ (s.slots.keys.filter (fun key => decide (key ∉ wanted.keys))).length := by
  have hslots : s.free_slots.length + s.slots.keys.length = s.max_plans := by
    have hlen := h.partition.length_eq
    simp only [nil_append, length_append, length_range] at hlen
    rw [length_keys]
    rw [OrderedDict.values, length_map] at hlen
    exact hlen
  -- residents are wanted or not, wanted plans are resident or missing
  have hsplit := length_eq_length_filter_add (l := s.slots.keys)
    (fun key => decide (key ∈ wanted.keys))
  have hsplit' := length_eq_length_filter_add (l := wanted.keys)
    (fun key => decide (key ∈ s.slots.keys))
  have hboth : (s.slots.keys.filter (fun key => decide (key ∈ wanted.keys))).length
      ≤ (wanted.keys.filter (fun key => decide (key ∈ s.slots.keys))).length := by
    refine (List.Nodup.subperm (s.slots.keys_nodup.filter _) ?_).length_le
    intro key hkey
    simp only [mem_filter, decide_eq_true_eq] at hkey ⊢
    exact ⟨hkey.2, hkey.1⟩
  have hmiss : missing.size
      = (wanted.keys.filter (fun key => !decide (key ∈ s.slots.keys))).length := by
    rw [← length_keys, hmissing, keys_filterKeys]
    simp only [decide_not]
  have hwanted : wanted.keys.length = wanted.size := length_keys wanted
  simp only [decide_not]
  omega

/-- **Slot allocation.** The missing plans get distinct slots that are neither free nor resident any
more, and no wanted plan moves; only the length write of an eviction can raise. -/
theorem allocate_slots_spec (wanted missing : OrderedDict Key (List Timestep))
    (hfit : wanted.size ≤ s₀.max_plans)
    (hmissing : missing = wanted.filterKeys (fun key => decide (key ∉ s₀.slots.keys))) :
    Exec.Triple (fun s => s = s₀ ∧ SlotInv embed [] s) (allocate_slots fault wanted missing)
      (fun assignments s => ∃ slots free lengths,
        s = { s₀ with slots := slots, free_slots := free, plan_lengths := lengths } ∧
        assignments.keys = missing.keys ∧ SlotInv embed assignments.values s ∧
        ∀ key ∈ wanted.keys, slots.get? key = s₀.slots.get? key) (EvictFails fault) := by
  refine Exec.Triple.bind (Q := fun _ s => ∃ slots, s = { s₀ with slots := slots } ∧
    slots.items.Perm s₀.slots.items ∧ SlotInv embed [] s) ?_ (fun _ => ?_)
  · rintro s ⟨rfl, hinv⟩
    refine (forEach_touch_spec s wanted.keys).mono (fun _ h => h) ?_ (fun _ _ h => h) s rfl
    rintro _ s' ⟨slots, rfl, hperm⟩
    exact ⟨slots, rfl, hperm, hinv.transfer hperm rfl rfl rfl (fun _ _ => ⟨rfl, rfl, rfl⟩) rfl rfl⟩
  refine Exec.Triple.get_bind (fun s₁ => ?_)
  rintro s ⟨⟨slots, hs, hperm, hinv⟩, rfl⟩
  have hget : ∀ key, s.slots.get? key = s₀.slots.get? key := by
    intro key
    rw [hs]
    exact get?_eq_of_items_perm hperm key
  have hkeys : ∀ key, key ∈ s.slots.keys ↔ key ∈ s₀.slots.keys := by
    intro key
    rw [mem_keys_iff, mem_keys_iff, hget]
  have hmissing' : missing = wanted.filterKeys (fun key => decide (key ∉ s.slots.keys)) := by
    rw [hmissing]
    simp only [hkeys]
  have hmax : s.max_plans = s₀.max_plans := by rw [hs]
  have hcover := shortfall_le_victims hinv (by rw [hmax]; exact hfit) hmissing'
  set victims := (s.slots.keys.filter (fun key => decide (key ∉ wanted.keys))).take
    (missing.size - s.free_slots.length) with hvictims
  have hvlen : victims.length = missing.size - s.free_slots.length := by
    rw [length_take]
    omega
  have hvmem : ∀ key ∈ victims, key ∈ s.slots.keys ∧ key ∉ wanted.keys := by
    intro key hkey
    have hin := mem_filter.mp (mem_of_mem_take hkey)
    exact ⟨hin.1, by simpa using hin.2⟩
  refine Exec.Triple.bind
    (forEach_evict_spec s fault victims ((s.slots.keys_nodup.filter _).take) (fun key h => (hvmem key h).1))
    (fun _ => ?_) s ⟨rfl, hinv⟩
  rintro s₂ ⟨slots₂, free₂, lengths₂, hs₂, hinv₂, hfree₂, hkeep₂⟩
  have hroom : missing.keys.length ≤ s₂.free_slots.length := by
    rw [length_keys, hs₂]
    show missing.size ≤ free₂.length
    omega
  refine Exec.Triple.bind (mapEach_reserve_spec embed s₂ missing.keys hroom)
    (fun entries => Exec.Triple.pure ?_) s₂ ⟨rfl, hinv₂⟩
  rintro s₃ ⟨free₃, hs₃, hentries, hinv₃⟩
  have hitems : (OrderedDict.ofList entries).items = entries :=
    items_ofList_of_nodup (by rw [hentries]; exact missing.keys_nodup)
  refine ⟨slots₂, free₃, lengths₂, ?_, ?_, ?_, ?_⟩
  · rw [hs₃, hs₂, hs]
  · rw [OrderedDict.keys, hitems, hentries]
  · rw [OrderedDict.values, hitems]
    exact hinv₃
  · intro key hkey
    rw [hkeep₂ key (fun hin => (hvmem key hin).2 hkey), hget]

end

end Allocation

end LightningH3.AdalnCache
