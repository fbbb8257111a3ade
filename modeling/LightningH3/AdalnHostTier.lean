/-
The pinned-host tier of the AdaLN plan cache: `MiniMaxH3AdalnHostTier` of
`runtime/models/dits/minimax_h3_adaln_cache.py`.

A plan occupies as many host pages as it has timesteps; a *group* is one request's
full plan set and is the unit of LRU eviction. Groups share plans, so a plan carries a
reference count and its pages go back to the free list when the last group that
contains it goes away.

The accounting argument is one ledger. While an operation is under way some plans are
pinned beyond what the registered groups account for, so the ledger carries those pins
explicitly: a plan's reference count is the number of groups that contain it plus its
pins, and a plan is stored exactly when that number is positive. `pin` and `unpin` move
one unit, evicting a group first turns its claims into pins and then unpins them, and a
commit turns pins back into a group. `store_group`, `register_group` and `clear` start
and end with no pins, which is the statement about whole runs.
-/
import Mathlib.Algebra.GroupWithZero.Nat
import Mathlib.Data.List.Perm.Subperm
import Mathlib.Data.List.Count
import LightningH3.Lib.OrderedDict
import LightningH3.Lib.Exec

set_option autoImplicit false

namespace LightningH3.AdalnHostTier

open List OrderedDict

/-! ## Errors

A step that touches device memory, the checkpoint or the model's embedding can raise.
Which step does is an input of the model: `fault` names the step that raises in this
run, if any. -/

/-- The fallible steps of the plan cache, named by where they stand in the source: on
the allocation, on the rebuild path, on the swap-in path, or in the host store. -/
inductive AdalnStep (κ : Type) where
  | fence_prepare_start
  | evict_length (slot : ℕ)
  | embed (key : κ)
  | write_timesteps (key : κ)
  | read_shard (name : String)
  | project_block (layer slot : ℕ)
  | project_final (slot : ℕ)
  | write_length (slot : ℕ)
  | swap_in_timesteps (key : κ)
  | copy_to_gpu (key : κ) (index : ℕ)
  | fence_gpu_reads
  | swap_in_length (key : κ)
  | store_page (key : κ) (index : ℕ)
  | synchronize
  deriving DecidableEq

/-- What the cache raises: an error of its own with its text, an error of a host
container, or whatever a fallible step raised. -/
inductive PyErr (κ : Type) where
  | value_error (message : String)
  | key_error
  | index_error
  | raised (step : AdalnStep κ)
  deriving DecidableEq

/-- Run the fallible step `step`: it raises when `fault` names it. -/
def perform {κ σ : Type} [DecidableEq κ] (fault : Option (AdalnStep κ)) (step : AdalnStep κ) :
    Exec (PyErr κ) σ Unit :=
  if fault = some step then Exec.raise (.raised step) else pure ()

/-! ## State -/

/-- `_HostPlan`: the pages of one stored plan, in timestep order, and its reference
count. -/
structure HostPlan where
  pages : List ℕ
  refcount : ℤ

/-- The tier's state. `γ` is the type of group keys and `ρ` the content of one host
page: the block parameters of all layers and the final-layer parameters of one
timestep. The two counters are the tier's part of the shared statistics. -/
structure HostTier (κ γ ρ : Type) where
  num_pages : ℕ
  free_pages : List ℕ
  plans : OrderedDict κ HostPlan
  groups : OrderedDict γ (List κ)
  slab : ℕ → ρ
  host_evicted_groups : ℕ
  host_pressure_skips : ℕ

section Operations

variable {κ γ ρ : Type} [DecidableEq κ] [DecidableEq γ]

/-- The state after construction: every page free. -/
def HostTier.init (num_pages : ℕ) (slab : ℕ → ρ) : HostTier κ γ ρ where
  num_pages := num_pages
  free_pages := List.range num_pages
  plans := .empty
  groups := .empty
  slab := slab
  host_evicted_groups := 0
  host_pressure_skips := 0

/-- The computations of this tier. -/
abbrev TierM (κ γ ρ : Type) (α : Type) := Exec (PyErr κ) (HostTier κ γ ρ) α

def has_all (t : HostTier κ γ ρ) (keys : List κ) : Bool :=
  keys.all (fun key => decide (key ∈ t.plans.keys))

/-- `self._plans[key].refcount += 1`. -/
def pin (key : κ) : TierM κ γ ρ Unit := do
  let t ← Exec.get
  match t.plans.get? key with
  | none => Exec.raise .key_error
  | some plan =>
    Exec.modify fun t =>
      { t with plans := t.plans.set key { plan with refcount := plan.refcount + 1 } }

def unpin (key : κ) : TierM κ γ ρ Unit := do
  let t ← Exec.get
  match t.plans.get? key with
  | none => Exec.raise .key_error
  | some plan =>
    if plan.refcount - 1 = 0 then
      Exec.modify fun t =>
        { t with free_pages := t.free_pages ++ plan.pages, plans := t.plans.erase key }
    else
      Exec.modify fun t =>
        { t with plans := t.plans.set key { plan with refcount := plan.refcount - 1 } }

/-- `if key in self._plans: body(key)`. -/
def if_stored (body : κ → TierM κ γ ρ Unit) (key : κ) : TierM κ γ ρ Unit := do
  let t ← Exec.get
  if key ∈ t.plans.keys then body key else pure ()

def evict_oldest_group : TierM κ γ ρ Unit := do
  let t ← Exec.get
  match t.groups.popFirst? with
  | none => Exec.raise .key_error
  | some (oldest, rest) => do
      Exec.modify fun t => { t with groups := rest }
      Exec.forEach oldest.2 unpin
      Exec.modify fun t => { t with host_evicted_groups := t.host_evicted_groups + 1 }

/-- `while needed > len(self._free_pages) and self._groups: self._evict_oldest_group()`.
Every turn drops a group, so the number of groups bounds the turns. -/
def evict_until_fits (needed : ℕ) : ℕ → TierM κ γ ρ Unit
  | 0 => pure ()
  | turns + 1 => do
      let t ← Exec.get
      if needed > t.free_pages.length ∧ t.groups.items ≠ [] then do
        evict_oldest_group
        evict_until_fits needed turns
      else pure ()

def skip_for_pressure : TierM κ γ ρ Unit :=
  Exec.modify fun t => { t with host_pressure_skips := t.host_pressure_skips + 1 }

/-- `self._free_pages.pop()`. -/
def pop_free_page : TierM κ γ ρ ℕ := do
  let t ← Exec.get
  match t.free_pages.getLast? with
  | none => Exec.raise .index_error
  | some page => do
      Exec.modify fun t => { t with free_pages := t.free_pages.dropLast }
      pure page

/-- The D2H copy of one timestep into its page. -/
def store_page (fault : Option (AdalnStep κ)) (gpu : ℕ → ℕ → ρ) (key : κ) (slot : ℕ)
    (page : ℕ × ℕ) : TierM κ γ ρ Unit := do
  perform fault (.store_page key page.2)
  Exec.modify fun t => { t with slab := Function.update t.slab page.1 (gpu slot page.2) }

/-- One turn of the staging loop of `store_group`: take the plan's pages and fill
them. -/
def stage_plan (fault : Option (AdalnStep κ)) (gpu : ℕ → ℕ → ρ) (entry : κ × (ℕ × ℕ)) :
    TierM κ γ ρ (κ × HostPlan) := do
  let pages ← Exec.mapEach (List.range entry.2.2) (fun _ => pop_free_page)
  Exec.forEach pages.zipIdx (store_page fault gpu entry.1 entry.2.1)
  pure (entry.1, { pages := pages, refcount := 1 })

/-- The sum of the timestep counts of some entries. -/
def pages_needed (entries : List (κ × (ℕ × ℕ))) : ℕ := (entries.map (fun e => e.2.2)).sum

/-- `store_group`. `entries` maps each plan key to its (GPU slot, timestep count) and
`gpu slot index` is the slab row that the D2H copy reads. -/
def store_group (fault : Option (AdalnStep κ)) (gpu : ℕ → ℕ → ρ) (group_key : γ)
    (entries : OrderedDict κ (ℕ × ℕ)) : TierM κ γ ρ Unit := do
  let t ← Exec.get
  if group_key ∈ t.groups.keys then
    Exec.modify fun t => { t with groups := t.groups.moveToEnd group_key }
  else
    let new_plans := entries.items.filter (fun e => decide (e.1 ∉ t.plans.keys))
    let needed := pages_needed new_plans
    if needed > t.num_pages then skip_for_pressure
    else do
      -- pin the shared plans first, so that evicting other groups cannot free them
      Exec.forEach entries.keys (if_stored pin)
      evict_until_fits needed t.groups.size
      let t ← Exec.get
      if needed > t.free_pages.length then do
        Exec.forEach entries.keys (if_stored unpin)
        skip_for_pressure
      else do
        let staged ← Exec.mapEach new_plans (stage_plan fault gpu)
        perform fault .synchronize
        Exec.modify fun t =>
          { t with
            plans := t.plans.update staged
            groups := t.groups.set group_key entries.keys }

def register_group (group_key : γ) (keys : List κ) : TierM κ γ ρ Unit := do
  let t ← Exec.get
  if group_key ∈ t.groups.keys then
    Exec.modify fun t => { t with groups := t.groups.moveToEnd group_key }
  else if has_all t keys then do
    Exec.forEach keys pin
    Exec.modify fun t => { t with groups := t.groups.set group_key keys }
  else pure ()

def clear : TierM κ γ ρ Unit :=
  Exec.modify fun t =>
    { t with plans := .empty, groups := .empty, free_pages := List.range t.num_pages }

end Operations

/-! ## The ledger -/

section Ledger

variable {κ γ ρ : Type} [DecidableEq κ]

/-- The number of registered groups that contain a plan. -/
def group_count (t : HostTier κ γ ρ) (key : κ) : ℕ :=
  t.groups.items.countP (fun g => decide (key ∈ g.2))

/-- The pages of all stored plans, oldest plan first. -/
def stored_pages (t : HostTier κ γ ρ) : List ℕ := t.plans.items.flatMap (fun p => p.2.pages)

/-- **The ledger.** `pins key` claims on a plan are held by the operation under way, on
top of the registered groups' own; `Rows` is any property of a plan's stored rows and
`n` the capacity in pages. -/
structure Ledger (Rows : κ → List ρ → Prop) (n : ℕ) (pins : κ → ℕ) (t : HostTier κ γ ρ) :
    Prop where
  refcount : ∀ key plan, t.plans.get? key = some plan →
    plan.refcount = ((group_count t key + pins key : ℕ) : ℤ) ∧ 0 < group_count t key + pins key
  stored : ∀ key, 0 < group_count t key + pins key → key ∈ t.plans.keys
  pages : (t.free_pages ++ stored_pages t).Perm (List.range n)
  distinct : ∀ g ∈ t.groups.items, g.2.Nodup
  rows : ∀ key plan, t.plans.get? key = some plan → Rows key (plan.pages.map t.slab)
  capacity : t.num_pages = n

/-- No pins: the ledger between operations. -/
def no_pins : κ → ℕ := fun _ => 0

variable {Rows : κ → List ρ → Prop} {n : ℕ} {pins : κ → ℕ}

variable {t : HostTier κ γ ρ}

theorem Ledger.congr_pins {pins' : κ → ℕ} (h : Ledger Rows n pins t) (hp : ∀ k, pins k = pins' k) :
    Ledger Rows n pins' t := by
  have : pins = pins' := funext hp
  rw [← this]; exact h

variable {key : κ} {plan : HostPlan}

theorem stored_pages_set (plan' : HostPlan) (hk : t.plans.get? key = some plan)
    (hp : plan'.pages = plan.pages) :
    ((t.plans.set key plan').items.flatMap (fun p => p.2.pages)).Perm (stored_pages t) := by
  have h1 := (items_set_perm_of_get? (w := plan') hk).flatMap_right
    (fun p => p.2.pages)
  have h2 := (items_perm_cons_erase hk).flatMap_right (fun p => p.2.pages)
  refine h1.trans ?_
  refine List.Perm.trans ?_ h2.symm
  simp only [flatMap_cons, hp]
  exact List.Perm.refl _

theorem Ledger.recount {pins' : κ → ℕ} (h : Ledger Rows n pins t)
    (hk : t.plans.get? key = some plan) (hother : ∀ k, k ≠ key → pins' k = pins k) {count : ℤ}
    (hcount : count = ((group_count t key + pins' key : ℕ) : ℤ))
    (hpos : 0 < group_count t key + pins' key) :
    Ledger Rows n pins' { t with plans := t.plans.set key { plan with refcount := count } } := by
  refine ⟨?_, ?_, ?_, h.distinct, ?_, h.capacity⟩
  · intro k p hp
    rw [get?_set] at hp
    by_cases hkk : k = key
    · subst hkk
      rw [if_pos rfl, Option.some.injEq] at hp
      rw [← hp]
      exact ⟨hcount, hpos⟩
    · rw [if_neg hkk] at hp
      rw [hother k hkk]
      exact h.refcount k p hp
  · intro k hk'
    rw [mem_keys_set]
    by_cases hkk : k = key
    · exact Or.inl hkk
    · have hk'' : 0 < group_count t k + pins' k := hk'
      rw [hother k hkk] at hk''
      exact Or.inr (h.stored k hk'')
  · have hsame := stored_pages_set { plan with refcount := count } hk rfl
    exact (hsame.append_left t.free_pages).trans h.pages
  · intro k p hp
    rw [get?_set] at hp
    by_cases hkk : k = key
    · subst hkk
      rw [if_pos rfl, Option.some.injEq] at hp
      rw [← hp]
      exact h.rows k plan hk
    · rw [if_neg hkk] at hp
      exact h.rows k p hp

theorem count_singleton_ne {k : κ} (h : k ≠ key) : [key].count k = 0 := by
  rw [count_eq_zero]
  simp [h]

theorem Ledger.pin (h : Ledger Rows n pins t) (hk : t.plans.get? key = some plan) :
    Ledger Rows n (fun k => pins k + [key].count k)
      { t with plans := t.plans.set key { plan with refcount := plan.refcount + 1 } } := by
  obtain ⟨hr, _⟩ := h.refcount key plan hk
  refine h.recount hk ?_ ?_ ?_
  · intro k hne
    rw [count_singleton_ne hne, Nat.add_zero]
  · rw [count_singleton_self]; push_cast; omega
  · rw [count_singleton_self]; omega

section

variable (h : Ledger Rows n (fun k => pins k + [key].count k) t)
  (hk : t.plans.get? key = some plan)
include h hk

theorem Ledger.drop (hlast : group_count t key + pins key = 0) : Ledger Rows n pins
      { t with free_pages := t.free_pages ++ plan.pages, plans := t.plans.erase key } := by
  refine ⟨?_, ?_, ?_, h.distinct, ?_, h.capacity⟩
  · intro k p hp
    rw [get?_erase] at hp
    by_cases hkk : k = key
    · rw [if_pos hkk] at hp; cases hp
    · rw [if_neg hkk] at hp
      have hold := h.refcount k p hp
      simp only [count_singleton_ne hkk] at hold
      exact hold
  · intro k hpos
    have hpos' : 0 < group_count t k + pins k := hpos
    have hkk : k ≠ key := by
      rintro rfl
      omega
    rw [mem_keys_erase]
    refine ⟨h.stored k ?_, hkk⟩
    simp only [count_singleton_ne hkk]
    exact hpos'
  · have hperm := (items_perm_cons_erase hk).flatMap_right (fun p => p.2.pages)
    refine List.Perm.trans ?_ h.pages
    rw [append_assoc]
    exact hperm.symm.append_left t.free_pages
  · intro k p hp
    rw [get?_erase] at hp
    by_cases hkk : k = key
    · rw [if_pos hkk] at hp; cases hp
    · rw [if_neg hkk] at hp
      exact h.rows k p hp

theorem Ledger.unpin (hmore : 0 < group_count t key + pins key) : Ledger Rows n pins
      { t with plans := t.plans.set key { plan with refcount := plan.refcount - 1 } } := by
  obtain ⟨hr, _⟩ := h.refcount key plan hk
  rw [count_singleton_self] at hr
  refine h.recount hk ?_ ?_ hmore
  · intro k hne
    rw [count_singleton_ne hne, Nat.add_zero]
  · rw [hr]; push_cast; omega

end

end Ledger

/-! ## One specification per operation -/

section Specs

variable {κ γ ρ : Type} [DecidableEq κ]
variable {Rows : κ → List ρ → Prop} {n : ℕ} {pins : κ → ℕ}

/-- The exceptional postcondition of everything below: only a copy of the store, or the
wait for the copies, raises. In particular no container operation does. -/
def Faulted {σ : Type} (fault : Option (AdalnStep κ)) : PyErr κ → σ → Prop :=
  fun e _ => ∃ step, fault = some step ∧ e = .raised step ∧
    ((∃ key index, step = .store_page key index) ∨ step = .synchronize)

/-- What every operation before a commit leaves alone: the page count does not move, and
neither plans nor groups appear. -/
structure Shrinks (t₀ t : HostTier κ γ ρ) : Prop where
  num_pages : t.num_pages = t₀.num_pages
  plans : ∀ k ∈ t.plans.keys, k ∈ t₀.plans.keys
  groups : ∀ g ∈ t.groups.keys, g ∈ t₀.groups.keys

omit [DecidableEq κ] in
theorem Shrinks.refl (t : HostTier κ γ ρ) : Shrinks t t :=
  ⟨rfl, fun _ h => h, fun _ h => h⟩

variable {t₀ t : HostTier κ γ ρ} {E : PyErr κ → HostTier κ γ ρ → Prop}

theorem Shrinks.set_plan (h : Shrinks t₀ t) {key : κ} (hk : key ∈ t.plans.keys) (plan : HostPlan) :
    Shrinks t₀ { t with plans := t.plans.set key plan } := by
  refine ⟨h.num_pages, ?_, h.groups⟩
  intro k hmem
  rcases mem_keys_set.mp hmem with rfl | hin
  · exact h.plans _ hk
  · exact h.plans k hin

theorem Shrinks.erase_plan (h : Shrinks t₀ t) (key : κ) (free : List ℕ) :
    Shrinks t₀ { t with free_pages := free, plans := t.plans.erase key } :=
  ⟨h.num_pages, fun k hmem => h.plans k (mem_keys_erase.mp hmem).1, h.groups⟩

variable (Rows n pins t₀) in
theorem pin_spec (groups : OrderedDict γ (List κ)) (key : κ) : Exec.Triple
      (fun t => Ledger Rows n pins t ∧ key ∈ t.plans.keys ∧ Shrinks t₀ t ∧ t.groups = groups)
      (pin key) (fun _ t => Ledger Rows n (fun k => pins k + [key].count k) t ∧ Shrinks t₀ t
        ∧ t.groups = groups) E := by
  refine Exec.Triple.get_bind (fun t => ?_)
  cases hk : t.plans.get? key with
  | none =>
    rintro s ⟨⟨_, hmem, _⟩, rfl⟩
    exact absurd hmem (get?_eq_none_iff.mp hk)
  | some plan =>
    refine Exec.Triple.modify ?_
    rintro s ⟨⟨hl, hmem, hs, hg⟩, rfl⟩
    exact ⟨hl.pin hk, hs.set_plan hmem _, hg⟩

variable (Rows n pins t₀) in
theorem unpin_spec (groups : OrderedDict γ (List κ)) (key : κ) : Exec.Triple
      (fun t => Ledger Rows n (fun k => pins k + [key].count k) t ∧ Shrinks t₀ t
        ∧ t.groups = groups) (unpin key)
      (fun _ t => Ledger Rows n pins t ∧ Shrinks t₀ t ∧ t.groups = groups) E := by
  refine Exec.Triple.get_bind (fun t => ?_)
  cases hk : t.plans.get? key with
  | none =>
    rintro s ⟨⟨hl, _⟩, rfl⟩
    refine absurd (hl.stored key ?_) (get?_eq_none_iff.mp hk)
    rw [count_singleton_self]; omega
  | some plan =>
    have hmem : key ∈ t.plans.keys := mem_keys_iff.mpr ⟨plan, hk⟩
    by_cases hz : plan.refcount - 1 = 0
    · simp only [hz]
      refine Exec.Triple.modify ?_
      rintro s ⟨⟨hl, hs, hg⟩, rfl⟩
      obtain ⟨hr, _⟩ := hl.refcount key plan hk
      rw [count_singleton_self] at hr
      exact ⟨hl.drop hk (by omega), hs.erase_plan key _, hg⟩
    · simp only [hz]
      refine Exec.Triple.modify ?_
      rintro s ⟨⟨hl, hs, hg⟩, rfl⟩
      obtain ⟨hr, _⟩ := hl.refcount key plan hk
      rw [count_singleton_self] at hr
      exact ⟨hl.unpin hk (by omega), hs.set_plan hmem _, hg⟩

/-! ### Eviction -/

theorem Ledger.release_group {oldest : γ × List κ} {rest : OrderedDict γ (List κ)}
    (h : Ledger Rows n pins t) (hg : t.groups.items = oldest :: rest.items) :
    Ledger Rows n (fun k => pins k + oldest.2.count k) { t with groups := rest } := by
  have hnd : oldest.2.Nodup := h.distinct oldest (by rw [hg]; exact mem_cons_self ..)
  have hcount : ∀ k, group_count t k
      = group_count { t with groups := rest } k + oldest.2.count k := by
    intro k
    unfold group_count
    rw [hg]
    by_cases hk : k ∈ oldest.2
    · rw [count_eq_one_of_mem hnd hk]; simp [hk]
    · rw [count_eq_zero_of_not_mem hk]; simp [hk]
  have hdemand : ∀ k, group_count { t with groups := rest } k + (pins k + oldest.2.count k)
      = group_count t k + pins k := by
    intro k
    have := hcount k
    omega
  refine ⟨?_, ?_, h.pages, ?_, h.rows, h.capacity⟩
  · intro k p hp
    rw [hdemand k]
    exact h.refcount k p hp
  · intro k hpos
    rw [hdemand k] at hpos
    exact h.stored k hpos
  · intro g hgm
    exact h.distinct g (by rw [hg]; exact mem_cons_of_mem _ hgm)

variable (Rows n pins t₀) in
theorem forEach_unpin_spec (groups : OrderedDict γ (List κ)) (keys : List κ) : Exec.Triple
      (fun t => Ledger Rows n (fun k => pins k + keys.count k) t ∧ Shrinks t₀ t ∧ t.groups = groups)
      (Exec.forEach keys unpin)
      (fun _ t => Ledger Rows n pins t ∧ Shrinks t₀ t ∧ t.groups = groups) E := by
  -- the invariant after a front: what is still pinned is the rest of the list
  have hloop := Exec.Triple.forEach (E := E) (f := unpin (κ := κ) (γ := γ) (ρ := ρ))
    (I := fun front t => ∀ back, keys = front ++ back →
      Ledger Rows n (fun k => pins k + back.count k) t ∧ Shrinks t₀ t ∧ t.groups = groups)
    keys []
    (by
      intro front x back heq _
      rw [nil_append] at heq
      refine (unpin_spec Rows n (fun k => pins k + back.count k) t₀ groups x).mono ?_ ?_ (fun _ _ he => he)
      · intro t hI
        obtain ⟨hl, hs, hg⟩ := hI (x :: back) heq
        refine ⟨hl.congr_pins (fun k => ?_), hs, hg⟩
        have : (x :: back).count k = [x].count k + back.count k := by
          rw [← count_append, singleton_append]
        omega
      · rintro _ t ⟨hl, hs, hg⟩ back' heq'
        have hback : back' = back := by
          rw [heq, append_assoc] at heq'
          have := append_cancel_left heq'
          simpa using this.symm
        rw [hback]
        exact ⟨hl, hs, hg⟩)
  refine hloop.mono ?_ ?_ (fun _ _ he => he)
  · rintro t hI back rfl
    exact hI
  · intro _ t hI
    obtain ⟨hl, hs, hg⟩ := hI [] (by simp)
    exact ⟨hl.congr_pins (fun k => by simp), hs, hg⟩

variable (Rows n pins t₀) in
theorem evict_oldest_group_spec (count : ℕ) : Exec.Triple
      (fun t => Ledger Rows n pins t ∧ Shrinks t₀ t ∧ t.groups.items.length = count + 1)
      evict_oldest_group
      (fun _ t => Ledger Rows n pins t ∧ Shrinks t₀ t ∧ t.groups.items.length = count) E := by
  refine Exec.Triple.get_bind (fun t => ?_)
  cases hp : t.groups.popFirst? with
  | none =>
    rintro s ⟨⟨_, _, hlen⟩, rfl⟩
    rw [popFirst?_eq_none_iff.mp hp] at hlen
    simp at hlen
  | some pr =>
    obtain ⟨oldest, rest⟩ := pr
    have hg : t.groups.items = oldest :: rest.items := items_of_popFirst? hp
    refine Exec.Triple.bind (Q := fun _ s =>
      (Ledger Rows n (fun k => pins k + oldest.2.count k) s ∧ Shrinks t₀ s ∧ s.groups = rest)
        ∧ rest.items.length = count) ?_ (fun _ => ?_)
    · refine Exec.Triple.modify ?_
      rintro s ⟨⟨hl, hs, hlen⟩, rfl⟩
      refine ⟨⟨hl.release_group hg, ⟨hs.num_pages, hs.plans, ?_⟩, rfl⟩, ?_⟩
      · intro g hgm
        refine hs.groups g ?_
        rw [OrderedDict.keys, hg]
        exact mem_cons_of_mem _ hgm
      · rw [hg, length_cons] at hlen
        omega
    · refine Exec.Triple.bind (Q := fun _ s =>
        (Ledger Rows n pins s ∧ Shrinks t₀ s ∧ s.groups = rest) ∧ rest.items.length = count)
        ?_ (fun _ => ?_)
      · intro s hs
        have h := forEach_unpin_spec Rows n pins (E := E) t₀ rest oldest.2 s hs.1
        exact ⟨fun a s' ha => ⟨h.1 a s' ha, hs.2⟩, h.2⟩
      · refine Exec.Triple.modify ?_
        rintro s ⟨⟨hl, hs, hg'⟩, hlen⟩
        refine ⟨⟨hl.refcount, hl.stored, hl.pages, hl.distinct, hl.rows, hl.capacity⟩,
          ⟨hs.num_pages, hs.plans, hs.groups⟩, ?_⟩
        rw [← hlen, ← hg']

variable (Rows n pins t₀) in
theorem evict_until_fits_spec (needed : ℕ) : ∀ turns : ℕ, Exec.Triple
      (fun t => Ledger Rows n pins t ∧ Shrinks t₀ t ∧ t.groups.items.length = turns)
      (evict_until_fits needed turns) (fun _ t => Ledger Rows n pins t ∧ Shrinks t₀ t
        ∧ (needed ≤ t.free_pages.length ∨ t.groups.items = [])) E := by
  intro turns
  induction turns with
  | zero =>
    refine Exec.Triple.pure ?_
    rintro t ⟨hl, hs, hlen⟩
    exact ⟨hl, hs, Or.inr (length_eq_zero_iff.mp hlen)⟩
  | succ turns ih =>
    refine Exec.Triple.get_bind (fun t => ?_)
    by_cases hc : needed > t.free_pages.length ∧ t.groups.items ≠ []
    · rw [if_pos hc]
      have hev := evict_oldest_group_spec Rows n pins (E := E) t₀ turns
      refine Exec.Triple.bind (Q := fun _ s =>
        Ledger Rows n pins s ∧ Shrinks t₀ s ∧ s.groups.items.length = turns) ?_ (fun _ => ih)
      exact hev.mono (fun s hs => hs.1) (fun _ _ h => h) (fun _ _ h => h)
    · rw [if_neg hc]
      refine Exec.Triple.pure ?_
      rintro s ⟨⟨hl, hs, _⟩, rfl⟩
      refine ⟨hl, hs, ?_⟩
      by_cases hn : needed ≤ s.free_pages.length
      · exact Or.inl hn
      · refine Or.inr ?_
        by_contra hg
        exact hc ⟨by omega, hg⟩

theorem perform_cases {σ : Type} (fault : Option (AdalnStep κ)) (step : AdalnStep κ) (s : σ) :
    (fault ≠ some step ∧ perform fault step s = (.ok (), s)) ∨
      (fault = some step ∧ perform fault step s = (.error (.raised step), s)) := by
  unfold perform
  by_cases hf : fault = some step
  · rw [if_pos hf]
    exact Or.inr ⟨hf, rfl⟩
  · rw [if_neg hf]
    exact Or.inl ⟨hf, rfl⟩

theorem perform_spec {σ : Type} (fault : Option (AdalnStep κ)) (step : AdalnStep κ) (P : σ → Prop) :
    Exec.Triple P (perform fault step) (fun _ => P)
      (fun e s => (fault = some step ∧ e = .raised step) ∧ P s) := by
  intro s hs
  rcases perform_cases fault step s with ⟨_, hok⟩ | ⟨hf, herr⟩
  · exact Exec.Triple.of_ok hok hs
  · exact Exec.Triple.of_error herr ⟨⟨hf, rfl⟩, hs⟩

/-! ### Staging

`staged` is what the loop has built so far: the plans are not visible yet, but their
pages have left the free list and hold their rows. -/

/-- The state of the staging loop after some entries of `new_plans`. -/
structure Staged (Rows : κ → List ρ → Prop) (n : ℕ) (t₀ : HostTier κ γ ρ)
    (done : List (κ × (ℕ × ℕ))) (staged : List (κ × HostPlan)) (t : HostTier κ γ ρ) : Prop where
  plans : t.plans = t₀.plans
  groups : t.groups = t₀.groups
  num_pages : t.num_pages = t₀.num_pages
  keys : staged.map Prod.fst = done.map Prod.fst
  counts : ∀ p ∈ staged, p.2.refcount = 1
  room : t.free_pages.length + pages_needed done = t₀.free_pages.length
  pages : (t.free_pages ++ (staged.flatMap (fun p => p.2.pages) ++ stored_pages t)).Perm
    (List.range n)
  staged_rows : ∀ p ∈ staged, Rows p.1 (p.2.pages.map t.slab)
  rows : ∀ key plan, t.plans.get? key = some plan → Rows key (plan.pages.map t.slab)

omit [DecidableEq κ] in
theorem take_pages_spec (t₀ : HostTier κ γ ρ) (count : ℕ) : Exec.Triple
      (fun t => t = t₀ ∧ count ≤ t.free_pages.length)
      (Exec.mapEach (List.range count) (fun _ => pop_free_page))
      (fun pages t => pages.length = count ∧ (t.free_pages ++ pages).Perm t₀.free_pages
        ∧ ∃ free, t = { t₀ with free_pages := free }) E := by
  have hloop := Exec.Triple.mapEach (E := E)
    (f := fun _ : ℕ => pop_free_page (κ := κ) (γ := γ) (ρ := ρ))
    (I := fun done pages t => pages.length = done.length ∧
      (t.free_pages ++ pages).Perm t₀.free_pages ∧
      (∃ free, t = { t₀ with free_pages := free }) ∧ count ≤ t₀.free_pages.length)
    (List.range count) [] []
    (by
      intro front x back pages heq _
      refine Exec.Triple.get_bind (fun t => ?_)
      have hfront : front.length < count := by
        have := congrArg List.length heq
        simp only [nil_append, length_range, length_append, length_cons] at this
        omega
      cases hl : t.free_pages.getLast? with
      | none =>
        rintro s ⟨⟨hlen, hperm, _, hroom⟩, rfl⟩
        rw [getLast?_eq_none_iff] at hl
        have := hperm.length_eq
        rw [hl, nil_append] at this
        omega
      | some page =>
        have hsplit : t.free_pages = t.free_pages.dropLast ++ [page] := by
          obtain ⟨ys, hys⟩ := getLast?_eq_some_iff.mp hl
          rw [hys, dropLast_concat]
        refine Exec.Triple.bind (Q := fun _ s =>
          (pages ++ [page]).length = (front ++ [x]).length ∧
          (s.free_pages ++ (pages ++ [page])).Perm t₀.free_pages ∧
          (∃ free, s = { t₀ with free_pages := free }) ∧ count ≤ t₀.free_pages.length)
          (Exec.Triple.modify ?_) (fun _ => Exec.Triple.pure (fun _ h => h))
        rintro s ⟨⟨hlen, hperm, ⟨free, hfree⟩, hroom⟩, rfl⟩
        refine ⟨by simp [hlen], ?_, ⟨s.free_pages.dropLast, by rw [hfree]⟩, hroom⟩
        rw [hsplit] at hperm
        refine List.Perm.trans ?_ hperm
        rw [append_assoc]
        exact (perm_append_comm).append_left _)
  refine hloop.mono ?_ ?_ (fun _ _ he => he)
  · rintro t ⟨rfl, hroom⟩
    refine ⟨rfl, ?_, ⟨t.free_pages, rfl⟩, hroom⟩
    rw [append_nil]
  · rintro pages t ⟨hlen, hperm, hfree, _⟩
    simp only [nil_append, length_range] at hlen hperm
    exact ⟨hlen, hperm, hfree⟩

/-- The page slab as a buffer of the tier. -/
def slab_buffer : Exec.Buffer (HostTier κ γ ρ) ℕ ρ where
  read t := t.slab
  write slab t := { t with slab := slab }
  read_write _ _ := rfl
  write_write _ _ _ := rfl
  write_read _ := rfl

theorem store_pages_spec (fault : Option (AdalnStep κ)) (gpu : ℕ → ℕ → ρ) (key : κ) (slot : ℕ)
    (t₀ : HostTier κ γ ρ) (pages : List ℕ) (hnd : pages.Nodup) : Exec.Triple
      (fun t => t = t₀) (Exec.forEach pages.zipIdx (store_page fault gpu key slot))
      (fun _ t => pages.map t.slab = (List.range pages.length).map (gpu slot) ∧
        ∃ slab, t = { t₀ with slab := slab } ∧ ∀ q, q ∉ pages → slab q = t₀.slab q)
      (Faulted fault) := by
  have hwrite : ∀ page ∈ pages.zipIdx, (slab_buffer (κ := κ) (γ := γ) (ρ := ρ)).Writes
      (store_page fault gpu key slot page) page.1 (fun _ => gpu slot page.2) ()
      (fun e => ∃ step, fault = some step ∧ e = .raised step ∧
        ((∃ key index, step = .store_page key index) ∨ step = .synchronize)) := by
    intro page _ t
    rcases perform_cases fault (.store_page key page.2) t with ⟨_, hok⟩ | ⟨hf, herr⟩
    · exact Or.inl (Exec.bind_of_ok hok)
    · exact Or.inr ⟨_, ⟨_, hf, rfl, Or.inl ⟨_, _, rfl⟩⟩, Exec.bind_of_error herr⟩
  have hloop := Exec.Triple.forEach_writes t₀ pages.zipIdx
    (by rw [zipIdx_map_fst]; exact hnd) hwrite
  refine hloop.mono (fun _ h => h) ?_ (fun _ _ h => h.1)
  rintro _ t ⟨slab, rfl, hdone, hkeep⟩
  rw [zipIdx_map_fst] at hkeep
  refine ⟨?_, slab, rfl, hkeep⟩
  refine ext_getElem (by simp) (fun i h₁ h₂ => ?_)
  rw [length_map] at h₁
  rw [getElem_map, getElem_map, getElem_range]
  refine hdone (pages[i], i) ?_
  rw [mem_zipIdx_iff_getElem?]
  exact getElem?_eq_getElem h₁

theorem stage_plan_spec (fault : Option (AdalnStep κ)) (gpu : ℕ → ℕ → ρ) (t₀ : HostTier κ γ ρ)
    (done : List (κ × (ℕ × ℕ))) (staged : List (κ × HostPlan)) (entry : κ × (ℕ × ℕ))
    (hroom : pages_needed (done ++ [entry]) ≤ t₀.free_pages.length)
    (hrows : Rows entry.1 ((List.range entry.2.2).map (gpu entry.2.1))) : Exec.Triple
      (Staged Rows n t₀ done staged) (stage_plan fault gpu entry)
      (fun plan => Staged Rows n t₀ (done ++ [entry]) (staged ++ [plan])) (Faulted fault) := by
  intro t ht
  have hneed : pages_needed (done ++ [entry]) = pages_needed done + entry.2.2 := by
    simp [pages_needed]
  have hfit : entry.2.2 ≤ t.free_pages.length := by
    have := ht.room
    omega
  refine Exec.Triple.bind (P := fun s => s = t)
    (Q := fun pages s => pages.length = entry.2.2 ∧ (s.free_pages ++ pages).Perm t.free_pages
      ∧ ∃ free, s = { t with free_pages := free }) ?_ (fun pages => ?_) t rfl
  · exact (take_pages_spec t entry.2.2).mono (by rintro s rfl; exact ⟨rfl, hfit⟩)
      (fun _ _ h => h) (fun _ _ h => h)
  · rintro s ⟨hlen, hperm, free, rfl⟩
    -- the taken pages are distinct and belong to no stored or staged plan
    have hall : ((free ++ pages) ++ (staged.flatMap (fun p => p.2.pages) ++ stored_pages t)).Perm
        (List.range n) := (hperm.append_right _).trans ht.pages
    have hnd : ((free ++ pages) ++ (staged.flatMap (fun p => p.2.pages) ++ stored_pages t)).Nodup :=
      hall.nodup_iff.mpr nodup_range
    rw [nodup_append] at hnd
    have hfresh : ∀ q ∈ staged.flatMap (fun p => p.2.pages) ++ stored_pages t, q ∉ pages :=
      fun q hq hp => hnd.2.2 q (mem_append_right _ hp) q hq rfl
    have hpnd : pages.Nodup := (nodup_append.mp hnd.1).2.1
    refine Exec.Triple.bind (P := fun s => s = { t with free_pages := free })
      (store_pages_spec fault gpu entry.1 entry.2.1 { t with free_pages := free } pages hpnd)
      (fun _ => Exec.Triple.pure ?_) _ rfl
    rintro u ⟨hnew, slab, rfl, hkeep⟩
    have hkeepmap : ∀ ps : List ℕ, (∀ q ∈ ps, q ∉ pages) → ps.map slab = ps.map t.slab :=
      fun ps hps => map_congr_left (fun q hq => hkeep q (hps q hq))
    refine ⟨ht.plans, ht.groups, ht.num_pages, ?_, ?_, ?_, ?_, ?_, ?_⟩
    · simp [ht.keys]
    · intro p hp
      rcases mem_append.mp hp with h | h
      · exact ht.counts p h
      · rw [mem_singleton.mp h]
    · have h1 := ht.room
      have h2 := hperm.length_eq
      simp only [length_append] at h2
      show free.length + pages_needed (done ++ [entry]) = _
      omega
    · refine List.Perm.trans ?_ hall
      simp only [flatMap_append, flatMap_cons, flatMap_nil, append_nil, append_assoc]
      refine List.Perm.append_left _ ?_
      rw [← append_assoc, ← append_assoc]
      exact perm_append_comm.append_right _
    · intro p hp
      rcases mem_append.mp hp with h | h
      · rw [hkeepmap]
        · exact ht.staged_rows p h
        · intro q hq
          exact hfresh q (mem_append_left _ (mem_flatMap.mpr ⟨p, h, hq⟩))
      · rw [mem_singleton.mp h]
        have hnew' : pages.map slab = (List.range pages.length).map (gpu entry.2.1) := hnew
        rw [hnew', hlen]
        exact hrows
    · intro k p hp
      rw [hkeepmap]
      · exact ht.rows k p hp
      · intro q hq
        refine hfresh q (mem_append_right _ (mem_flatMap.mpr ⟨(k, p), ?_, hq⟩))
        exact get?_eq_some_iff.mp hp

/-! ### Commits -/

variable [DecidableEq γ]

variable {group_key : γ} {keys : List κ}

theorem group_count_set (plans : OrderedDict κ HostPlan) (hg : group_key ∉ t.groups.keys) (k : κ) :
    group_count { t with plans := plans, groups := t.groups.set group_key keys } k
      = group_count t k + (if k ∈ keys then 1 else 0) := by
  unfold group_count
  rw [items_set_of_notMem hg]
  by_cases hk : k ∈ keys
  · simp [hk]
  · simp [hk]

omit [DecidableEq κ] in
theorem distinct_set (h : ∀ g ∈ t.groups.items, g.2.Nodup) (hnd : keys.Nodup) :
    ∀ g ∈ (t.groups.set group_key keys).items, g.2.Nodup := by
  intro g hg
  rcases OrderedDict.mem_set.mp hg with rfl | ⟨hin, _⟩
  · exact hnd
  · exact h g hin

theorem Ledger.add_group (h : Ledger Rows n (fun k => pins k + keys.count k) t)
    (hg : group_key ∉ t.groups.keys) (hnd : keys.Nodup) :
    Ledger Rows n pins { t with groups := t.groups.set group_key keys } := by
  have hdemand : ∀ k, group_count { t with groups := t.groups.set group_key keys } k + pins k
      = group_count t k + (pins k + keys.count k) := by
    intro k
    rw [group_count_set t.plans hg k]
    by_cases hk : k ∈ keys
    · rw [count_eq_one_of_mem hnd hk, if_pos hk]; omega
    · rw [count_eq_zero_of_not_mem hk, if_neg hk]; omega
  refine ⟨?_, ?_, h.pages, distinct_set h.distinct hnd, h.rows, h.capacity⟩
  · intro k p hp
    rw [hdemand k]
    exact h.refcount k p hp
  · intro k hpos
    rw [hdemand k] at hpos
    exact h.stored k hpos

/-- **The commit of `store_group`.** Shared plans are pinned once, the missing ones are
staged; making both visible under the new group balances the ledger. -/
theorem Ledger.commit {entries : OrderedDict κ (ℕ × ℕ)} {shared : List κ}
    {new_plans : List (κ × (ℕ × ℕ))} {staged : List (κ × HostPlan)}
    (h : Ledger Rows n (fun k => shared.count k) t₀) (hg : group_key ∉ t₀.groups.keys)
    (hs : Staged Rows n t₀ new_plans staged t) (hshared : shared.Nodup)
    (hmem : ∀ k, k ∈ entries.keys ↔ k ∈ shared ∨ k ∈ new_plans.map Prod.fst)
    (hnew : (new_plans.map Prod.fst).Nodup) (hfresh : ∀ e ∈ new_plans, e.1 ∉ t₀.plans.keys) :
    Ledger Rows n no_pins
      { t with plans := t.plans.update staged, groups := t.groups.set group_key entries.keys } := by
  have hkeys : (staged.map Prod.fst).Nodup := by rw [hs.keys]; exact hnew
  have hfresh' : ∀ p ∈ staged, p.1 ∉ t.plans.keys := by
    intro p hp
    have hin : p.1 ∈ new_plans.map Prod.fst := by
      rw [← hs.keys]; exact mem_map.mpr ⟨p, hp, rfl⟩
    obtain ⟨e, he, hpe⟩ := mem_map.mp hin
    rw [hs.plans, ← hpe]
    exact hfresh e he
  have hitems : (t.plans.update staged).items = t.plans.items ++ staged :=
    items_update_of_fresh staged t.plans hkeys hfresh'
  have hgt : group_key ∉ t.groups.keys := by rw [hs.groups]; exact hg
  have hcount0 : ∀ k, group_count t k = group_count t₀ k := by
    intro k; unfold group_count; rw [hs.groups]
  have hcount : ∀ k, group_count
      { t with plans := t.plans.update staged, groups := t.groups.set group_key entries.keys } k
        + no_pins k
      = group_count t₀ k + (if k ∈ entries.keys then 1 else 0) := by
    intro k
    rw [group_count_set _ hgt k, hcount0 k]
    rfl
  -- a missing plan has no claim before the commit
  have hzero : ∀ k ∈ new_plans.map Prod.fst, group_count t₀ k = 0 ∧ k ∉ shared := by
    intro k hk
    obtain ⟨e, he, rfl⟩ := mem_map.mp hk
    have hnot : ¬ 0 < group_count t₀ e.1 + shared.count e.1 :=
      fun hpos => hfresh e he (h.stored e.1 hpos)
    refine ⟨by omega, fun hin => ?_⟩
    have := count_pos_iff.mpr hin
    omega
  refine ⟨?_, ?_, ?_, distinct_set (by rw [hs.groups]; exact h.distinct) entries.keys_nodup, ?_,
    hs.num_pages.trans h.capacity⟩
  · intro k p hp
    rw [hcount k]
    rw [get?_eq_some_iff, hitems, mem_append] at hp
    rcases hp with hp | hp
    · -- a plan that was already stored
      rw [hs.plans, ← get?_eq_some_iff] at hp
      have hold := h.refcount k p hp
      have hkin : k ∈ t₀.plans.keys := mem_keys_iff.mpr ⟨p, hp⟩
      have hnotnew : k ∉ new_plans.map Prod.fst := by
        intro hk
        obtain ⟨e, he, rfl⟩ := mem_map.mp hk
        exact hfresh e he hkin
      have hpin : shared.count k = if k ∈ entries.keys then 1 else 0 := by
        by_cases hk : k ∈ shared
        · rw [count_eq_one_of_mem hshared hk, if_pos ((hmem k).mpr (Or.inl hk))]
        · have hne : k ∉ entries.keys := fun hin => ((hmem k).mp hin).elim hk hnotnew
          rw [count_eq_zero_of_not_mem hk, if_neg hne]
      rw [← hpin]
      exact hold
    · -- a plan staged by this call
      have hk : k ∈ new_plans.map Prod.fst := by
        rw [← hs.keys]; exact mem_map.mpr ⟨(k, p), hp, rfl⟩
      have hone : p.refcount = 1 := hs.counts (k, p) hp
      rw [(hzero k hk).1, if_pos ((hmem k).mpr (Or.inr hk)), hone]
      exact ⟨rfl, by omega⟩
  · intro k hpos
    rw [hcount k] at hpos
    rw [OrderedDict.keys, hitems, map_append, mem_append, hs.keys]
    by_cases hk : k ∈ new_plans.map Prod.fst
    · exact Or.inr hk
    · refine Or.inl ?_
      rw [hs.plans]
      refine h.stored k ?_
      by_cases hin : k ∈ entries.keys
      · have hsh : k ∈ shared := ((hmem k).mp hin).resolve_right hk
        have := count_pos_iff.mpr hsh
        omega
      · rw [if_neg hin] at hpos
        omega
  · refine List.Perm.trans ?_ hs.pages
    show (t.free_pages ++ (t.plans.update staged).items.flatMap _).Perm _
    rw [hitems, flatMap_append]
    exact perm_append_comm.append_left _
  · intro k p hp
    rw [get?_eq_some_iff, hitems, mem_append] at hp
    rcases hp with hp | hp
    · exact hs.rows k p (get?_eq_some_iff.mpr hp)
    · exact hs.staged_rows (k, p) hp

/-! ### The three public operations -/

theorem Ledger.touch (h : Ledger Rows n pins t) (group_key : γ) :
    Ledger Rows n pins { t with groups := t.groups.moveToEnd group_key } := by
  have hperm := items_moveToEnd_perm t.groups group_key
  have hcount : ∀ k, group_count { t with groups := t.groups.moveToEnd group_key } k
      = group_count t k := fun k => hperm.countP_eq _
  refine ⟨?_, ?_, h.pages, fun g hgm => h.distinct g (hperm.mem_iff.mp hgm), h.rows, h.capacity⟩
  · intro k p hp
    rw [hcount k]
    exact h.refcount k p hp
  · intro k hpos
    rw [hcount k] at hpos
    exact h.stored k hpos

omit [DecidableEq γ] in
theorem Ledger.group_count_pos (h : Ledger Rows n no_pins t) {k : κ} (hk : k ∈ t.plans.keys) :
    0 < group_count t k := by
  obtain ⟨p, hp⟩ := mem_keys_iff.mp hk
  have hpos := (h.refcount k p hp).2
  simpa [no_pins] using hpos

theorem register_group_spec (group_key : γ) (keys : List κ) (hnd : keys.Nodup) :
    Exec.Triple (Ledger Rows n no_pins) (register_group group_key keys)
      (fun _ => Ledger Rows n no_pins (γ := γ)) E := by
  refine Exec.Triple.get_bind (fun t => ?_)
  by_cases hg : group_key ∈ t.groups.keys
  · rw [if_pos hg]
    refine Exec.Triple.modify ?_
    rintro s ⟨hl, _⟩
    exact hl.touch group_key
  · rw [if_neg hg]
    by_cases hall : has_all t keys = true
    · rw [if_pos hall]
      refine Exec.Triple.bind (Q := fun _ s =>
        Ledger Rows n (fun k => no_pins k + keys.count k) s ∧ Shrinks t s ∧ s.groups = t.groups)
        ?_ (fun _ => ?_)
      · -- each member has a claim already, so it stays stored while the others are pinned
        have hloop := Exec.Triple.forEach (E := E) (f := pin (κ := κ) (γ := γ) (ρ := ρ))
          (I := fun front s => Ledger Rows n (fun k => no_pins k + front.count k) s ∧
            Shrinks t s ∧ s.groups = t.groups ∧ ∀ k ∈ keys, 0 < group_count t k) keys []
          (by
            intro front x back heq _
            have hx : x ∈ keys := by
              rw [nil_append] at heq
              rw [heq]; exact mem_append_right _ (mem_cons_self ..)
            intro s hI
            obtain ⟨hl, hs, hgs, hpos⟩ := hI
            have hcs : group_count s x = group_count t x := by unfold group_count; rw [hgs]
            have hstored : x ∈ s.plans.keys := hl.stored x (by have := hpos x hx; omega)
            have h := pin_spec Rows n (fun k => no_pins k + front.count k) (E := E) t t.groups x s
              ⟨hl, hstored, hs, hgs⟩
            refine ⟨fun a s' ha => ?_, h.2⟩
            obtain ⟨hl', hs', hgs'⟩ := h.1 a s' ha
            refine ⟨hl'.congr_pins (fun k => ?_), hs', hgs', hpos⟩
            rw [count_append]; omega)
        refine hloop.mono ?_ ?_ (fun _ _ he => he)
        · rintro s ⟨hl, rfl⟩
          refine ⟨hl.congr_pins (fun k => by simp [no_pins]), Shrinks.refl s, rfl, ?_⟩
          intro k hk
          refine hl.group_count_pos ?_
          simpa using all_eq_true.mp hall k hk
        · rintro _ s ⟨hl, hs, hgs, _⟩
          exact ⟨hl, hs, hgs⟩
      · refine Exec.Triple.modify ?_
        rintro s ⟨hl, _, hgs⟩
        exact hl.add_group (by rw [hgs]; exact hg) hnd
    · rw [if_neg hall]
      refine Exec.Triple.pure ?_
      rintro s ⟨hl, _⟩
      exact hl

/-- The keys of `entries` that are stored when `store_group` starts. -/
def shared_keys (t : HostTier κ γ ρ) (entries : OrderedDict κ (ℕ × ℕ)) : List κ :=
  entries.keys.filter (fun k => decide (k ∈ t.plans.keys))

omit [DecidableEq γ] in
theorem pin_shared_spec (t₀ : HostTier κ γ ρ)
    (entries : OrderedDict κ (ℕ × ℕ)) (hpos : ∀ k ∈ t₀.plans.keys, 0 < group_count t₀ k) :
    Exec.Triple
      (fun t => Ledger Rows n no_pins t ∧ t = t₀) (Exec.forEach entries.keys (if_stored pin))
      (fun _ t => Ledger Rows n (fun k => (shared_keys t₀ entries).count k) t ∧ Shrinks t₀ t
        ∧ t.groups = t₀.groups) E := by
  have hloop := Exec.Triple.forEach (E := E) (f := if_stored (pin (κ := κ) (γ := γ) (ρ := ρ)))
    (I := fun front t =>
      Ledger Rows n (fun k => (front.filter (fun k => decide (k ∈ t₀.plans.keys))).count k) t ∧
      Shrinks t₀ t ∧ t.groups = t₀.groups) entries.keys []
    (by
      intro front x back _ _
      refine Exec.Triple.get_bind (fun t => ?_)
      by_cases hx : x ∈ t.plans.keys
      · rw [if_pos hx]
        rintro s ⟨⟨hl, hs, hg⟩, rfl⟩
        have hx₀ : x ∈ t₀.plans.keys := hs.plans x hx
        have h := pin_spec Rows n _ (E := E) t₀ t₀.groups x s ⟨hl, hx, hs, hg⟩
        refine ⟨fun a s' ha => ?_, h.2⟩
        obtain ⟨hl', hs', hg'⟩ := h.1 a s' ha
        refine ⟨hl'.congr_pins (fun k => ?_), hs', hg'⟩
        simp [hx₀]
      · rw [if_neg hx]
        refine Exec.Triple.pure ?_
        rintro s ⟨⟨hl, hs, hg⟩, rfl⟩
        -- a plan stored at the start has a claim, so it is still stored
        have hx₀ : x ∉ t₀.plans.keys := by
          intro hin
          refine hx (hl.stored x ?_)
          have hcs : group_count s x = group_count t₀ x := by unfold group_count; rw [hg]
          have := hpos x hin
          omega
        refine ⟨hl.congr_pins (fun k => ?_), hs, hg⟩
        simp [hx₀])
  refine hloop.mono ?_ ?_ (fun _ _ he => he)
  · rintro t ⟨hl, rfl⟩
    exact ⟨hl.congr_pins (fun _ => by simp [no_pins]), Shrinks.refl t, rfl⟩
  · rintro _ t h
    exact h

omit [DecidableEq γ] in
theorem unpin_shared_spec (t₀ : HostTier κ γ ρ) (entries : OrderedDict κ (ℕ × ℕ)) : Exec.Triple
      (fun t => Ledger Rows n (fun k => (shared_keys t₀ entries).count k) t ∧ Shrinks t₀ t)
      (Exec.forEach entries.keys (if_stored unpin)) (fun _ t => Ledger Rows n no_pins t) E := by
  have hloop := Exec.Triple.forEach (E := E) (f := if_stored (unpin (κ := κ) (γ := γ) (ρ := ρ)))
    (I := fun front t => ∀ back, entries.keys = front ++ back →
      Ledger Rows n (fun k => (back.filter (fun k => decide (k ∈ t₀.plans.keys))).count k) t ∧
      Shrinks t₀ t) entries.keys []
    (by
      intro front x back heq _
      rw [nil_append] at heq
      have hcancel : ∀ back', entries.keys = front ++ [x] ++ back' → back' = back := by
        intro back' heq'
        rw [heq, append_assoc] at heq'
        have := append_cancel_left heq'
        simpa using this.symm
      refine Exec.Triple.get_bind (fun t => ?_)
      by_cases hx : x ∈ t.plans.keys
      · rw [if_pos hx]
        rintro s ⟨hI, rfl⟩
        obtain ⟨hl, hs⟩ := hI (x :: back) heq
        have hx₀ : x ∈ t₀.plans.keys := hs.plans x hx
        have hl' : Ledger Rows n
            (fun k => (back.filter (fun k => decide (k ∈ t₀.plans.keys))).count k
              + [x].count k) s := by
          refine hl.congr_pins (fun k => ?_)
          rw [filter_cons_of_pos (by simpa using hx₀), count_cons, count_singleton]
        have h := unpin_spec Rows n _ (E := E) t₀ s.groups x s ⟨hl', hs, rfl⟩
        refine ⟨fun a s' ha back' heq' => ?_, h.2⟩
        rw [hcancel back' heq']
        obtain ⟨hl'', hs'', _⟩ := h.1 a s' ha
        exact ⟨hl'', hs''⟩
      · rw [if_neg hx]
        refine Exec.Triple.pure ?_
        rintro s ⟨hI, rfl⟩ back' heq'
        rw [hcancel back' heq']
        obtain ⟨hl, hs⟩ := hI (x :: back) heq
        -- a shared plan is pinned, hence stored: `x` was missing from the start
        have hx₀ : x ∉ t₀.plans.keys := by
          intro hin
          refine hx (hl.stored x ?_)
          rw [filter_cons_of_pos (by simpa using hin), count_cons_self]
          omega
        refine ⟨hl.congr_pins (fun k => ?_), hs⟩
        rw [filter_cons_of_neg (by simpa using hx₀)])
  refine hloop.mono ?_ ?_ (fun _ _ he => he)
  · rintro t ⟨hl, hs⟩ back rfl
    exact ⟨hl, hs⟩
  · intro _ t hI
    obtain ⟨hl, _⟩ := hI [] (by simp)
    exact hl.congr_pins (fun _ => by simp [no_pins])

theorem store_group_spec (fault : Option (AdalnStep κ)) (gpu : ℕ → ℕ → ρ) (group_key : γ)
    (entries : OrderedDict κ (ℕ × ℕ))
    (hrows : ∀ e ∈ entries.items, Rows e.1 ((List.range e.2.2).map (gpu e.2.1))) :
    Exec.Triple (Ledger Rows n no_pins) (store_group fault gpu group_key entries)
      (fun _ => Ledger Rows n no_pins (γ := γ)) (Faulted fault) := by
  refine Exec.Triple.get_bind (fun t₀ => ?_)
  by_cases hg : group_key ∈ t₀.groups.keys
  · rw [if_pos hg]
    refine Exec.Triple.modify ?_
    rintro s ⟨hl, _⟩
    exact hl.touch group_key
  rw [if_neg hg]
  set new_plans := entries.items.filter (fun e => decide (e.1 ∉ t₀.plans.keys)) with hnew
  by_cases hbig : pages_needed new_plans > t₀.num_pages
  · rw [if_pos hbig]
    refine Exec.Triple.modify ?_
    rintro s ⟨hl, _⟩
    exact ⟨hl.refcount, hl.stored, hl.pages, hl.distinct, hl.rows, hl.capacity⟩
  rw [if_neg hbig]
  refine Exec.Triple.bind (Q := fun _ t =>
    Ledger Rows n (fun k => (shared_keys t₀ entries).count k) t ∧ Shrinks t₀ t
      ∧ t.groups = t₀.groups) ?_ (fun _ => ?_)
  · rintro s ⟨hl, rfl⟩
    exact pin_shared_spec s entries (fun k hk => hl.group_count_pos hk) s ⟨hl, rfl⟩
  refine Exec.Triple.bind (Q := fun _ t =>
    Ledger Rows n (fun k => (shared_keys t₀ entries).count k) t ∧ Shrinks t₀ t
      ∧ (pages_needed new_plans ≤ t.free_pages.length ∨ t.groups.items = [])) ?_ (fun _ => ?_)
  · refine (evict_until_fits_spec Rows n _ t₀ (pages_needed new_plans) t₀.groups.size).mono ?_
      (fun _ _ h => h) (fun _ _ h => h)
    rintro t ⟨hl, hs, hgs⟩
    exact ⟨hl, hs, by rw [hgs]; rfl⟩
  refine Exec.Triple.get_bind (fun t₁ => ?_)
  by_cases hfull : pages_needed new_plans > t₁.free_pages.length
  · rw [if_pos hfull]
    refine Exec.Triple.bind (Q := fun _ t => Ledger Rows n no_pins t) ?_ (fun _ => ?_)
    · exact (unpin_shared_spec t₀ entries).mono (fun s hs => ⟨hs.1.1, hs.1.2.1⟩)
        (fun _ _ h => h) (fun _ _ h => h)
    · refine Exec.Triple.modify ?_
      intro s hl
      exact ⟨hl.refcount, hl.stored, hl.pages, hl.distinct, hl.rows, hl.capacity⟩
  rw [if_neg hfull]
  rintro s ⟨⟨hl, hs, _⟩, rfl⟩
  -- from here on `s` is the state the staging loop starts in
  refine Exec.Triple.bind (P := fun t => t = s)
    (Q := fun staged => Staged Rows n s new_plans staged) ?_ (fun staged => ?_) s rfl
  · have hloop := Exec.Triple.mapEach (E := Faulted fault)
      (f := stage_plan (γ := γ) fault gpu)
      (I := fun done staged => Staged Rows n s done staged) new_plans [] []
      (by
        intro front x back staged heq _
        rw [nil_append] at heq
        have hx : x ∈ new_plans := by
          rw [heq]; exact mem_append_right _ (mem_cons_self ..)
        refine stage_plan_spec fault gpu s front staged x ?_
          (hrows x (mem_filter.mp (hnew ▸ hx)).1)
        have hle : pages_needed (front ++ [x]) ≤ pages_needed new_plans := by
          rw [heq]; simp [pages_needed]
        omega)
    refine hloop.mono ?_ (fun _ _ h => by simpa using h) (fun _ _ h => h)
    rintro t rfl
    refine ⟨rfl, rfl, rfl, rfl, by simp, by simp [pages_needed], ?_, by simp, hl.rows⟩
    simpa using hl.pages
  · refine Exec.Triple.bind ((perform_spec fault .synchronize _).mono (fun _ h => h) (fun _ _ h => h)
      (fun _ _ h => ⟨_, h.1.1, h.1.2, Or.inr rfl⟩)) (fun _ => Exec.Triple.modify ?_)
    intro t hst
    have hsub : new_plans.Sublist entries.items := hnew ▸ filter_sublist
    refine hl.commit (fun hin => hg (hs.groups _ hin)) hst
      (entries.keys_nodup.filter _) ?_ ((hsub.map _).nodup entries.nodup) ?_
    · intro k
      rw [shared_keys, mem_filter]
      constructor
      · intro hk
        by_cases hin : k ∈ t₀.plans.keys
        · exact Or.inl ⟨hk, by simpa using hin⟩
        · obtain ⟨e, he, rfl⟩ := mem_map.mp hk
          refine Or.inr (mem_map.mpr ⟨e, ?_, rfl⟩)
          exact mem_filter.mpr ⟨he, by simpa using hin⟩
      · rintro (hk | hk)
        · exact hk.1
        · obtain ⟨e, he, rfl⟩ := mem_map.mp hk
          exact mem_map.mpr ⟨e, hsub.subset he, rfl⟩
    · intro e he hin
      have hnot : e.1 ∉ t₀.plans.keys := by simpa using (mem_filter.mp he).2
      exact hnot (hs.plans e.1 hin)

variable (Rows n) in
omit [DecidableEq γ] in
theorem clear_spec : Exec.Triple (fun t => t.num_pages = n) (clear (κ := κ) (γ := γ) (ρ := ρ))
      (fun _ => Ledger Rows n no_pins) E := by
  refine Exec.Triple.modify ?_
  intro t hn
  refine ⟨?_, ?_, ?_, ?_, ?_, hn⟩
  · intro k p hp
    simp at hp
  · intro k hpos
    simp [group_count, no_pins] at hpos
  · simp [stored_pages, hn]
  · intro g hg
    simp at hg
  · intro k p hp
    simp at hp

end Specs

/-! ## What a call raises

After a store that raised the ledger may be off: some pins stay, some pages are lost. From such a
state a call may also miss a key or find no page, but it raises no step of the cache's own. -/

section Errors

variable {κ γ ρ : Type}

/-- An error of a container, or of a step of the store. -/
def StoreError : PyErr κ → Prop
  | .raised (.store_page _ _) => True
  | .raised .synchronize => True
  | .raised _ => False
  | .value_error _ => False
  | _ => True

/-- Whatever state it starts in, a computation raises only such errors. -/
abbrev StoreSafe {α : Type} (m : TierM κ γ ρ α) : Prop :=
  Exec.Triple (fun _ => True) m (fun _ _ => True) (fun e _ => StoreError e)

theorem storeSafe_modify (f : HostTier κ γ ρ → HostTier κ γ ρ) :
    StoreSafe (κ := κ) (Exec.modify f) :=
  Exec.Triple.modify fun _ _ => trivial

theorem storeSafe_get {α : Type} {f : HostTier κ γ ρ → TierM κ γ ρ α}
    (h : ∀ t, StoreSafe (f t)) : StoreSafe (Exec.get >>= f) :=
  Exec.Triple.get_bind fun t => (h t).mono (fun _ _ => trivial) (fun _ _ h => h) (fun _ _ h => h)

theorem storeSafe_loop {α : Type} {f : α → TierM κ γ ρ Unit} (xs : List α)
    (h : ∀ x, StoreSafe (f x)) : StoreSafe (Exec.forEach xs f) :=
  Exec.Triple.forEach (I := fun _ _ => True) xs [] fun _ x _ _ _ => h x

theorem storeSafe_collect {α β : Type} {f : α → TierM κ γ ρ β} (xs : List α)
    (h : ∀ x, StoreSafe (f x)) : StoreSafe (Exec.mapEach xs f) :=
  Exec.Triple.mapEach (I := fun _ _ _ => True) xs [] [] fun _ x _ _ _ _ => h x

variable [DecidableEq κ]

theorem storeSafe_pin (key : κ) : StoreSafe (pin (γ := γ) (ρ := ρ) key) := by
  refine storeSafe_get fun t => ?_
  split
  · exact fun _ _ => Exec.Triple.of_error rfl trivial
  · exact storeSafe_modify _

theorem storeSafe_unpin (key : κ) : StoreSafe (unpin (γ := γ) (ρ := ρ) key) := by
  refine storeSafe_get fun t => ?_
  split
  · exact fun _ _ => Exec.Triple.of_error rfl trivial
  · split
    · exact storeSafe_modify _
    · exact storeSafe_modify _

theorem storeSafe_if_stored {body : κ → TierM κ γ ρ Unit} (h : ∀ key, StoreSafe (body key))
    (key : κ) : StoreSafe (if_stored body key) := by
  refine storeSafe_get fun t => ?_
  split
  · exact h key
  · exact Exec.Triple.pure fun _ _ => trivial

theorem storeSafe_evict_until_fits (needed : ℕ) :
    ∀ turns, StoreSafe (evict_until_fits (κ := κ) (γ := γ) (ρ := ρ) needed turns)
  | 0 => Exec.Triple.pure fun _ _ => trivial
  | turns + 1 => by
    refine storeSafe_get fun t => ?_
    split
    · refine Exec.Triple.bind ?_ fun _ => storeSafe_evict_until_fits needed turns
      refine storeSafe_get fun t => ?_
      split
      · exact fun _ _ => Exec.Triple.of_error rfl trivial
      · exact Exec.Triple.bind (storeSafe_modify _) fun _ =>
          Exec.Triple.bind (storeSafe_loop _ storeSafe_unpin) fun _ => storeSafe_modify _
    · exact Exec.Triple.pure fun _ _ => trivial

theorem storeSafe_perform {fault : Option (AdalnStep κ)} {step : AdalnStep κ}
    (h : StoreError (.raised step)) : StoreSafe (γ := γ) (ρ := ρ) (perform fault step) :=
  (perform_spec fault step fun _ => True).mono (fun _ h => h) (fun _ _ h => h) fun e _ he => by
    rw [he.1.2]
    exact h

theorem storeSafe_stage_plan (fault : Option (AdalnStep κ)) (gpu : ℕ → ℕ → ρ)
    (entry : κ × (ℕ × ℕ)) : StoreSafe (γ := γ) (stage_plan fault gpu entry) := by
  refine Exec.Triple.bind (storeSafe_collect _ fun _ => ?_) fun pages =>
    Exec.Triple.bind (storeSafe_loop _ fun page => ?_) fun _ => Exec.Triple.pure fun _ _ => trivial
  · refine storeSafe_get fun t => ?_
    split
    · exact fun _ _ => Exec.Triple.of_error rfl trivial
    · exact Exec.Triple.bind (storeSafe_modify _) fun _ => Exec.Triple.pure fun _ _ => trivial
  · exact Exec.Triple.bind (storeSafe_perform trivial) fun _ => storeSafe_modify _

variable [DecidableEq γ]

theorem storeSafe_store_group (fault : Option (AdalnStep κ)) (gpu : ℕ → ℕ → ρ) (group_key : γ)
    (entries : OrderedDict κ (ℕ × ℕ)) : StoreSafe (store_group fault gpu group_key entries) := by
  refine storeSafe_get fun t => ?_
  split
  · exact storeSafe_modify _
  · dsimp only
    split
    · exact storeSafe_modify _
    · refine Exec.Triple.bind (storeSafe_loop _ (storeSafe_if_stored storeSafe_pin)) fun _ =>
        Exec.Triple.bind (storeSafe_evict_until_fits _ _) fun _ => storeSafe_get fun t => ?_
      split
      · exact Exec.Triple.bind (storeSafe_loop _ (storeSafe_if_stored storeSafe_unpin)) fun _ =>
          storeSafe_modify _
      · exact Exec.Triple.bind (storeSafe_collect _ (storeSafe_stage_plan fault gpu)) fun _ =>
          Exec.Triple.bind (storeSafe_perform trivial) fun _ => storeSafe_modify _

theorem storeSafe_register_group (group_key : γ) (keys : List κ) :
    StoreSafe (ρ := ρ) (register_group group_key keys) := by
  refine storeSafe_get fun t => ?_
  split
  · exact storeSafe_modify _
  · split
    · exact Exec.Triple.bind (storeSafe_loop _ storeSafe_pin) fun _ => storeSafe_modify _
    · exact Exec.Triple.pure fun _ _ => trivial

end Errors

/-! ## Runs -/

section Runs

variable {κ γ ρ : Type} [DecidableEq κ] [DecidableEq γ]

/-- A public call of the tier, with its arguments. The keys of a group come from a
dictionary, so they are distinct; `gpu` is the content of the GPU slabs at the call. -/
inductive HostOp (κ γ ρ : Type) where
  | store_group (gpu : ℕ → ℕ → ρ) (group_key : γ) (entries : OrderedDict κ (ℕ × ℕ))
  | register_group (group_key : γ) (keys : OrderedDict κ Unit)
  | clear

def HostOp.exec : HostOp κ γ ρ → TierM κ γ ρ Unit
  | .store_group gpu group_key entries => AdalnHostTier.store_group none gpu group_key entries
  | .register_group group_key ks => AdalnHostTier.register_group group_key ks.keys
  | .clear => AdalnHostTier.clear

/-- A sequence of calls. -/
def run (ops : List (HostOp κ γ ρ)) : TierM κ γ ρ Unit := Exec.forEach ops HostOp.exec

/-- **The page accounting.** -/
structure Accounting (t : HostTier κ γ ρ) : Prop where
  /-- a plan's reference count is the number of groups that contain it -/
  refcount : ∀ key plan, t.plans.get? key = some plan → plan.refcount = (group_count t key : ℤ)
  /-- free pages and the stored plans' pages: every page, each once -/
  pages : (t.free_pages ++ stored_pages t).Perm (List.range t.num_pages)
  /-- every plan of a registered group is stored -/
  resident : ∀ group ∈ t.groups.items, ∀ key ∈ group.2, key ∈ t.plans.keys

omit [DecidableEq γ] in
theorem Ledger.accounting {Rows : κ → List ρ → Prop} {n : ℕ} {t : HostTier κ γ ρ}
    (h : Ledger Rows n no_pins t) : Accounting t := by
  refine ⟨?_, ?_, ?_⟩
  · intro key plan hk
    have hr := (h.refcount key plan hk).1
    simpa [no_pins] using hr
  · rw [h.capacity]
    exact h.pages
  · intro g hg key hk
    refine h.stored key ?_
    have hpos : 0 < group_count t key :=
      countP_pos_iff.mpr ⟨g, hg, by simpa using hk⟩
    omega

theorem exec_spec (n : ℕ) (op : HostOp κ γ ρ) :
    Exec.Triple (Ledger (fun _ _ => True) n no_pins) op.exec
      (fun _ => Ledger (fun _ _ => True) n no_pins) (Exec.NoRaise) := by
  cases op with
  | store_group gpu group_key entries =>
    refine (store_group_spec none gpu group_key entries (fun _ _ => trivial)).mono
      (fun _ h => h) (fun _ _ h => h) ?_
    rintro e t ⟨step, hstep, _⟩
    cases hstep
  | register_group group_key ks => exact register_group_spec group_key ks.keys ks.keys_nodup
  | clear => exact (clear_spec _ n).mono (fun _ h => h.capacity) (fun _ _ h => h) (fun _ _ h => h)

/-- **Host-tier page accounting.** From an empty tier of any capacity, every sequence of
`store_group`, `register_group` and `clear` calls runs without an error, and afterwards
reference counts, pages and groups agree. -/
theorem host_tier_accounting (num_pages : ℕ) (slab : ℕ → ρ) (ops : List (HostOp κ γ ρ)) :
    ∃ t, run ops (HostTier.init num_pages slab) = (.ok (), t) ∧ t.num_pages = num_pages
      ∧ Accounting t := by
  have hinit : Ledger (fun _ _ => True) num_pages no_pins
      (HostTier.init num_pages slab : HostTier κ γ ρ) := by
    have hclear := clear_spec (fun _ _ => True) num_pages (E := Exec.NoRaise)
      (HostTier.init num_pages slab : HostTier κ γ ρ) rfl
    exact hclear.1 () _ rfl
  have hrun : Exec.Triple (Ledger (fun _ _ => True) num_pages no_pins) (run ops)
      (fun _ => Ledger (fun _ _ => True) num_pages no_pins (κ := κ) (γ := γ) (ρ := ρ))
      Exec.NoRaise :=
    Exec.Triple.forEach (I := fun _ => Ledger (fun _ _ => True) num_pages no_pins) ops []
      (fun _ op _ _ _ => exec_spec num_pages op)
  obtain ⟨_, t, heq, hl⟩ := hrun.returns hinit
  exact ⟨t, heq, hl.capacity, hl.accounting⟩

end Runs

end LightningH3.AdalnHostTier
