/-
`build` as a whole, and runs of the AdaLN plan cache as the DiT uses it: plans are
prepared for each request, looked up by the forward, and dropped when the weights change.
-/
import LightningH3.AdalnCacheBuild

set_option autoImplicit false

namespace LightningH3.AdalnCache

open AdalnHostTier List OrderedDict

section BuildSpec

variable {χ β φ : Type} {embed : List Timestep → χ}

/-! ## The wanted plans -/

theorem mem_foldl_setdefault {entries : List (Key × List Timestep)} :
    ∀ {wanted : OrderedDict Key (List Timestep)} {p : Key × List Timestep},
      p ∈ (entries.foldl (fun w q => w.setdefault q.1 q.2) wanted).items →
        p ∈ wanted.items ∨ p ∈ entries := by
  induction entries with
  | nil => exact fun h => Or.inl h
  | cons q entries ih =>
    intro wanted p hp
    rcases ih hp with h | h
    · rcases mem_setdefault h with h' | rfl
      · exact Or.inl h'
      · exact Or.inr (mem_cons_self ..)
    · exact Or.inr (mem_cons_of_mem _ h)

theorem mem_keys_foldl_setdefault {entries : List (Key × List Timestep)} :
    ∀ {wanted : OrderedDict Key (List Timestep)} {key : Key},
      key ∈ (entries.foldl (fun w q => w.setdefault q.1 q.2) wanted).keys ↔
        key ∈ wanted.keys ∨ key ∈ entries.map Prod.fst := by
  induction entries with
  | nil => intro wanted key; simp
  | cons q entries ih =>
    intro wanted key
    rw [foldl_cons, ih, mem_keys_setdefault, map_cons, mem_cons]
    tauto

theorem zip_plan_keys (step_timesteps : List (List Timestep)) :
    (step_timesteps.map plan_key).zip step_timesteps
      = step_timesteps.map (fun timesteps => (plan_key timesteps, timesteps)) := by
  induction step_timesteps with
  | nil => rfl
  | cons timesteps rest ih => rw [map_cons, zip_cons_cons, ih, map_cons]

theorem wanted_plans_key {step_timesteps : List (List Timestep)} {p : Key × List Timestep}
    (hp : p ∈ (wanted_plans (step_timesteps.map plan_key) step_timesteps).items) :
    p.1 = plan_key p.2 ∧ p.2 ∈ step_timesteps := by
  rcases mem_foldl_setdefault hp with h | h
  · simp at h
  · rw [zip_plan_keys] at h
    obtain ⟨timesteps, hmem, rfl⟩ := mem_map.mp h
    exact ⟨rfl, hmem⟩

theorem mem_keys_wanted_plans {step_timesteps : List (List Timestep)} {key : Key} :
    key ∈ (wanted_plans (step_timesteps.map plan_key) step_timesteps).keys ↔
      key ∈ step_timesteps.map plan_key := by
  unfold wanted_plans
  rw [mem_keys_foldl_setdefault, zip_plan_keys]
  simp

/-! ## The specification of `build` -/

theorem served_of_hit {s₀ s : Cache χ β φ} {wanted : List Key} (hinv : SlotInv embed [] s₀)
    (hres : ∀ key ∈ wanted, key ∈ s₀.slots.keys) {slots : OrderedDict Key ℕ}
    (hs : s = { s₀ with slots := slots }) (hperm : slots.items.Perm s₀.slots.items) :
    Served embed s₀ wanted s := by
  have hget := get?_eq_of_items_perm hperm
  subst hs
  refine ⟨hinv.transfer hperm rfl rfl rfl (fun _ _ => ⟨rfl, rfl, rfl⟩) rfl rfl, ?_, ?_, rfl, rfl⟩
  · intro key hkey
    obtain ⟨slot, hslot⟩ := mem_keys_iff.mp (hres key hkey)
    exact mem_keys_iff.mpr ⟨slot, (hget key).trans hslot⟩
  · intro key _ slot hslot
    exact (hget key).trans hslot

variable {fault : Option (AdalnStep Key)} {P Q : HostTier Key (List Key) (Page β φ) → Prop}
  {harmless : PyErr Key → Prop}

theorem register_on_host_spec (s₀ s₁ : Cache χ β φ)
    (wanted : OrderedDict Key (List Timestep)) (hserved : Served embed s₀ wanted.keys s₁)
    (hrules : HostRules fault embed s₁.weight_files s₁.num_layers P Q harmless)
    (hhost : OnHost P s₁) :
    Exec.Triple (fun s => s = s₁) (on_host (register_group wanted.keys wanted.keys))
      (fun _ s => Served embed s₀ wanted.keys s ∧ OnHost Q s) (BuildFails fault embed harmless) := by
  refine (on_host_spec (hrules.register wanted.keys wanted.keys_nodup) s₁ hhost).mono
    (fun _ h => h) ?_ ?_
  · rintro _ s ⟨host, rfl, htier⟩
    exact ⟨hserved.counters _ _ _ _ host, htier⟩
  · rintro e s ⟨tier', rfl, he⟩
    exact Or.inl ⟨he, (hserved.counters _ _ _ _ _).inv⟩

/-- The two requests that `build` turns down: more plans than slots, and a plan that is wider than
the slab. -/
def Refused (s : Cache χ β φ) (step_timesteps : List (List Timestep)) (e : PyErr Key) : Prop :=
  let wanted := wanted_plans (step_timesteps.map plan_key) step_timesteps
  (s.max_plans < wanted.size ∧ e = .value_error (too_many_plans wanted.size s.max_plans)) ∨
    (s.max_plan_width < widest wanted ∧
      e = .value_error (too_wide_plan (widest wanted) s.max_plan_width))

/-- **The specification of `build`.** It serves the wanted plans, or fails and leaves the
slots as `BuildFails` says. -/
theorem build_spec (s₀ : Cache χ β φ)
    (step_timesteps : List (List Timestep)) (keys : Option (List Key))
    (hkeys : keys.getD (step_timesteps.map plan_key) = step_timesteps.map plan_key)
    (hne : ∀ timesteps ∈ step_timesteps, timesteps ≠ []) (hinv : SlotInv embed [] s₀)
    (hrules : HostRules fault embed s₀.weight_files s₀.num_layers P Q harmless)
    (hrefused : ∀ e, Refused s₀ step_timesteps e → harmless e) (hhost : OnHost P s₀) :
    Exec.Triple (fun s => s = s₀) (build fault embed step_timesteps keys)
      (fun _ s => Served embed s₀ (step_timesteps.map plan_key) s ∧ OnHost Q s)
      (BuildFails fault embed harmless) := by
  refine Exec.Triple.get_bind (fun s => ?_)
  rintro s' ⟨rfl, rfl⟩
  rw [hkeys]
  set wanted := wanted_plans (step_timesteps.map plan_key) step_timesteps
  set missing := wanted.filterKeys (fun key => decide (key ∉ s'.slots.keys)) with hmissing
  have hplans : ∀ plan ∈ wanted.items, plan.1 = plan_key plan.2 ∧ plan.2 ≠ [] :=
    fun plan hp => ⟨(wanted_plans_key hp).1, hne plan.2 (wanted_plans_key hp).2⟩
  have hdone : ∀ s, Served embed s' wanted.keys s ∧ OnHost Q s →
      Served embed s' (step_timesteps.map plan_key) s ∧ OnHost Q s := by
    rintro s ⟨h, hh⟩
    exact ⟨⟨h.inv, fun key hk => h.resolves key (mem_keys_wanted_plans.mpr hk),
      fun key hk => h.kept key (mem_keys_wanted_plans.mpr hk), h.layers, h.files⟩, hh⟩
  by_cases hhit : missing.items = []
  · rw [if_pos hhit]
    have hres : ∀ key ∈ wanted.keys, key ∈ s'.slots.keys := by
      intro key hkey
      by_contra hnot
      have hin : key ∈ missing.keys := by
        rw [keys_filterKeys, mem_filter]
        exact ⟨hkey, by simpa using hnot⟩
      rw [OrderedDict.keys, hhit] at hin
      cases hin
    refine Exec.Triple.bind (forEach_touch_spec s' wanted.keys) (fun _ => ?_) s' rfl
    rintro s₁ ⟨slots, hs₁, hperm⟩
    have hserved := served_of_hit hinv hres hs₁ hperm
    refine Exec.Triple.bind (P := fun s => s = s₁)
      (Q := fun _ s => (Served embed s' wanted.keys s ∧ OnHost P s) ∧
        s.weight_files = s'.weight_files ∧ s.num_layers = s'.num_layers) (Exec.Triple.modify ?_)
      (fun _ s hs => (register_on_host_spec s' s wanted hs.1.1 (hs.2.1 ▸ hs.2.2 ▸ hrules)
        hs.1.2).mono (fun _ h => h) (fun _ s h => hdone s h) (fun _ _ h => h) s rfl) s₁ rfl
    rintro s rfl
    refine ⟨⟨hserved.counters _ _ _ _ _, ?_⟩, hserved.files, hserved.layers⟩
    rw [hs₁]
    exact hhost
  rw [if_neg hhit]
  by_cases hmany : wanted.size > s'.max_plans
  · rw [if_pos hmany]
    exact Exec.Triple.of_error rfl (Or.inl ⟨hrefused _ (Or.inl ⟨hmany, rfl⟩), hinv⟩)
  rw [if_neg hmany]
  by_cases hwide : widest wanted > s'.max_plan_width
  · rw [if_pos hwide]
    exact Exec.Triple.of_error rfl (Or.inl ⟨hrefused _ (Or.inr ⟨hwide, rfl⟩), hinv⟩)
  rw [if_neg hwide]
  -- counting the hits leaves everything the two paths rely on as it was
  set s₁ : Cache χ β φ :=
    { s' with gpu_hit_plans := s'.gpu_hit_plans + (wanted.size - missing.size) } with hs₁
  have hinv₁ : SlotInv embed [] s₁ :=
    hinv.transfer (List.Perm.refl _) rfl rfl rfl (fun _ _ => ⟨rfl, rfl, rfl⟩) rfl rfl
  have hserve : ∀ s, Served embed s₁ wanted.keys s ∧ OnHost Q s →
      Served embed s' (step_timesteps.map plan_key) s ∧ OnHost Q s :=
    fun s h => hdone s ⟨⟨h.1.inv, h.1.resolves, h.1.kept, h.1.layers, h.1.files⟩, h.2⟩
  have hrebuild : Exec.Triple (fun s => s = s₁) (rebuild fault embed wanted missing)
      (fun _ s => Served embed s' (step_timesteps.map plan_key) s ∧ OnHost Q s)
      (BuildFails fault embed harmless) :=
    (rebuild_spec fault s₁ wanted missing hrules hhost (by show wanted.size ≤ s'.max_plans; omega)
      hmissing hhit hplans).mono (fun s hs => ⟨hs, hs ▸ hinv₁⟩) (fun _ s h => hserve s h)
      (fun _ _ h => h)
  refine Exec.Triple.bind (P := fun s => s = s') (Q := fun _ s => s = s₁)
    (Exec.Triple.modify (by rintro s rfl; rfl)) (fun _ => ?_) s' rfl
  cases hh : s'.host_tier with
  | none => exact hrebuild
  | some tier =>
    refine Exec.Triple.bind ((perform_raises (P := fun s => s = s₁) fault
      .fence_prepare_start).mono (fun _ h => h) (fun _ _ h => h) ?_) (fun _ => ?_)
    · rintro e s ⟨he, rfl⟩
      exact Or.inr (Or.inl ⟨he, hinv₁⟩)
    by_cases hall : has_all tier missing.keys = true
    · rw [if_pos hall]
      have hstored : ∀ key ∈ missing.keys, key ∈ tier.plans.keys := by
        intro key hkey
        simpa using all_eq_true.mp hall key hkey
      refine Exec.Triple.bind ((swap_in_from_host_spec fault s₁ tier wanted missing
        (hrules.rows tier (hhost tier hh)) (by show wanted.size ≤ s'.max_plans; omega) hmissing hhit
        hstored hplans).mono (fun s hs => ⟨hs, hs ▸ hinv₁⟩) (fun _ _ h => h) (fun _ _ h => h))
        (fun _ => ?_)
      rintro s ⟨hserved, hsame⟩
      have hrules' : HostRules fault embed s.weight_files s.num_layers P Q harmless := by
        rw [hserved.layers, hserved.files]
        exact hrules
      have hhost' : OnHost P s := fun t ht => hhost t (hsame ▸ ht)
      exact (register_on_host_spec s₁ s wanted hserved hrules' hhost').mono (fun _ h => h)
        (fun _ s h => hserve s h) (fun _ _ h => h) s rfl
    · rw [if_neg hall]
      exact hrebuild

end BuildSpec

/-! ## A failing build -/

section Failure

variable {χ β φ : Type} {embed : List Timestep → χ}

/-- One step's timesteps: a real plan always has at least one. -/
abbrev Plan := { timesteps : List Timestep // timesteps ≠ [] }

/-- The timesteps of some plans, as `build` receives them. -/
def timesteps_of (plans : List Plan) : List (List Timestep) := plans.map Subtype.val

theorem timesteps_of_ne_nil {plans : List Plan} : ∀ ts ∈ timesteps_of plans, ts ≠ [] := by
  intro ts hts
  obtain ⟨plan, _, rfl⟩ := mem_map.mp hts
  exact plan.2

/-- **Slot ownership.** Every slot is free or resident under a key whose parameters it
holds completely, and a slot that resolves, through the slot map or through its recorded
length, is a complete one. -/
def SlotsOwned (embed : List Timestep → χ) (s : Cache χ β φ) : Prop :=
  (∀ slot < s.max_plans, slot ∈ s.free_slots ∨
    ∃ key, s.slots.get? key = some slot ∧ ∃ plan, key = plan_key plan ∧ Holds embed s plan slot) ∧
  ∀ slot, slot ∈ s.slots.values ∨ 0 < s.plan_lengths slot → ∃ plan, Holds embed s plan slot

variable {s : Cache χ β φ}

theorem SlotInv.owned (h : SlotInv embed [] s) : SlotsOwned embed s := by
  have hres : ∀ slot ∈ s.slots.values, ∃ key, s.slots.get? key = some slot ∧
      ∃ plan, key = plan_key plan ∧ Holds embed s plan slot := by
    intro slot hslot
    obtain ⟨key, hk⟩ := mem_values_iff.mp hslot
    exact ⟨key, hk, h.contents key slot hk⟩
  refine ⟨?_, ?_⟩
  · intro slot hlt
    have hin := h.partition.mem_iff.mpr (mem_range.mpr hlt)
    rw [nil_append, mem_append] at hin
    exact hin.imp_right (hres slot)
  · intro slot hslot
    have hin : slot ∈ s.slots.values := hslot.elim id (h.lengths slot).mp
    obtain ⟨_, _, plan, _, hholds⟩ := hres slot hin
    exact ⟨plan, hholds⟩

theorem Lost.not_owned (h : Lost s) : ¬ SlotsOwned embed s := by
  intro howned
  obtain ⟨slot, hlt, hfree, hres⟩ := h
  rcases howned.1 slot hlt with hin | ⟨key, hk, _⟩
  · exact hfree hin
  · exact hres (mem_values_iff.mpr ⟨key, hk⟩)

/-- The rules of a tier of which only the rows of its plans are known. -/
theorem host_rules_of_complete (fault : Option (AdalnStep Key)) (files : Checkpoint χ β φ)
    (num_layers : ℕ) {refused : PyErr Key → Prop} :
    HostRules fault embed files num_layers (HostComplete embed files num_layers) (fun _ => True)
      (fun e => refused e ∨ StoreError e) where
  rows := fun _ h => h
  register := fun keys _ => (storeSafe_register_group keys keys).mono (fun _ _ => trivial)
    (fun _ _ h => h) (fun _ _ h => Or.inr h)
  store := fun gpu keys entries _ => (storeSafe_store_group fault gpu keys entries).mono
    (fun _ _ => trivial) (fun _ _ h => h) (fun _ _ h => Or.inr h)

theorem guarded_of_storeError {step : AdalnStep Key} (h : StoreError (.raised step)) :
    guarded step = true := by
  cases step with
  | store_page key index => rfl
  | synchronize => rfl
  | _ => cases h

/-- **Failure atomicity of `build`, exactly.** When a step raises, slot ownership survives
if and only if the step is a guarded one; any other error, of a refused request or of the host
tier's containers, never disturbs it. Of the host tier only the rows of its plans matter. -/
theorem build_owned_iff_guarded (fault : Option (AdalnStep Key)) (s : Cache χ β φ)
    (plans : List Plan) (keys : Option (List Key))
    (hkeys : keys = none ∨ keys = some ((timesteps_of plans).map plan_key))
    (hinv : SlotInv embed [] s)
    (hhost : OnHost (HostComplete embed s.weight_files s.num_layers) s) :
    (∀ step s', build fault embed (timesteps_of plans) keys s = (.error (.raised step), s') →
      (SlotsOwned embed s' ↔ guarded step = true)) ∧
    (∀ e s', build fault embed (timesteps_of plans) keys s = (.error e, s') →
      (∀ step, e ≠ .raised step) → SlotsOwned embed s') := by
  have hkeys' : keys.getD ((timesteps_of plans).map plan_key) = (timesteps_of plans).map plan_key := by
    rcases hkeys with rfl | rfl
    · rfl
    · rfl
  have hspec := build_spec s (timesteps_of plans) keys hkeys' timesteps_of_ne_nil hinv
    (host_rules_of_complete fault s.weight_files s.num_layers) (fun e he => Or.inl he) hhost s rfl
  refine ⟨?_, ?_⟩
  · intro step s' herr
    rcases hspec.2 _ s' herr with ⟨hharmless, hinv'⟩ | ⟨⟨step', _, heq, hg⟩, hinv'⟩ |
      ⟨⟨step', _, heq, hg⟩, hlost⟩
    · refine ⟨fun _ => ?_, fun _ => hinv'.owned⟩
      rcases hharmless with (⟨_, hval⟩ | ⟨_, hval⟩) | hstore
      · cases hval
      · cases hval
      · exact guarded_of_storeError hstore
    · cases heq
      exact ⟨fun _ => hg, fun _ => hinv'.owned⟩
    · cases heq
      rw [hg]
      exact ⟨fun howned => absurd howned hlost.not_owned, fun h => by cases h⟩
  · intro e s' herr hne
    rcases hspec.2 e s' herr with ⟨_, hinv'⟩ | ⟨⟨step', _, heq, _⟩, _⟩ | ⟨⟨step', _, heq, _⟩, _⟩
    · exact hinv'.owned
    · exact absurd heq (hne step')
    · exact absurd heq (hne step')

/-- An empty slab of the rebuild path, with a host tier of `host_pages` pages if there is
one. -/
def Cache.init (max_plans max_plan_width num_layers : ℕ) (files : Checkpoint χ β φ)
    (timesteps : ℕ → ℕ → Timestep) (block : ℕ → ℕ → ℕ → β) (final : ℕ → ℕ → φ)
    (host : Option (ℕ × (ℕ → Page β φ))) : Cache χ β φ where
  max_plans := max_plans
  max_plan_width := max_plan_width
  num_layers := num_layers
  weight_files := files
  slots := .empty
  free_slots := List.range max_plans
  plan_timesteps := timesteps
  plan_lengths := fun _ => 0
  block_params := block
  final_params := final
  host_tier := host.map (fun p => HostTier.init p.1 p.2)
  gpu_hit_plans := 0
  host_hit_plans := 0
  built_plans := 0
  rebuilds := 0

theorem slot_inv_of_empty (hslots : s.slots = .empty)
    (hfree : s.free_slots = List.range s.max_plans) (hlen : s.plan_lengths = fun _ => 0) :
    SlotInv embed [] s := by
  refine ⟨?_, ?_, ?_⟩
  · rw [hslots, hfree]
    simp [OrderedDict.values]
  · intro slot
    rw [hslots, hlen]
    simp [OrderedDict.values]
  · intro key slot hk
    rw [hslots] at hk
    simp at hk

variable {host : Option (ℕ × (ℕ → Page β φ))} {max_plans max_plan_width num_layers : ℕ}

theorem slot_inv_init {files : Checkpoint χ β φ}
    {timesteps : ℕ → ℕ → Timestep} {block : ℕ → ℕ → ℕ → β} {final : ℕ → ℕ → φ}
    : SlotInv embed []
      (Cache.init max_plans max_plan_width num_layers files timesteps block final host) :=
  slot_inv_of_empty rfl rfl rfl

theorem host_inv_init {files : Checkpoint χ β φ}
    {timesteps : ℕ → ℕ → Timestep} {block : ℕ → ℕ → ℕ → β} {final : ℕ → ℕ → φ}
    : HostInv embed
      (Cache.init max_plans max_plan_width num_layers files timesteps block final host) := by
  intro tier htier
  cases host with
  | none => cases htier
  | some p =>
    simp only [Cache.init, Option.map_some, Option.some.injEq] at htier
    subst htier
    have hclear := clear_spec (κ := Key) (γ := List Key)
      (HostRows embed files num_layers) p.1 (E := Exec.NoRaise) (HostTier.init p.1 p.2) rfl
    exact ⟨p.1, hclear.1 () _ rfl⟩

/-- A one-slot cache over trivial weights, with a host tier of two pages. -/
def one_slot : Cache Unit Unit Unit :=
  Cache.init 1 1 1 ⟨fun _ _ _ => (), fun _ _ => ()⟩ (fun _ _ => 0) (fun _ _ _ => ())
    (fun _ _ => ()) (some (2, fun _ => ⟨fun _ => (), ()⟩))

/-- The plan `[1.0]`. -/
def plan_one : Plan := ⟨[0x3F800000#32], by decide⟩

/-- The plan `[2.0]`. -/
def plan_two : Plan := ⟨[0x40000000#32], by decide⟩

/-- When the embedding of the only missing plan raises, its slot is neither free nor
resident. -/
theorem build_embed_failure_loses_slot :
    SlotInv (fun _ => ()) [] one_slot ∧ HostInv (fun _ => ()) one_slot ∧
    ∃ s', build (some (.embed (plan_key plan_one.val))) (fun _ => ()) (timesteps_of [plan_one]) none
        one_slot = (.error (.raised (.embed (plan_key plan_one.val))), s') ∧
      ¬ SlotsOwned (fun _ => ()) s' := by
  refine ⟨slot_inv_init, host_inv_init, _, rfl, ?_⟩
  refine Lost.not_owned ⟨0, by decide, by decide, by decide⟩

/-- The slot holds `[1.0]`, and the host store of that build raised. -/
def unstored : Cache Unit Unit Unit :=
  (build (some (.store_page (plan_key plan_one.val) 0)) (fun _ => ()) (timesteps_of [plan_one]) none
    one_slot).2

theorem slot_inv_unstored : SlotInv (fun _ => ()) [] unstored := by
  have hcomplete : OnHost (HostComplete (fun _ => ()) one_slot.weight_files one_slot.num_layers)
      one_slot := by
    intro tier htier
    obtain ⟨n, hledger⟩ := host_inv_init tier htier
    exact hledger.rows
  have hspec := build_spec one_slot (timesteps_of [plan_one]) none rfl timesteps_of_ne_nil
    slot_inv_init (host_rules_of_complete (some (.store_page (plan_key plan_one.val) 0)) _ _)
    (fun e he => Or.inl he) hcomplete one_slot rfl
  rcases hspec.2 _ unstored rfl with ⟨-, hinv⟩ | ⟨-, hinv⟩ | ⟨⟨step, hstep, -, hg⟩, -⟩
  · exact hinv
  · exact hinv
  · cases hstep
    cases hg

/-- Two failures of the next request, which evicts `[1.0]`: the projection's is undone by the
handler, the length write of the eviction loses the slot. -/
theorem build_owned_iff_guarded_one_slot :
    (∀ step s', build (some (.project_final 0)) (fun _ => ()) (timesteps_of [plan_two]) none unstored
        = (.error (.raised step), s') → (SlotsOwned (fun _ => ()) s' ↔ guarded step = true)) ∧
    (build (some (.project_final 0)) (fun _ => ()) (timesteps_of [plan_two]) none unstored).1
      = .error (.raised (.project_final 0)) ∧
    (∀ step s', build (some (.evict_length 0)) (fun _ => ()) (timesteps_of [plan_two]) none unstored
        = (.error (.raised step), s') → (SlotsOwned (fun _ => ()) s' ↔ guarded step = true)) ∧
    (build (some (.evict_length 0)) (fun _ => ()) (timesteps_of [plan_two]) none unstored).1
      = .error (.raised (.evict_length 0)) := by
  have hhost : OnHost (HostComplete (fun _ => ()) unstored.weight_files unstored.num_layers)
      unstored := by
    intro tier htier key plan hget
    cases htier
    cases hget
  refine ⟨?_, by decide, ?_, by decide⟩
  · exact (build_owned_iff_guarded (some (.project_final 0)) unstored [plan_two] none (Or.inl rfl)
      slot_inv_unstored hhost).1
  · exact (build_owned_iff_guarded (some (.evict_length 0)) unstored [plan_two] none (Or.inl rfl)
      slot_inv_unstored hhost).1

end Failure

/-! ## Runs -/

section Runs

variable {χ β φ : Type}

/-- The part of the DiT that drives the cache: the timestep embedding, as one map of a
whole plan, and the cache itself. -/
structure Dit (χ β φ : Type) where
  time_embedder : List Timestep → χ
  adaln_cache : Cache χ β φ

abbrev DitM (χ β φ : Type) (α : Type) := Exec (PyErr Key) (Dit χ β φ) α

/-- A call on `self.adaln_cache`. -/
def on_cache {α : Type} (m : CacheM χ β φ α) : DitM χ β φ α :=
  Exec.zoom Dit.adaln_cache (fun cache dit => { dit with adaln_cache := cache }) m

/-- `prepare_adaln_plans`: build, then resolve, with the keys computed once. -/
def prepare_adaln_plans (step_timesteps : List (List Timestep)) : DitM χ β φ (List ℕ) := do
  let dit ← Exec.get
  let keys := step_timesteps.map plan_key
  on_cache (build none dit.time_embedder step_timesteps (some keys))
  on_cache (resolve_slots step_timesteps (some keys))

/-- A weight update that `validate_weight_update_source` let through, followed by
`refresh_weight_derived_caches`: the rebuild is retargeted and every plan dropped. -/
def update_weights (time_embedder : List Timestep → χ) (files : Checkpoint χ β φ) :
    DitM χ β φ Unit := do
  Exec.modify fun dit =>
    { time_embedder := time_embedder, adaln_cache := { dit.adaln_cache with weight_files := files } }
  on_cache invalidate

/-- What can happen to the cache of a running model. -/
inductive CacheOp (χ β φ : Type) where
  | prepare (plans : List Plan)
  | invalidate
  | update_weights (time_embedder : List Timestep → χ) (files : Checkpoint χ β φ)
  | lookup (plan : Plan)

/-- One operation; a lookup's result is used by the forward only. -/
def CacheOp.exec : CacheOp χ β φ → DitM χ β φ Unit
  | .prepare plans => do
      let _ ← prepare_adaln_plans (timesteps_of plans)
      pure ()
  | .invalidate => on_cache AdalnCache.invalidate
  | .update_weights time_embedder files => AdalnCache.update_weights time_embedder files
  | .lookup plan => do
      let _ ← on_cache (AdalnCache.lookup plan.val)
      pure ()

/-- A sequence of operations. -/
def run (ops : List (CacheOp χ β φ)) : DitM χ β φ Unit := Exec.forEach ops CacheOp.exec

/-- Between operations. -/
def DitInv (dit : Dit χ β φ) : Prop :=
  SlotInv dit.time_embedder [] dit.adaln_cache ∧ HostInv dit.time_embedder dit.adaln_cache

/-- The only exceptions of an operation whose steps all succeed: a request is rejected.
In particular no container operation fails, such as popping an empty free list. -/
def Rejected {σ : Type} : PyErr Key → σ → Prop := fun e _ => ∃ message, e = .value_error message

/-- The wanted plans resolve, and those that were resident have not moved. -/
def Resolved (dit : Dit χ β φ) (plans : List Plan) (slots : List ℕ) (dit' : Dit χ β φ) : Prop :=
  slots.map some = plans.map (fun plan => dit'.adaln_cache.slots.get? (plan_key plan.val)) ∧
    ∀ plan ∈ plans, ∀ slot, dit.adaln_cache.slots.get? (plan_key plan.val) = some slot →
      dit'.adaln_cache.slots.get? (plan_key plan.val) = some slot

theorem on_cache_spec {α : Type} {m : CacheM χ β φ α} {Q : α → Cache χ β φ → Prop}
    {E : PyErr Key → Prop} (dit : Dit χ β φ)
    (hm : Exec.Triple (fun s => s = dit.adaln_cache) m Q (fun e _ => E e)) :
    Exec.Triple (fun d => d = dit) (on_cache m)
      (fun a d => d.time_embedder = dit.time_embedder ∧ Q a d.adaln_cache) (fun e _ => E e) := by
  refine Exec.Triple.zoom hm (fun d hd => by rw [hd]) ?_ (fun _ _ _ _ h => h)
  rintro d a s rfl hs
  exact ⟨rfl, hs⟩

theorem resolve_slots_spec {E : PyErr Key → Cache χ β φ → Prop} (s₀ : Cache χ β φ)
    (plans : List Plan) (hres : ∀ key ∈ (timesteps_of plans).map plan_key, key ∈ s₀.slots.keys) :
    Exec.Triple (fun s => s = s₀)
      (resolve_slots (timesteps_of plans) (some ((timesteps_of plans).map plan_key)))
      (fun slots s => s = s₀ ∧
        slots.map some = plans.map (fun plan => s₀.slots.get? (plan_key plan.val))) E := by
  have hloop := Exec.Triple.mapEach (E := E) (f := resolve_slot (χ := χ) (β := β) (φ := φ))
    (I := fun front slots s => s = s₀ ∧ slots.map some = front.map s₀.slots.get?)
    ((timesteps_of plans).map plan_key) [] []
    (by
      intro front key back slots heq _
      have hin : key ∈ s₀.slots.keys := hres key (by rw [nil_append] at heq; rw [heq]; simp)
      obtain ⟨slot, hslot⟩ := mem_keys_iff.mp hin
      refine Exec.Triple.get_bind (fun s₁ => ?_)
      rintro s ⟨⟨hs, hslots⟩, rfl⟩
      rw [hs]
      simp only [hslot]
      refine Exec.Triple.of_ok rfl ⟨rfl, ?_⟩
      rw [map_append, map_append, hslots, map_singleton, map_singleton, hslot])
  refine hloop.mono ?_ ?_ (fun _ _ h => h)
  · rintro s rfl
    exact ⟨rfl, rfl⟩
  · rintro slots s ⟨hs, hslots⟩
    refine ⟨hs, ?_⟩
    rw [nil_append, nil_append] at hslots
    rw [hslots, timesteps_of, map_map, map_map]
    rfl

/-- The rules of a balanced tier, when no step raises. -/
theorem host_rules_of_ledger (embed : List Timestep → χ) (files : Checkpoint χ β φ)
    (num_layers : ℕ) {harmless : PyErr Key → Prop} : HostRules none embed files num_layers
      (fun tier => ∃ n, Ledger (HostRows embed files num_layers) n no_pins tier)
      (fun tier => ∃ n, Ledger (HostRows embed files num_layers) n no_pins tier) harmless where
  rows := by
    rintro tier ⟨n, hledger⟩
    exact hledger.rows
  register := by
    rintro keys hnd tier ⟨n, hledger⟩
    obtain ⟨hok, herr⟩ := register_group_spec keys keys hnd tier hledger
    exact ⟨fun a t ht => ⟨n, hok a t ht⟩, herr⟩
  store := by
    rintro gpu keys entries hrows tier ⟨n, hledger⟩
    obtain ⟨hok, herr⟩ := store_group_spec none gpu keys entries hrows tier hledger
    refine ⟨fun a t ht => ⟨n, hok a t ht⟩, fun e t ht => ?_⟩
    obtain ⟨step, hstep, -⟩ := herr e t ht
    cases hstep

/-- A build whose steps do not raise serves its plans, or it is refused. -/
theorem build_serves (dit : Dit χ β φ) (plans : List Plan) (keys : Option (List Key))
    (hkeys : keys = none ∨ keys = some ((timesteps_of plans).map plan_key)) (hinv : DitInv dit) :
    Exec.Triple (fun s => s = dit.adaln_cache) (build none dit.time_embedder (timesteps_of plans) keys)
      (fun _ s => Served dit.time_embedder dit.adaln_cache ((timesteps_of plans).map plan_key) s ∧
        HostInv dit.time_embedder s)
      (fun e _ => Refused dit.adaln_cache (timesteps_of plans) e) := by
  have hkeys' : keys.getD ((timesteps_of plans).map plan_key) = (timesteps_of plans).map plan_key := by
    rcases hkeys with rfl | rfl
    · rfl
    · rfl
  refine (build_spec dit.adaln_cache (timesteps_of plans) keys hkeys' timesteps_of_ne_nil hinv.1
    (host_rules_of_ledger dit.time_embedder _ _) (fun _ h => h) hinv.2).mono (fun _ h => h) ?_ ?_
  · rintro _ s ⟨hserved, hhost⟩
    refine ⟨hserved, ?_⟩
    unfold HostInv
    rw [hserved.layers, hserved.files]
    exact hhost
  · -- no step is named as failing, so only a refusal is left
    rintro e s (⟨hval, _⟩ | ⟨⟨step, hstep, _⟩, _⟩ | ⟨⟨step, hstep, _⟩, _⟩)
    · exact hval
    · cases hstep
    · cases hstep

/-- **One request.** Its plans are built and resolved, or it is refused. -/
theorem prepare_adaln_plans_spec (dit : Dit χ β φ) (plans : List Plan) (hinv : DitInv dit) :
    Exec.Triple (fun d => d = dit) (prepare_adaln_plans (timesteps_of plans))
      (fun slots d => DitInv d ∧ Resolved dit plans slots d)
      (fun e _ => Refused dit.adaln_cache (timesteps_of plans) e) := by
  have hbuild := build_serves dit plans _ (Or.inr rfl) hinv
  refine Exec.Triple.get_bind (fun d => ?_)
  rintro d' ⟨rfl, rfl⟩
  refine Exec.Triple.bind (on_cache_spec d' hbuild) (fun _ => ?_) d' rfl
  rintro d ⟨hembed, hserved, hhost⟩
  refine (on_cache_spec d (resolve_slots_spec d.adaln_cache plans hserved.resolves)).mono
    (fun _ h => h) ?_ (fun _ _ h => h) d rfl
  rintro slots d₁ ⟨hembed₁, hcache, hslots⟩
  refine ⟨⟨?_, ?_⟩, ?_, ?_⟩
  · rw [hembed₁, hembed, hcache]
    exact hserved.inv
  · rw [hembed₁, hembed, hcache]
    exact hhost
  · rw [hcache]
    exact hslots
  · intro plan hplan slot hslot
    rw [hcache]
    refine hserved.kept _ ?_ slot hslot
    exact mem_map.mpr ⟨plan.val, mem_map.mpr ⟨plan, hplan, rfl⟩, rfl⟩

theorem invalidate_spec {E : PyErr Key → Cache χ β φ → Prop} (embed : List Timestep → χ)
    (s₀ : Cache χ β φ) : Exec.Triple (fun s => s = s₀) invalidate
      (fun _ s => SlotInv embed [] s ∧ HostInv embed s) E := by
  cases hh : s₀.host_tier with
  | none =>
    rintro s rfl
    have heq : on_host clear s = (.ok (), s) := by simp only [on_host, hh]
    refine Exec.Triple.of_ok (Exec.bind_of_ok heq) ⟨slot_inv_of_empty rfl rfl rfl, ?_⟩
    intro tier htier
    exact absurd (hh.symm.trans htier) (by simp)
  | some tier =>
    have hclear := on_host_spec (clear_spec (κ := Key) (γ := List Key)
      (HostRows embed s₀.weight_files s₀.num_layers) tier.num_pages (E := Exec.NoRaise)) s₀
      (by rintro t ht; rw [hh, Option.some.injEq] at ht; rw [ht])
    refine Exec.Triple.bind (hclear.mono (fun _ h => h) (fun _ _ h => h) ?_)
      (fun _ => Exec.Triple.modify ?_)
    · rintro e s ⟨_, _, hfalse⟩
      exact hfalse.elim
    · rintro s ⟨host, rfl, htier⟩
      exact ⟨slot_inv_of_empty rfl rfl rfl, fun t ht => ⟨_, htier t ht⟩⟩

theorem lookup_spec (s₀ : Cache χ β φ) (embed : List Timestep → χ) (plan : Plan)
    (hinv : SlotInv embed [] s₀) : Exec.Triple (fun s => s = s₀) (lookup plan.val)
      (fun slot s => s = s₀ ∧ ∃ found, s₀.slots.get? (plan_key found) = some slot ∧
        List.Forall₂ (fun a b => fp32_eq a b = true) found plan.val) Rejected := by
  refine Exec.Triple.get_bind (fun s => ?_)
  rintro s' ⟨rfl, rfl⟩
  by_cases hwide : plan.val.length > s'.max_plan_width
  · rw [if_pos hwide]
    exact Exec.Triple.of_error rfl ⟨_, rfl⟩
  rw [if_neg hwide]
  cases hfind : (List.range s'.max_plans).find? (plan_matches s' plan.val) with
  | none => exact Exec.Triple.of_error rfl ⟨_, rfl⟩
  | some slot =>
    refine Exec.Triple.of_ok rfl ⟨rfl, ?_⟩
    have hmatch : plan_matches s' plan.val slot = true := find?_some hfind
    unfold plan_matches at hmatch
    rw [Bool.and_eq_true, beq_iff_eq, all_eq_true] at hmatch
    -- a positive recorded length means the slot is resident
    have hpos : 0 < s'.plan_lengths slot := by
      rw [hmatch.1]
      exact length_pos_of_ne_nil plan.2
    obtain ⟨key, hk⟩ := mem_values_iff.mp ((hinv.lengths slot).mp hpos)
    obtain ⟨found, rfl, hholds⟩ := hinv.contents key slot hk
    have hlen : found.length = plan.val.length := hholds.length.symm.trans hmatch.1
    refine ⟨found, hk, forall₂_iff_get.mpr ⟨hlen, fun i h₁ h₂ => ?_⟩⟩
    have hrow := hmatch.2 (plan.val.get ⟨i, h₂⟩, i)
      (mem_zipIdx_iff_getElem?.mpr (getElem?_eq_getElem h₂))
    rw [hholds.timesteps i h₁] at hrow
    exact hrow

theorem exec_keeps_inv (op : CacheOp χ β φ) :
    Exec.Triple (DitInv (χ := χ) (β := β) (φ := φ)) op.exec (fun _ => DitInv) Rejected := by
  intro dit hinv
  cases op with
  | prepare plans =>
    refine Exec.Triple.bind ((prepare_adaln_plans_spec dit plans hinv).mono (fun _ h => h)
      (fun _ _ h => h) ?_) (fun _ => Exec.Triple.pure (fun _ h => h.1)) dit rfl
    rintro e _ (⟨-, he⟩ | ⟨-, he⟩)
    · exact ⟨_, he⟩
    · exact ⟨_, he⟩
  | invalidate =>
    refine (on_cache_spec dit (invalidate_spec dit.time_embedder dit.adaln_cache)).mono
      (fun _ h => h) ?_ (fun _ _ h => h) dit rfl
    rintro _ d ⟨hembed, hs⟩
    unfold DitInv
    rw [hembed]
    exact hs
  | update_weights time_embedder files =>
    refine Exec.Triple.bind (P := fun d => d = dit)
      (Q := fun _ d => d = ⟨time_embedder, { dit.adaln_cache with weight_files := files }⟩)
      (Exec.Triple.modify (by rintro d rfl; rfl)) (fun _ => ?_) dit rfl
    refine (on_cache_spec _ (invalidate_spec time_embedder _)).mono (fun _ h => h) ?_
      (fun _ _ h => h)
    rintro _ d ⟨hembed, hs⟩
    unfold DitInv
    rw [hembed]
    exact hs
  | lookup plan =>
    refine Exec.Triple.bind
      (on_cache_spec dit (lookup_spec dit.adaln_cache dit.time_embedder plan hinv.1))
      (fun _ => Exec.Triple.pure ?_) dit rfl
    rintro d ⟨hembed, hcache, _⟩
    unfold DitInv
    rw [hembed, hcache]
    exact hinv

/-- **The slot cache along every run.** From an empty cache of any size, with or without a
host tier, every sequence of requests, lookups, invalidations and weight updates either is
cut short by a rejected request or ends in a state where
- the free and the resident slots are all slots, each once, a slot has a positive length
  exactly when it is resident, and each resident slot holds its own key's parameters;
- the next `build` is refused, for having more plans than slots or a plan wider than the slab, or
  every wanted plan has a slot after it, the one it had if it had one;
- the next request is refused in the same way or resolves all its plans, none of which moves;
- the next lookup is rejected or finds a resident slot with the plan it asks for.
No operation pops an empty list or misses a key. -/
theorem slot_cache_invariant (max_plans max_plan_width num_layers : ℕ)
    (time_embedder : List Timestep → χ) (files : Checkpoint χ β φ) (timesteps : ℕ → ℕ → Timestep)
    (block : ℕ → ℕ → ℕ → β) (final : ℕ → ℕ → φ) (host : Option (ℕ × (ℕ → Page β φ)))
    (ops : List (CacheOp χ β φ)) : Exec.Triple
      (fun dit => dit = ⟨time_embedder,
        Cache.init max_plans max_plan_width num_layers files timesteps block final host⟩) (run ops)
      (fun _ dit => SlotInv dit.time_embedder [] dit.adaln_cache ∧
        (∀ plans keys, keys = none ∨ keys = some ((timesteps_of plans).map plan_key) →
          Exec.Triple (fun s => s = dit.adaln_cache)
            (build none dit.time_embedder (timesteps_of plans) keys)
            (fun _ s => SlotInv dit.time_embedder [] s ∧ ∀ plan ∈ plans, ∃ slot,
              s.slots.get? (plan_key plan.val) = some slot ∧
              ∀ slot', dit.adaln_cache.slots.get? (plan_key plan.val) = some slot' → slot' = slot)
            (fun e _ => Refused dit.adaln_cache (timesteps_of plans) e)) ∧
        (∀ plans, Exec.Triple (fun d => d = dit) (prepare_adaln_plans (timesteps_of plans))
          (fun slots d => SlotInv d.time_embedder [] d.adaln_cache ∧ Resolved dit plans slots d)
          (fun e _ => Refused dit.adaln_cache (timesteps_of plans) e)) ∧
        ∀ plan : Plan, Exec.Triple (fun s => s = dit.adaln_cache) (lookup plan.val)
          (fun slot s => s = dit.adaln_cache ∧
            ∃ found, dit.adaln_cache.slots.get? (plan_key found) = some slot ∧
              List.Forall₂ (fun a b => fp32_eq a b = true) found plan.val) Rejected)
      Rejected := by
  have hrun : Exec.Triple (DitInv (χ := χ) (β := β) (φ := φ)) (run ops) (fun _ => DitInv)
      Rejected :=
    Exec.Triple.forEach (I := fun _ => DitInv) ops [] (fun _ op _ _ _ => exec_keeps_inv op)
  refine hrun.mono ?_ ?_ (fun _ _ h => h)
  · rintro dit rfl
    exact ⟨slot_inv_init, host_inv_init⟩
  · intro _ dit hinv
    refine ⟨hinv.1, fun plans keys hkeys => ?_, fun plans => ?_, fun plan => ?_⟩
    · refine (build_serves dit plans keys hkeys hinv).mono (fun _ h => h) ?_ (fun _ _ h => h)
      rintro _ s ⟨hserved, -⟩
      refine ⟨hserved.inv, fun plan hplan => ?_⟩
      have hkey : plan_key plan.val ∈ (timesteps_of plans).map plan_key :=
        mem_map_of_mem (mem_map_of_mem hplan)
      obtain ⟨slot, hslot⟩ := mem_keys_iff.mp (hserved.resolves _ hkey)
      refine ⟨slot, hslot, fun slot' hslot' => ?_⟩
      exact Option.some.inj ((hserved.kept _ hkey slot' hslot').symm.trans hslot)
    · exact (prepare_adaln_plans_spec dit plans hinv).mono (fun _ h => h)
        (fun _ _ h => ⟨h.1.1, h.2⟩) (fun _ _ h => h)
    · exact lookup_spec dit.adaln_cache dit.time_embedder plan hinv.1

/-- Two requests share the one slot and the host tier: the second one evicts the first one's plan,
which the third one takes back from the host. -/
def shared_slot_ops : List (CacheOp Unit Unit Unit) :=
  [.prepare [plan_one], .prepare [plan_two], .prepare [plan_one], .lookup plan_one]

theorem slot_cache_invariant_shared_slot : ∃ dit, run shared_slot_ops ⟨fun _ => (), one_slot⟩
      = (.ok (), dit) ∧ dit.adaln_cache.host_hit_plans = 1 ∧
    SlotInv dit.time_embedder [] dit.adaln_cache ∧
    ∀ s, build none dit.time_embedder (timesteps_of [plan_two]) none dit.adaln_cache = (.ok (), s) →
      ∃ slot, s.slots.get? (plan_key plan_two.val) = some slot := by
  have hrun : (run shared_slot_ops ⟨fun _ => (), one_slot⟩).1 = .ok () ∧
      (run shared_slot_ops ⟨fun _ => (), one_slot⟩).2.adaln_cache.host_hit_plans = 1 := by
    decide +kernel
  obtain ⟨dit, hdit⟩ : ∃ dit, (run shared_slot_ops ⟨fun _ => (), one_slot⟩).2 = dit := ⟨_, rfl⟩
  rw [hdit] at hrun
  have heq : run shared_slot_ops ⟨fun _ => (), one_slot⟩ = (.ok (), dit) :=
    Prod.ext hrun.1 hdit
  have hinv := (slot_cache_invariant 1 1 1 (fun _ => ()) ⟨fun _ _ _ => (), fun _ _ => ()⟩
    (fun _ _ => 0) (fun _ _ _ => ()) (fun _ _ => ()) (some (2, fun _ => ⟨fun _ => (), ()⟩))
    shared_slot_ops _ rfl).1 () dit heq
  refine ⟨dit, heq, hrun.2, hinv.1, fun s hs => ?_⟩
  obtain ⟨-, hserved⟩ := (hinv.2.1 [plan_two] none (Or.inl rfl) _ rfl).1 () s hs
  obtain ⟨slot, hslot, -⟩ := hserved plan_two (mem_singleton_self _)
  exact ⟨slot, hslot⟩

end Runs

end LightningH3.AdalnCache
