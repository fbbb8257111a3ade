/-
What `build` of the AdaLN plan cache does to the slots, on every path: when it returns,
and when any one of its fallible steps raises.
-/
import LightningH3.AdalnCache

set_option autoImplicit false

namespace LightningH3.AdalnCache

open AdalnHostTier List Function OrderedDict

/-! ## Which steps are guarded -/

/-- The steps that find every pending slot either not yet taken, protected by one of the
two handlers, or already committed. The others stand with no handler around them between the
moment a slot leaves the map or the free list and a commit. -/
def guarded : AdalnStep Key → Bool
  | .evict_length _ => false
  | .embed _ | .write_timesteps _ | .write_length _ => false
  | .fence_gpu_reads | .swap_in_length _ => false
  | _ => true

/-- A step with the given protection raised `e`. -/
def Raised (fault : Option (AdalnStep Key)) (protection : Bool) (e : PyErr Key) : Prop :=
  ∃ step, fault = some step ∧ e = .raised step ∧ guarded step = protection

section Filling

variable {χ β φ : Type} {embed : List Timestep → χ}

/-- The state differs only in the rows of `pending`. -/
def Rewrites (pending : List ℕ) (s s' : Cache χ β φ) : Prop :=
  ∃ timesteps block final,
    s' = { s with plan_timesteps := timesteps, block_params := block, final_params := final } ∧
    ∀ q, q ∉ pending → SameRows s s' q

theorem Rewrites.refl (pending : List ℕ) (s : Cache χ β φ) : Rewrites pending s s :=
  ⟨_, _, _, rfl, fun _ _ => ⟨rfl, rfl, rfl⟩⟩

variable {pending : List ℕ} {s s' : Cache χ β φ}

theorem Rewrites.trans {s'' : Cache χ β φ} (h : Rewrites pending s s')
    (h' : Rewrites pending s' s'') : Rewrites pending s s'' := by
  obtain ⟨t, b, f, rfl, hrows⟩ := h
  obtain ⟨t', b', f', rfl, hrows'⟩ := h'
  refine ⟨t', b', f', rfl, fun q hq => ?_⟩
  obtain ⟨h1, h2, h3⟩ := hrows q hq
  obtain ⟨h1', h2', h3'⟩ := hrows' q hq
  exact ⟨h1'.trans h1, h2'.trans h2, h3'.trans h3⟩

theorem SlotInv.rewrites (h : SlotInv embed pending s) (hr : Rewrites pending s s') :
    SlotInv embed pending s' := by
  obtain ⟨t, b, f, rfl, hrows⟩ := hr
  exact h.transfer (List.Perm.refl _) rfl rfl rfl hrows rfl rfl

section

variable (fault : Option (AdalnStep Key))

theorem perform_raises {P : Cache χ β φ → Prop} (step : AdalnStep Key) :
    Exec.Triple P (perform fault step) (fun _ => P)
      (fun e s => Raised fault (guarded step) e ∧ P s) :=
  (perform_spec fault step P).mono (fun _ h => h) (fun _ _ h => h)
    (fun _ _ h => ⟨⟨step, h.1.1, h.1.2, rfl⟩, h.2⟩)

theorem perform_store {ν : Type} {buffer : Exec.Buffer (Cache χ β φ) ℕ ν}
    (step : AdalnStep Key) (i : ℕ) (f : ν → ν) :
    buffer.Writes (do perform fault step; buffer.store i f) i f ()
      (Raised fault (guarded step)) := by
  intro s
  rcases perform_cases fault step s with ⟨_, hok⟩ | ⟨hf, herr⟩
  · exact Or.inl (Exec.bind_of_ok hok)
  · exact Or.inr ⟨_, ⟨step, hf, rfl, rfl⟩, Exec.bind_of_error herr⟩

/-- The slot of a missing plan. -/
def slot_of (assignments : OrderedDict Key ℕ) (key : Key) : ℕ := (assignments.get? key).getD 0

variable {assignments : OrderedDict Key ℕ} {missing : OrderedDict Key (List Timestep)}

theorem get?_eq_slot_of (hkeys : assignments.keys = missing.keys) {plan : Key × List Timestep}
    (hplan : plan ∈ missing.items) :
    assignments.get? plan.1 = some (slot_of assignments plan.1) := by
  have hin : plan.1 ∈ assignments.keys := by
    rw [hkeys]
    exact mem_map.mpr ⟨plan, hplan, rfl⟩
  obtain ⟨slot, hslot⟩ := mem_keys_iff.mp hin
  rw [slot_of, hslot, Option.getD_some]

theorem map_slot_of (hkeys : assignments.keys = missing.keys) :
    missing.items.map (fun plan => slot_of assignments plan.1) = assignments.values := by
  have h := map_get?_keys assignments 0
  rw [hkeys, OrderedDict.keys, map_map] at h
  exact h

theorem write_slice_get {ν : Type} (values : List ν) (row : ℕ → ν) (i : ℕ)
    (h : i < values.length) : write_slice values row i = values.get ⟨i, h⟩ := by
  unfold write_slice
  rw [getD_eq_getElem _ _ h]
  rfl

/-- What the timestep loops of both paths establish. -/
def TimestepsWritten (assignments : OrderedDict Key ℕ) (missing : OrderedDict Key (List Timestep))
    (s : Cache χ β φ) : Prop :=
  ∀ plan ∈ missing.items, ∀ i (h : i < plan.2.length),
    s.plan_timesteps (slot_of assignments plan.1) i = plan.2.get ⟨i, h⟩

/-! ### The swap-in path -/

theorem swap_in_timesteps_loop (s₀ : Cache χ β φ)
    (assignments : OrderedDict Key ℕ) (missing : OrderedDict Key (List Timestep))
    (hkeys : assignments.keys = missing.keys) (hnd : assignments.values.Nodup) :
    Exec.Triple (fun s => s = s₀) (Exec.forEach missing.items (swap_in_timesteps fault assignments))
      (fun _ s => ∃ rows, s = { s₀ with plan_timesteps := rows } ∧
        (∀ q, q ∉ assignments.values → rows q = s₀.plan_timesteps q) ∧
        TimestepsWritten assignments missing s)
      (fun e s => Raised fault true e ∧ Rewrites assignments.values s₀ s) := by
  have hbody : ∀ plan ∈ missing.items, timesteps_buffer.Writes
      (swap_in_timesteps (χ := χ) (β := β) (φ := φ) fault assignments plan)
      (slot_of assignments plan.1) (write_slice plan.2) () (Raised fault true) := by
    intro plan hplan
    unfold swap_in_timesteps
    rw [get?_eq_slot_of hkeys hplan]
    exact perform_store fault (.swap_in_timesteps plan.1) _ _
  have hmap := map_slot_of hkeys
  have hloop := Exec.Triple.forEach_writes s₀ missing.items (by rw [hmap]; exact hnd) hbody
  rw [hmap] at hloop
  refine hloop.mono (fun _ h => h) ?_ ?_
  · rintro _ s ⟨rows, rfl, hdone, hkeep⟩
    refine ⟨rows, rfl, hkeep, fun plan hplan i hi => ?_⟩
    show rows (slot_of assignments plan.1) i = _
    rw [hdone plan hplan, write_slice_get]
  · rintro e s ⟨he, rows, rfl, hkeep⟩
    exact ⟨he, rows, _, _, rfl, fun q hq => ⟨hkeep q hq, rfl, rfl⟩⟩

/-- The rows that a stored plan's pages give. -/
def PagesCopied (tier : HostTier Key (List Key) (Page β φ)) (block : ℕ → ℕ → ℕ → β)
    (final : ℕ → ℕ → φ) (p : Key × ℕ) : Prop :=
  ∀ plan, tier.plans.get? p.1 = some plan → ∀ i page, plan.pages[i]? = some page →
    block p.2 i = (tier.slab page).block ∧ final p.2 i = (tier.slab page).final

theorem copy_pages_spec
    (tier : HostTier Key (List Key) (Page β φ)) (s₀ : Cache χ β φ) (key : Key) (slot : ℕ)
    (pages : List ℕ) :
    Exec.Triple (fun s => s = s₀) (Exec.forEach pages.zipIdx (copy_page fault tier key slot))
      (fun _ s => ∃ block final, s = { s₀ with block_params := block, final_params := final } ∧
        (∀ q, q ≠ slot → block q = s₀.block_params q ∧ final q = s₀.final_params q) ∧
        ∀ i page, pages[i]? = some page →
          block slot i = (tier.slab page).block ∧ final slot i = (tier.slab page).final)
      (fun e s => Raised fault true e ∧ Rewrites [slot] s₀ s) := by
  have hbody : ∀ page ∈ pages.zipIdx, (page_buffer slot).Writes
      (copy_page (χ := χ) fault tier key slot page) page.2 (fun _ => tier.slab page.1) ()
      (Raised fault true) :=
    fun page _ => perform_store fault (.copy_to_gpu key page.2) _ _
  have hnd : (pages.zipIdx.map Prod.snd).Nodup := by
    rw [zipIdx_map_snd]
    exact nodup_range'
  have hloop := Exec.Triple.forEach_writes s₀ pages.zipIdx hnd hbody
  refine hloop.mono (fun _ h => h) ?_ ?_
  · rintro _ s ⟨rows, rfl, hdone, _⟩
    refine ⟨_, _, rfl, ?_, ?_⟩
    · intro q hq
      exact ⟨update_of_ne hq _ _, update_of_ne hq _ _⟩
    · intro i page hi
      have hrow := hdone (page, i) (mem_zipIdx_iff_getElem?.mpr hi)
      rw [update_self, update_self, hrow]
      exact ⟨rfl, rfl⟩
  · rintro e s ⟨he, rows, rfl, _⟩
    refine ⟨he, _, _, _, rfl, fun q hq => ⟨rfl, ?_, ?_⟩⟩
    · exact update_of_ne (by simpa using hq) _ _
    · exact update_of_ne (by simpa using hq) _ _

theorem Rewrites.mono {pending' : List ℕ} (h : Rewrites pending s s')
    (hsub : ∀ q ∈ pending, q ∈ pending') : Rewrites pending' s s' := by
  obtain ⟨t, b, f, hs, hrows⟩ := h
  exact ⟨t, b, f, hs, fun q hq => hrows q (fun hin => hq (hsub q hin))⟩

theorem copy_to_gpu_spec
    (tier : HostTier Key (List Key) (Page β φ)) (s₀ : Cache χ β φ)
    (assignments : OrderedDict Key ℕ) (hnd : assignments.values.Nodup)
    (hstored : ∀ key ∈ assignments.keys, key ∈ tier.plans.keys) :
    Exec.Triple (fun s => s = s₀) (copy_to_gpu fault tier assignments)
      (fun _ s => ∃ block final, s = { s₀ with block_params := block, final_params := final } ∧
        (∀ q, q ∉ assignments.values → block q = s₀.block_params q ∧ final q = s₀.final_params q) ∧
        ∀ p ∈ assignments.items, PagesCopied tier block final p)
      (fun e s => Raised fault true e ∧ Rewrites assignments.values s₀ s) := by
  -- after a front of the assignments, exactly its slots have been filled
  refine (Exec.Triple.forEach
    (E := fun e s => Raised fault true e ∧ Rewrites assignments.values s₀ s)
    (I := fun front s => ∃ block final,
      s = { s₀ with block_params := block, final_params := final } ∧ (∀ q, q ∉ front.map Prod.snd →
        block q = s₀.block_params q ∧ final q = s₀.final_params q) ∧
      ∀ p ∈ front, PagesCopied tier block final p)
    assignments.items [] ?_).mono ?_ (fun _ _ h => h) (fun _ _ h => h)
  · intro front x back heq _
    rw [nil_append] at heq
    have hfresh : ∀ p ∈ front, p.2 ≠ x.2 := by
      intro p hp heq'
      rw [OrderedDict.values, heq, map_append, nodup_append] at hnd
      exact hnd.2.2 p.2 (mem_map.mpr ⟨p, hp, rfl⟩) x.2 (by simp) heq'
    have hin : ∀ p ∈ front ++ [x], p.2 ∈ assignments.values := by
      intro p hp
      rw [OrderedDict.values, heq, mem_map]
      refine ⟨p, ?_, rfl⟩
      rcases mem_append.mp hp with h | h
      · exact mem_append_left _ h
      · rw [mem_singleton.mp h]
        exact mem_append_right _ (mem_cons_self ..)
    obtain ⟨plan, hplan⟩ := mem_keys_iff.mp
      (hstored x.1 (mem_map.mpr ⟨x, by rw [heq]; simp, rfl⟩))
    simp only [hplan]
    rintro s ⟨block, final, rfl, hkeep, hdone⟩
    refine (copy_pages_spec fault tier _ x.1 x.2 plan.pages).mono (fun _ h => h) ?_ ?_ _ rfl
    · rintro _ s' ⟨block', final', rfl, hkeep', hrow⟩
      refine ⟨block', final', rfl, ?_, ?_⟩
      · intro q hq
        rw [map_append, mem_append, not_or] at hq
        obtain ⟨hb, hf⟩ := hkeep' q (fun h => hq.2 (by simp [h]))
        obtain ⟨hb', hf'⟩ := hkeep q hq.1
        exact ⟨hb.trans hb', hf.trans hf'⟩
      · intro p hp plan' hplan' i page hi
        rcases mem_append.mp hp with h | h
        · obtain ⟨hb, hf⟩ := hkeep' p.2 (hfresh p h)
          rw [hb, hf]
          exact hdone p h plan' hplan' i page hi
        · rw [mem_singleton.mp h] at hplan' ⊢
          rw [hplan, Option.some.injEq] at hplan'
          rw [← hplan'] at hi
          exact hrow i page hi
    · rintro e s' ⟨he, hr⟩
      refine ⟨he, Rewrites.trans ⟨_, block, final, rfl, fun q hq => ?_⟩ (hr.mono (fun q hq => ?_))⟩
      · have hout : q ∉ front.map Prod.snd := by
          intro hq'
          obtain ⟨p, hp, rfl⟩ := mem_map.mp hq'
          exact hq (hin p (mem_append_left _ hp))
        exact ⟨rfl, (hkeep q hout).1, (hkeep q hout).2⟩
      · exact mem_singleton.mp hq ▸ hin x (by simp)
  · rintro s rfl
    exact ⟨s.block_params, s.final_params, rfl, fun _ _ => ⟨rfl, rfl⟩, by simp⟩

theorem swap_in_length_loop (s₀ : Cache χ β φ)
    (assignments : OrderedDict Key ℕ) (missing : OrderedDict Key (List Timestep))
    (hkeys : assignments.keys = missing.keys) (hnd : assignments.values.Nodup) :
    Exec.Triple (fun s => s = s₀) (Exec.forEach missing.items (swap_in_length fault assignments))
      (fun _ s => ∃ lengths, s = { s₀ with plan_lengths := lengths } ∧
        (∀ q, q ∉ assignments.values → lengths q = s₀.plan_lengths q) ∧
        ∀ plan ∈ missing.items, lengths (slot_of assignments plan.1) = plan.2.length)
      (fun e s => Raised fault false e ∧ ∃ lengths, s = { s₀ with plan_lengths := lengths }) := by
  have hbody : ∀ plan ∈ missing.items, lengths_buffer.Writes
      (swap_in_length (χ := χ) (β := β) (φ := φ) fault assignments plan)
      (slot_of assignments plan.1) (fun _ => plan.2.length) () (Raised fault false) := by
    intro plan hplan
    unfold swap_in_length
    rw [get?_eq_slot_of hkeys hplan]
    exact perform_store fault (.swap_in_length plan.1) _ _
  have hmap := map_slot_of hkeys
  have hloop := Exec.Triple.forEach_writes s₀ missing.items (by rw [hmap]; exact hnd) hbody
  rw [hmap] at hloop
  refine hloop.mono (fun _ h => h) ?_ ?_
  · rintro _ s ⟨lengths, rfl, hdone, hkeep⟩
    exact ⟨lengths, rfl, hkeep, hdone⟩
  · rintro e s ⟨he, lengths, rfl, _⟩
    exact ⟨he, lengths, rfl⟩

/-! ### The rebuild path -/

/-- What the staging loop returns: slot, length and embedding of each missing plan. -/
def staged_slots (embed : List Timestep → χ) (assignments : OrderedDict Key ℕ)
    (missing : OrderedDict Key (List Timestep)) : List (ℕ × (ℕ × χ)) :=
  missing.items.map (fun plan => (slot_of assignments plan.1, plan.2.length, embed plan.2))

theorem map_fst_staged_slots (hkeys : assignments.keys = missing.keys) :
    (staged_slots embed assignments missing).map Prod.fst = assignments.values := by
  unfold staged_slots
  rw [map_map]
  exact map_slot_of hkeys

theorem stage_slot_loop (s₀ : Cache χ β φ)
    (assignments : OrderedDict Key ℕ) (missing : OrderedDict Key (List Timestep))
    (hkeys : assignments.keys = missing.keys) (hnd : assignments.values.Nodup) :
    Exec.Triple (fun s => s = s₀) (Exec.mapEach missing.items (stage_slot fault embed assignments))
      (fun slots s => slots = staged_slots embed assignments missing ∧
        ∃ rows, s = { s₀ with plan_timesteps := rows } ∧
        (∀ q, q ∉ assignments.values → rows q = s₀.plan_timesteps q) ∧
        TimestepsWritten assignments missing s)
      (fun e s => Raised fault false e ∧ Rewrites assignments.values s₀ s) := by
  have hbody : ∀ plan ∈ missing.items, timesteps_buffer.Writes
      (stage_slot (β := β) (φ := φ) fault embed assignments plan)
      (slot_of assignments plan.1) (write_slice plan.2)
      (slot_of assignments plan.1, plan.2.length, embed plan.2) (Raised fault false) := by
    intro plan hplan s
    unfold stage_slot
    rw [get?_eq_slot_of hkeys hplan]
    rcases perform_cases fault (.embed plan.1) s with ⟨_, hok⟩ | ⟨hf, herr⟩
    · rcases perform_cases fault (.write_timesteps plan.1) s with ⟨_, hok'⟩ | ⟨hf, herr⟩
      · exact Or.inl ((Exec.bind_of_ok hok).trans (Exec.bind_of_ok hok'))
      · exact Or.inr ⟨_, ⟨_, hf, rfl, rfl⟩, (Exec.bind_of_ok hok).trans (Exec.bind_of_error herr)⟩
    · exact Or.inr ⟨_, ⟨_, hf, rfl, rfl⟩, Exec.bind_of_error herr⟩
  have hmap := map_slot_of hkeys
  have hloop := Exec.Triple.mapEach_writes s₀ missing.items (by rw [hmap]; exact hnd) hbody
  rw [hmap] at hloop
  refine hloop.mono (fun _ h => h) ?_ ?_
  · rintro slots s ⟨hslots, rows, rfl, hdone, hkeep⟩
    refine ⟨hslots, rows, rfl, hkeep, fun plan hplan i hi => ?_⟩
    show rows (slot_of assignments plan.1) i = _
    rw [hdone plan hplan, write_slice_get]
  · rintro e s ⟨he, rows, rfl, hkeep⟩
    exact ⟨he, rows, _, _, rfl, fun q hq => ⟨hkeep q hq, rfl, rfl⟩⟩

theorem read_shards_spec {P : Cache χ β φ → Prop} (stem : String) :
    Exec.Triple P (read_shards fault stem) (fun _ => P) (fun e s => Raised fault true e ∧ P s) :=
  Exec.Triple.bind (perform_raises fault (.read_shard (stem ++ ".weight")))
    (fun _ => perform_raises fault (.read_shard (stem ++ ".bias")))

theorem project_layer_spec (files : Checkpoint χ β φ)
    (s₀ : Cache χ β φ) (slots : List (ℕ × (ℕ × χ))) (hnd : (slots.map Prod.fst).Nodup) (layer : ℕ) :
    Exec.Triple (fun s => s = s₀) (project_layer fault files slots layer)
      (fun _ s => ∃ block, s = { s₀ with block_params := block } ∧
        (∀ q, q ∉ slots.map Prod.fst → block q = s₀.block_params q) ∧
        ∀ entry ∈ slots, ∀ i l, block entry.1 i l =
          if i < entry.2.1 ∧ l = layer then files.block layer entry.2.2 i
          else s₀.block_params entry.1 i l)
      (fun e s => Raised fault true e ∧ Rewrites (slots.map Prod.fst) s₀ s) := by
  have hbody : ∀ entry ∈ slots, block_buffer.Writes
      (project_block (φ := φ) fault files layer entry) entry.1
      (fun row index l =>
        if index < entry.2.1 ∧ l = layer then files.block layer entry.2.2 index else row index l)
      () (Raised fault true) :=
    fun entry _ => perform_store fault (.project_block layer entry.1) _ _
  have hloop := Exec.Triple.forEach_writes s₀ slots hnd hbody
  refine Exec.Triple.bind ((read_shards_spec fault _).mono (fun _ h => h) (fun _ _ h => h) ?_)
    (fun _ => hloop.mono (fun _ h => h) ?_ ?_)
  · rintro e s ⟨he, rfl⟩
    exact ⟨he, Rewrites.refl _ s⟩
  · rintro _ s ⟨block, rfl, hdone, hkeep⟩
    refine ⟨block, rfl, hkeep, fun entry hentry i l => ?_⟩
    rw [hdone entry hentry]
    rfl
  · rintro e s ⟨he, block, rfl, hkeep⟩
    exact ⟨he, _, block, _, rfl, fun q hq => ⟨rfl, hkeep q hq, rfl⟩⟩

end

/-- What the streaming pass computes for the staged slots. -/
def Projected (s : Cache χ β φ) (slots : List (ℕ × (ℕ × χ))) : Prop :=
  ∀ entry ∈ slots, ∀ i < entry.2.1,
    (∀ layer < s.num_layers, s.block_params entry.1 i layer
      = s.weight_files.block layer entry.2.2 i) ∧
    s.final_params entry.1 i = s.weight_files.final entry.2.2 i

section

variable (fault : Option (AdalnStep Key)) (s₀ : Cache χ β φ) (slots : List (ℕ × (ℕ × χ)))
  (hnd : (slots.map Prod.fst).Nodup)
include fault s₀ slots hnd

theorem project_plans_spec :
    Exec.Triple (fun s => s = s₀) (project_plans_from_checkpoint fault slots)
      (fun _ s => (∃ block final, s = { s₀ with block_params := block, final_params := final } ∧
        ∀ q, q ∉ slots.map Prod.fst →
          block q = s₀.block_params q ∧ final q = s₀.final_params q) ∧ Projected s slots)
      (fun e s => Raised fault true e ∧ Rewrites (slots.map Prod.fst) s₀ s) := by
  refine Exec.Triple.get_bind (fun s₁ => ?_)
  rintro s ⟨hs, rfl⟩
  subst hs
  -- the layers done so far are filled in every staged slot
  have hlayers := Exec.Triple.forEach
    (E := fun e s' => Raised fault true e ∧ Rewrites (slots.map Prod.fst) s s')
    (f := project_layer fault s.weight_files slots)
    (I := fun front s' => ∃ block, s' = { s with block_params := block } ∧
      (∀ q, q ∉ slots.map Prod.fst → block q = s.block_params q) ∧
      ∀ entry ∈ slots, ∀ i < entry.2.1, ∀ layer ∈ front,
        block entry.1 i layer = s.weight_files.block layer entry.2.2 i)
    (List.range s.num_layers) []
    (by
      intro front layer back _ _
      rintro s' ⟨block, rfl, hkeep, hdone⟩
      refine (project_layer_spec fault s.weight_files _ slots hnd layer).mono (fun _ h => h)
        ?_ ?_ _ rfl
      · rintro _ s'' ⟨block', rfl, hkeep', hrow⟩
        refine ⟨block', rfl, fun q hq => (hkeep' q hq).trans (hkeep q hq), ?_⟩
        intro entry hentry i hi l hl
        rw [hrow entry hentry i l]
        by_cases hlayer : l = layer
        · rw [if_pos ⟨hi, hlayer⟩, hlayer]
        · rw [if_neg (fun h => hlayer h.2)]
          exact hdone entry hentry i hi l ((mem_append.mp hl).resolve_right (by simpa using hlayer))
      · rintro e s'' ⟨he, hr⟩
        exact ⟨he, Rewrites.trans ⟨_, block, _, rfl, fun q hq => ⟨rfl, hkeep q hq, rfl⟩⟩ hr⟩)
  refine Exec.Triple.bind (hlayers.mono ?_ (fun _ _ h => h) (fun _ _ h => h))
    (fun _ => ?_) s rfl
  · rintro s' rfl
    exact ⟨_, rfl, fun _ _ => rfl, fun _ _ _ _ _ h => by cases h⟩
  rintro s₁ ⟨block, rfl, hkeep, hdone⟩
  set s₁ : Cache χ β φ := { s with block_params := block }
  have hrew : Rewrites (slots.map Prod.fst) s s₁ :=
    ⟨_, block, _, rfl, fun q hq => ⟨rfl, hkeep q hq, rfl⟩⟩
  have hbody : ∀ entry ∈ slots, final_buffer.Writes
      (project_final (β := β) fault s.weight_files entry) entry.1
      (fun row index =>
        if index < entry.2.1 then s.weight_files.final entry.2.2 index else row index)
      () (Raised fault true) :=
    fun entry _ => perform_store fault (.project_final entry.1) _ _
  have hfinal := Exec.Triple.forEach_writes s₁ slots hnd hbody
  refine Exec.Triple.bind ((read_shards_spec (P := fun s' => s' = s₁) fault _).mono
    (fun _ h => h) (fun _ _ h => h) ?_) (fun _ => hfinal.mono (fun _ h => h) ?_ ?_) s₁ rfl
  · rintro e s' ⟨he, rfl⟩
    exact ⟨he, hrew⟩
  · rintro _ s' ⟨final, rfl, hrow, hkeep'⟩
    refine ⟨⟨block, final, rfl, fun q hq => ⟨hkeep q hq, hkeep' q hq⟩⟩, ?_⟩
    intro entry hentry i hi
    refine ⟨fun layer hl => hdone entry hentry i hi layer ?_, ?_⟩
    · rw [nil_append, mem_range]
      exact hl
    · show final entry.1 i = _
      rw [hrow entry hentry]
      exact if_pos hi
  · rintro e s' ⟨he, final, rfl, hkeep'⟩
    exact ⟨he, hrew.trans ⟨_, _, final, rfl, fun q hq => ⟨rfl, rfl, hkeep' q hq⟩⟩⟩

theorem write_length_loop : Exec.Triple (fun s => s = s₀) (Exec.forEach slots (write_length fault))
      (fun _ s => ∃ lengths, s = { s₀ with plan_lengths := lengths } ∧
        (∀ q, q ∉ slots.map Prod.fst → lengths q = s₀.plan_lengths q) ∧
        ∀ entry ∈ slots, lengths entry.1 = entry.2.1)
      (fun e s => Raised fault false e ∧ ∃ lengths, s = { s₀ with plan_lengths := lengths }) := by
  have hbody : ∀ entry ∈ slots, lengths_buffer.Writes
      (write_length (β := β) (φ := φ) fault entry) entry.1 (fun _ => entry.2.1) ()
      (Raised fault false) :=
    fun entry _ => perform_store fault (.write_length entry.1) _ _
  have hloop := Exec.Triple.forEach_writes s₀ slots hnd hbody
  refine hloop.mono (fun _ h => h) ?_ ?_
  · rintro _ s ⟨lengths, rfl, hdone, hkeep⟩
    exact ⟨lengths, rfl, hkeep, hdone⟩
  · rintro e s ⟨he, lengths, rfl, _⟩
    exact ⟨he, lengths, rfl⟩

end

end Filling

/-! ## The two paths of a build -/

section Build

variable {χ β φ : Type} {embed : List Timestep → χ}

/-- The rows of a stored plan are the ones the weights give for it. -/
def HostRows (embed : List Timestep → χ) (files : Checkpoint χ β φ) (num_layers : ℕ) (key : Key)
    (rows : List (Page β φ)) : Prop :=
  ∃ plan, key = plan_key plan ∧ rows.length = plan.length ∧
    ∀ i page, rows[i]? = some page →
      (∀ layer < num_layers, page.block layer = files.block layer (embed plan) i) ∧
      page.final = files.final (embed plan) i

/-- A property of the host tier, when there is one. -/
def OnHost (P : HostTier Key (List Key) (Page β φ) → Prop) (s : Cache χ β φ) : Prop :=
  ∀ tier, s.host_tier = some tier → P tier

/-- The host tier is balanced and holds its keys' rows. -/
def HostInv (embed : List Timestep → χ) (s : Cache χ β φ) : Prop :=
  OnHost (fun tier => ∃ n, Ledger (HostRows embed s.weight_files s.num_layers) n no_pins tier) s

/-- Every stored plan has its rows; nothing is said of pages and reference counts, so this holds
of a tier whose last store raised. -/
def HostComplete (embed : List Timestep → χ) (files : Checkpoint χ β φ) (num_layers : ℕ)
    (tier : HostTier Key (List Key) (Page β φ)) : Prop :=
  ∀ key plan, tier.plans.get? key = some plan →
    HostRows embed files num_layers key (plan.pages.map tier.slab)

/-- What `build` relies on of its host tier: from a state in `P` the stored plans have their rows,
and a call ends in `Q` or raises a harmless error. -/
structure HostRules (fault : Option (AdalnStep Key)) (embed : List Timestep → χ)
    (files : Checkpoint χ β φ) (num_layers : ℕ)
    (P Q : HostTier Key (List Key) (Page β φ) → Prop) (harmless : PyErr Key → Prop) : Prop where
  rows : ∀ tier, P tier → HostComplete embed files num_layers tier
  register : ∀ keys : List Key, keys.Nodup →
    Exec.Triple P (register_group keys keys) (fun _ => Q) (fun e _ => harmless e)
  store : ∀ (gpu : ℕ → ℕ → Page β φ) (keys : List Key) (entries : OrderedDict Key (ℕ × ℕ)),
    (∀ e ∈ entries.items, HostRows embed files num_layers e.1 ((List.range e.2.2).map (gpu e.2.1))) →
      Exec.Triple P (store_group fault gpu keys entries) (fun _ => Q) (fun e _ => harmless e)

/-- What a failing `build` leaves behind: after a harmless error or a guarded step the slots are as
they were between two calls, after any other step one is lost. -/
def BuildFails (fault : Option (AdalnStep Key)) (embed : List Timestep → χ)
    (harmless : PyErr Key → Prop) (e : PyErr Key) (s : Cache χ β φ) : Prop :=
  (harmless e ∧ SlotInv embed [] s) ∨
    (Raised fault true e ∧ SlotInv embed [] s) ∨ (Raised fault false e ∧ Lost s)

/-- What a returning `build` has done for the wanted plans. -/
structure Served (embed : List Timestep → χ) (s₀ : Cache χ β φ) (wanted : List Key)
    (s : Cache χ β φ) : Prop where
  inv : SlotInv embed [] s
  resolves : ∀ key ∈ wanted, key ∈ s.slots.keys
  kept : ∀ key ∈ wanted, ∀ slot, s₀.slots.get? key = some slot → s.slots.get? key = some slot
  layers : s.num_layers = s₀.num_layers
  files : s.weight_files = s₀.weight_files

variable {s : Cache χ β φ}

theorem SlotInv.lost {pending : List ℕ} (h : SlotInv embed pending s) (hne : pending ≠ []) :
    Lost s :=
  lost_of_pending hne h.partition

theorem values_ne_nil {assignments : OrderedDict Key ℕ} {missing : OrderedDict Key (List Timestep)}
    (hkeys : assignments.keys = missing.keys) (hne : missing.items ≠ []) :
    assignments.values ≠ [] := by
  intro hnil
  have h := map_slot_of hkeys
  rw [hnil, map_eq_nil_iff] at h
  exact hne h

theorem served_of_commit {s₀ : Cache χ β φ} {assignments : OrderedDict Key ℕ}
    {wanted missing : OrderedDict Key (List Timestep)} {lengths : ℕ → ℕ}
    (hkeys : assignments.keys = missing.keys)
    (hmissing : missing = wanted.filterKeys (fun key => decide (key ∉ s₀.slots.keys)))
    (hplans : ∀ plan ∈ wanted.items, plan.1 = plan_key plan.2)
    (hinv : SlotInv embed assignments.values s)
    (hkept : ∀ key ∈ wanted.keys, s.slots.get? key = s₀.slots.get? key)
    (hlayers : s.num_layers = s₀.num_layers) (hfiles : s.weight_files = s₀.weight_files)
    (hout : ∀ q, q ∉ assignments.values → lengths q = s.plan_lengths q)
    (hholds : ∀ plan ∈ missing.items,
      Holds embed { s with plan_lengths := lengths } plan.2 (slot_of assignments plan.1)) :
    Served embed s₀ wanted.keys
      { s with plan_lengths := lengths, slots := s.slots.update assignments.items } := by
  have hmem : ∀ key ∈ assignments.keys, key ∈ wanted.keys ∧ key ∉ s₀.slots.keys := by
    intro key hkey
    rw [hkeys, hmissing, keys_filterKeys, mem_filter] at hkey
    exact ⟨hkey.1, by simpa using hkey.2⟩
  have hfresh : ∀ p ∈ assignments.items, p.1 ∉ s.slots.keys := by
    intro p hp
    obtain ⟨hw, hnot⟩ := hmem p.1 (mem_map.mpr ⟨p, hp, rfl⟩)
    rw [← get?_eq_none_iff, hkept p.1 hw, get?_eq_none_iff]
    exact hnot
  refine ⟨hinv.commit hfresh hout ?_, ?_, ?_, hlayers, hfiles⟩
  · intro p hp
    have hin : p.1 ∈ missing.keys := hkeys ▸ mem_map.mpr ⟨p, hp, rfl⟩
    obtain ⟨plan, hplan, hkey⟩ := mem_map.mp hin
    have hw : plan ∈ wanted.items := by
      rw [hmissing] at hplan
      exact (mem_filter.mp hplan).1
    have hslot : slot_of assignments plan.1 = p.2 := by
      rw [slot_of, hkey, get?_eq_some_iff.mpr hp, Option.getD_some]
    refine ⟨plan.2, hkey ▸ hplans plan hw, ?_⟩
    rw [← hslot]
    exact hholds plan hplan
  · intro key hkey
    by_cases hres : key ∈ s₀.slots.keys
    · obtain ⟨slot, hslot⟩ := mem_keys_iff.mp hres
      refine mem_keys_iff.mpr ⟨slot, ?_⟩
      exact (get?_update_of_fresh assignments.nodup hfresh).mpr
        (Or.inl ((hkept key hkey).trans hslot))
    · have hin : key ∈ assignments.keys := by
        rw [hkeys, hmissing, keys_filterKeys, mem_filter]
        exact ⟨hkey, by simpa using hres⟩
      obtain ⟨p, hp, rfl⟩ := mem_map.mp hin
      refine mem_keys_iff.mpr ⟨p.2, ?_⟩
      exact (get?_update_of_fresh assignments.nodup hfresh).mpr (Or.inr hp)
  · intro key hkey slot hslot
    exact (get?_update_of_fresh assignments.nodup hfresh).mpr
      (Or.inl ((hkept key hkey).trans hslot))

theorem Served.counters {s₀ : Cache χ β φ} {wanted : List Key} (h : Served embed s₀ wanted s)
    (gpu_hits host_hits built rebuilds : ℕ) (tier : Option (HostTier Key (List Key) (Page β φ))) :
    Served embed s₀ wanted
      { s with
        gpu_hit_plans := gpu_hits
        host_hit_plans := host_hits
        built_plans := built
        rebuilds := rebuilds
        host_tier := tier } :=
  ⟨h.inv.transfer (List.Perm.refl _) rfl rfl rfl (fun _ _ => ⟨rfl, rfl, rfl⟩) rfl rfl, h.resolves,
    h.kept, h.layers, h.files⟩

theorem rows_of_pages {files : Checkpoint χ β φ} {num_layers : ℕ}
    {tier : HostTier Key (List Key) (Page β φ)} (hrowed : HostComplete embed files num_layers tier)
    {block : ℕ → ℕ → ℕ → β} {final : ℕ → ℕ → φ} {plan : List Timestep} {slot : ℕ}
    (hstored : plan_key plan ∈ tier.plans.keys)
    (hcopied : PagesCopied tier block final (plan_key plan, slot)) :
    ∀ i < plan.length, (∀ layer < num_layers, block slot i layer = files.block layer (embed plan) i)
      ∧ final slot i = files.final (embed plan) i := by
  obtain ⟨stored, hget⟩ := mem_keys_iff.mp hstored
  obtain ⟨plan', hkey, hlen, hrows⟩ := hrowed (plan_key plan) stored hget
  have hplan : plan = plan' := plan_key_injective hkey
  subst hplan
  intro i hi
  rw [length_map] at hlen
  have hlt : i < stored.pages.length := by omega
  have hpage : stored.pages[i]? = some (stored.pages.get ⟨i, hlt⟩) :=
    getElem?_eq_getElem hlt
  obtain ⟨hb, hf⟩ := hcopied stored hget i _ hpage
  have hrow : (stored.pages.map tier.slab)[i]? = some (tier.slab (stored.pages.get ⟨i, hlt⟩)) := by
    rw [getElem?_map, hpage]
    rfl
  obtain ⟨hblock, hfinal⟩ := hrows i _ hrow
  rw [hb, hf]
  exact ⟨hblock, hfinal⟩

section

variable (fault : Option (AdalnStep Key))

theorem EvictFails.build_fails {harmless : PyErr Key → Prop} {e : PyErr Key}
    (h : EvictFails fault e s) : BuildFails fault embed harmless e s := by
  obtain ⟨⟨slot, hf, he⟩, hlost⟩ := h
  exact Or.inr (Or.inr ⟨⟨_, hf, he, rfl⟩, hlost⟩)

variable {P Q : HostTier Key (List Key) (Page β φ) → Prop} {harmless : PyErr Key → Prop}

theorem swap_in_from_host_spec (s₀ : Cache χ β φ)
    (tier : HostTier Key (List Key) (Page β φ)) (wanted missing : OrderedDict Key (List Timestep))
    (hrowed : HostComplete embed s₀.weight_files s₀.num_layers tier)
    (hfit : wanted.size ≤ s₀.max_plans)
    (hmissing : missing = wanted.filterKeys (fun key => decide (key ∉ s₀.slots.keys)))
    (hne : missing.items ≠ []) (hstored : ∀ key ∈ missing.keys, key ∈ tier.plans.keys)
    (hplans : ∀ plan ∈ wanted.items, plan.1 = plan_key plan.2 ∧ plan.2 ≠ []) :
    Exec.Triple (fun s => s = s₀ ∧ SlotInv embed [] s) (swap_in_from_host fault tier wanted missing)
      (fun _ s => Served embed s₀ wanted.keys s ∧ s.host_tier = s₀.host_tier)
      (BuildFails fault embed harmless) := by
  refine Exec.Triple.bind ((allocate_slots_spec s₀ fault wanted missing hfit hmissing).mono
    (fun _ h => h) (fun _ _ h => h) (fun _ _ h => h.build_fails)) (fun assignments => ?_)
  rintro s₁ ⟨slots, free, lengths, hs₁, hkeys, hinv, hkept⟩
  have hpending := values_ne_nil hkeys hne
  have hnd := hinv.pending_nodup
  -- the handler covers the timestep writes and the copies
  refine Exec.Triple.bind (P := fun s => s = s₁)
    (Q := fun _ s => ∃ timesteps block final,
      s = { s₁ with plan_timesteps := timesteps, block_params := block, final_params := final } ∧
      SlotInv embed assignments.values s ∧ TimestepsWritten assignments missing s ∧
      ∀ p ∈ assignments.items, PagesCopied tier block final p)
    (Exec.Triple.onError (E := fun e s => Raised fault true e ∧ SlotInv embed assignments.values s)
      ?_ ?_) (fun _ => ?_) s₁ rfl
  · refine Exec.Triple.bind ((swap_in_timesteps_loop fault s₁ assignments missing hkeys hnd).mono
      (fun _ h => h) (fun _ _ h => h) ?_) (fun _ => ?_)
    · rintro e s ⟨he, hr⟩
      exact ⟨he, hinv.rewrites hr⟩
    rintro s ⟨rows, rfl, hkeep, hwritten⟩
    set s₂ : Cache χ β φ := { s₁ with plan_timesteps := rows }
    have hr₂ : Rewrites assignments.values s₁ s₂ :=
      ⟨rows, _, _, rfl, fun q hq => ⟨hkeep q hq, rfl, rfl⟩⟩
    refine (copy_to_gpu_spec fault tier s₂ assignments hnd (by rw [hkeys]; exact hstored)).mono
      (fun _ h => h) ?_ ?_ s₂ rfl
    · rintro _ s ⟨block, final, rfl, hkeep', hcopied⟩
      refine ⟨rows, block, final, rfl, ?_, hwritten, hcopied⟩
      exact hinv.rewrites (hr₂.trans ⟨_, block, final, rfl, fun q hq => ⟨rfl, hkeep' q hq⟩⟩)
    · rintro e s ⟨he, hr⟩
      exact ⟨he, hinv.rewrites (hr₂.trans hr)⟩
  · rintro e s ⟨he, hinv'⟩
    exact Or.inr (Or.inl ⟨he, hinv'.hand_back⟩)
  rintro s₂ ⟨timesteps, block, final, hs₂, hinv₂, hwritten, hcopied⟩
  -- from the fence on nobody hands the slots back
  refine Exec.Triple.bind ((perform_raises (P := fun s => s = s₂) fault .fence_gpu_reads).mono
    (fun _ h => h) (fun _ _ h => h) ?_) (fun _ => ?_) s₂ rfl
  · rintro e s ⟨he, rfl⟩
    exact Or.inr (Or.inr ⟨he, hinv₂.lost hpending⟩)
  refine Exec.Triple.bind ((swap_in_length_loop fault s₂ assignments missing hkeys hnd).mono
    (fun _ h => h) (fun _ _ h => h) ?_) (fun _ => Exec.Triple.modify ?_)
  · rintro e s ⟨he, lengths', rfl⟩
    exact Or.inr (Or.inr ⟨he, lost_of_pending hpending hinv₂.partition⟩)
  rintro s ⟨lengths', rfl, hout, hlens⟩
  have hserved : Served embed s₀ wanted.keys
      { s₂ with plan_lengths := lengths', slots := s₂.slots.update assignments.items } := by
    refine served_of_commit hkeys hmissing (fun plan hp => (hplans plan hp).1) hinv₂ ?_ ?_ ?_ hout ?_
    · intro key hkey
      rw [hs₂, hs₁]
      exact hkept key hkey
    · rw [hs₂, hs₁]
    · rw [hs₂, hs₁]
    · intro plan hplan
      have hin : plan.1 ∈ missing.keys := mem_map.mpr ⟨plan, hplan, rfl⟩
      have hw : plan ∈ wanted.items := by
        rw [hmissing] at hplan
        exact (mem_filter.mp hplan).1
      obtain ⟨hkey, hnonempty⟩ := hplans plan hw
      have hitem : (plan.1, slot_of assignments plan.1) ∈ assignments.items :=
        get?_eq_some_iff.mp (get?_eq_slot_of hkeys hplan)
      have hrows := rows_of_pages hrowed (hkey ▸ hstored plan.1 hin) (hkey ▸ hcopied _ hitem)
      rw [← hkey] at hrows
      refine ⟨hnonempty, hlens plan hplan, fun i hi => hwritten plan hplan i hi, ?_, ?_⟩
      · rw [hs₂, hs₁]
        exact fun i hi => (hrows i hi).1
      · rw [hs₂, hs₁]
        exact fun i hi => (hrows i hi).2
  refine ⟨hserved.counters _ _ _ _ _, ?_⟩
  rw [hs₂, hs₁]

theorem on_host_spec {m : TierM Key (List Key) (Page β φ) Unit}
    {P Q : HostTier Key (List Key) (Page β φ) → Prop}
    {F : PyErr Key → HostTier Key (List Key) (Page β φ) → Prop}
    (hm : Exec.Triple P m (fun _ => Q) F) (s₀ : Cache χ β φ)
    (hP : ∀ tier, s₀.host_tier = some tier → P tier) : Exec.Triple (fun s => s = s₀) (on_host m)
      (fun _ s => ∃ host, s = { s₀ with host_tier := host } ∧ ∀ tier, host = some tier → Q tier)
      (fun e s => ∃ tier, s = { s₀ with host_tier := some tier } ∧ F e tier) := by
  rintro s rfl
  cases hh : s.host_tier with
  | none =>
    have heq : on_host m s = (.ok (), s) := by simp only [on_host, hh]
    refine Exec.Triple.of_ok heq ⟨none, by rw [← hh], ?_⟩
    intro tier htier
    cases htier
  | some tier =>
    obtain ⟨hok, herr⟩ := hm tier (hP tier hh)
    cases hr : m tier with
    | mk r tier' =>
      have heq : on_host m s = (r, { s with host_tier := some tier' }) := by
        simp only [on_host, hh, hr]
      cases r with
      | ok a =>
        refine Exec.Triple.of_ok heq ⟨some tier', rfl, ?_⟩
        rintro _ ⟨⟩
        exact hok () tier' hr
      | error e => exact Exec.Triple.of_error heq ⟨tier', rfl, herr e tier' hr⟩

theorem store_entries_spec {E : PyErr Key → Cache χ β φ → Prop} (s₀ : Cache χ β φ)
    (wanted : OrderedDict Key (List Timestep)) (hres : ∀ key ∈ wanted.keys, key ∈ s₀.slots.keys) :
    Exec.Triple (fun s => s = s₀) (Exec.mapEach wanted.items store_entry)
      (fun entries s => s = s₀ ∧ entries = wanted.items.map
        (fun plan => (plan.1, slot_of s₀.slots plan.1, plan.2.length))) E := by
  have hloop := Exec.Triple.mapEach (E := E) (f := store_entry (χ := χ) (β := β) (φ := φ))
    (I := fun front entries s => s = s₀ ∧ entries = front.map
      (fun plan => (plan.1, slot_of s₀.slots plan.1, plan.2.length))) wanted.items [] []
    (by
      intro front plan back entries heq _
      have hin : plan.1 ∈ s₀.slots.keys := by
        refine hres plan.1 (mem_map.mpr ⟨plan, ?_, rfl⟩)
        rw [nil_append] at heq
        rw [heq]; simp
      obtain ⟨slot, hslot⟩ := mem_keys_iff.mp hin
      refine Exec.Triple.get_bind (fun s₁ => ?_)
      rintro s ⟨⟨hs, hentries⟩, rfl⟩
      rw [hs]
      simp only [hslot]
      refine Exec.Triple.of_ok rfl ⟨rfl, ?_⟩
      rw [hentries, map_append, map_singleton, slot_of, hslot, Option.getD_some])
  refine hloop.mono ?_ (fun _ _ h => by simpa using h) (fun _ _ h => h)
  rintro s rfl
  exact ⟨rfl, rfl⟩

theorem host_rows_of_holds {plan : List Timestep} {slot : ℕ} (h : Holds embed s plan slot) :
    HostRows embed s.weight_files s.num_layers (plan_key plan) ((List.range plan.length).map
        (fun i => (⟨s.block_params slot i, s.final_params slot i⟩ : Page β φ))) := by
  refine ⟨plan, rfl, by simp, ?_⟩
  intro i page hi
  rw [getElem?_map, Option.map_eq_some_iff] at hi
  obtain ⟨j, hj, rfl⟩ := hi
  obtain ⟨hlt, hj'⟩ := List.getElem?_eq_some_iff.mp hj
  rw [getElem_range] at hj'
  subst hj'
  rw [length_range] at hlt
  exact ⟨h.block i hlt, h.final i hlt⟩

theorem store_on_host_spec (s₀ s₁ : Cache χ β φ) (wanted : OrderedDict Key (List Timestep))
    (hplans : ∀ plan ∈ wanted.items, plan.1 = plan_key plan.2)
    (hserved : Served embed s₀ wanted.keys s₁)
    (hrules : HostRules fault embed s₁.weight_files s₁.num_layers P Q harmless)
    (hhost : OnHost P s₁) : Exec.Triple (fun s => s = s₁) (store_on_host fault wanted)
      (fun _ s => Served embed s₀ wanted.keys s ∧ OnHost Q s) (BuildFails fault embed harmless) := by
  refine Exec.Triple.get_bind (fun s => ?_)
  rintro s' ⟨rfl, rfl⟩
  cases hh : s'.host_tier with
  | none => exact Exec.Triple.of_ok rfl ⟨hserved, fun _ ht => by cases hh.symm.trans ht⟩
  | some tier =>
  refine Exec.Triple.bind (store_entries_spec s' wanted hserved.resolves) (fun entries => ?_) s' rfl
  rintro s ⟨rfl, hentries⟩
  have hitems : (OrderedDict.ofList entries).items = entries := by
    refine items_ofList_of_nodup ?_
    rw [hentries, map_map]
    exact wanted.keys_nodup
  have hrows : ∀ e ∈ (OrderedDict.ofList entries).items,
      HostRows embed s.weight_files s.num_layers e.1 ((List.range e.2.2).map
        (fun i => (⟨s.block_params e.2.1 i, s.final_params e.2.1 i⟩ : Page β φ))) := by
    intro e he
    rw [hitems, hentries] at he
    obtain ⟨plan, hplan, rfl⟩ := mem_map.mp he
    have hin : plan.1 ∈ s.slots.keys :=
      hserved.resolves plan.1 (mem_map.mpr ⟨plan, hplan, rfl⟩)
    obtain ⟨slot, hslot⟩ := mem_keys_iff.mp hin
    obtain ⟨plan', hkey, hholds⟩ := hserved.inv.contents plan.1 slot hslot
    have hsame : plan.2 = plan' := plan_key_injective ((hplans plan hplan).symm.trans hkey)
    have hslot' : slot_of s.slots plan.1 = slot := by
      rw [slot_of, hslot, Option.getD_some]
    rw [← hsame] at hkey hholds
    simp only [hslot']
    rw [hkey]
    exact host_rows_of_holds hholds
  refine (on_host_spec (hrules.store _ wanted.keys _ hrows) s hhost).mono (fun _ h => h) ?_ ?_ s rfl
  · rintro _ s' ⟨host, rfl, htier⟩
    exact ⟨hserved.counters _ _ _ _ host, htier⟩
  · rintro e s' ⟨tier', rfl, he⟩
    exact Or.inl ⟨he, (hserved.counters _ _ _ _ _).inv⟩

theorem rebuild_spec (s₀ : Cache χ β φ) (wanted missing : OrderedDict Key (List Timestep))
    (hrules : HostRules fault embed s₀.weight_files s₀.num_layers P Q harmless)
    (hhost : OnHost P s₀) (hfit : wanted.size ≤ s₀.max_plans)
    (hmissing : missing = wanted.filterKeys (fun key => decide (key ∉ s₀.slots.keys)))
    (hne : missing.items ≠ [])
    (hplans : ∀ plan ∈ wanted.items, plan.1 = plan_key plan.2 ∧ plan.2 ≠ []) :
    Exec.Triple (fun s => s = s₀ ∧ SlotInv embed [] s) (rebuild fault embed wanted missing)
      (fun _ s => Served embed s₀ wanted.keys s ∧ OnHost Q s) (BuildFails fault embed harmless) := by
  refine Exec.Triple.bind ((allocate_slots_spec s₀ fault wanted missing hfit hmissing).mono
    (fun _ h => h) (fun _ _ h => h) (fun _ _ h => h.build_fails)) (fun assignments => ?_)
  rintro s₁ ⟨slots, free, lengths, hs₁, hkeys, hinv, hkept⟩
  have hpending := values_ne_nil hkeys hne
  have hnd := hinv.pending_nodup
  have hfst : (staged_slots embed assignments missing).map Prod.fst = assignments.values :=
    map_fst_staged_slots hkeys
  have hstaged : ((staged_slots embed assignments missing).map Prod.fst).Nodup := by
    rw [hfst]; exact hnd
  -- the staging loop stands before the handler
  refine Exec.Triple.bind ((stage_slot_loop fault s₁ assignments missing hkeys hnd).mono
    (fun _ h => h) (fun _ _ h => h) ?_) (fun entries => ?_) s₁ rfl
  · rintro e s ⟨he, hr⟩
    exact Or.inr (Or.inr ⟨he, (hinv.rewrites hr).lost hpending⟩)
  rintro s₂ ⟨rfl, rows, hs₂, hkeep, hwritten⟩
  have hr₂ : Rewrites assignments.values s₁ s₂ := by
    rw [hs₂]
    exact ⟨rows, _, _, rfl, fun q hq => ⟨hkeep q hq, rfl, rfl⟩⟩
  refine Exec.Triple.bind (P := fun s => s = s₂)
    (Exec.Triple.onError (E := fun e s => Raised fault true e ∧ SlotInv embed assignments.values s)
      ((project_plans_spec fault s₂ _ hstaged).mono (fun _ h => h) (fun _ _ h => h) ?_) ?_)
    (fun _ => ?_) s₂ rfl
  · rintro e s ⟨he, hr⟩
    rw [hfst] at hr
    exact ⟨he, hinv.rewrites (hr₂.trans hr)⟩
  · rintro e s ⟨he, hinv'⟩
    exact Or.inr (Or.inl ⟨he, hinv'.hand_back⟩)
  rintro s₃ ⟨⟨block, final, hs₃, hkeep'⟩, hprojected⟩
  have hinv₃ : SlotInv embed assignments.values s₃ := by
    refine hinv.rewrites (hr₂.trans ?_)
    rw [hs₃]
    rw [hfst] at hkeep'
    exact ⟨_, block, final, rfl, fun q hq => ⟨rfl, hkeep' q hq⟩⟩
  refine Exec.Triple.bind ((write_length_loop fault s₃ _ hstaged).mono
    (fun _ h => h) (fun _ _ h => h) ?_) (fun _ => ?_) s₃ rfl
  · rintro e s ⟨he, lengths', rfl⟩
    exact Or.inr (Or.inr ⟨he, lost_of_pending hpending hinv₃.partition⟩)
  rintro s₄ ⟨lengths', rfl, hout, hlens⟩
  rw [hfst] at hout
  have hentry : ∀ plan ∈ missing.items, (slot_of assignments plan.1, plan.2.length, embed plan.2)
      ∈ staged_slots embed assignments missing :=
    fun plan hplan => mem_map.mpr ⟨plan, hplan, rfl⟩
  have hserved : Served embed s₀ wanted.keys
      { s₃ with plan_lengths := lengths', slots := s₃.slots.update assignments.items } := by
    refine served_of_commit hkeys hmissing (fun plan hp => (hplans plan hp).1) hinv₃ ?_ ?_ ?_ hout ?_
    · intro key hkey
      rw [hs₃, hs₂, hs₁]
      exact hkept key hkey
    · rw [hs₃, hs₂, hs₁]
    · rw [hs₃, hs₂, hs₁]
    · intro plan hplan
      have hw : plan ∈ wanted.items := by
        rw [hmissing] at hplan
        exact (mem_filter.mp hplan).1
      have hproj := hprojected _ (hentry plan hplan)
      refine ⟨(hplans plan hw).2, hlens _ (hentry plan hplan), ?_, ?_, ?_⟩
      · intro i hi
        have h := hwritten plan hplan i hi
        rw [hs₂] at h
        rw [hs₃, hs₂]
        exact h
      · exact fun i hi => (hproj i hi).1
      · exact fun i hi => (hproj i hi).2
  refine Exec.Triple.bind (P := fun s => s = { s₃ with plan_lengths := lengths' })
    (Q := fun _ s => (Served embed s₀ wanted.keys s ∧ OnHost P s) ∧
      s.weight_files = s₀.weight_files ∧ s.num_layers = s₀.num_layers)
    (Exec.Triple.modify ?_) (fun _ s hs => store_on_host_spec fault s₀ s wanted
      (fun plan hp => (hplans plan hp).1) hs.1.1 (hs.2.1 ▸ hs.2.2 ▸ hrules) hs.1.2 s rfl) _ rfl
  rintro s rfl
  refine ⟨⟨hserved.counters _ _ _ _ _, ?_⟩, hserved.files, hserved.layers⟩
  intro tier ht
  apply hhost
  rw [hs₃, hs₂, hs₁] at ht
  exact ht

end

end Build

end LightningH3.AdalnCache
