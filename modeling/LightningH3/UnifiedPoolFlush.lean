/-
Compaction of a lazy end pool.

The two-pointer walk of `_flush` pairs the survivors next to the watermark with the holes
next to the base. `walk_spec` says what it selects in either growth direction: the outermost
survivors, in order, and the innermost holes, in order, each survivor beyond its hole. From
it follows what the two kinds of pass do to the accounts of the pool: a partial pass moves
pages between the lists, and an urgent pass leaves the live pages as one band at the base.
-/
import LightningH3.UnifiedPoolBand

set_option autoImplicit false

namespace LightningH3.UnifiedPool

open List

variable {E β : Type} {c : EndConfig} {s : EndPool E β}

/-! ## The order of the pages of a band -/

section Order

variable {d : GrowDirection} {p q r : ℤ}

theorem beyond_irrefl (d : GrowDirection) (p : ℤ) : beyond d p p = false := by
  cases d <;> simp [beyond]

theorem beyond_trans (h : beyond d p q = true) (h' : beyond d q r = true) :
    beyond d p r = true := by
  cases d <;> simp only [beyond, decide_eq_true_eq] at h h' ⊢ <;> omega

theorem beyond_ne (h : beyond d p q = true) : p ≠ q := by
  rintro rfl
  rw [beyond_irrefl] at h
  cases h

theorem beyond_asymm (h : beyond d p q = true) : beyond d q p = false := by
  cases d <;> simp only [beyond, decide_eq_true_eq, decide_eq_false_iff_not] at h ⊢ <;> omega

theorem beyond_of_not (h : beyond d p q = false) (hne : p ≠ q) : beyond d q p = true := by
  cases d <;> simp only [beyond, decide_eq_true_eq, decide_eq_false_iff_not] at h ⊢ <;> omega

/-- The pages of the index space from `p` inward. -/
def Within (c : EndConfig) (p r : ℤ) : Prop :=
  match c.grow_direction with
  | .up => c.min_page_index ≤ r ∧ r ≤ p
  | .down => p ≤ r ∧ r < c.num_pages

theorem within_frontier_page : Within c (frontier_page c s) r ↔ InBand c s r := by
  unfold Within frontier_page InBand
  cases hd : c.grow_direction <;> simp only <;> omega

theorem not_within_of_zero (h : pages_inward c p = 0) : ¬ Within c p r := by
  unfold pages_inward at h
  unfold Within
  cases hd : c.grow_direction <;> simp only [hd] at h ⊢ <;> omega

theorem pages_inward_succ {n : ℕ} (h : pages_inward c p = n + 1) :
    pages_inward c (inward c.grow_direction p) = n ∧ Within c p p := by
  unfold pages_inward at h ⊢
  unfold Within inward
  cases hd : c.grow_direction <;> simp only [hd] at h ⊢ <;> omega

theorem within_iff (hp : Within c p p) :
    Within c p r ↔ r = p ∨ Within c (inward c.grow_direction p) r := by
  unfold Within at hp
  unfold Within inward
  cases hd : c.grow_direction <;> simp only [hd] at hp ⊢ <;> omega

theorem beyond_of_within_inward (h : Within c (inward c.grow_direction p) r) :
    beyond c.grow_direction p r = true := by
  unfold Within inward at h
  unfold beyond
  cases hd : c.grow_direction <;> simp only [hd, decide_eq_true_eq] at h ⊢ <;> omega

theorem within_inward (hr : Within c p r) (h : beyond c.grow_direction q r = true) :
    Within c (inward c.grow_direction q) r := by
  unfold Within at hr
  unfold beyond at h
  unfold Within inward
  cases hd : c.grow_direction <;> simp only [hd, decide_eq_true_eq] at hr h ⊢ <;> omega

theorem within_trans (hq : Within c p q) (h : Within c (inward c.grow_direction q) r) :
    Within c p r := by
  unfold Within at hq
  unfold Within inward at h
  unfold Within
  cases hd : c.grow_direction <;> simp only [hd] at hq h ⊢ <;> omega

theorem not_beyond_of_within (h : Within c p r) : beyond c.grow_direction r p = false := by
  unfold Within at h
  unfold beyond
  cases hd : c.grow_direction <;> simp only [hd, decide_eq_false_iff_not] at h ⊢ <;> omega

end Order

/-! ## Finding a survivor -/

/-- A list of pages with those next to the watermark first. -/
def FrontierFirst (d : GrowDirection) (l : List ℤ) : Prop :=
  l.Pairwise (fun a b => beyond d a b = true)

/-- What `_topmost_survivor` answers when it starts at `p` with the holes `ahead`: the
outermost page from `p` inward that is neither a hole nor pending, and the holes inward from
it. -/
def IsTopmost (c : EndConfig) (s : EndPool E β) (p : ℤ) (ahead : List ℤ) :
    Option ℤ × List ℤ → Prop
  | (none, _) => ∀ r, Within c p r → r ∈ ahead ∨ r ∈ s.pending_reuse_pages_cpu
  | (some q, rest) =>
    Within c p q ∧ q ∉ ahead ∧ q ∉ s.pending_reuse_pages_cpu
      ∧ (∀ r, Within c p r → beyond c.grow_direction r q = true →
        r ∈ ahead ∨ r ∈ s.pending_reuse_pages_cpu)
      ∧ rest.Sublist ahead
      ∧ ∀ h ∈ ahead, Within c (inward c.grow_direction q) h → h ∈ rest

variable {d : GrowDirection}

section Survivor

variable {p : ℤ} {ahead : List ℤ}

theorem mem_dropWhile_beyond {h : ℤ} (hmem : h ∈ ahead)
    (hb : beyond d h p = false) : h ∈ ahead.dropWhile (fun x => beyond d x p) := by
  induction ahead with
  | nil => simp at hmem
  | cons x xs ih =>
    rw [dropWhile_cons]
    split
    next hx =>
      rcases mem_cons.mp hmem with rfl | hmem
      · rw [hb] at hx
        cases hx
      · exact ih hmem
    · exact hmem

theorem head?_dropWhile_beyond (hs : FrontierFirst d ahead) :
    (ahead.dropWhile (fun x => beyond d x p)).head? = some p ↔ p ∈ ahead := by
  constructor
  · intro h
    exact (dropWhile_sublist _).mem (mem_of_head? h)
  · intro h
    have hmem := mem_dropWhile_beyond h (beyond_irrefl d p)
    have hs' : FrontierFirst d (ahead.dropWhile (fun x => beyond d x p)) :=
      List.Pairwise.sublist (dropWhile_sublist _) hs
    cases hcase : ahead.dropWhile (fun x => beyond d x p) with
    | nil =>
      rw [hcase] at hmem
      simp at hmem
    | cons x xs =>
      rw [hcase] at hmem hs'
      rcases mem_cons.mp hmem with rfl | hmem
      · rfl
      · -- the head would lie beyond `p`, so it would have been passed
        have hx := (pairwise_cons.mp hs').1 p hmem
        have hnot := head?_dropWhile_not (fun x => beyond d x p) ahead
        rw [hcase] at hnot
        simp only [head?_cons, hx] at hnot
        cases hnot

theorem survivor_from_isTopmost {n : ℕ} (hn : pages_inward c p = n)
    (hs : FrontierFirst c.grow_direction ahead) :
    IsTopmost c s p ahead (survivor_from c s n p ahead) := by
  induction n generalizing p ahead with
  | zero =>
    intro r hr
    exact absurd hr (not_within_of_zero hn)
  | succ n ih =>
    obtain ⟨hn', hpp⟩ := pages_inward_succ hn
    set rest := ahead.dropWhile (fun h => beyond c.grow_direction h p) with hrest
    have hsub : rest.Sublist ahead := dropWhile_sublist _
    have hrs : FrontierFirst c.grow_direction rest := List.Pairwise.sublist hsub hs
    have hhead := head?_dropWhile_beyond (p := p) hs
    -- a page inward from `p` is a hole when the cursor still has it
    have hmem : ∀ r, Within c (inward c.grow_direction p) r → (r ∈ rest ↔ r ∈ ahead) := by
      intro r hr
      refine ⟨fun h => hsub.mem h, fun h => mem_dropWhile_beyond h ?_⟩
      exact beyond_asymm (beyond_of_within_inward hr)
    have hrec : ∀ rest' : List ℤ, rest'.Sublist rest →
        (∀ r, Within c (inward c.grow_direction p) r → (r ∈ rest' ↔ r ∈ ahead)) →
        (p ∈ ahead ∨ p ∈ s.pending_reuse_pages_cpu) →
        IsTopmost c s p ahead (survivor_from c s n (inward c.grow_direction p) rest') := by
      intro rest' hsub' hmem' hp
      have hih := ih hn' (List.Pairwise.sublist hsub' hrs)
      cases hcase : survivor_from c s n (inward c.grow_direction p) rest' with
      | mk o rest₂ =>
        rw [hcase] at hih
        cases o with
        | none =>
          intro r hr
          rcases (within_iff hpp).mp hr with rfl | hr
          · exact hp
          · rw [← hmem' r hr]
            exact hih r hr
        | some q =>
          obtain ⟨hq, hqn, hqm, hbey, hsub₂, hrest₂⟩ := hih
          refine ⟨(within_iff hpp).mpr (.inr hq), ?_, hqm, ?_, hsub₂.trans (hsub'.trans hsub), ?_⟩
          · rwa [← hmem' q hq]
          · intro r hr hrq
            rcases (within_iff hpp).mp hr with rfl | hr
            · exact hp
            · rw [← hmem' r hr]
              exact hbey r hr hrq
          · intro h hh hqh
            have hw := within_trans hq hqh
            exact hrest₂ h ((hmem' h hw).mpr hh) hqh
    unfold survivor_from
    rw [← hrest]
    by_cases hhole : rest.head? = some p
    · -- `p` is a hole
      rw [if_pos (by simp [hhole]), if_pos (by simp [hhole])]
      refine hrec _ (tail_sublist _) ?_ (.inl (hhead.mp hhole))
      intro r hr
      rw [← hmem r hr]
      cases hcase : rest with
      | nil => exact Iff.rfl
      | cons x xs =>
        rw [hcase, head?_cons, Option.some.injEq] at hhole
        subst hhole
        have hne : r ≠ x := (beyond_ne (beyond_of_within_inward hr)).symm
        simp [hne]
    · by_cases hpend : p ∈ s.pending_reuse_pages_cpu
      · -- `p` is pending
        rw [if_pos (by simp [hpend]), if_neg (by simp [hhole])]
        exact hrec _ (List.Sublist.refl _) hmem (.inr hpend)
      · rw [if_neg (by simp [hhole, hpend])]
        refine ⟨hpp, fun h => hhole (hhead.mpr h), hpend, ?_, hsub, ?_⟩
        · intro r hr hrp
          rw [not_beyond_of_within hr] at hrp
          cases hrp
        · intro h hh hw
          exact (hmem h hw).mpr hh

end Survivor

/-! ## The walk -/

/-- A page from `p` inward that is neither one of the holes `holes` nor pending. -/
def Survivor (c : EndConfig) (s : EndPool E β) (holes : List ℤ) (p r : ℤ) : Prop :=
  Within c p r ∧ r ∉ holes ∧ r ∉ s.pending_reuse_pages_cpu

/-- What the walk selects when it starts at `cursor` with the destinations `dsts` left. -/
structure Walked (c : EndConfig) (s : EndPool E β) (holes write_set dsts : List ℤ) (cursor : ℤ)
    (moves : List (ℤ × ℤ)) : Prop where
  dsts_eq : moves.map Prod.snd = dsts.take moves.length
  srcs_order : FrontierFirst c.grow_direction (moves.map Prod.fst)
  src : ∀ x ∈ moves, Survivor c s holes cursor x.1 ∧ x.1 ∉ write_set
  apart : ∀ x ∈ moves, beyond c.grow_direction x.1 x.2 = true
  outermost : ∀ r, Survivor c s holes cursor r → r ∉ moves.map Prod.fst →
    ∀ x ∈ moves, beyond c.grow_direction x.1 r = true

/-- The walk went on until the holes or the survivors beyond them ran out. -/
def Exhausted (c : EndConfig) (s : EndPool E β) (holes dsts : List ℤ) (cursor : ℤ)
    (moves : List (ℤ × ℤ)) : Prop :=
  ∀ r, Survivor c s holes cursor r → r ∉ moves.map Prod.fst →
    ∀ h ∈ dsts.drop moves.length, beyond c.grow_direction h r = true

section Walk

variable {holes write_set : List ℤ} {cap : Option ℤ}

theorem Walked.nil (dsts : List ℤ) (cursor : ℤ) : Walked c s holes write_set dsts cursor [] where
  dsts_eq := rfl
  srcs_order := List.Pairwise.nil
  src := by simp
  apart := by simp
  outermost := by simp

theorem IsTopmost.beyond_survivor {p q r : ℤ} {ahead rest : List ℤ}
    (h : IsTopmost c s p ahead (some q, rest)) (hsub : ∀ x ∈ ahead, x ∈ holes)
    (hr : Survivor c s holes p r) (hne : r ≠ q) : beyond c.grow_direction q r = true := by
  apply beyond_of_not _ hne
  by_contra hb
  rw [Bool.not_eq_false] at hb
  rcases h.2.2.2.1 r hr.1 hb with hmem | hmem
  · exact hr.2.1 (hsub r hmem)
  · exact hr.2.2 hmem

/-- **What the walk selects**: the outermost survivors and the innermost holes, in order,
each survivor beyond its hole; without a cap and a write set it goes on until the holes or
the survivors beyond them run out. -/
theorem walk_spec (dsts ahead : List ℤ) (cursor moved : ℤ) (hdsts : ∀ h ∈ dsts, h ∈ holes)
    (horder : dsts.Pairwise (fun a b => beyond c.grow_direction b a = true))
    (hahead : FrontierFirst c.grow_direction ahead) (hsub : ∀ h ∈ ahead, h ∈ holes)
    (hcover : ∀ h ∈ holes, Within c cursor h → h ∈ ahead) :
    Walked c s holes write_set dsts cursor (walk c s write_set cap dsts cursor ahead moved)
      ∧ (write_set = [] → cap = none → Exhausted c s holes dsts cursor
        (walk c s write_set cap dsts cursor ahead moved)) := by
  induction dsts generalizing cursor ahead moved with
  | nil =>
    refine ⟨Walked.nil _ _, fun _ _ r _ _ h hh => ?_⟩
    simp [walk] at hh
  | cons dst rest ih =>
    rw [pairwise_cons] at horder
    have htop : IsTopmost c s cursor ahead (topmost_survivor c s cursor ahead) :=
      survivor_from_isTopmost rfl hahead
    unfold walk
    cases hcase : topmost_survivor c s cursor ahead with
    | mk o ahead' =>
      rw [hcase] at htop
      cases o with
      | none =>
        refine ⟨Walked.nil _ _, fun _ _ r hr _ => ?_⟩
        rcases htop r hr.1 with hmem | hmem
        · exact absurd (hsub r hmem) hr.2.1
        · exact absurd hmem hr.2.2
      | some src =>
        dsimp only
        have hsrc : Survivor c s holes cursor src :=
          ⟨htop.1, fun h => htop.2.1 (hcover src h htop.1), htop.2.2.1⟩
        by_cases hw : src ∈ write_set
        · rw [if_pos hw]
          refine ⟨Walked.nil _ _, fun hnil => ?_⟩
          rw [hnil] at hw
          simp at hw
        rw [if_neg hw]
        by_cases hx : beyond c.grow_direction dst src = true
        · -- the pointers have crossed: what is left lies inward from every hole left
          rw [if_pos hx]
          refine ⟨Walked.nil _ _, fun _ _ r hr _ h hh => ?_⟩
          have hdr : beyond c.grow_direction dst r = true := by
            by_cases hne : r = src
            · rwa [hne]
            · exact beyond_trans hx (htop.beyond_survivor hsub hr hne)
          rcases mem_cons.mp hh with rfl | hh
          · exact hdr
          · exact beyond_trans (horder.1 h hh) hdr
        rw [if_neg hx]
        have hne : src ≠ dst := by
          rintro rfl
          exact hsrc.2.1 (hdsts _ mem_cons_self)
        have happart : beyond c.grow_direction src dst = true :=
          beyond_of_not (by simpa using hx) hne.symm
        split
        next hcap =>
          refine ⟨⟨rfl, pairwise_singleton _ _, ?_, ?_, ?_⟩, ?_⟩
          · intro x hmem
            rw [mem_singleton] at hmem
            subst hmem
            exact ⟨hsrc, hw⟩
          · intro x hmem
            rw [mem_singleton] at hmem
            subst hmem
            exact happart
          · intro r hr hnot x hmem
            rw [mem_singleton] at hmem
            subst hmem
            exact htop.beyond_survivor hsub hr (by simpa using hnot)
          · intro _ hnone
            rw [hnone] at hcap
            simp at hcap
        next =>
          obtain ⟨hwalk, hex⟩ := ih ahead' (inward c.grow_direction src) (moved + 1)
            (fun h hh => hdsts h (mem_cons_of_mem _ hh)) horder.2
            (List.Pairwise.sublist htop.2.2.2.2.1 hahead)
            (fun h hh => hsub h (htop.2.2.2.2.1.mem hh))
            (fun h hh hin =>
              htop.2.2.2.2.2 h (hcover h hh (within_trans htop.1 hin)) hin)
          -- a survivor other than the one taken is met by the rest of the walk
          have hinner : ∀ r, Survivor c s holes cursor r → r ≠ src →
              Survivor c s holes (inward c.grow_direction src) r := by
            intro r hr hne'
            exact ⟨within_inward hr.1 (htop.beyond_survivor hsub hr hne'), hr.2⟩
          refine ⟨⟨?_, ?_, ?_, ?_, ?_⟩, ?_⟩
          · rw [map_cons, length_cons, take_succ_cons, hwalk.dsts_eq]
          · refine pairwise_cons.mpr ⟨?_, hwalk.srcs_order⟩
            intro p hp
            obtain ⟨x, hx', rfl⟩ := mem_map.mp hp
            exact beyond_of_within_inward (hwalk.src x hx').1.1
          · intro x hmem
            rcases mem_cons.mp hmem with rfl | hmem
            · exact ⟨hsrc, hw⟩
            · have hxs := hwalk.src x hmem
              exact ⟨⟨within_trans htop.1 hxs.1.1, hxs.1.2⟩, hxs.2⟩
          · intro x hmem
            rcases mem_cons.mp hmem with rfl | hmem
            · exact happart
            · exact hwalk.apart x hmem
          · intro r hr hnot x hmem
            rw [map_cons, mem_cons, not_or] at hnot
            rcases mem_cons.mp hmem with rfl | hmem
            · exact htop.beyond_survivor hsub hr hnot.1
            · exact hwalk.outermost r (hinner r hr hnot.1) hnot.2 x hmem
          · intro hnil hnone r hr hnot h hh
            rw [map_cons, mem_cons, not_or] at hnot
            exact hex hnil hnone r (hinner r hr hnot.1) hnot.2 h hh

end Walk

/-! ## Lists of holes in the order of the walk -/

section Holes

variable {d : GrowDirection} {holes : List ℤ}

theorem frontier_first_perm (d : GrowDirection) (l : List ℤ) : (frontier_first d l).Perm l := by
  cases d
  · exact reverse_perm l
  · exact List.Perm.refl l

theorem base_first_perm (d : GrowDirection) (l : List ℤ) : (base_first d l).Perm l := by
  cases d
  · exact List.Perm.refl l
  · exact reverse_perm l

theorem frontier_first_order (h : holes.Pairwise (· < ·)) :
    FrontierFirst d (frontier_first d holes) := by
  unfold FrontierFirst frontier_first beyond
  cases d
  · simpa [pairwise_reverse] using h
  · simpa using h

theorem base_first_order (h : holes.Pairwise (· < ·)) :
    (base_first d holes).Pairwise (fun a b => beyond d b a = true) := by
  unfold base_first beyond
  cases d
  · simpa using h
  · simpa [pairwise_reverse] using h

theorem drop_base_perm (d : GrowDirection) (n : ℕ) (holes : List ℤ) :
    ((base_first d holes).take n ++ drop_base d n holes).Perm holes := by
  unfold base_first drop_base
  cases d
  · exact List.Perm.of_eq (take_append_drop n holes)
  · rw [take_reverse]
    exact ((reverse_perm _).append_right _).trans
      (perm_append_comm.trans (List.Perm.of_eq (take_append_drop _ _)))

theorem drop_frontier_perm (d : GrowDirection) (n : ℕ) (holes : List ℤ) :
    ((frontier_first d holes).take n ++ drop_frontier d n holes).Perm holes := by
  unfold frontier_first drop_frontier
  cases d
  · rw [take_reverse]
    exact ((reverse_perm _).append_right _).trans
      (perm_append_comm.trans (List.Perm.of_eq (take_append_drop _ _)))
  · exact List.Perm.of_eq (take_append_drop n holes)

theorem mem_of_mem_drop_frontier {n : ℕ} {p : ℤ} (h : p ∈ drop_frontier d n holes) : p ∈ holes :=
  (drop_frontier_perm d n holes).mem_iff.mp (mem_append_right _ h)

theorem sorted_strict {l : List ℤ} (h : l.Nodup) : (sorted l).Pairwise (· < ·) := by
  have hnd : (sorted l).Nodup := (sorted_perm l).nodup_iff.mpr h
  have hle : (sorted l).Pairwise (· ≤ ·) := pairwise_insertionSort _ l
  exact List.Pairwise.imp₂ (fun a b hab hne => lt_of_le_of_ne hab hne) hle hnd

theorem drop_frontier_strict {n : ℕ} (h : holes.Pairwise (· < ·)) :
    (drop_frontier d n holes).Pairwise (· < ·) := by
  cases d
  · exact List.Pairwise.sublist (take_sublist _ _) h
  · exact List.Pairwise.sublist (drop_sublist _ _) h

theorem planned_moves_spec (c : EndConfig) (s : EndPool E β) (write_set : List ℤ) (cap : Option ℤ)
    (h : holes.Pairwise (· < ·)) :
    Walked c s holes write_set (base_first c.grow_direction holes) (frontier_page c s)
        (planned_moves c s write_set cap holes)
      ∧ (write_set = [] → cap = none →
        Exhausted c s holes (base_first c.grow_direction holes) (frontier_page c s)
          (planned_moves c s write_set cap holes)) := by
  refine walk_spec _ _ _ _ ?_ (base_first_order h) (frontier_first_order h) ?_ ?_
  · intro p hp
    exact (base_first_perm _ _).mem_iff.mp hp
  · intro p hp
    exact (frontier_first_perm _ _).mem_iff.mp hp
  · intro p hp _
    exact (frontier_first_perm _ _).mem_iff.mpr hp

end Holes

/-! ## Relisting unbound pages -/

theorem Accounted.relist (h : Accounted c s) {free : List ℤ} {pending : OrderedDict E (List ℤ)}
    {mirror : Finset ℤ} (hperm : (free ++ pending.values.flatten).Perm (unbound_pages s))
    (hmirror : ∀ p, p ∈ mirror ↔ p ∈ pending.values.flatten)
    (hbatches : ∀ batch ∈ pending.values, batch ≠ []) : Accounted c { s with
      free_phys_pages := free
      pending_reuse := pending
      pending_reuse_pages_cpu := mirror } := by
  have hlive : live_pages c { s with
      free_phys_pages := free
      pending_reuse := pending
      pending_reuse_pages_cpu := mirror } = live_pages c s := by
    show band_size c s - ((free ++ pending.values.flatten).length : ℤ) = live_pages c s
    rw [hperm.length_eq]
    rfl
  exact
    { inverse := h.inverse
      sink := h.sink
      size_nonneg := h.size_nonneg
      inside := h.inside
      outside := h.outside
      unbound := by
        intro p
        exact hperm.mem_iff.trans (h.unbound p)
      nodup := hperm.nodup_iff.mpr h.nodup
      mirror := hmirror
      batches := hbatches
      live := by
        intro hl
        rw [hlive]
        exact h.live hl
      eager := by
        intro hl
        have hnil := h.eager hl
        rw [hnil] at hperm
        exact hperm.eq_nil
      owner := h.owner
      ids_nodup := h.ids_nodup
      ids := h.ids
      ids_length := by
        intro ho
        rw [hlive]
        exact h.ids_length ho }

theorem Accounted.sort (h : Accounted c s) :
    Accounted c { s with free_phys_pages := sorted s.free_phys_pages } :=
  h.relist ((sorted_perm _).append_right _) h.mirror h.batches

theorem drained_perm (s : EndPool E β) (ready : E → Bool) :
    (((s.pending_reuse.items.filter (fun entry => ready entry.1)).map Prod.snd).flatten
      ++ (s.pending_reuse.filterKeys (fun e => !ready e)).values.flatten).Perm
      (pending_pages s) := by
  have hfilter := filter_append_perm (fun entry : E × List ℤ => ready entry.1)
    s.pending_reuse.items
  have hmap := (hfilter.map Prod.snd).flatten
  rw [map_append, flatten_append] at hmap
  exact hmap

theorem Accounted.drain (h : Accounted c s) (urgent : Bool) (query : E → Bool) :
    Accounted c (drain_pending_reuse s urgent query) := by
  have hperm := drained_perm s (fun e => query e || urgent)
  have hnd : (((s.pending_reuse.items.filter
        (fun entry => query entry.1 || urgent)).map Prod.snd).flatten
      ++ (s.pending_reuse.filterKeys (fun e => !(query e || urgent))).values.flatten).Nodup :=
    hperm.nodup_iff.mpr (List.Nodup.of_append_right h.nodup)
  refine h.relist ?_ ?_ ?_
  · rw [append_assoc]
    exact hperm.append_left _
  · intro p
    rw [Finset.mem_sdiff, h.mirror, mem_toFinset, ← hperm.mem_iff, mem_append]
    constructor
    · rintro ⟨hp, hnot⟩
      exact hp.resolve_left hnot
    · intro hp
      refine ⟨.inr hp, fun hready => ?_⟩
      exact (nodup_append.mp hnd).2.2 p hready p hp rfl
  · intro batch hb
    apply h.batches batch
    obtain ⟨entry, hentry, rfl⟩ := mem_map.mp hb
    exact mem_map_of_mem (mem_of_mem_filter hentry)

/-! ## Giving up the outer pages of the band -/

/-- The pages the band loses when its watermark retreats by `n`. -/
def outer_pages (c : EndConfig) (s : EndPool E β) (n p : ℤ) : Prop :=
  match c.grow_direction with
  | .up => s.watermark_physical - n ≤ p ∧ p < s.watermark_physical
  | .down => s.watermark_physical < p ∧ p ≤ s.watermark_physical + n

theorem inBand_retreated {n : ℤ} {t : EndPool E β} (hn : 0 ≤ n)
    (ht : t.watermark_physical = retreated c s n) (p : ℤ) :
    InBand c t p ↔ InBand c s p ∧ ¬ outer_pages c s n p := by
  unfold retreated at ht
  unfold InBand outer_pages
  cases hd : c.grow_direction <;> simp only [hd] at ht ⊢ <;> omega

theorem band_size_retreated {n : ℤ} {t : EndPool E β}
    (ht : t.watermark_physical = retreated c s n) : band_size c t = band_size c s - n := by
  unfold retreated at ht
  unfold band_size
  cases hd : c.grow_direction <;> simp only [hd] at ht ⊢ <;> omega

theorem Accounted.shrink (h : Accounted c s) (given free : List ℤ)
    (hfree : (given ++ free).Perm s.free_phys_pages)
    (hgiven : ∀ p, p ∈ given ↔ outer_pages c s given.length p)
    (hsize : (given.length : ℤ) ≤ band_size c s) : Accounted c { s with
      watermark_physical := retreated c s given.length
      free_phys_pages := free } := by
  set t : EndPool E β := { s with
    watermark_physical := retreated c s given.length
    free_phys_pages := free }
  have hband := inBand_retreated (t := t) (c := c) (s := s) (Int.natCast_nonneg given.length) rfl
  have hbs : band_size c t = band_size c s - given.length := band_size_retreated rfl
  have hperm : (given ++ unbound_pages t).Perm (unbound_pages s) := by
    show (given ++ (free ++ pending_pages s)).Perm (s.free_phys_pages ++ pending_pages s)
    rw [← append_assoc]
    exact hfree.append_right _
  have hnd : (given ++ unbound_pages t).Nodup := hperm.nodup_iff.mpr h.nodup
  have hlive : live_pages c t = live_pages c s := by
    unfold live_pages
    rw [← hperm.length_eq, length_append]
    omega
  exact
    { inverse := h.inverse
      sink := h.sink
      size_nonneg := by
        omega
      inside := by
        intro p hp
        exact h.inside p ((hband p).mp hp).1
      outside := by
        intro p hpos hp
        by_cases hin : InBand c s p
        · have hout : outer_pages c s given.length p := by
            by_contra hout
            exact hp ((hband p).mpr ⟨hin, hout⟩)
          have hmem : p ∈ unbound_pages s :=
            hperm.mem_iff.mp (mem_append_left _ ((hgiven p).mpr hout))
          exact ((h.unbound p).mp hmem).2
        · exact h.outside p hpos hin
      unbound := by
        intro p
        have hu := h.unbound p
        rw [← hperm.mem_iff, mem_append] at hu
        rw [hband]
        constructor
        · intro hp
          have hin := hu.mp (.inr hp)
          refine ⟨⟨hin.1, fun hout => ?_⟩, hin.2⟩
          exact (nodup_append.mp hnd).2.2 p ((hgiven p).mpr hout) p hp rfl
        · rintro ⟨⟨hin, hout⟩, hneg⟩
          rcases hu.mpr ⟨hin, hneg⟩ with hp | hp
          · exact absurd ((hgiven p).mp hp) hout
          · exact hp
      nodup := List.Nodup.of_append_right hnd
      mirror := h.mirror
      batches := h.batches
      live := by
        intro hl
        rw [hlive]
        exact h.live hl
      eager := by
        intro hl
        have hnil := hperm
        rw [h.eager hl] at hnil
        exact (append_eq_nil_iff.mp hnil.eq_nil).2
      owner := h.owner
      ids_nodup := h.ids_nodup
      ids := h.ids
      ids_length := by
        intro ho
        rw [hlive]
        exact h.ids_length ho }

theorem boundary_run_le_length (d : GrowDirection) (l : List ℤ) (p : ℤ) :
    boundary_run d l p ≤ l.length := by
  induction l generalizing p with
  | nil => exact Nat.le_refl 0
  | cons h hs ih =>
    unfold boundary_run
    split
    · have := ih (inward d p)
      rw [length_cons]
      omega
    · exact Nat.zero_le _

theorem mem_boundary_run (l : List ℤ) (p q : ℤ) : q ∈ l.take (boundary_run c.grow_direction l p) ↔
      match c.grow_direction with
      | .up => p - boundary_run c.grow_direction l p < q ∧ q ≤ p
      | .down => p ≤ q ∧ q < p + boundary_run c.grow_direction l p := by
  induction l generalizing p with
  | nil =>
    cases hd : c.grow_direction <;>
      simp only [boundary_run, take_nil, not_mem_nil, false_iff] <;> omega
  | cons h hs ih =>
    unfold boundary_run
    by_cases hh : h = p
    · subst hh
      rw [if_pos rfl, take_succ_cons, mem_cons, ih]
      unfold inward
      cases hd : c.grow_direction <;> simp only [] <;> push_cast <;> omega
    · rw [if_neg hh]
      cases hd : c.grow_direction <;>
        simp only [take_zero, not_mem_nil, false_iff] <;> omega

theorem Accounted.absorb (h : Accounted c s) : Accounted c (absorb_boundary_holes c s) := by
  set n := boundary_run c.grow_direction
    (frontier_first c.grow_direction s.free_phys_pages) (frontier_page c s) with hn
  set given := (frontier_first c.grow_direction s.free_phys_pages).take n with hg
  have hlen : given.length = n := by
    rw [length_take]
    have := boundary_run_le_length c.grow_direction
      (frontier_first c.grow_direction s.free_phys_pages) (frontier_page c s)
    omega
  have hgiven : ∀ p, p ∈ given ↔ outer_pages c s given.length p := by
    intro p
    rw [mem_boundary_run, ← hn]
    unfold outer_pages frontier_page
    cases hd : c.grow_direction <;> simp only <;> omega
  have hfree : (given ++ drop_frontier c.grow_direction n s.free_phys_pages).Perm
      s.free_phys_pages := drop_frontier_perm _ _ _
  have hsize : (given.length : ℤ) ≤ band_size c s := by
    -- the innermost page of the run lies in the band
    by_contra hgt
    have hnn := h.size_nonneg
    set q : ℤ := match c.grow_direction with
      | .up => s.watermark_physical - given.length
      | .down => s.watermark_physical + given.length with hq
    have hout : outer_pages c s given.length q := by
      unfold outer_pages
      cases hd : c.grow_direction <;> simp only [hd] at hq ⊢ <;> omega
    have hin := (h.of_mem_free (hfree.mem_iff.mp (mem_append_left _ ((hgiven q).mpr hout)))).1
    unfold InBand at hin
    unfold band_size at hgt
    cases hd : c.grow_direction <;> simp only [hd] at hq hin hgt <;> omega
  have hres := h.shrink _ _ hfree hgiven hsize
  rw [hlen] at hres
  exact hres

theorem Accounted.prepare (h : Accounted c s) (urgent : Bool) (query : E → Bool) :
    Accounted c (flush_prepare c s urgent query) :=
  ((h.drain urgent query).sort).absorb

/-! ## Moving survivors into holes -/

variable {l : List ℤ}

theorem FrontierFirst.nodup (h : FrontierFirst d l) : l.Nodup :=
  List.Pairwise.imp (fun hab => beyond_ne hab) h

section Moves

variable {write_set : List ℤ} {moves : List (ℤ × ℤ)}

/-- The moves selected by a walk over the free list. -/
def WalkedFree (c : EndConfig) (s : EndPool E β) (write_set : List ℤ) (moves : List (ℤ × ℤ)) :
    Prop :=
  Walked c s s.free_phys_pages write_set (base_first c.grow_direction s.free_phys_pages)
    (frontier_page c s) moves

theorem WalkedFree.holes_perm (hw : WalkedFree c s write_set moves) :
    (moves.map Prod.snd ++ drop_base c.grow_direction moves.length s.free_phys_pages).Perm
      s.free_phys_pages := by
  rw [hw.dsts_eq]
  exact drop_base_perm _ _ _

theorem Accounted.src_bound (h : Accounted c s) (hw : WalkedFree c s write_set moves)
    {x : ℤ × ℤ} (hx : x ∈ moves) : InBand c s x.1 ∧ 0 ≤ s.table.p2v x.1 := by
  have hs := (hw.src x hx).1
  have hin := within_frontier_page.mp hs.1
  refine ⟨hin, ?_⟩
  by_contra hneg
  rcases mem_append.mp ((h.unbound x.1).mpr ⟨hin, by omega⟩) with hm | hm
  · exact hs.2.1 hm
  · exact hs.2.2 ((h.mirror x.1).mpr hm)

theorem WalkedFree.dst_mem (hw : WalkedFree c s write_set moves) {p : ℤ}
    (hp : p ∈ moves.map Prod.snd) : p ∈ s.free_phys_pages :=
  hw.holes_perm.mem_iff.mp (mem_append_left _ hp)

/-- **The moves of a walk are safe**: distinct bound sources, distinct unbound
destinations. -/
theorem Accounted.movable (h : Accounted c s) (hw : WalkedFree c s write_set moves) :
    PageTable.Movable s.table moves where
  src_nodup := hw.srcs_order.nodup
  dst_nodup := by
    have hnd : (moves.map Prod.snd
        ++ drop_base c.grow_direction moves.length s.free_phys_pages).Nodup :=
      hw.holes_perm.nodup_iff.mpr (List.Nodup.of_append_left h.nodup)
    exact List.Nodup.of_append_left hnd
  src_bound := by
    intro x hx
    have hb := h.src_bound hw hx
    exact ⟨(h.pos_of_inBand hb.1).le, hb.2⟩
  dst_unbound := by
    intro x hx
    have hb := h.of_mem_free (hw.dst_mem (mem_map_of_mem hx))
    exact ⟨(h.pos_of_inBand hb.1).le, hb.2⟩

theorem Accounted.moved (h : Accounted c s) (hw : WalkedFree c s write_set moves) :
    Accounted c { s with
      table := s.table.move moves
      free_phys_pages := drop_base c.grow_direction moves.length s.free_phys_pages
        ++ moves.map Prod.fst } := by
  have hm := h.movable hw
  have hholes := hw.holes_perm
  set left := drop_base c.grow_direction moves.length s.free_phys_pages
  set t : EndPool E β := { s with
    table := s.table.move moves
    free_phys_pages := left ++ moves.map Prod.fst }
  have hdst : ∀ p ∈ moves.map Prod.snd, p ∈ s.free_phys_pages := fun p hp => hw.dst_mem hp
  have hsrc : ∀ p ∈ moves.map Prod.fst, InBand c s p ∧ 0 ≤ s.table.p2v p := by
    intro p hp
    obtain ⟨x, hx, rfl⟩ := mem_map.mp hp
    exact h.src_bound hw hx
  have hhn : (moves.map Prod.snd ++ left).Nodup :=
    hholes.nodup_iff.mpr (List.Nodup.of_append_left h.nodup)
  have hlen : (unbound_pages t).length = (unbound_pages s).length := by
    show ((left ++ moves.map Prod.fst) ++ pending_pages s).length
      = (s.free_phys_pages ++ pending_pages s).length
    have := hholes.length_eq
    simp only [length_append, length_map] at this ⊢
    omega
  have hlive : live_pages c t = live_pages c s := by
    unfold live_pages
    rw [hlen]
    rfl
  have hmem : ∀ p, p ∈ unbound_pages t ↔ p ∈ left ∨ p ∈ moves.map Prod.fst ∨ p ∈ pending_pages s := by
    intro p
    show p ∈ (left ++ moves.map Prod.fst) ++ pending_pages s ↔ _
    rw [mem_append, mem_append, or_assoc]
  have hmem_s : ∀ p, p ∈ unbound_pages s ↔
      p ∈ moves.map Prod.snd ∨ p ∈ left ∨ p ∈ pending_pages s := by
    intro p
    show p ∈ s.free_phys_pages ++ pending_pages s ↔ _
    rw [mem_append, ← hholes.mem_iff, mem_append, or_assoc]
  exact
    { inverse := h.inverse.move hm
      sink := by
        have hz : ∀ p, InBand c s p → p ≠ 0 := fun p hp => (h.pos_of_inBand hp).ne'
        constructor
        · rw [PageTable.v2p_move_of_notMem h.inverse hm, h.sink.1]
          rw [h.sink.1]
          exact fun hp => hz 0 (hsrc 0 hp).1 rfl
        · rw [PageTable.p2v_move_other, h.sink.2]
          · exact fun hp => hz 0 (hsrc 0 hp).1 rfl
          · exact fun hp => hz 0 (h.of_mem_free (hdst 0 hp)).1 rfl
      size_nonneg := h.size_nonneg
      inside := h.inside
      outside := by
        intro p hpos hp
        rw [PageTable.p2v_move_other]
        · exact h.outside p hpos hp
        · exact fun hs => hp (hsrc p hs).1
        · exact fun hd => hp (h.of_mem_free (hdst p hd)).1
      unbound := by
        intro p
        rw [hmem]
        show _ ↔ InBand c s p ∧ (s.table.move moves).p2v p < 0
        by_cases hps : p ∈ moves.map Prod.fst
        · rw [PageTable.p2v_move_src hps]
          exact ⟨fun _ => ⟨(hsrc p hps).1, by omega⟩, fun _ => .inr (.inl hps)⟩
        by_cases hpd : p ∈ moves.map Prod.snd
        · -- a filled hole is bound now and was listed once
          obtain ⟨⟨s₀, d₀⟩, hx, rfl⟩ := mem_map.mp hpd
          rw [PageTable.p2v_move_dst hm hx]
          have hge := (h.src_bound hw hx).2
          dsimp only at hge hps hpd ⊢
          constructor
          · rintro (hl | hl | hl)
            · exact absurd rfl ((nodup_append.mp hhn).2.2 d₀ hpd d₀ hl)
            · exact absurd hl hps
            · have := nodup_append.mp h.nodup
              exact absurd rfl (this.2.2 d₀ (hdst d₀ hpd) d₀ hl)
          · rintro ⟨_, hneg⟩
            omega
        · rw [PageTable.p2v_move_other hps hpd, ← h.unbound p, hmem_s]
          constructor
          · rintro (hl | hl | hl)
            · exact .inr (.inl hl)
            · exact absurd hl hps
            · exact .inr (.inr hl)
          · rintro (hl | hl | hl)
            · exact absurd hl hpd
            · exact .inl hl
            · exact .inr (.inr hl)
      nodup := by
        show ((left ++ moves.map Prod.fst) ++ pending_pages s).Nodup
        have hrest : (left ++ pending_pages s).Nodup := by
          have hall : ((moves.map Prod.snd ++ left) ++ pending_pages s).Nodup :=
            (hholes.append_right _).nodup_iff.mpr h.nodup
          rw [append_assoc] at hall
          exact List.Nodup.of_append_right hall
        have hperm : ((left ++ moves.map Prod.fst) ++ pending_pages s).Perm
            (moves.map Prod.fst ++ (left ++ pending_pages s)) := by
          rw [← append_assoc]
          exact perm_append_comm.append_right _
        rw [hperm.nodup_iff, nodup_append]
        refine ⟨hm.src_nodup, hrest, ?_⟩
        rintro p hp q hq rfl
        have hb := (hsrc p hp).2
        have hu : p ∈ unbound_pages s := by
          rw [hmem_s]
          rcases mem_append.mp hq with hq | hq
          · exact .inr (.inl hq)
          · exact .inr (.inr hq)
        have := ((h.unbound p).mp hu).2
        omega
      mirror := h.mirror
      batches := h.batches
      live := by
        intro hl
        rw [hlive]
        exact h.live hl
      eager := by
        intro hl
        have hz : (unbound_pages t).length = 0 := by
          rw [hlen, h.eager hl]
          rfl
        exact length_eq_zero_iff.mp hz
      owner := h.owner
      ids_nodup := h.ids_nodup
      ids := by
        intro v hv
        have hv' := h.ids v hv
        refine ⟨hv'.1, ?_⟩
        show (s.table.move moves).v2p v < 0
        have hiff := PageTable.v2p_move_bound_iff h.inverse hm hv'.1.le
        omega
      ids_length := by
        intro ho
        rw [hlive]
        exact h.ids_length ho }

variable [DecidableEq E]

theorem Accounted.moved_pending (h : Accounted c s) (hw : WalkedFree c s write_set moves) {e : E}
    (he : e ∉ s.pending_reuse.keys) (hne : moves ≠ []) : Accounted c { s with
      table := s.table.move moves
      free_phys_pages := drop_base c.grow_direction moves.length s.free_phys_pages
      pending_reuse := s.pending_reuse.set e (moves.map Prod.fst)
      pending_reuse_pages_cpu := s.pending_reuse_pages_cpu ∪ (moves.map Prod.fst).toFinset } := by
  have hvalues : (s.pending_reuse.set e (moves.map Prod.fst)).values.flatten
      = pending_pages s ++ moves.map Prod.fst := by
    unfold OrderedDict.values pending_pages
    rw [OrderedDict.items_set_of_notMem he]
    simp [OrderedDict.values]
  refine (h.moved hw).relist ?_ ?_ ?_
  · rw [hvalues]
    show _ ++ (pending_pages s ++ moves.map Prod.fst) |>.Perm
      ((drop_base c.grow_direction moves.length s.free_phys_pages ++ moves.map Prod.fst)
        ++ pending_pages s)
    rw [append_assoc]
    exact perm_append_comm.append_left _
  · intro p
    rw [hvalues, Finset.mem_union, mem_toFinset, mem_append, h.mirror]
  · intro batch hb
    unfold OrderedDict.values at hb
    rw [OrderedDict.items_set_of_notMem he, map_append, mem_append] at hb
    rcases hb with hb | hb
    · exact h.batches batch hb
    · simp only [map_cons, map_nil, mem_singleton] at hb
      rw [hb]
      intro hnil
      exact hne (map_eq_nil_iff.mp hnil)

end Moves

/-! ## Packing the band -/

theorem outer_of_closed (hnd : l.Nodup) (hband : ∀ p ∈ l, InBand c s p)
    (hclosed : ∀ p ∈ l, ∀ q, InBand c s q → beyond c.grow_direction q p = true → q ∈ l) (p : ℤ) :
    p ∈ l ↔ outer_pages c s l.length p := by
  have hcard : l.toFinset.card = l.length := toFinset_card_of_nodup hnd
  rw [← mem_toFinset]
  unfold outer_pages
  unfold InBand beyond at hclosed
  unfold InBand at hband
  cases hd : c.grow_direction with
  | up =>
    simp only [hd, decide_eq_true_eq] at hband hclosed
    have hsub : l.toFinset ⊆ Finset.Ico (s.watermark_physical - l.length) s.watermark_physical := by
      intro q hq
      have hql := mem_toFinset.mp hq
      have hqb := hband q hql
      -- everything from `q` to the watermark is in the list
      have hup : Finset.Ico q s.watermark_physical ⊆ l.toFinset := by
        intro r hr
        rw [Finset.mem_Ico] at hr
        rw [mem_toFinset]
        by_cases hrq : r = q
        · rwa [hrq]
        · exact hclosed q hql r ⟨by omega, hr.2⟩ (by omega)
      have hle := Finset.card_le_card hup
      rw [Int.card_Ico] at hle
      rw [Finset.mem_Ico]
      omega
    have heq : l.toFinset
        = Finset.Ico (s.watermark_physical - l.length) s.watermark_physical := by
      apply Finset.eq_of_subset_of_card_le hsub
      rw [Int.card_Ico]
      omega
    rw [heq, Finset.mem_Ico]
  | down =>
    simp only [hd, decide_eq_true_eq] at hband hclosed
    have hsub : l.toFinset ⊆ Finset.Ioc s.watermark_physical (s.watermark_physical + l.length) := by
      intro q hq
      have hql := mem_toFinset.mp hq
      have hqb := hband q hql
      have hdown : Finset.Ioc s.watermark_physical q ⊆ l.toFinset := by
        intro r hr
        rw [Finset.mem_Ioc] at hr
        rw [mem_toFinset]
        by_cases hrq : r = q
        · rwa [hrq]
        · exact hclosed q hql r ⟨hr.1, by omega⟩ (by omega)
      have hle := Finset.card_le_card hdown
      rw [Int.card_Ioc] at hle
      rw [Finset.mem_Ioc]
      omega
    have heq : l.toFinset
        = Finset.Ioc s.watermark_physical (s.watermark_physical + l.length) := by
      apply Finset.eq_of_subset_of_card_le hsub
      rw [Int.card_Ioc]
      omega
    rw [heq, Finset.mem_Ioc]

section Pack

variable {moves : List (ℤ × ℤ)}

variable {holes : List ℤ}

section

variable {write_set : List ℤ} {cursor : ℤ}
  (hw : Walked c s holes write_set (base_first c.grow_direction holes) cursor moves)
  (hs : holes.Pairwise (· < ·))
include hw hs

theorem Walked.src_beyond_dst {x y : ℤ × ℤ} (hx : x ∈ moves) (hy : y ∈ moves) :
    beyond c.grow_direction x.1 y.2 = true := by
  have hsrc : moves.Pairwise (fun a b => beyond c.grow_direction a.1 b.1 = true) :=
    pairwise_map.mp hw.srcs_order
  have hdst : moves.Pairwise (fun a b => beyond c.grow_direction b.2 a.2 = true) := by
    have hmap : (moves.map Prod.snd).Pairwise (fun a b => beyond c.grow_direction b a = true) := by
      rw [hw.dsts_eq]
      exact List.Pairwise.sublist (take_sublist _ _) (base_first_order hs)
    exact pairwise_map.mp hmap
  have hboth := hsrc.and hdst
  refine List.Pairwise.forall_of_forall_of_flip (R := fun a b : ℤ × ℤ =>
    beyond c.grow_direction a.1 b.2 = true) hw.apart ?_ ?_ hx hy
  · refine List.Pairwise.imp_of_mem ?_ hboth
    intro a b _ hb hab
    exact beyond_trans hab.1 (hw.apart b hb)
  · refine List.Pairwise.imp_of_mem ?_ hboth
    intro a b _ hb hab
    exact beyond_trans (hw.apart b hb) hab.2

theorem Walked.left_beyond_dst {p q : ℤ}
    (hp : p ∈ (base_first c.grow_direction holes).drop moves.length) (hq : q ∈ moves.map Prod.snd) :
    beyond c.grow_direction p q = true := by
  have horder := base_first_order (d := c.grow_direction) hs
  rw [← take_append_drop moves.length (base_first c.grow_direction holes),
    pairwise_append] at horder
  rw [hw.dsts_eq] at hq
  exact horder.2.2 q hq p hp

end

theorem mem_drop_base {n : ℕ} {p : ℤ} :
    p ∈ drop_base d n holes ↔ p ∈ (base_first d holes).drop n := by
  unfold drop_base base_first
  cases d
  · exact Iff.rfl
  · rw [drop_reverse, mem_reverse]

/-- **A full pass packs the band**: after an exhausted walk over a pool without pending
pages, the free pages are the outer pages of the band. -/
theorem Accounted.packed (h : Accounted c s) (hs : s.free_phys_pages.Pairwise (· < ·))
    (hpend : pending_pages s = []) (hw : WalkedFree c s [] moves)
    (hex : Exhausted c s s.free_phys_pages (base_first c.grow_direction s.free_phys_pages)
      (frontier_page c s) moves) (p : ℤ) :
    p ∈ drop_base c.grow_direction moves.length s.free_phys_pages ++ moves.map Prod.fst ↔
      outer_pages c s s.free_phys_pages.length p := by
  have hmoved := h.moved hw
  have hholes := hw.holes_perm
  set left := drop_base c.grow_direction moves.length s.free_phys_pages
  have hlen : (left ++ moves.map Prod.fst).length = s.free_phys_pages.length := by
    have := hholes.length_eq
    simp only [length_append, length_map] at this ⊢
    omega
  have hmem : ∀ q, q ∈ left ++ moves.map Prod.fst ↔
      InBand c s q ∧ (s.table.move moves).p2v q < 0 := by
    intro q
    have hu := hmoved.unbound q
    have hl : unbound_pages { s with
        table := s.table.move moves
        free_phys_pages := left ++ moves.map Prod.fst } = left ++ moves.map Prod.fst := by
      show (left ++ moves.map Prod.fst) ++ pending_pages s = _
      rw [hpend, append_nil]
    rw [hl] at hu
    exact hu
  rw [← hlen]
  refine outer_of_closed (List.Nodup.of_append_left hmoved.nodup)
    (fun q hq => ((hmem q).mp hq).1) ?_ p
  intro p hp q hq hqp
  by_contra hnot
  -- `q` is bound after the moves: it was filled, or it stayed where it was
  have hbound : 0 ≤ (s.table.move moves).p2v q := by
    by_contra hneg
    exact hnot ((hmem q).mpr ⟨hq, by omega⟩)
  have hqs : q ∉ moves.map Prod.fst := fun hs => hnot (mem_append_right _ hs)
  have hcontra : beyond c.grow_direction p q = true := by
    by_cases hqd : q ∈ moves.map Prod.snd
    · obtain ⟨y, hy, rfl⟩ := mem_map.mp hqd
      rcases mem_append.mp hp with hp | hp
      · exact Walked.left_beyond_dst hw hs (mem_drop_base.mp hp) hqd
      · obtain ⟨x, hx, rfl⟩ := mem_map.mp hp
        exact Walked.src_beyond_dst hw hs hx hy
    · rw [PageTable.p2v_move_other hqs hqd] at hbound
      have hsurv : Survivor c s s.free_phys_pages (frontier_page c s) q := by
        refine ⟨within_frontier_page.mpr hq, ?_, ?_⟩
        · intro hfree
          have := (h.of_mem_free hfree).2
          omega
        · intro hmirror
          have := (h.mirror q).mp hmirror
          rw [hpend] at this
          simp at this
      rcases mem_append.mp hp with hp | hp
      · exact hex q hsurv hqs p (mem_drop_base.mp hp)
      · obtain ⟨x, hx, rfl⟩ := mem_map.mp hp
        exact hw.outermost q hsurv hqs x hx
  rw [beyond_asymm hcontra] at hqp
  cases hqp

end Pack

/-! ## A whole pass -/

theorem length_le_band_size (hnd : l.Nodup) (hband : ∀ p ∈ l, InBand c s p)
    (hsize : 0 ≤ band_size c s) : (l.length : ℤ) ≤ band_size c s := by
  rw [← toFinset_card_of_nodup hnd]
  unfold InBand at hband
  unfold band_size at hsize ⊢
  cases hd : c.grow_direction with
  | up =>
    simp only [hd] at hband hsize ⊢
    have hsub : l.toFinset ⊆ Finset.Ico c.min_page_index s.watermark_physical := by
      intro p hp
      rw [Finset.mem_Ico]
      exact hband p (mem_toFinset.mp hp)
    have hle := Finset.card_le_card hsub
    rw [Int.card_Ico] at hle
    omega
  | down =>
    simp only [hd] at hband hsize ⊢
    have hsub : l.toFinset ⊆ Finset.Ioo s.watermark_physical c.num_pages := by
      intro p hp
      rw [Finset.mem_Ioo]
      exact hband p (mem_toFinset.mp hp)
    have hle := Finset.card_le_card hsub
    rw [Int.card_Ioo] at hle
    omega

section Pass

variable [DecidableEq E]

/-- What a flush leaves alone, and what it does to the page table: a safe batch of moves. -/
structure Flushed (c : EndConfig) (s s' : EndPool E β) (moves : List (ℤ × ℤ)) : Prop where
  accounted : Accounted c s'
  movable : PageTable.Movable s.table moves
  table : s'.table = s.table.move moves
  ids : s'.free_virtual_ids = s.free_virtual_ids
  live_count : s'.live_page_count = s.live_page_count

omit [DecidableEq E] in
theorem Accounted.flushed_nil (h : Accounted c s) : Flushed c s s [] where
  accounted := h
  movable := ⟨nodup_nil, nodup_nil, by simp, by simp⟩
  table := rfl
  ids := rfl
  live_count := rfl

omit [DecidableEq E] in
theorem Accounted.prepare_sorted (h : Accounted c s) (urgent : Bool) (query : E → Bool) :
    (flush_prepare c s urgent query).free_phys_pages.Pairwise (· < ·) := by
  have hd := h.drain urgent query
  exact drop_frontier_strict (sorted_strict (List.Nodup.of_append_left hd.nodup))

omit [DecidableEq E] in
theorem prepare_urgent_items (c : EndConfig) (s : EndPool E β) (query : E → Bool) :
    (flush_prepare c s true query).pending_reuse.items = [] := by
  show (s.pending_reuse.items.filter (fun entry => !(query entry.1 || true))) = []
  simp

omit [DecidableEq E] in
theorem Accounted.srcs_all (h : Accounted c s) {write_set : List ℤ} {moves : List (ℤ × ℤ)}
    (hw : WalkedFree c s write_set moves) :
    (moves.map Prod.fst).all (fun p => decide (0 ≤ s.table.p2v p)) = true := by
  rw [all_eq_true]
  intro p hp
  obtain ⟨x, hx, rfl⟩ := mem_map.mp hp
  exact decide_eq_true (h.src_bound hw hx).2

/-- **Specification of an urgent pass that finds holes**: it succeeds, and the band it
leaves has no unbound page. -/
theorem flush_pack_spec (h : Accounted c s) (hs : s.free_phys_pages.Pairwise (· < ·))
    (hpend : s.pending_reuse.items = []) (query : E → Bool) :
    ∃ s' n moves, flush_pack c s query = .ok (s', n) ∧ Flushed c s s' moves
      ∧ unbound_pages s' = [] := by
  -- settling the forward touches nothing the walk reads
  have hsettle : ∃ inflight, settle_inflight_forward s = { s with inflight_forward := inflight } := by
    unfold settle_inflight_forward
    split
    · exact ⟨none, rfl⟩
    · exact ⟨s.inflight_forward, rfl⟩
  obtain ⟨inflight, hset⟩ := hsettle
  have hpages : pending_pages s = [] := by
    unfold pending_pages OrderedDict.values
    rw [hpend]
    rfl
  have h₁ : Accounted c { s with inflight_forward := inflight } := { h with }
  obtain ⟨hw, hex⟩ := planned_moves_spec c { s with inflight_forward := inflight } [] none hs
  set moves := planned_moves c { s with inflight_forward := inflight } [] none s.free_phys_pages
  have hmoved := h₁.moved hw
  have houter := h₁.packed hs hpages hw (hex rfl rfl)
  have hlen : (drop_base c.grow_direction moves.length s.free_phys_pages
      ++ moves.map Prod.fst).length = s.free_phys_pages.length := by
    have := (WalkedFree.holes_perm hw).length_eq
    simp only [length_append, length_map] at this ⊢
    omega
  have hsize : (s.free_phys_pages.length : ℤ) ≤ band_size c s :=
    length_le_band_size (List.Nodup.of_append_left h.nodup) (fun p hp => (h.of_mem_free hp).1)
      h.size_nonneg
  have hcommit : ∃ released, commit_move_batch { s with inflight_forward := inflight } moves none
      query = .ok ({ s with inflight_forward := inflight, table := s.table.move moves }, released) := by
    unfold commit_move_batch
    cases hmoves : moves with
    | nil => exact ⟨[], rfl⟩
    | cons x xs =>
      have hall := h₁.srcs_all hw
      rw [hmoves] at hall
      rw [if_neg (by simp), if_neg (by simpa using hall)]
      exact ⟨_, rfl⟩
  obtain ⟨released, hcommit⟩ := hcommit
  have hshrunk := hmoved.shrink (drop_base c.grow_direction moves.length s.free_phys_pages
      ++ moves.map Prod.fst) [] (by rw [append_nil])
    (by
      intro p
      rw [hlen]
      exact houter p)
    (by
      rw [hlen]
      exact hsize)
  rw [hlen] at hshrunk
  refine ⟨_, moves.length, moves, ?_, ⟨hshrunk, h₁.movable hw, rfl, rfl, rfl⟩, ?_⟩
  · unfold flush_pack
    dsimp only
    rw [hset, hcommit]
    rfl
  · show [] ++ pending_pages s = []
    rw [hpages]
    rfl

end Pass

section Partial

variable [DecidableEq E]

/-- **Specification of any other pass**: it succeeds, provided that an event that has not
fired keys no pending batch yet when pages are moved under it. -/
theorem flush_partial_spec (h : Accounted c s) (hs : s.free_phys_pages.Pairwise (· < ·))
    (urgent : Bool) (move_cap : ℤ) (clock : FlushClock E)
    (hfresh : ∀ e, s.latest_forward_done_event = some e → clock.commit e = false →
      planned_moves c s (inflight_write_set c s clock.write)
        (if urgent then none else some move_cap) s.free_phys_pages ≠ [] →
      e ∉ s.pending_reuse.keys) :
    ∃ s' n moves, flush_partial c s urgent move_cap clock = .ok (s', n) ∧ Flushed c s s' moves
      ∧ (s.free_phys_pages = [] → s'.watermark_physical = s.watermark_physical
        ∧ s'.free_phys_pages = [] ∧ s'.pending_reuse = s.pending_reuse) := by
  have hw : WalkedFree c s _ _ := (planned_moves_spec c s (inflight_write_set c s clock.write)
    (if urgent then none else some move_cap) hs).1
  unfold flush_partial
  dsimp only
  set moves := planned_moves c s (inflight_write_set c s clock.write)
    (if urgent then none else some move_cap) s.free_phys_pages
  -- settling the forward touches nothing the accounts read
  have hsettle : ∃ inflight,
      (if (!s.free_phys_pages.isEmpty && (topmost_survivor c s (frontier_page c s)
        (frontier_first c.grow_direction s.free_phys_pages)).1.isSome) = true
      then inflight_settled s clock.write else s) = { s with inflight_forward := inflight } := by
    split
    · unfold inflight_settled
      split
      · exact ⟨s.inflight_forward, rfl⟩
      · split
        · exact ⟨none, rfl⟩
        · exact ⟨s.inflight_forward, rfl⟩
    · exact ⟨s.inflight_forward, rfl⟩
  obtain ⟨inflight, hset⟩ := hsettle
  rw [hset]
  have h₁ : Accounted c { s with inflight_forward := inflight } := { h with }
  have hw₁ : WalkedFree c { s with inflight_forward := inflight } _ moves :=
    { dsts_eq := hw.dsts_eq, srcs_order := hw.srcs_order, src := hw.src, apart := hw.apart
      outermost := hw.outermost }
  have hnil : s.free_phys_pages = [] → moves = [] := by
    intro hfree
    have hl := (WalkedFree.holes_perm hw).length_eq
    rw [hfree, length_append, length_map, length_nil] at hl
    exact length_eq_zero_iff.mp (by omega)
  unfold commit_move_batch
  by_cases hempty : moves = []
  · have hdb : drop_base c.grow_direction moves.length s.free_phys_pages = s.free_phys_pages := by
      rw [hempty]
      unfold drop_base
      cases c.grow_direction <;> simp
    rw [if_pos (by simp [hempty]), hdb]
    dsimp only
    rw [append_nil]
    refine ⟨_, _, [], rfl, ⟨{ h with }, h.flushed_nil.movable, rfl, rfl, rfl⟩, ?_⟩
    intro hfree
    exact ⟨rfl, hfree, rfl⟩
  have hall := h.srcs_all hw
  rw [if_neg (by simpa using hempty), if_neg (by simpa using hall)]
  have hmov := h.movable hw
  have hfired := h₁.moved hw₁
  cases hlatest : s.latest_forward_done_event with
  | none =>
    refine ⟨_, _, moves, rfl, ⟨{ hfired with }, hmov, rfl, rfl, rfl⟩, ?_⟩
    intro hfree
    exact absurd (hnil hfree) hempty
  | some e =>
    dsimp only
    cases hq : clock.commit e with
    | true =>
      refine ⟨_, _, moves, rfl, ⟨{ hfired with }, hmov, rfl, rfl, rfl⟩, ?_⟩
      intro hfree
      exact absurd (hnil hfree) hempty
    | false =>
      rw [if_neg (by simp)]
      dsimp only
      rw [append_nil]
      have hpending := h₁.moved_pending hw₁ (hfresh e hlatest hq hempty) hempty
      refine ⟨_, _, moves, rfl, ⟨{ hpending with }, hmov, rfl, rfl, rfl⟩, ?_⟩
      intro hfree
      exact absurd (hnil hfree) hempty

end Partial

end LightningH3.UnifiedPool
