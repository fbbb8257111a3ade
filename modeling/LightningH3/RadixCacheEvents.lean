/-
Replaying the KV events of the radix cache.

A consumer that adds the hashes of every `BlockStored`, deletes those of every `BlockRemoved` and
empties its set on `AllBlocksCleared` should end with the hashes of the pages the tree holds. The
published hash of a page covers its path and the salt but, by design, not the extra key, so this is
exact as long as no page is held under two extra keys of one salt: removing one of them would
delete the hash of the other.
-/
import Mathlib.Logic.Equiv.List
import LightningH3.RadixCacheRuns

set_option autoImplicit false

namespace LightningH3.Radix

open Arena RadixKey List

variable {H : Type} (F : HashFns H)

/-! ## Replay -/

/-- A consumer's set after one more event. -/
def replay_step (s : Finset ℤ) : Event → Finset ℤ
  | .stored e => s ∪ e.block_hashes.toFinset
  | .removed e => s \ e.block_hashes.toFinset
  | .cleared => ∅

/-- A consumer's set after a sequence of events. -/
def replay (events : List Event) : Finset ℤ := events.foldl replay_step ∅

theorem replay_append (events more : List Event) :
    replay (events ++ more) = more.foldl replay_step (replay events) := by
  rw [replay, foldl_append, replay]

theorem replay_concat (events : List Event) (e : Event) :
    replay (events ++ [e]) = replay_step (replay events) e := by
  rw [replay_append]
  rfl

theorem replay_step_removed_append (s : Finset ℤ) (t e : BlockRemoved) :
    replay_step s (.removed { t with block_hashes := t.block_hashes ++ e.block_hashes })
      = replay_step (replay_step s (.removed t)) (.removed e) := by
  simp only [replay_step, toFinset_append, sdiff_sdiff_left, Finset.sup_eq_union]

theorem replay_step_stored_append (s : Finset ℤ) (t e : BlockStored) :
    replay_step s (.stored { t with
        block_hashes := t.block_hashes ++ e.block_hashes
        token_ids := t.token_ids ++ e.token_ids })
      = replay_step (replay_step s (.stored t)) (.stored e) := by
  simp only [replay_step, toFinset_append, Finset.union_assoc]

/-- **Coalescing does not change the replay.** -/
theorem replay_enqueue (log queue : List Event) (e : Event) :
    replay (log ++ enqueue queue e) = replay (log ++ (queue ++ [e])) := by
  rcases eq_nil_or_concat queue with rfl | ⟨front, tail, rfl⟩
  · rfl
  · have hlast : (front ++ [tail]).getLast? = some tail := getLast?_concat
    have hfront : (front ++ [tail]).dropLast = front := dropLast_concat
    unfold enqueue
    rw [concat_eq_append, hlast, hfront]
    cases tail with
    | removed t =>
      cases e with
      | removed e =>
        dsimp only
        split
        · rw [← append_assoc, replay_concat, ← append_assoc, replay_concat,
            ← append_assoc, replay_concat, replay_step_removed_append]
        · rfl
      | stored e => rfl
      | cleared => rfl
    | stored t =>
      cases e with
      | stored e =>
        dsimp only
        split
        · rw [← append_assoc, replay_concat, ← append_assoc, replay_concat,
            ← append_assoc, replay_concat, replay_step_stored_append]
        · rfl
      | removed e => rfl
      | cleared => rfl
    | cleared =>
      cases e <;> rfl

theorem replay_enqueue_all (log queue events : List Event) :
    replay (log ++ events.foldl enqueue queue) = events.foldl replay_step (replay (log ++ queue)) := by
  induction events generalizing queue with
  | nil => rfl
  | cons e events ih =>
    rw [foldl_cons, ih, replay_enqueue, ← append_assoc, replay_concat, foldl_cons]

/-! ## The hashes of paths -/

/-- The hash published for the last page of a path. -/
def event_hash (page_size : ℕ) (ns : Namespace) (us : List Atom) : Option ℤ :=
  (chain F page_size ns us).getLast?.map F.to_int64

/-- The page hash chain is injective: a hash determines the salt and the path. -/
def ChainInjective (page_size : ℕ) : Prop :=
  ∀ ns ns' us us', us ≠ [] → us' ≠ [] → page_size ∣ us.length → page_size ∣ us'.length →
    event_hash F page_size ns us = event_hash F page_size ns' us' → ns.2 = ns'.2 ∧ us = us'

/-- The hashes of the pages a cache holds. -/
def held_hashes (c : RadixCache H) : Set ℤ :=
  { h | ∃ ns es, Held c ns es ∧ es ≠ [] ∧
    event_hash F c.page_size ns (es.map Prod.fst) = some h }

variable {page_size : ℕ} {us : List Atom}

theorem mem_hash_pages (hp : 0 < page_size) (ns : Namespace) {vs : List Atom}
    (hus : page_size ∣ us.length) (hvs : page_size ∣ vs.length) {x : ℤ} :
    x ∈ (hash_pages F (link F page_size ns us) (pages page_size vs)).map F.to_int64 ↔
      ∃ ws, ws <+: vs ∧ ws ≠ [] ∧ page_size ∣ ws.length ∧
        event_hash F page_size ns (us ++ ws) = some x := by
  -- induction on the pages of `vs`, from the end
  obtain ⟨q, hq⟩ := hvs
  induction q generalizing vs with
  | zero =>
    have hnil : vs = [] := length_eq_zero_iff.mp (by simpa using hq)
    subst hnil
    rw [pages_nil hp]
    constructor
    · intro hx
      cases hx
    · rintro ⟨ws, hws, hne, -⟩
      exact absurd (prefix_nil.mp hws) hne
  | succ q ih =>
    -- the last page apart
    have hlen : page_size * q ≤ vs.length := by
      rw [hq, Nat.mul_succ]
      omega
    obtain ⟨front, page, rfl, hfront, hpage⟩ :
        ∃ front page : List Atom, vs = front ++ page ∧ front.length = page_size * q ∧
          page.length = page_size := by
      refine ⟨vs.take (page_size * q), vs.drop (page_size * q), (take_append_drop _ _).symm, ?_, ?_⟩
      · rw [length_take, Nat.min_eq_left hlen]
      · rw [length_drop, hq, Nat.mul_succ]
        omega
    have hdf : page_size ∣ front.length := ⟨q, hfront⟩
    have hone := pages_page hp hpage
    rw [pages_append hp hdf, hash_pages_append, ← link_append F hp ns hus, map_append,
      mem_append, ih hfront, hone]
    have hlast : event_hash F page_size ns (us ++ (front ++ page))
        = some (F.to_int64 (F.page (link F page_size ns (us ++ front)) page)) := by
      have hd : page_size ∣ (us ++ front).length := by
        rw [length_append]
        exact Nat.dvd_add hus hdf
      rw [event_hash, ← append_assoc, chain_append F hp ns hd, hone, hash_pages, hash_pages,
        getLast?_concat]
      rfl
    constructor
    · rintro (⟨ws, hws, hne, hd, hx⟩ | hx)
      · exact ⟨ws, hws.trans (prefix_append _ _), hne, hd, hx⟩
      · rw [hash_pages, hash_pages, map_singleton, mem_singleton] at hx
        refine ⟨front ++ page, prefix_refl _, ?_, ?_, by rw [hlast, hx]⟩
        · intro hnil
          have := congrArg List.length hnil
          rw [length_append, length_nil] at this
          omega
        · rw [length_append, hpage]
          exact Nat.dvd_add hdf (dvd_refl _)
    · rintro ⟨ws, hws, hne, hd, hx⟩
      rcases prefix_append_cases hws with hws | ⟨ws', rfl, hws'⟩
      · exact .inl ⟨ws, hws, hne, hd, hx⟩
      · -- a whole number of pages past the front is the front alone or the last page
        have hd' : page_size ∣ ws'.length := by
          rw [length_append] at hd
          exact (Nat.dvd_add_right hdf).mp hd
        rcases Nat.eq_zero_or_pos ws'.length with hz | hpos
        · rw [length_eq_zero_iff.mp hz, append_nil] at hx hne
          exact .inl ⟨front, prefix_refl _, hne, hdf, hx⟩
        · have hge := Nat.le_of_dvd hpos hd'
          have heq : ws' = page := hws'.eq_of_length (by
            have := hws'.length_le
            omega)
          rw [heq, hlast] at hx
          right
          rw [hash_pages, hash_pages, map_singleton, mem_singleton]
          exact (Option.some.inj hx).symm

/-! ## What a stored and a removed leaf publish -/

theorem foldl_replay_stored (cache_salt : Option String) (parent : Option ℤ)
    (blocks : List (List Atom × H)) (s : Finset ℤ) :
    (RadixCache.stored_events F cache_salt parent blocks).foldl replay_step s
      = s ∪ (blocks.map fun b => F.to_int64 b.2).toFinset := by
  induction blocks generalizing parent s with
  | nil => simp [RadixCache.stored_events]
  | cons b blocks ih =>
    rw [RadixCache.stored_events, foldl_cons, ih, replay_step, map_cons]
    simp only [toFinset_cons]
    rw [Finset.union_assoc]
    congr 1

theorem foldl_replay_store_events (c : RadixCache H) (n : ℕ) (us : List Atom) (s : Finset ℤ) :
    (store_events F c n us).foldl replay_step s
      = s ∪ ((node_hashes F c n us).map F.to_int64).toFinset := by
  rw [store_events, foldl_replay_stored]
  congr 2
  have hlen : (pages c.page_size (c.node n).key.units).length = (node_hashes F c n us).length :=
    (length_node_hashes F n us).symm
  rw [← Function.comp_def, ← map_map, map_snd_zip hlen.ge]

variable {c : RadixCache H} {full : List (Atom × ℤ)}

theorem Shape.reads_units_of (h : Shape c) {n : ℕ} (hr : Reads c.tree entries n full) :
    Reads c.tree units_of n (full.map Prod.fst) := by
  induction hr with
  | root => exact .root
  | @child p n k us hp hk ih =>
    have hslots := h.slots (.child hp.inTree hk) (h.linked.ne_root hp.inTree hk)
    have hr := Reads.child ih hk
    rw [map_append]
    have hunits : (entries (c.tree.data n)).map Prod.fst = units_of (c.tree.data n) :=
      entries_fst hslots
    rw [hunits]
    exact hr

variable {p x : ℕ} {k : ChildKey} {v : ℤ}

theorem Shape.mem_node_hashes (h : Shape c) (hr : Reads c.tree entries p full)
    (hk : c.tree.child? p k = some x) : v ∈ (node_hashes F c x (full.map Prod.fst)).map F.to_int64 ↔
      ∃ part, part <+: entries (c.node x) ∧ part ≠ [] ∧ c.page_size ∣ part.length ∧
        event_hash F c.page_size (c.node x).key.namespace_of ((full ++ part).map Prod.fst)
          = some v := by
  have hin : InTree c.tree x := .child hr.inTree hk
  have hxr := h.linked.ne_root hr.inTree hk
  have hslots := h.slots hin hxr
  have hdvd : c.page_size ∣ (full.map Prod.fst).length := by
    rw [length_map]
    exact h.dvd_length_of_reads hr
  have hdx : c.page_size ∣ (c.node x).key.units.length := by
    rw [length_units]
    exact (h.keyed x hin hxr).2.1
  rw [node_hashes, mem_hash_pages F c.page_size_pos _ hdvd hdx]
  constructor
  · rintro ⟨ws, hws, hne, hd, hv⟩
    have hle := hws.length_le
    rw [length_units] at hle
    have htake : (entries (c.node x)).map Prod.fst = (c.node x).key.units := entries_fst hslots
    refine ⟨(entries (c.node x)).take ws.length, take_prefix _ _, ?_, ?_, ?_⟩
    · intro hnil
      have := congrArg List.length hnil
      rw [length_take, length_entries hslots, length_nil] at this
      exact hne (length_eq_zero_iff.mp (by omega))
    · rw [length_take, length_entries hslots, Nat.min_eq_left hle]
      exact hd
    · rw [map_append, map_take, htake, ← prefix_iff_eq_take.mp hws]
      exact hv
  · rintro ⟨part, hpart, hne, hd, hv⟩
    refine ⟨part.map Prod.fst, ?_, ?_, ?_, ?_⟩
    · have := hpart.map Prod.fst
      rwa [entries_fst hslots] at this
    · simpa using hne
    · rwa [length_map]
    · rw [← map_append]
      exact hv

variable {ns : Namespace} {es : List (Atom × ℤ)}

theorem Shape.heldFrom_below (h : Shape c) (hr : Reads c.tree entries p full)
    (hns : p ≠ c.tree.root → (c.node p).key.namespace_of = ns) (hes : HeldFrom c ns c.tree.root es)
    (hpre : full.map Prod.fst <+: es.map Prod.fst) :
    ∃ tail, es = full ++ tail ∧ HeldFrom c ns p tail := by
  induction hr with
  | root => exact ⟨es, rfl, hes⟩
  | @child q p k us hq hk ih =>
    have hin : InTree c.tree p := .child hq.inTree hk
    have hpr := h.linked.ne_root hq.inTree hk
    have hslots := h.slots hin hpr
    have hqns : q ≠ c.tree.root → (c.node q).key.namespace_of = ns := by
      intro hqr
      rw [← h.uniform q k p hq.inTree hqr hk]
      exact hns hpr
    have hdata : entries (c.tree.data p) = entries (c.node p) := rfl
    rw [hdata, map_append] at hpre
    obtain ⟨tail, rfl, htail⟩ := ih hqns ((prefix_append _ _).trans hpre)
    rw [map_append, prefix_append_right_inj, entries_fst hslots] at hpre
    -- what follows the reading of `q` begins with the whole part of `p`
    have hlen := hpre.length_le
    rw [length_units, length_map] at hlen
    have hpos := (h.keyed p hin hpr).1
    have hne : tail ≠ [] := by
      rintro rfl
      simp at hlen
      omega
    obtain ⟨n, hn, -, hcase⟩ := h.heldFrom_cases hq.inTree htail hne (prefix_refl _)
    have hkey : RadixKey.tagged ns ((tail.map Prod.fst).take c.page_size) = k := by
      rw [h.filed_eq hq.inTree hk, hns hpr]
      obtain ⟨more, hmore⟩ := hpre
      have hle := h.page_le hin hpr
      rw [← hmore, take_append_of_le_length (by rwa [length_units])]
    rw [hkey, hk] at hn
    have hnp : p = n := Option.some.inj hn
    subst hnp
    rcases hcase with hshort | ⟨rest, rfl, hrest⟩
    · have hle := hshort.length_le
      rw [length_entries hslots] at hle
      have heq : tail = entries (c.node p) :=
        hshort.eq_of_length (by rw [length_entries hslots]; omega)
      exact ⟨[], by rw [heq, hdata, append_nil], .nil p⟩
    · exact ⟨rest, by rw [hdata, append_assoc], hrest⟩

variable {c' : RadixCache H}

/-- **What is held after a leaf is removed**: everything but the paths that ended in it. -/
theorem Deletes.held_iff (d : Deletes c c' p x k) (h : Shape c) (hp : Reads c.tree entries p full) :
    Held c' ns es ↔ Held c ns es ∧ ¬ (ns = (c.node x).key.namespace_of ∧
        ∃ part, part <+: entries (c.node x) ∧ part ≠ [] ∧ es = full ++ part) := by
  have hxr := h.linked.ne_root d.site.parent d.site.filed
  have hx : InTree c.tree x := d.site.child
  have hp' : Reads c'.tree entries p full := by
    rw [d.tree]
    exact d.site.reads_iff.mpr ⟨hp, d.site.ne⟩
  have hpns : p ≠ c.tree.root → (c.node p).key.namespace_of = (c.node x).key.namespace_of :=
    fun hpr => (h.uniform p k x d.site.parent hpr d.site.filed).symm
  constructor
  · intro hes
    refine ⟨?_, ?_⟩
    · rcases hes with rfl | ⟨n, fulln, hr, hns, hread, hpre, hdvd⟩
      · exact .inl rfl
      · rw [d.tree] at hread
        refine .inr ⟨n, fulln, by rwa [d.root] at hr, by rwa [d.node] at hns,
          (d.site.reads_iff.mp hread).1, hpre, by rwa [d.page_size] at hdvd⟩
    · rintro ⟨rfl, part, hpart, hne, rfl⟩
      have h' := d.shape h
      have hfrom := h'.heldFrom_of_held hes
      obtain ⟨tail, heq, htail⟩ := h'.heldFrom_below hp'
        (by rw [d.root, d.node]; exact hpns) hfrom (by rw [map_append]; exact prefix_append _ _)
      have hpt : part = tail := append_cancel_left heq
      subst hpt
      -- the first page of the leaf is no longer filed below `p`
      obtain ⟨n, hn, -, -⟩ := h'.heldFrom_cases hp'.inTree htail hne (prefix_refl _)
      have hle : c.page_size ≤ part.length := by
        refine Nat.le_of_dvd (length_pos_iff.mpr hne) ?_
        rw [← d.page_size]
        exact h'.heldFrom_aligned hp'.inTree htail
      have hslots := h.slots hx hxr
      have hkey : RadixKey.tagged (c.node x).key.namespace_of
          ((part.map Prod.fst).take c'.page_size) = k := by
        rw [h.filed_eq d.site.parent d.site.filed, d.page_size]
        obtain ⟨more, hmore⟩ := hpart
        rw [← entries_fst hslots, ← hmore, map_append,
          take_append_of_le_length (by simpa using hle)]
      rw [hkey] at hn
      exact ((d.edge_iff d.site.parent).mp hn).2
        (Option.some.inj (((d.edge_iff d.site.parent).mp hn).1.symm.trans d.site.filed))
  · rintro ⟨hes, hnot⟩
    rcases hes with rfl | ⟨n, fulln, hr, hns, hread, hpre, hdvd⟩
    · exact .inl rfl
    · by_cases hnx : n = x
      · subst hnx
        have hfull : fulln = full ++ entries (c.node n) :=
          h.linked.reads_unique hread (.child hp d.site.filed)
        rw [hfull] at hpre
        rcases prefix_append_cases hpre with hpre | ⟨part, rfl, hpart⟩
        · -- a path that ends above the leaf is held without it
          by_cases hpr : p = c.tree.root
          · left
            rw [hpr] at hp
            rw [h.linked.reads_unique hp .root] at hpre
            exact prefix_nil.mp hpre
          · refine .inr ⟨p, full, by rwa [d.root], ?_, hp', hpre, by rwa [d.page_size]⟩
            rw [d.node, hpns hpr]
            exact hns
        · by_cases hne : part = []
          · subst hne
            rw [append_nil] at hdvd ⊢
            by_cases hpr : p = c.tree.root
            · left
              rw [hpr] at hp
              exact h.linked.reads_unique hp .root
            · refine .inr ⟨p, full, by rwa [d.root], ?_, hp', prefix_refl _, by rwa [d.page_size]⟩
              rw [d.node, hpns hpr]
              exact hns
          · exact absurd ⟨hns.symm, part, hpart, hne, rfl⟩ hnot
      · refine .inr ⟨n, fulln, by rwa [d.root], by rwa [d.node], ?_, hpre, by rwa [d.page_size]⟩
        rw [d.tree]
        exact d.site.reads_iff.mpr ⟨hread, hnx⟩

/-! ## Parents -/

/-- A stored event is linked: its blocks are the pages of its tokens after some path of its salt,
and its parent is the hash of the last page of that path. -/
def LinkedEvent (page_size : ℕ) : Event → Prop
  | .stored e => ∃ us, page_size ∣ us.length ∧ page_size ∣ e.token_ids.length ∧ e.token_ids ≠ [] ∧
      e.block_hashes = (hash_pages F (link F page_size (none, e.cache_salt) us)
        (pages page_size e.token_ids)).map F.to_int64 ∧
      e.parent_block_hash = event_hash F page_size (none, e.cache_salt) us
  | _ => True

theorem event_hash_nil (hp : 0 < page_size) (ns : Namespace) :
    event_hash F page_size ns [] = none := by
  rw [event_hash, chain, pages_nil hp]
  rfl

theorem event_hash_append (hp : 0 < page_size) (ns : Namespace) {vs : List Atom}
    (hus : page_size ∣ us.length) (hvs : page_size ∣ vs.length) (hne : vs ≠ []) :
    event_hash F page_size ns (us ++ vs)
      = ((hash_pages F (link F page_size ns us) (pages page_size vs)).map F.to_int64).getLast? := by
  have hlast : (hash_pages F (link F page_size ns us) (pages page_size vs)) ≠ [] := by
    intro hnil
    have hlen := congrArg List.length hnil
    rw [length_hash_pages, length_pages_of_dvd hp hvs, length_nil] at hlen
    have hpos := Nat.div_pos (Nat.le_of_dvd (length_pos_iff.mpr hne) hvs) hp
    omega
  rw [event_hash, chain_append F hp ns hus, getLast?_append, getLast?_map,
    getLast?_eq_some_getLast hlast, Option.some_or]

theorem linked_stored (hp : 0 < page_size) (ns : Namespace) (q : ℕ) :
    ∀ {us vs : List Atom}, page_size ∣ us.length → vs.length = page_size * q →
      ∀ e ∈ RadixCache.stored_events F ns.2 (event_hash F page_size ns us)
        ((pages page_size vs).zip (hash_pages F (link F page_size ns us) (pages page_size vs))),
      LinkedEvent F page_size e := by
  -- one page at a time: each event carries one page and the hash of the path before it
  induction q with
  | zero =>
    intro us vs _ hvs e he
    have hnil : vs = [] := length_eq_zero_iff.mp (by simpa using hvs)
    rw [hnil, pages_nil hp] at he
    cases he
  | succ q ih =>
    intro us vs hus hvs e he
    rw [Nat.mul_succ] at hvs
    obtain ⟨page, rest, rfl, hpage⟩ :
        ∃ page rest : List Atom, vs = page ++ rest ∧ page.length = page_size := by
      refine ⟨vs.take page_size, vs.drop page_size, (take_append_drop _ _).symm, ?_⟩
      rw [length_take]
      omega
    have hrest : rest.length = page_size * q := by
      rw [length_append] at hvs
      omega
    have hne : page ≠ [] := by
      rintro rfl
      simp at hpage
      omega
    have hpages := pages_page hp hpage
    have hd : page_size ∣ page.length := by rw [hpage]
    have hlink : link F page_size ns (us ++ page) = some (F.page (link F page_size ns us) page) := by
      rw [link_append F hp ns hus, hpages]
      rfl
    have hhash : event_hash F page_size ns (us ++ page)
        = some (F.to_int64 (F.page (link F page_size ns us) page)) := by
      rw [event_hash_append F hp ns hus hd hne, hpages]
      rfl
    rw [pages_cons hp hpage, hash_pages, zip_cons_cons, RadixCache.stored_events, mem_cons] at he
    rcases he with rfl | he
    · refine ⟨us, hus, hd, hne, ?_, rfl⟩
      rw [hpages]
      rfl
    · have hus' : page_size ∣ (us ++ page).length := by
        rw [length_append]
        exact Nat.dvd_add hus hd
      have hnext := ih hus' hrest e
      rw [hlink, hhash] at hnext
      exact hnext he

theorem linked_store_events {n : ℕ} (hus : c.page_size ∣ us.length)
    (hn : c.page_size ∣ (c.node n).key.units.length) :
    ∀ e ∈ store_events F c n us, LinkedEvent F c.page_size e := by
  obtain ⟨q, hq⟩ := hn
  exact linked_stored F c.page_size_pos (c.node n).key.namespace_of q hus hq

variable {F}

section

variable (hp : 0 < page_size) (hinj : ChainInjective F page_size)
include hp hinj

theorem LinkedEvent.merge {tail e : BlockStored} (ht : LinkedEvent F page_size (.stored tail))
    (he : LinkedEvent F page_size (.stored e)) (hc : e.Continues tail) :
    LinkedEvent F page_size (.stored { tail with
      block_hashes := tail.block_hashes ++ e.block_hashes
      token_ids := tail.token_ids ++ e.token_ids }) := by
  obtain ⟨us, hus, hvs, hne, hhash, hpar⟩ := ht
  obtain ⟨us', hus', hvs', -, hhash', hpar'⟩ := he
  obtain ⟨-, -, -, hsalt, -, -, hcont⟩ := hc
  have hd : page_size ∣ (us ++ tail.token_ids).length := by
    rw [length_append]
    exact Nat.dvd_add hus hvs
  have hmeet : event_hash F page_size (none, e.cache_salt) us'
      = event_hash F page_size (none, tail.cache_salt) (us ++ tail.token_ids) := by
    rw [← hpar', hcont, hhash, event_hash_append F hp _ hus hvs hne]
  have hpath : us' = us ++ tail.token_ids := by
    have hnil : us ++ tail.token_ids ≠ [] := by simp [hne]
    refine (hinj _ _ us' _ ?_ hnil hus' hd hmeet).2
    rintro rfl
    obtain ⟨x, hx, -⟩ := link_eq_last F hp (none, tail.cache_salt) hd hnil
    rw [event_hash_nil F hp, event_hash, hx] at hmeet
    cases hmeet
  refine ⟨us, hus, ?_, by simp [hne], ?_, hpar⟩
  · dsimp only
    rw [length_append]
    exact Nat.dvd_add hvs hvs'
  · rw [pages_append hp hvs, hash_pages_append, ← link_append F hp _ hus, map_append, hhash,
      hhash', hpath, hsalt]

theorem linked_enqueue {queue : List Event} {event : Event}
    (hq : ∀ e ∈ queue, LinkedEvent F page_size e) (he : LinkedEvent F page_size event) :
    ∀ e ∈ enqueue queue event, LinkedEvent F page_size e := by
  have happend : ∀ e ∈ queue ++ [event], LinkedEvent F page_size e := by
    intro e hmem
    rcases mem_append.mp hmem with hmem | hmem
    · exact hq e hmem
    · rw [mem_singleton.mp hmem]
      exact he
  rcases eq_nil_or_concat queue with rfl | ⟨front, tail, rfl⟩
  · exact happend
  · have hlast : (front ++ [tail]).getLast? = some tail := getLast?_concat
    have hfront : (front ++ [tail]).dropLast = front := dropLast_concat
    have htail : LinkedEvent F page_size tail := hq tail (by simp)
    have hrest : ∀ merged, LinkedEvent F page_size merged →
        ∀ e ∈ front ++ [merged], LinkedEvent F page_size e := by
      intro merged hm e hmem
      rcases mem_append.mp hmem with hmem | hmem
      · exact hq e (by simp [hmem])
      · rw [mem_singleton.mp hmem]
        exact hm
    rw [concat_eq_append] at happend ⊢
    unfold enqueue
    rw [hlast, hfront]
    cases tail with
    | removed t =>
      cases event with
      | removed e =>
        dsimp only
        split
        · exact hrest _ trivial
        · exact happend
      | stored e => exact happend
      | cleared => exact happend
    | stored t =>
      cases event with
      | stored e =>
        dsimp only
        split
        · rename_i hcont
          exact hrest _ (htail.merge hp hinj he hcont)
        · exact happend
      | removed e => exact happend
      | cleared => exact happend
    | cleared =>
      cases event <;> exact happend

theorem linked_enqueue_all {events : List Event} :
    ∀ {queue : List Event}, (∀ e ∈ queue, LinkedEvent F page_size e) →
      (∀ e ∈ events, LinkedEvent F page_size e) →
      ∀ e ∈ events.foldl enqueue queue, LinkedEvent F page_size e := by
  induction events with
  | nil =>
    intro queue hq _
    exact hq
  | cons event events ih =>
    intro queue hq he
    exact ih (linked_enqueue hp hinj hq (he event (by simp))) fun e hmem => he e (by simp [hmem])

end

/-! ## What a new and a removed leaf do to the held hashes -/

theorem held_hashes_congr (hps : c'.page_size = c.page_size)
    (hheld : ∀ ns es, Held c' ns es ↔ Held c ns es) : held_hashes F c' = held_hashes F c := by
  ext x
  simp only [held_hashes, hps, hheld]

variable {key : RadixKey}

theorem Grows.held_new_iff {value : List ℤ} (g : Grows c c' p k key value) (h : Shape c)
    (hp : Reads c.tree entries p full) :
    Held c' ns es ↔ Held c ns es ∨ (ns = key.namespace_of ∧ ∃ part, part <+: key.units.zip value ∧
      part ≠ [] ∧ c.page_size ∣ part.length ∧ es = full ++ part) := by
  have hfull := h.dvd_length_of_reads hp
  rw [g.held_iff hp]
  constructor
  · rintro (hold | ⟨rfl, hpre, hdvd⟩)
    · exact .inl hold
    · -- up to the new leaf the path was held before
      have hshort : es <+: full → Held c key.namespace_of es := by
        intro hes
        by_cases hpr : p = c.tree.root
        · subst hpr
          rw [h.linked.reads_unique hp .root] at hes
          exact .inl (prefix_nil.mp hes)
        · exact .inr ⟨p, full, hpr, (g.same_namespace hpr).symm, hp, hes, hdvd⟩
      rcases prefix_append_cases hpre with hes | ⟨part, rfl, hpart⟩
      · exact .inl (hshort hes)
      · by_cases hne : part = []
        · exact .inl (hshort (by simp [hne]))
        · rw [length_append] at hdvd
          exact .inr ⟨rfl, part, hpart, hne, (Nat.dvd_add_right hfull).mp hdvd, rfl⟩
  · rintro (hold | ⟨rfl, part, hpart, -, hdvd, rfl⟩)
    · exact .inl hold
    · refine .inr ⟨rfl, (prefix_append_right_inj full).mpr hpart, ?_⟩
      rw [length_append]
      exact Nat.dvd_add hfull hdvd

theorem Grows.mem_held_hashes {value : List ℤ} (g : Grows c c' p k key value) (h : Shape c)
    (hp : Reads c.tree units_of p us) {x : ℤ} : x ∈ held_hashes F c' ↔ x ∈ held_hashes F c ∨
      x ∈ (node_hashes F c' c.tree.counter us).map F.to_int64 := by
  obtain ⟨full, hfull⟩ := hp.inTree.reads entries
  have hus : us = full.map Prod.fst := h.linked.reads_unique hp (h.reads_units_of hfull)
  have hfull' : Reads c'.tree entries p full := by
    rw [g.tree]
    exact g.site.reads hfull
  have hk : c'.tree.child? p k = some c.tree.counter := by
    rw [g.tree]
    exact g.site.filed_new _
  have hnode : entries (c'.node c.tree.counter) = key.units.zip value := by rw [g.node_new, entries]
  have hns : (c'.node c.tree.counter).key.namespace_of = key.namespace_of := by rw [g.node_new]
  rw [hus, (g.shape h).mem_node_hashes F hfull' hk, hnode, hns, g.page_size]
  constructor
  · rintro ⟨ns, es, hheld, hne, hx⟩
    rw [g.page_size] at hx
    rcases (g.held_new_iff h hfull).mp hheld with hold | ⟨rfl, part, hpart, hpne, hdvd, rfl⟩
    · exact .inl ⟨ns, es, hold, hne, hx⟩
    · exact .inr ⟨part, hpart, hpne, hdvd, hx⟩
  · rintro (⟨ns, es, hheld, hne, hx⟩ | ⟨part, hpart, hpne, hdvd, hx⟩)
    · refine ⟨ns, es, (g.held_new_iff h hfull).mpr (.inl hheld), hne, ?_⟩
      rwa [g.page_size]
    · refine ⟨_, full ++ part,
        (g.held_new_iff h hfull).mpr (.inr ⟨rfl, part, hpart, hpne, hdvd, rfl⟩), by simp [hpne], ?_⟩
      rwa [g.page_size]

/-- No page is held under two extra keys of one salt. -/
def Separated (c : RadixCache H) : Prop :=
  ∀ ns ns' es es', Held c ns es → Held c ns' es' → es ≠ [] → ns.2 = ns'.2 →
    es.map Prod.fst = es'.map Prod.fst → ns = ns'

theorem Separated.congr (s : Separated c) (hheld : ∀ ns es, Held c' ns es → Held c ns es) :
    Separated c' :=
  fun ns ns' es es' h h' => s ns ns' es es' (hheld _ _ h) (hheld _ _ h')

theorem Deletes.mem_held_hashes (d : Deletes c c' p x k) (h : Shape c)
    (hp : Reads c.tree units_of p us) (hv : v ∈ held_hashes F c)
    (hnot : v ∉ (node_hashes F c x us).map F.to_int64) : v ∈ held_hashes F c' := by
  obtain ⟨full, hfull⟩ := hp.inTree.reads entries
  have hus : us = full.map Prod.fst := h.linked.reads_unique hp (h.reads_units_of hfull)
  obtain ⟨ns, es, hheld, hne, hx⟩ := hv
  refine ⟨ns, es, (d.held_iff h hfull).mpr ⟨hheld, ?_⟩, hne, by rwa [d.page_size]⟩
  rintro ⟨rfl, part, hpart, hpne, rfl⟩
  apply hnot
  rw [hus, h.mem_node_hashes F hfull d.site.filed]
  have hdvd := h.prefix_map.aligned _ _ hheld
  rw [length_append] at hdvd
  exact ⟨part, hpart, hpne, (Nat.dvd_add_right (h.dvd_length_of_reads hfull)).mp hdvd, hx⟩

theorem Deletes.not_mem_node_hashes (d : Deletes c c' p x k) (h : Shape c)
    (hinj : ChainInjective F c.page_size) (hsep : Separated c) (hp : Reads c.tree units_of p us)
    (hv : v ∈ held_hashes F c') :
    v ∈ held_hashes F c ∧ v ∉ (node_hashes F c x us).map F.to_int64 := by
  obtain ⟨full, hfull⟩ := hp.inTree.reads entries
  have hus : us = full.map Prod.fst := h.linked.reads_unique hp (h.reads_units_of hfull)
  obtain ⟨ns, es, hheld', hne, hx⟩ := hv
  rw [d.page_size] at hx
  obtain ⟨hheld, hnot⟩ := (d.held_iff h hfull).mp hheld'
  refine ⟨⟨ns, es, hheld, hne, hx⟩, ?_⟩
  rw [hus, h.mem_node_hashes F hfull d.site.filed]
  rintro ⟨part, hpart, hpne, hdvd, hx'⟩
  -- the path through the leaf has the hash of `es`, so it is `es`
  have hleaf : Held c (c.node x).key.namespace_of (full ++ part) := by
    refine .inr ⟨x, full ++ entries (c.node x), h.linked.ne_root d.site.parent d.site.filed, rfl,
      .child hfull d.site.filed, (prefix_append_right_inj full).mpr hpart, ?_⟩
    rw [length_append]
    exact Nat.dvd_add (h.dvd_length_of_reads hfull) hdvd
  have hsame := hinj ns (c.node x).key.namespace_of (es.map Prod.fst) ((full ++ part).map Prod.fst)
    (by simpa using hne) (by simp [hpne])
    (by simpa using h.prefix_map.aligned _ _ hheld)
    (by simpa using h.prefix_map.aligned _ _ hleaf) (hx.trans hx'.symm)
  have hns := hsep ns _ es (full ++ part) hheld hleaf hne hsame.1 hsame.2
  subst hns
  have hlen : es.length = (full ++ part).length := by
    have := congrArg List.length hsame.2
    rwa [length_map, length_map] at this
  have heq : es = full ++ part := by
    refine (h.prefix_map.functional _ es (full ++ part) hheld hleaf ?_).eq_of_length hlen
    rw [hsame.2]
  exact hnot ⟨rfl, part, hpart, hpne, heq⟩

/-! ## Whole runs -/

/-- Every hash of a consumer's set is held. -/
def Within (F : HashFns H) (c : RadixCache H) (s : Finset ℤ) : Prop := ∀ x ∈ s, x ∈ held_hashes F c

/-- A consumer's set has every held hash, and no page is held under two extra keys of one salt. -/
structure Complete (F : HashFns H) (c : RadixCache H) (s : Finset ℤ) : Prop where
  separated : Separated c
  covers : ∀ x ∈ held_hashes F c, x ∈ s

theorem Within.congr {s : Finset ℤ} (w : Within F c s) (hps : c'.page_size = c.page_size)
    (hheld : ∀ ns es, Held c' ns es ↔ Held c ns es) : Within F c' s := by
  intro x hx
  rw [held_hashes_congr hps hheld]
  exact w x hx

theorem Complete.congr {s : Finset ℤ} (w : Complete F c s) (hps : c'.page_size = c.page_size)
    (hheld : ∀ ns es, Held c' ns es ↔ Held c ns es) : Complete F c' s := by
  refine ⟨w.separated.congr fun ns es => (hheld ns es).mp, ?_⟩
  intro x hx
  rw [held_hashes_congr hps hheld] at hx
  exact w.covers x hx

/-- **Evictions**, by induction on the leaves removed. -/
theorem Evictions.tracks {removed : List ℕ} (e : Evictions F c c' removed) :
    Shape c → c.config.enable_kv_cache_events = true → ∀ log : List Event,
      Within F c (replay (log ++ c.queue)) → Within F c' (replay (log ++ c'.queue)) ∧
        (ChainInjective F c.page_size → Complete F c (replay (log ++ c.queue)) →
          Complete F c' (replay (log ++ c'.queue))) := by
  induction e with
  | nil c => exact fun _ _ log w => ⟨w, fun _ hc => hc⟩
  | @cons c c₁ c₂ c' p x k us xs _ d rec hus hq _ ih =>
    intro h hen log w
    have hps : c₂.page_size = c.page_size := by rw [rec.page_size, d.page_size]
    rw [if_pos hen] at hq
    have hreplay : replay (log ++ c₂.queue)
        = replay (log ++ c.queue) \ ((node_hashes F c x us).map F.to_int64).toFinset := by
      rw [hq, replay_enqueue, ← append_assoc, replay_concat]
      rfl
    have hbooks : held_hashes F c₂ = held_hashes F c₁ :=
      held_hashes_congr rec.page_size fun ns es => rec.toSameBooks.held_iff
    have hw : Within F c₂ (replay (log ++ c₂.queue)) := by
      intro v hv
      rw [hreplay, Finset.mem_sdiff, mem_toFinset] at hv
      rw [hbooks]
      exact d.mem_held_hashes h hus (w v hv.1) hv.2
    have hen' : c₂.config.enable_kv_cache_events = true := by rw [rec.config, d.config]; exact hen
    obtain ⟨hw', hc'⟩ := ih ((d.shape h).congr rec.toSameBooks) hen' log hw
    refine ⟨hw', fun hinj hc => hc' (by rwa [hps]) ⟨?_, ?_⟩⟩
    · refine hc.separated.congr fun ns es hes => ?_
      obtain ⟨full, hfull⟩ := hus.inTree.reads entries
      exact ((d.held_iff h hfull).mp (rec.toSameBooks.held_iff.mp hes)).1
    · intro v hv
      rw [hbooks] at hv
      obtain ⟨hold, hnot⟩ := d.not_mem_node_hashes h hinj hc.separated hus hv
      rw [hreplay, Finset.mem_sdiff, mem_toFinset]
      exact ⟨hc.covers v hold, hnot⟩

/-- **An insertion.** -/
theorem Inserts.tracks (i : Inserts F c c') (h : Shape c)
    (hen : c.config.enable_kv_cache_events = true) (log : List Event)
    (w : Within F c (replay (log ++ c.queue))) : Within F c' (replay (log ++ c'.queue)) ∧
      (Separated c' → Complete F c (replay (log ++ c.queue)) →
        Complete F c' (replay (log ++ c'.queue))) := by
  cases i with
  | found r =>
    rw [r.queue]
    have hheld : ∀ ns es, Held c' ns es ↔ Held c ns es := fun ns es => r.held_iff
    exact ⟨w.congr r.page_size hheld, fun _ hc => hc.congr r.page_size hheld⟩
  | @stored c₁ c₂ _ p k key value us r g hus rec _ hq =>
    rw [if_pos hen] at hq
    have hreplay : replay (log ++ c'.queue) = replay (log ++ c.queue) ∪
        ((node_hashes F c₂ c₁.tree.counter us).map F.to_int64).toFinset := by
      rw [hq, replay_enqueue_all, foldl_replay_store_events]
    have hmem : ∀ x, x ∈ held_hashes F c' ↔ x ∈ held_hashes F c ∨
        x ∈ (node_hashes F c₂ c₁.tree.counter us).map F.to_int64 := by
      intro x
      rw [held_hashes_congr rec.page_size fun ns es => rec.toSameBooks.held_iff,
        g.mem_held_hashes (r.shape h) hus, held_hashes_congr r.page_size fun ns es => r.held_iff]
    refine ⟨?_, fun hsep hc => ⟨hsep, ?_⟩⟩
    · intro x hx
      rw [hreplay, Finset.mem_union, mem_toFinset] at hx
      exact (hmem x).mpr (hx.imp_left (w x))
    · intro x hx
      rw [hreplay, Finset.mem_union, mem_toFinset]
      exact ((hmem x).mp hx).imp_left (hc.covers x)

/-- What a run must see to for the events to tell everything: an insertion files no page that is
held under another extra key of its salt. -/
def Apart (m : Machine H) : Op H → Prop
  | .insert key _ _ _ => ∀ ns es, Held m.cache ns es → es ≠ [] → ns.2 = key.cache_salt →
      es.map Prod.fst <+: (filed_key m.cache key).units → ns = key.namespace_of
  | _ => True

/-- The states of a run that keeps extra keys apart. -/
inductive ApartRun (F : HashFns H) (config : CacheConfig) : Machine H → Prop
  | init : ApartRun F config ⟨RadixCache.init config, [], []⟩
  | step {m m' : Machine H} {op : Op H} : ApartRun F config m → Permitted m op → Apart m op →
      step F m op = .ok m' → ApartRun F config m'

variable {config : CacheConfig} {m : Machine H}

theorem ApartRun.reachable (h : ApartRun F config m) : Reachable F config m := by
  induction h with
  | init => exact .init
  | step _ hp _ hok ih => exact .step ih hp hok

theorem ApartRun.next {op : Op H} (h : ApartRun F config m) (hp : Permitted m op) (ha : Apart m op) :
    ApartRun F config (next F m op) :=
  .step h hp ha (step_next (sound_of_reachable h.reachable) hp)

theorem Separated.insert (s : Separated m.cache) {value : Option (List ℤ)} {priority : Option ℤ}
    {chunked : Bool} (ha : Apart m (.insert key value priority chunked)) {new : List (Atom × ℤ)}
    (hnew : new.map Prod.fst = (filed_key m.cache key).units)
    (hheld : ∀ ns es, Held c ns es ↔ Held m.cache ns es ∨ (ns = key.namespace_of ∧ es <+: new ∧
      m.cache.page_size ∣ es.length)) : Separated c := by
  have hpath : ∀ {es : List (Atom × ℤ)}, es <+: new →
      es.map Prod.fst <+: (filed_key m.cache key).units := by
    intro es hes
    rw [← hnew]
    exact hes.map Prod.fst
  intro ns ns' es es' hes hes' hne hsalt hsame
  have hne' : es' ≠ [] := by
    rintro rfl
    exact hne (by simpa using hsame)
  rcases (hheld ns es).mp hes with hold | ⟨hns, hpre, -⟩
  · rcases (hheld ns' es').mp hes' with hold' | ⟨hns', hpre', -⟩
    · exact s ns ns' es es' hold hold' hne hsalt hsame
    · rw [hns'] at hsalt ⊢
      exact ha ns es hold hne hsalt (by rw [hsame]; exact hpath hpre')
  · rcases (hheld ns' es').mp hes' with hold' | ⟨hns', -, -⟩
    · rw [hns] at hsalt ⊢
      exact (ha ns' es' hold' hne' hsalt.symm (by rw [← hsame]; exact hpath hpre)).symm
    · rw [hns, hns']

/-- The hashes a consumer of all the events so far has. -/
def replayed (m : Machine H) : Finset ℤ := replay (m.log ++ m.cache.queue)

theorem replay_cleared (log queue : List Event) : replay (log ++ enqueue queue .cleared) = ∅ := by
  rw [replay_enqueue, ← append_assoc, replay_concat]
  rfl

theorem held_hashes_reset (c : RadixCache H) : held_hashes F c.reset = ∅ := by
  rw [Set.eq_empty_iff_forall_notMem]
  rintro x ⟨ns, es, hheld, hne, -⟩
  exact hne (held_reset c hheld)

theorem replay_reset (hen : c.config.enable_kv_cache_events = true) (log : List Event) :
    replay (log ++ c.reset.queue) = ∅ := by
  rw [queue_reset, if_pos hen, replay_cleared]

theorem within_reset (hen : c.config.enable_kv_cache_events = true) (log : List Event) :
    Within F c.reset (replay (log ++ c.reset.queue)) := by
  intro x hx
  rw [replay_reset hen] at hx
  cases hx

theorem complete_reset (s : Finset ℤ) : Complete F c.reset s := by
  refine ⟨?_, ?_⟩
  · intro ns ns' es es' hes _ hne
    exact absurd (held_reset c hes) hne
  · intro x hx
    rw [held_hashes_reset] at hx
    cases hx

theorem replayed_taken (hen : m.cache.config.enable_kv_cache_events = true) :
    replayed { m with cache := m.cache.take_events.1, log := m.log ++ m.cache.take_events.2 }
      = replayed m := by
  unfold replayed RadixCache.take_events
  rw [if_pos hen]
  rw [append_nil]

/-- **One step** of a run with events enabled. -/
theorem Moved.tracks {m' : Machine H} {op : Op H} (mv : Moved F m op m') (s : Sound F m)
    (hen : m.cache.config.enable_kv_cache_events = true) (w : Within F m.cache (replayed m)) :
    Within F m'.cache (replayed m') ∧ (ChainInjective F m.cache.page_size → Apart m op →
      Complete F m.cache (replayed m) → Complete F m'.cache (replayed m')) := by
  cases mv with
  | skipped => exact ⟨w, fun _ _ hc => hc⟩
  | inserted hi _ hfollows hcov hheld =>
    obtain ⟨hw, hc⟩ := hi.tracks s.shape hen m.log w
    refine ⟨hw, fun _ ha hcomp => hc ?_ hcomp⟩
    exact hcomp.separated.insert ha (spelled_rest hcov hfollows) hheld
  | matched r =>
    have hheld : ∀ ns es, Held _ ns es ↔ Held m.cache ns es := fun ns es => r.held_iff
    have hreplay : replay (m.log ++ m.cache.queue) = replayed m := rfl
    rw [replayed, r.queue]
    exact ⟨w.congr r.page_size hheld, fun _ _ hc => hc.congr r.page_size hheld⟩
  | locked r | unlocked r =>
    have hheld : ∀ ns es, Held _ ns es ↔ Held m.cache ns es := fun ns es => r.held_iff
    have hreplay : replay (m.log ++ m.cache.queue) = replayed m := rfl
    rw [replayed, r.queue]
    exact ⟨w.congr r.page_size hheld, fun _ _ hc => hc.congr r.page_size hheld⟩
  | evicted e =>
    obtain ⟨hw, hc⟩ := e.tracks s.shape hen m.log w
    exact ⟨hw, fun hinj _ hcomp => hc hinj hcomp⟩
  | reset => exact ⟨within_reset hen m.log, fun _ _ _ => complete_reset _⟩
  | taken =>
    have same := SameBooks.take_events m.cache
    have hheld : ∀ ns es, Held _ ns es ↔ Held m.cache ns es := fun ns es => same.held_iff
    rw [replayed_taken hen]
    exact ⟨w.congr same.page_size hheld, fun _ _ hc => hc.congr same.page_size hheld⟩

theorem within_of_reachable (hen : config.enable_kv_cache_events = true) (h : Reachable F config m) :
    Within F m.cache (replayed m) := by
  induction h with
  | init => exact within_reset hen []
  | @step m m' op hr hp hok ih =>
    have hs := sound_of_reachable hr
    have hen' : m.cache.config.enable_kv_cache_events = true := by
      rw [config_of_reachable hr]
      exact hen
    exact ((hs.moved hp hok).1.tracks hs hen' ih).1

theorem complete_of_apart (hen : config.enable_kv_cache_events = true)
    (hinj : ChainInjective F config.page_size) (h : ApartRun F config m) :
    Complete F m.cache (replayed m) := by
  induction h with
  | init => exact complete_reset _
  | @step m m' op hr hp ha hok ih =>
    have hs := sound_of_reachable hr.reachable
    have hconfig := config_of_reachable hr.reachable
    have hw := within_of_reachable hen hr.reachable
    rw [← hconfig] at hen hinj
    exact ((hs.moved hp hok).1.tracks hs hen hw).2 hinj ha ih

/-! ### Parents -/

/-- Every event handed out or queued is linked. -/
def Linked (F : HashFns H) (m : Machine H) : Prop :=
  ∀ e ∈ m.log ++ m.cache.queue, LinkedEvent F m.cache.page_size e

theorem Linked.log (l : Linked F m) : ∀ e ∈ m.log, LinkedEvent F m.cache.page_size e :=
  fun e he => l e (mem_append_left _ he)

theorem Linked.queue (l : Linked F m) : ∀ e ∈ m.cache.queue, LinkedEvent F m.cache.page_size e :=
  fun e he => l e (mem_append_right _ he)

theorem Linked.requeue (l : Linked F m) {held : List ℕ} (hconfig : c.config = m.cache.config)
    (hq : ∀ e ∈ c.queue, LinkedEvent F m.cache.page_size e) : Linked F ⟨c, held, m.log⟩ := by
  have hps : c.page_size = m.cache.page_size := by
    rw [RadixCache.page_size, hconfig, RadixCache.page_size]
  intro e he
  rw [hps]
  rcases mem_append.mp he with he | he
  · exact l.log e he
  · exact hq e he

theorem Evictions.linked {removed : List ℕ} (e : Evictions F c c' removed) (hp : 0 < page_size)
    (hinj : ChainInjective F page_size) :
    (∀ e ∈ c.queue, LinkedEvent F page_size e) → ∀ e ∈ c'.queue, LinkedEvent F page_size e := by
  induction e with
  | nil c => exact id
  | @cons c _ c₂ _ _ x _ us _ _ _ _ _ hq _ ih =>
    intro h
    apply ih
    rw [hq]
    split
    · exact linked_enqueue hp hinj h trivial
    · exact h

theorem Inserts.linked (i : Inserts F c c') (h : Shape c) (hinj : ChainInjective F c.page_size)
    (hq : ∀ e ∈ c.queue, LinkedEvent F c.page_size e) :
    ∀ e ∈ c'.queue, LinkedEvent F c.page_size e := by
  cases i with
  | found r =>
    rw [r.queue]
    exact hq
  | @stored c₁ c₂ _ p k key value us r g hus rec _ hqueue =>
    rw [hqueue]
    split
    · have h₁ := r.shape h
      have hps : c₂.page_size = c.page_size := by rw [g.page_size, r.page_size]
      refine linked_enqueue_all c.page_size_pos hinj hq ?_
      rw [← hps]
      refine linked_store_events F ?_ ?_
      · rw [g.page_size]
        exact h₁.dvd_length_units hus
      · rw [g.node_new, length_units, g.page_size]
        exact g.aligned
    · exact hq

theorem Moved.linked {m' : Machine H} {op : Op H} (mv : Moved F m op m') (s : Sound F m)
    (hinj : ChainInjective F m.cache.page_size) (l : Linked F m) : Linked F m' := by
  cases mv with
  | skipped => exact l
  | inserted hi _ _ _ _ => exact l.requeue hi.config (hi.linked s.shape hinj l.queue)
  | matched r =>
    refine l.requeue r.config ?_
    rw [r.queue]
    exact l.queue
  | locked r | unlocked r =>
    refine l.requeue r.config ?_
    rw [r.queue]
    exact l.queue
  | evicted e => exact l.requeue e.config (e.linked m.cache.page_size_pos hinj l.queue)
  | reset =>
    refine l.requeue (config_reset _) ?_
    rw [queue_reset]
    split
    · exact linked_enqueue m.cache.page_size_pos hinj l.queue trivial
    · exact l.queue
  | taken =>
    have hps := (SameBooks.take_events m.cache).page_size
    intro e he
    rw [hps]
    apply l e
    unfold RadixCache.take_events at he
    split at he
    · simpa using he
    · simpa using he

theorem queue_init : (RadixCache.init config : RadixCache H).queue
    = if config.enable_kv_cache_events = true then [.cleared] else [] := queue_reset _

theorem linked_of_reachable (hinj : ChainInjective F config.page_size) (h : Reachable F config m) :
    Linked F m := by
  induction h with
  | init =>
    intro e he
    rw [nil_append, queue_init] at he
    split at he
    · rw [mem_singleton.mp he]
      trivial
    · cases he
  | @step m m' op hr hp hok ih =>
    have hs := sound_of_reachable hr
    rw [← config_of_reachable hr] at hinj
    exact (hs.moved hp hok).1.linked hs hinj ih

theorem replay_coalesced (batches : List (List Event)) :
    replay (batches.map fun events => events.foldl enqueue []).flatten = replay batches.flatten := by
  have hgen : ∀ log log' : List Event, replay log = replay log' →
      replay (log ++ (batches.map fun events => events.foldl enqueue []).flatten)
        = replay (log' ++ batches.flatten) := by
    induction batches with
    | nil =>
      intro log log' hlog
      simpa using hlog
    | cons events batches ih =>
      intro log log' hlog
      rw [map_cons, flatten_cons, flatten_cons, ← append_assoc, ← append_assoc]
      apply ih
      rw [replay_enqueue_all, append_nil, replay_append, hlog]
  simpa using hgen [] [] rfl

/-- **The events tell what is held.** In every run with events enabled, a consumer that replays the
events has hashes of held pages only; it has all of them if the run keeps extra keys of one salt
apart, as the published hashes leave the extra key out. Every stored event names the hash of the
page before its first one on its path, none at the root, and coalescing does not change the
replay. -/
theorem radix_cache_replays {config : CacheConfig} (hen : config.enable_kv_cache_events = true)
    (hinj : ChainInjective F config.page_size) {m : Machine H} (h : Reachable F config m) :
    (∀ x ∈ replay (m.log ++ m.cache.queue), x ∈ held_hashes F m.cache) ∧
    (ApartRun F config m → ∀ x, x ∈ replay (m.log ++ m.cache.queue) ↔ x ∈ held_hashes F m.cache) ∧
    (∀ e ∈ m.log ++ m.cache.queue, LinkedEvent F config.page_size e) ∧
    ∀ batches : List (List Event),
      replay (batches.map fun events => events.foldl enqueue []).flatten = replay batches.flatten := by
  have hw := within_of_reachable hen h
  have hl := linked_of_reachable hinj h
  refine ⟨hw, fun ha x => ⟨hw x, (complete_of_apart hen hinj ha).covers x⟩, ?_, replay_coalesced⟩
  rw [Linked, RadixCache.page_size, config_of_reachable h] at hl
  exact hl

/-! ### Two extra keys -/

instance : Encodable Atom :=
  Encodable.ofLeftInverse
    (fun a => match a with
      | .token t => (Sum.inl t : ℤ ⊕ ℤ × ℤ)
      | .bigram t u => Sum.inr (t, u))
    (fun s => match s with
      | .inl t => .token t
      | .inr (t, u) => .bigram t u)
    (by rintro (_ | _) <;> rfl)

/-- The characters of a salt. -/
def code (s : String) : List ℕ := s.toList.map Char.toNat

theorem code_injective : Function.Injective code := by
  intro s t h
  have hchar : Function.Injective Char.toNat := fun a b hab => Char.toNat_inj.mp hab
  exact String.toList_inj.mp (map_injective_iff.mpr hchar h)

/-- Injective digests: the salt and the path themselves. -/
def path_digests : HashFns (Option (List ℕ) × List Atom) where
  page prior page := match prior with
    | none => (none, page)
    | some (salt, us) => (salt, us ++ page)
  namespace_digest _ _ := (none, [])
  salt_digest s := (some (code s), [])
  to_int64 h := (Encodable.encode h : ℕ)

theorem last_path_digest (hp : 0 < page_size) (ns : Namespace) (q : ℕ) :
    ∀ {us : List Atom}, us.length = page_size * (q + 1) →
      (chain path_digests page_size ns us).getLast? = some (ns.2.map code, us) := by
  induction q with
  | zero =>
    intro us hus
    rw [chain, pages_page hp (by simpa using hus)]
    obtain ⟨extra, salt⟩ := ns
    cases salt <;> rfl
  | succ q ih =>
    intro us hus
    rw [Nat.mul_succ] at hus
    obtain ⟨front, page, rfl, hfront, hpage⟩ : ∃ front page : List Atom, us = front ++ page ∧
        front.length = page_size * (q + 1) ∧ page.length = page_size := by
      refine ⟨us.take (page_size * (q + 1)), us.drop (page_size * (q + 1)),
        (take_append_drop _ _).symm, ?_, ?_⟩
      · rw [length_take]
        omega
      · rw [length_drop]
        omega
    rw [chain_append _ hp ns ⟨_, hfront⟩, pages_page hp hpage, link, ih hfront, hash_pages,
      hash_pages, getLast?_concat]
    rfl

theorem chainInjective_path_digests (hp : 0 < page_size) :
    ChainInjective path_digests page_size := by
  intro ns ns' us us' hne hne' hd hd' heq
  have hlast : ∀ (ns : Namespace) {us : List Atom}, us ≠ [] → page_size ∣ us.length →
      event_hash path_digests page_size ns us
        = some ((Encodable.encode (ns.2.map code, us) : ℕ) : ℤ) := by
    intro ns us hne ⟨q, hq⟩
    obtain ⟨q, rfl⟩ : ∃ q', q = q' + 1 := by
      refine ⟨q - 1, ?_⟩
      rcases q with _ | q
      · exact absurd (length_eq_zero_iff.mp (by simpa using hq)) hne
      · rfl
    rw [event_hash, last_path_digest hp ns q hq]
    rfl
  rw [hlast ns hne hd, hlast ns' hne' hd'] at heq
  have hpair := Encodable.encode_injective (Int.ofNat.inj (Option.some.inj heq))
  obtain ⟨hsalt, hus⟩ := Prod.mk.inj hpair
  exact ⟨Option.map_injective code_injective hsalt, hus⟩

/-- A cache of single-token pages that records events. -/
def recording_cache : CacheConfig where
  page_size := 1
  page_pos := Nat.one_pos
  is_eagle := false
  disable := false
  enable_kv_cache_events := true

/-- One token inserted. -/
def one_stored (F : HashFns H) : Machine H :=
  next F ⟨RadixCache.init recording_cache, [], []⟩ (insert_op [7] none none)

/-- The same token inserted under an extra key too, and one of the two evicted. -/
def one_of_two (F : HashFns H) : Machine H :=
  next F (next F (one_stored F) (insert_op [7] (some "lora") none)) (.evict pop_first 1)

/-- The event of the token, whatever its extra key. -/
def stored_seven (F : HashFns H) : Event :=
  .stored ⟨[F.to_int64 (F.page none [.token 7])], none, [.token 7], 1, none, .gpu, none, none⟩

theorem queue_one_of_two : (one_of_two path_digests).cache.queue
    = [.cleared, stored_seven path_digests, stored_seven path_digests,
        .removed ⟨[path_digests.to_int64 (path_digests.page none [.token 7])], .gpu⟩] := by
  decide +kernel

/-- An insert without an extra key is apart where no node has one. -/
theorem apart_of_untagged {m : Machine H} (hm : Shape m.cache)
    (hnodes : ∀ n < m.cache.tree.counter, (m.cache.node n).key.extra_key = none)
    (tokens : List ℤ) (cache_salt : Option String) :
    Apart m (insert_op tokens none cache_salt) := by
  rintro ns es (rfl | ⟨n, full, -, hns, hreads, -⟩) hne hsalt -
  · exact absurd rfl hne
  · refine Prod.ext ?_ hsalt
    rw [← hns]
    exact hnodes n (hm.linked.fresh n hreads.inTree)

theorem apart_evicted_leaf :
    ApartRun path_digests recording_cache (evicted_leaf path_digests recording_cache) := by
  have hinsert : ∀ {m : Machine (Option (List ℕ) × List Atom)} (tokens cache_salt),
      ApartRun path_digests recording_cache m →
      (∀ n < m.cache.tree.counter, (m.cache.node n).key.extra_key = none) →
      ApartRun path_digests recording_cache
        (next path_digests m (insert_op tokens none cache_salt)) :=
    fun tokens cache_salt h hnodes => h.next (permitted_insert _ tokens none cache_salt)
      (apart_of_untagged (sound_of_reachable h.reachable).shape hnodes tokens cache_salt)
  exact (hinsert _ _ (hinsert _ _ (hinsert _ _ .init (by decide +kernel)) (by decide +kernel))
    (by decide +kernel)).next trivial trivial

theorem evicted_leaf_replays : held_hashes path_digests (evicted_leaf path_digests recording_cache).cache
    = ↑(replay ((evicted_leaf path_digests recording_cache).log
      ++ (evicted_leaf path_digests recording_cache).cache.queue)) := by
  ext x
  exact ((radix_cache_replays rfl (chainInjective_path_digests Nat.one_pos)
    apart_evicted_leaf.reachable).2.1 apart_evicted_leaf x).symm

/-- The hash of the remaining page is lost. -/
theorem shared_page_lost : ∃ m : Machine (Option (List ℕ) × List Atom),
    ChainInjective path_digests recording_cache.page_size ∧
    recording_cache.enable_kv_cache_events = true ∧ Reachable path_digests recording_cache m ∧
    ¬ ∀ x, x ∈ replay (m.log ++ m.cache.queue) ↔ x ∈ held_hashes path_digests m.cache := by
  refine ⟨one_of_two path_digests, chainInjective_path_digests Nat.one_pos, rfl, ?_, ?_⟩
  · exact .next (.next (.next .init (permitted_insert _ [7] none none))
      (permitted_insert _ [7] (some "lora") none)) trivial
  · intro hall
    have hheld : path_digests.to_int64 (path_digests.page none [.token 7])
        ∈ held_hashes path_digests (one_of_two path_digests).cache := by
      have hchild : (one_of_two path_digests).cache.tree.child?
          (one_of_two path_digests).cache.tree.root (.keyed "lora" [.token 7]) = some 2 := by
        decide +kernel
      have hnode : (one_of_two path_digests).cache.node 2
          = ⟨RadixKey.init [7] (some "lora") false none none, [7], 0⟩ := by
        decide +kernel
      refine ⟨(some "lora", none), [(.token 7, 7)], .inr ⟨2, _, ?_, ?_, .child .root hchild, ?_,
        one_dvd _⟩, cons_ne_nil _ _, rfl⟩
      · decide +kernel
      · rw [hnode]
        rfl
      · have hdata : (one_of_two path_digests).cache.tree.data 2
            = ⟨RadixKey.init [7] (some "lora") false none none, [7], 0⟩ := hnode
        rw [hdata]
        exact prefix_refl _
    have hreplay := (hall _).mpr hheld
    have hlog : (one_of_two path_digests).log = [] := rfl
    rw [queue_one_of_two] at hreplay
    simp [replay, replay_step] at hreplay

end LightningH3.Radix
