/-
What a removal leaves of the forest, whatever the order in which the nodes are taken.

`remove` and `clear_worker` take a worker off the targets one at a time and prune as they go, in the
order of a hash set. The outcome does not depend on it (`trim`): every entry has lost what it was to
lose, and a path stays if and only if some entry at or below it still has a carrier.

`Trimming` is the state in the middle: `done` are the nodes already seen. No node is lost early,
because a node that goes has no child then, and every entry below it that keeps a carrier is there.
-/
import LightningH3.KvHashTreePaths

set_option autoImplicit false

namespace LightningH3.KvIndex

open List OrderedDict

/-! ## 1. Trimming a forest -/

/-- A change of carriers that can be made twice and gives nobody anything. -/
structure Shrinking (f : OrderedDict KvWorkerId Tiers → OrderedDict KvWorkerId Tiers) : Prop where
  idem : ∀ ws, f (f ws) = f ws
  empty : ∀ ws, ws.items = [] → (f ws).items = []

/-- The carriers after `f` where the hash is a target. -/
def shrunk (T : BlockHash → Prop) [DecidablePred T]
    (f : OrderedDict KvWorkerId Tiers → OrderedDict KvWorkerId Tiers) (h : BlockHash)
    (ws : OrderedDict KvWorkerId Tiers) : OrderedDict KvWorkerId Tiers :=
  if T h then f ws else ws

open Classical in
/-- The forest after `f` at the targets, with what has lost its last carrier cut off. -/
noncomputable def trim (T : BlockHash → Prop) [DecidablePred T]
    (f : OrderedDict KvWorkerId Tiers → OrderedDict KvWorkerId Tiers) (F : Forest) : Forest :=
  fun path =>
    if ∃ ext e, F (path ++ ext) = some e ∧ (shrunk T f e.block_hash e.workers).items ≠ [] then
      (F path).map fun e => { e with workers := shrunk T f e.block_hash e.workers }
    else none

variable {path : List BlockHash} {f : OrderedDict KvWorkerId Tiers → OrderedDict KvWorkerId Tiers}

open Classical in
theorem trim_congr {T : BlockHash → Prop} [DecidablePred T] {F G : Forest}
    (h : ∀ ext, F (path ++ ext) = G (path ++ ext)) : trim T f F path = trim T f G path := by
  have hhere := h []
  rw [append_nil] at hhere
  have hbelow : (∃ ext e, F (path ++ ext) = some e ∧
        (shrunk T f e.block_hash e.workers).items ≠ []) ↔
      ∃ ext e, G (path ++ ext) = some e ∧ (shrunk T f e.block_hash e.workers).items ≠ [] := by
    apply exists_congr
    intro ext
    rw [h ext]
  unfold trim
  rw [hhere]
  exact if_congr hbelow rfl rfl

/-! ## 2. The loop of `prune_cascade` -/

theorem Linked.prune_loop_induct {below : Option BlockHash → BlockHash → Prop}
    {P : TreeState → Prop}
    (hstep : ∀ (st : TreeState) (cursor p : NodeId) (n np : Node), Linked below st → P st →
      cursor ≠ ROOT_ID → st.nodes.get? cursor = some n → n.is_spent = true → n.parent = some p →
      st.nodes.get? p = some np → P (st.detach cursor p n.block_hash))
    (fuel : ℕ) (st : TreeState) (cursor : NodeId) (hl : Linked below st) (hP : P st) :
    Linked below (TreeState.prune_loop fuel st cursor) ∧
      P (TreeState.prune_loop fuel st cursor) := by
  apply KvIndex.prune_loop_induct (P := fun st => Linked below st ∧ P st)
  · rintro st cursor p n ⟨hl, hP⟩ hroot hn hspent hparent
    obtain ⟨p', np, hp', -, hp, -, -⟩ := hl.up cursor n hroot hn
    cases hparent.symm.trans hp'
    have hleaf : ∀ k, n.children.get? k = none :=
      get?_of_items_nil (is_spent_iff.mp hspent).2
    exact ⟨hl.dropped hroot hn hleaf hparent hp (detach_dropped hp),
      hstep st cursor p n np hl hP hroot hn hspent hparent hp⟩
  · exact ⟨hl, hP⟩

/-! ## 3. In the middle of a removal -/

/-- `st` is `st₀` with `f` done at the nodes of `done`; nothing that keeps a carrier has gone. -/
structure Trimming (T : BlockHash → Prop) [DecidablePred T]
    (f : OrderedDict KvWorkerId Tiers → OrderedDict KvWorkerId Tiers) (done : NodeId → Prop)
    (st₀ st : TreeState) : Prop where
  kept : ∀ v n', v ≠ ROOT_ID → st.nodes.get? v = some n' → ∃ n, st₀.nodes.get? v = some n ∧
    n'.block_hash = n.block_hash ∧ n'.parent_block_hash = n.parent_block_hash ∧
    n'.parent = n.parent ∧ (done v → T n.block_hash ∧ n'.workers = f n.workers) ∧
    (¬ done v → n'.workers = n.workers)
  stays : ∀ v ext d n nd, v ≠ ROOT_ID → st₀.nodes.get? v = some n → st₀.find v ext = some d →
    st₀.nodes.get? d = some nd → (shrunk T f nd.block_hash nd.workers).items ≠ [] →
    ∃ n', st.nodes.get? v = some n'

namespace Trimming

variable {T : BlockHash → Prop} [DecidablePred T]
  {f : OrderedDict KvWorkerId Tiers → OrderedDict KvWorkerId Tiers} {done : NodeId → Prop}
  {below : Option BlockHash → BlockHash → Prop} {st₀ st : TreeState}

theorem refl (T : BlockHash → Prop) [DecidablePred T]
    (f : OrderedDict KvWorkerId Tiers → OrderedDict KvWorkerId Tiers) (st : TreeState) :
    Trimming T f (fun _ => False) st st where
  kept _ n' _ hn' := ⟨n', hn', rfl, rfl, rfl, False.elim, fun _ => rfl⟩
  stays _ _ _ n _ _ hn _ _ _ := ⟨n, hn⟩

section

variable (ht : Trimming T f done st₀ st)
include ht

theorem process (hf : Shrinking f) {id : NodeId} {n : Node} (hid : id ≠ ROOT_ID)
    (hn : st.nodes.get? id = some n) (hT : T n.block_hash) :
    Trimming T f (fun v => done v ∨ v = id) st₀ (st.put id { n with workers := f n.workers }) := by
  have hget := st.get?_put id { n with workers := f n.workers }
  constructor
  · intro v n' hv hn'
    rw [hget] at hn'
    by_cases hvid : v = id
    · subst hvid
      rw [if_pos rfl] at hn'
      cases hn'
      obtain ⟨m, hm, hhash, hcrumb, hparent, hdone, hnot⟩ := ht.kept v n hv hn
      refine ⟨m, hm, hhash, hcrumb, hparent, ?_, fun hno => absurd (Or.inr rfl) hno⟩
      intro _
      refine ⟨by rw [← hhash]; exact hT, ?_⟩
      by_cases hd : done v
      · rw [(hdone hd).2, hf.idem]
      · rw [hnot hd]
    · rw [if_neg hvid] at hn'
      obtain ⟨m, hm, hhash, hcrumb, hparent, hdone, hnot⟩ := ht.kept v n' hv hn'
      refine ⟨m, hm, hhash, hcrumb, hparent, ?_, fun hno => hnot fun hd => hno (Or.inl hd)⟩
      rintro (hd | hbad)
      · exact hdone hd
      · exact absurd hbad hvid
  · intro v ext d m nd hv hm hfind hnd hheld
    obtain ⟨n', hn'⟩ := ht.stays v ext d m nd hv hm hfind hnd hheld
    rw [hget]
    split
    · exact ⟨_, rfl⟩
    · exact ⟨n', hn'⟩

theorem skip {id : NodeId} (hsame : ∀ n, id ≠ ROOT_ID → st.nodes.get? id = some n →
      T n.block_hash ∧ f n.workers = n.workers) :
    Trimming T f (fun v => done v ∨ v = id) st₀ st := by
  refine ⟨?_, ht.stays⟩
  intro v n' hv hn'
  obtain ⟨n, hn, hhash, hcrumb, hparent, hdone, hnot⟩ := ht.kept v n' hv hn'
  refine ⟨n, hn, hhash, hcrumb, hparent, ?_, fun hno => hnot fun hd => hno (Or.inl hd)⟩
  intro h
  by_cases hd : done v
  · exact hdone hd
  · rcases h with hd' | rfl
    · exact absurd hd' hd
    · obtain ⟨hT, hfix⟩ := hsame n' hv hn'
      refine ⟨by rw [← hhash]; exact hT, ?_⟩
      rw [← hnot hd, hfix]

/-- **A spent node goes and nothing is lost.** Below a node that keeps a carrier somewhere there is
a child, or the carrier is its own. -/
theorem dropped (hf : Shrinking f) (hl₀ : Linked below st₀) (hl : Linked below st)
    {cursor p : NodeId} {n np : Node} (hroot : cursor ≠ ROOT_ID)
    (hn : st.nodes.get? cursor = some n) (hspent : n.is_spent = true) (hparent : n.parent = some p)
    (hp : st.nodes.get? p = some np) : Trimming T f done st₀ (st.detach cursor p n.block_hash) := by
  have hw := (detach_dropped hp : Dropped st (st.detach cursor p n.block_hash) cursor p np
    n.block_hash).without hl hroot hn hparent hp
  obtain ⟨hworkers, hchildren⟩ := is_spent_iff.mp hspent
  constructor
  · intro v n' hv hn'
    obtain ⟨m, hm⟩ := hw.old v n' hn'
    have hvc : v ∉ [cursor] := by
      intro hmem
      rw [hw.away v hmem] at hn'
      cases hn'
    obtain ⟨m', hm', hhash, hcrumb, hpar, hws, -⟩ := hw.kept v m hvc hm
    rw [hm'] at hn'
    cases hn'
    obtain ⟨m₀, hm₀, hhash₀, hcrumb₀, hpar₀, hdone, hnot⟩ := ht.kept v m hv hm
    refine ⟨m₀, hm₀, hhash.trans hhash₀, hcrumb.trans hcrumb₀, hpar.trans hpar₀, ?_, ?_⟩
    · intro hd
      exact ⟨(hdone hd).1, hws.trans (hdone hd).2⟩
    · intro hd
      exact hws.trans (hnot hd)
  · intro v ext d m nd hv hm hfind hnd hheld
    obtain ⟨n', hn'⟩ := ht.stays v ext d m nd hv hm hfind hnd hheld
    by_cases hvc : v = cursor
    · -- the node that goes: its own carriers are none, and a child would be there
      exfalso
      subst hvc
      rw [hn] at hn'
      cases hn'
      obtain ⟨m₀, hm₀, -, -, -, hdone, hnot⟩ := ht.kept v n hv hn
      cases ext with
      | nil =>
        cases hfind
        rw [hm₀] at hnd
        cases hnd
        apply hheld
        unfold shrunk
        by_cases hd : done v
        · rw [if_pos (hdone hd).1, ← (hdone hd).2, hworkers]
        · rw [hnot hd] at hworkers
          split
          · exact hf.empty _ hworkers
          · exact hworkers
      | cons h rest =>
        obtain ⟨c, hc, hrest⟩ := Option.bind_eq_some_iff.mp hfind
        obtain ⟨hcroot, nc, hnc, hchash, hcparent⟩ := hl₀.child_iff.mp hc
        obtain ⟨nc', hnc'⟩ := ht.stays c rest d nc nd hcroot hnc hrest hnd hheld
        obtain ⟨nc₀, hnc₀, hhash, -, hpar, -, -⟩ := ht.kept c nc' hcroot hnc'
        rw [hnc] at hnc₀
        cases hnc₀
        have hslot : st.child v h = some c :=
          hl.child_iff.mpr ⟨hcroot, nc', hnc', hhash.trans hchash, hpar.trans hcparent⟩
        obtain ⟨n', hn', hcslot⟩ := TreeState.child_eq_some hslot
        rw [hn] at hn'
        cases hn'
        rw [get?_of_items_nil hchildren] at hcslot
        cases hcslot
    · obtain ⟨m', hm', -⟩ := hw.kept v n' (by rw [mem_singleton]; exact hvc) hn'
      exact ⟨m', hm'⟩

theorem prune_cascade (hf : Shrinking f) (hl₀ : Linked below st₀) (hl : Linked below st)
    (start : NodeId) :
    Linked below (st.prune_cascade start) ∧ Trimming T f done st₀ (st.prune_cascade start) := by
  apply Linked.prune_loop_induct (P := fun st => Trimming T f done st₀ st)
  · intro st cursor p n np hl ht hroot hn hspent hparent hp
    exact ht.dropped hf hl₀ hl hroot hn hspent hparent hp
  · exact hl
  · exact ht

theorem congr {done' : NodeId → Prop} (h : ∀ v, done' v ↔ done v) : Trimming T f done' st₀ st := by
  have heq : done' = done := funext fun v => propext (h v)
  rw [heq]
  exact ht

end

end Trimming

/-! ## 4. What is left in the end -/

variable {ok : BlockHash → Prop}

theorem Sound.exists_carrier {st : TreeState}
    (hi : Sound ok (fun _ => False) st) (left : ℕ) (v : NodeId) (n : Node) : v ≠ ROOT_ID →
      st.nodes.get? v = some n → st.next_id ≤ v + left →
      ∃ ext d nd, st.find v ext = some d ∧ d ≠ ROOT_ID ∧ st.nodes.get? d = some nd ∧
        nd.workers.items ≠ [] := by
  induction left generalizing v n with
  | zero =>
    intro _ hn hleft
    exact absurd (hi.linked.fresh v n hn) (Nat.not_lt.mpr hleft)
  | succ left ih =>
    intro hv hn hleft
    by_cases hnone : ∀ h, n.children.get? h = none
    · refine ⟨[], v, n, rfl, hv, hn, ?_⟩
      intro hempty
      exact hi.leaves v n hv hn (is_spent_iff.mpr ⟨hempty, items_nil_of_get? hnone⟩)
    · obtain ⟨h, hh⟩ := not_forall.mp hnone
      obtain ⟨c, hc⟩ := Option.ne_none_iff_exists'.mp hh
      obtain ⟨hcroot, nc, hnc, -, hparent⟩ := hi.linked.down v n h c hn hc
      obtain ⟨p, -, hp, hlt, -⟩ := hi.linked.up c nc hcroot hnc
      rw [hparent] at hp
      cases hp
      have hnext : v + (left + 1) ≤ c + left := Nat.add_lt_add_right hlt left
      obtain ⟨ext, d, nd, hfind, hdroot, hnd, hheld⟩ :=
        ih c nc hcroot hnc (Nat.le_trans hleft hnext)
      refine ⟨h :: ext, d, nd, ?_, hdroot, hnd, hheld⟩
      refine Option.bind_eq_some_iff.mpr ⟨c, ?_, hfind⟩
      exact Option.bind_eq_some_iff.mpr ⟨n, hn, hc⟩

/-- **The forest in the end is the trimmed one.** -/
theorem Trimming.lookup_eq {T : BlockHash → Prop} [DecidablePred T] {done : NodeId → Prop}
    {st₀ st : TreeState} (ht : Trimming T f done st₀ st)
    (hi₀ : Sound ok (fun _ => False) st₀) (hi : Sound ok (fun _ => False) st)
    (hdone : ∀ v n, v ≠ ROOT_ID → st₀.nodes.get? v = some n → (T n.block_hash → done v))
    (hne : path ≠ []) : st.lookup path = trim T f st₀.lookup path := by
  have hl₀ := hi₀.linked
  have hl := hi.linked
  have hshrunk : ∀ v n' n, v ≠ ROOT_ID → st.nodes.get? v = some n' → st₀.nodes.get? v = some n →
      n'.entry = { n.entry with workers := shrunk T f n.block_hash n.workers } := by
    intro v n' n hv hn' hn
    obtain ⟨m, hm, hhash, hcrumb, -, hyes, hno⟩ := ht.kept v n' hv hn'
    rw [hn] at hm
    cases hm
    have hworkers : n'.workers = shrunk T f n.block_hash n.workers := by
      unfold shrunk
      by_cases hT : T n.block_hash
      · rw [if_pos hT]
        exact (hyes (hdone v n hv hn hT)).2
      · rw [if_neg hT]
        exact hno fun hd => hT (hyes hd).1
    unfold Node.entry
    rw [hhash, hcrumb, hworkers]
  -- a path that leads to a node now led to it before
  have hback (q : List BlockHash) (u v : NodeId) : st.find u q = some v →
      st₀.find u q = some v := by
    induction q generalizing u v with
    | nil =>
      intro h
      exact h
    | cons k q ih =>
      intro h
      obtain ⟨c, hc, hrest⟩ := Option.bind_eq_some_iff.mp h
      obtain ⟨hcroot, nc, hnc, hhash, hparent⟩ := hl.child_iff.mp hc
      obtain ⟨m, hm, hhash', -, hparent', -, -⟩ := ht.kept c nc hcroot hnc
      refine Option.bind_eq_some_iff.mpr ⟨c, ?_, ih c v hrest⟩
      exact hl₀.child_iff.mpr ⟨hcroot, m, hm, hhash'.symm.trans hhash, hparent'.symm.trans hparent⟩
  -- and one that led to a node that is still there still does
  have hforth : ∀ (q : List BlockHash) (v : NodeId) (n' : Node), st₀.find ROOT_ID q = some v →
      st.nodes.get? v = some n' → st.find ROOT_ID q = some v := by
    intro q
    induction q using List.reverseRecOn with
    | nil =>
      intro v n' h _
      exact h
    | append_singleton q k ih =>
      intro v n' h hn'
      rw [TreeState.find_snoc] at h ⊢
      obtain ⟨p, hp, hpv⟩ := Option.bind_eq_some_iff.mp h
      obtain ⟨hvroot, m, hm, hhash, hparent⟩ := hl₀.child_iff.mp hpv
      obtain ⟨m', hm', hhash', -, hparent', -, -⟩ := ht.kept v n' hvroot hn'
      rw [hm] at hm'
      cases hm'
      obtain ⟨q', np, hq', -, hnp, -, -⟩ := hl.up v n' hvroot hn'
      rw [hparent', hparent] at hq'
      cases hq'
      rw [ih p np hp hnp]
      exact hl.child_iff.mpr ⟨hvroot, n', hn', hhash'.trans hhash, hparent'.trans hparent⟩
  cases hv : st₀.find ROOT_ID path with
  | none =>
    have hnone : st.lookup path = none := by
      rw [hl.lookup_eq_none]
      cases hc : st.find ROOT_ID path with
      | none => rfl
      | some c =>
        rw [hback path ROOT_ID c hc] at hv
        cases hv
    rw [hnone]
    unfold trim
    rw [hl₀.lookup_eq_none.mpr hv]
    split
    · rfl
    · rfl
  | some v =>
    have hvroot : v ≠ ROOT_ID := hl₀.find_ne_root hv hne
    obtain ⟨n, hn⟩ := hl₀.find_mem hv
    have hlook : st₀.lookup path = some n.entry := Linked.lookup_of_find hv hn
    unfold trim
    cases hn' : st.nodes.get? v with
    | some n' =>
      -- it is there: a carrier below it says so
      have hexists : ∃ ext e, st₀.lookup (path ++ ext) = some e ∧
          (shrunk T f e.block_hash e.workers).items ≠ [] := by
        obtain ⟨ext, d, nd, hfind, hdroot, hnd, hheld⟩ :=
          hi.exists_carrier _ v n' hvroot hn' (Nat.le_add_left _ _)
        obtain ⟨m, hm, -⟩ := ht.kept d nd hdroot hnd
        have hd₀ : st₀.find ROOT_ID (path ++ ext) = some d := by
          rw [TreeState.find_append, hv]
          exact hback ext v d hfind
        refine ⟨ext, m.entry, Linked.lookup_of_find hd₀ hm, ?_⟩
        have hentry := congrArg Entry.workers (hshrunk d nd m hdroot hnd hm)
        dsimp only [Node.entry] at hentry ⊢
        rw [← hentry]
        exact hheld
      rw [if_pos hexists, hlook, Linked.lookup_of_find (hforth path v n' hv hn') hn',
        hshrunk v n' n hvroot hn' hn]
      rfl
    | none =>
      -- it has gone: no carrier is left below it
      have hnone : st.lookup path = none := by
        rw [hl.lookup_eq_none]
        cases hc : st.find ROOT_ID path with
        | none => rfl
        | some c =>
          have hcv := hback path ROOT_ID c hc
          rw [hv] at hcv
          cases hcv
          obtain ⟨nc, hnc⟩ := hl.find_mem hc
          rw [hn'] at hnc
          cases hnc
      rw [hnone]
      symm
      apply if_neg
      rintro ⟨ext, e, he, hheld⟩
      obtain ⟨d, nd, hd, hnd, rfl⟩ := Linked.find_of_lookup he
      rw [TreeState.find_append, hv] at hd
      obtain ⟨m, hm⟩ := ht.stays v ext d n nd hvroot hn hd hnd hheld
      rw [hn'] at hm
      cases hm

/-! ## 5. Removing and clearing -/

theorem erase_self {κ ν : Type} [DecidableEq κ] {d : OrderedDict κ ν} {k : κ}
    (h : d.get? k = none) : d.erase k = d :=
  erase_of_notMem (get?_eq_none_iff.mp h)

theorem shrinking_release (worker : KvWorkerId) (tiers : Tiers) :
    Shrinking fun ws => release_tiers ws worker tiers where
  idem ws := by
    unfold release_tiers
    cases hheld : ws.get? worker with
    | none =>
      rw [hheld]
    | some held =>
      dsimp only
      by_cases hempty : (held.difference tiers).is_empty = true
      · rw [if_pos hempty, get?_erase, if_pos rfl]
      · rw [if_neg hempty, get?_set, if_pos rfl]
        dsimp only
        rw [Tiers.difference_difference, if_neg hempty]
        apply set_self
        rw [get?_set, if_pos rfl]
  empty ws h := by
    unfold release_tiers
    rw [get?_of_items_nil h]
    exact h

theorem shrinking_erase (worker : KvWorkerId) :
    Shrinking fun ws : OrderedDict KvWorkerId Tiers => ws.erase worker where
  idem ws := by
    apply erase_self
    rw [get?_erase, if_pos rfl]
  empty ws h := by
    rw [erase_self (get?_of_items_nil h worker)]
    exact h

/-- **`remove` trims the forest of the shard at the hashes.** -/
theorem lookup_remove {st : TreeState}
    (hi : Sound ok (fun _ => False) st) (worker : KvWorkerId) (hashes : List BlockHash)
    (tiers : Tiers) (hne : path ≠ []) : (st.remove worker hashes tiers).lookup path
      = trim (· ∈ hashes) (fun ws => release_tiers ws worker tiers) st.lookup path := by
  have hf := shrinking_release worker tiers
  have hloop (targets : List NodeId) (acc : TreeState) (done : NodeId → Prop) :
      (∀ id ∈ targets, id ≠ ROOT_ID ∧ ∃ n, st.nodes.get? id = some n ∧ n.block_hash ∈ hashes) →
      Linked (rooted ok) acc →
      Trimming (· ∈ hashes) (fun ws => release_tiers ws worker tiers) done st acc →
      Trimming (· ∈ hashes) (fun ws => release_tiers ws worker tiers)
        (fun v => done v ∨ v ∈ targets) st
        (targets.foldl (TreeState.remove_one worker tiers) acc) := by
    induction targets generalizing acc done with
    | nil =>
      intro _ _ ht
      apply ht.congr
      intro v
      exact ⟨fun h => h.resolve_right not_mem_nil, Or.inl⟩
    | cons id targets ih =>
      intro htargets hl ht
      obtain ⟨hid, n₀, hn₀, hmem⟩ := htargets id mem_cons_self
      have hone : Linked (rooted ok) (TreeState.remove_one worker tiers acc id) ∧
          Trimming (· ∈ hashes) (fun ws => release_tiers ws worker tiers)
            (fun v => done v ∨ v = id) st (TreeState.remove_one worker tiers acc id) := by
        unfold TreeState.remove_one
        cases hn : acc.nodes.get? id with
        | none =>
          refine ⟨hl, ht.skip ?_⟩
          intro n _ hbad
          rw [hn] at hbad
          cases hbad
        | some n =>
          have hT : n.block_hash ∈ hashes := by
            obtain ⟨m, hm, hhash, -⟩ := ht.kept id n hid hn
            rw [hn₀] at hm
            cases hm
            rw [hhash]
            exact hmem
          have hput := ht.process hf hid hn hT
          have hlput := hl.of_same_links
            (SameLinks.put hn (release_tiers n.workers worker tiers))
          dsimp only
          split
          · exact hput.prune_cascade hf hi.linked hlput id
          · exact ⟨hlput, hput⟩
      obtain ⟨hl', ht'⟩ := hone
      apply (ih _ _ (fun j hj => htargets j (mem_cons_of_mem _ hj)) hl' ht').congr
      intro v
      rw [mem_cons, or_assoc]
  have htargets : ∀ id ∈ hashes.flatMap st.ids,
      id ≠ ROOT_ID ∧ ∃ n, st.nodes.get? id = some n ∧ n.block_hash ∈ hashes := by
    intro id hmem
    obtain ⟨h, hh, hid⟩ := mem_flatMap.mp hmem
    obtain ⟨hroot, n, hn, hhash⟩ := (hi.linked.index h id).mp hid
    exact ⟨hroot, n, hn, by rw [hhash]; exact hh⟩
  have ht := hloop (hashes.flatMap st.ids) st (fun _ => False) htargets hi.linked
    (Trimming.refl _ _ st)
  apply ht.lookup_eq hi (hi.remove worker hashes tiers) _ hne
  intro v n hv hn hT
  exact Or.inr (mem_flatMap.mpr ⟨n.block_hash, hT, (hi.linked.index _ v).mpr ⟨hv, n, hn, rfl⟩⟩)

/-- **`clear_worker` trims the forest of the shard everywhere.** -/
theorem lookup_clear_worker {st : TreeState}
    (hi : Sound ok (fun _ => False) st) (worker : KvWorkerId) (hne : path ≠ []) :
    (st.clear_worker worker).lookup path
      = trim (fun _ => True) (fun ws => ws.erase worker) st.lookup path := by
  have hf := shrinking_erase worker
  have hfirst (targets : List NodeId) (acc : TreeState × List NodeId) (done : NodeId → Prop) :
      (∀ id ∈ targets, id ≠ ROOT_ID) → Linked (rooted ok) acc.1 →
      Trimming (fun _ => True) (fun ws => ws.erase worker) done st acc.1 →
      Linked (rooted ok) (targets.foldl (TreeState.clear_one worker) acc).1 ∧
      Trimming (fun _ => True) (fun ws => ws.erase worker) (fun v => done v ∨ v ∈ targets) st
        (targets.foldl (TreeState.clear_one worker) acc).1 := by
    induction targets generalizing acc done with
    | nil =>
      intro _ hl ht
      refine ⟨hl, ht.congr ?_⟩
      intro v
      exact ⟨fun h => h.resolve_right not_mem_nil, Or.inl⟩
    | cons id targets ih =>
      intro htargets hl ht
      have hone : Linked (rooted ok) (TreeState.clear_one worker acc id).1 ∧
          Trimming (fun _ => True) (fun ws => ws.erase worker) (fun v => done v ∨ v = id) st
            (TreeState.clear_one worker acc id).1 := by
        unfold TreeState.clear_one
        cases hn : acc.1.nodes.get? id with
        | none =>
          refine ⟨hl, ht.skip ?_⟩
          intro n _ hbad
          rw [hn] at hbad
          cases hbad
        | some n =>
          dsimp only
          cases hw : n.workers.get? worker with
          | none =>
            refine ⟨hl, ht.skip ?_⟩
            intro m _ hm
            rw [hn] at hm
            cases hm
            exact ⟨trivial, erase_self hw⟩
          | some held =>
            exact ⟨hl.of_same_links (SameLinks.put hn _),
              ht.process hf (htargets id mem_cons_self) hn trivial⟩
      obtain ⟨hl', ht'⟩ := hone
      obtain ⟨hl'', ht''⟩ :=
        ih _ _ (fun j hj => htargets j (mem_cons_of_mem _ hj)) hl' ht'
      refine ⟨hl'', ht''.congr ?_⟩
      intro v
      rw [mem_cons, or_assoc]
  have hroots : ∀ id ∈ st.nodes.keys.filter (· ≠ ROOT_ID), id ≠ ROOT_ID :=
    fun id hmem => of_decide_eq_true (mem_filter.mp hmem).2
  obtain ⟨hl, ht⟩ := hfirst (st.nodes.keys.filter (· ≠ ROOT_ID)) (st, []) (fun _ => False) hroots
    hi.linked (Trimming.refl _ _ st)
  have hend := foldlRecOn (motive := fun acc => Linked (rooted ok) acc ∧
      Trimming (fun _ => True) (fun ws => ws.erase worker) _ st acc)
    ((st.nodes.keys.filter (· ≠ ROOT_ID)).foldl (TreeState.clear_one worker) (st, [])).2
    TreeState.prune_one ⟨hl, ht⟩ (fun acc h id _ => by
      unfold TreeState.prune_one
      split
      · exact h.2.prune_cascade hf hi.linked h.1 id
      · exact h)
  apply Trimming.lookup_eq hend.2 hi (hi.clear_worker worker) _ hne
  intro v n hv hn _
  exact Or.inr (mem_filter.mpr ⟨mem_keys_iff.mpr ⟨n, hn⟩, decide_eq_true hv⟩)

end LightningH3.KvIndex
