/-
What the operations on the hash tree do to the carriers of its nodes, whatever the hashes.
-/
import LightningH3.KvHashTreeSound
import LightningH3.KvIndexPump

set_option autoImplicit false

namespace LightningH3.KvIndex

open OrderedDict

/-- Every node's carrier table has the property. -/
def AllCarriers (P : OrderedDict KvWorkerId Tiers → Prop) (st : TreeState) : Prop :=
  ∀ id n, st.nodes.get? id = some n → P n.workers

namespace AllCarriers

variable {P : OrderedDict KvWorkerId Tiers → Prop} {st : TreeState}

theorem put (h : AllCarriers P st) {id : NodeId} {n : Node} (hn : P n.workers) :
    AllCarriers P (st.put id n) := by
  intro j m hm
  replace hm : (st.nodes.set id n).get? j = some m := hm
  rcases get?_set_eq_some.mp hm with ⟨rfl, rfl⟩ | ⟨-, hm⟩
  · exact hn
  · exact h j m hm

theorem create_child (h : AllCarriers P st) (hempty : P .empty) (parent_id : NodeId)
    (block_hash : BlockHash) (breadcrumb : Option BlockHash) :
    AllCarriers P (st.create_child parent_id block_hash breadcrumb).1 := by
  have hset : ∀ j m, (st.nodes.set st.next_id
      (Node.new_child block_hash breadcrumb parent_id)).get? j = some m → P m.workers := by
    intro j m hm
    rcases get?_set_eq_some.mp hm with ⟨rfl, rfl⟩ | ⟨-, hm⟩
    · exact hempty
    · exact h j m hm
  unfold TreeState.create_child
  dsimp only
  split
  · intro j m hm
    replace hm : ((st.nodes.set st.next_id _).erase st.next_id).get? j = some m := hm
    obtain ⟨-, hm⟩ := get?_erase_eq_some.mp hm
    exact hset j m hm
  · next parent hparent =>
    intro j m hm
    replace hm : ((st.nodes.set st.next_id _).set parent_id _).get? j = some m := hm
    rcases get?_set_eq_some.mp hm with ⟨rfl, rfl⟩ | ⟨-, hm⟩
    · exact hset _ parent hparent
    · exact hset j m hm

theorem detach (h : AllCarriers P st) (cursor parent_id : NodeId) (block_hash : BlockHash) :
    AllCarriers P (st.detach cursor parent_id block_hash) := by
  intro j m hm
  obtain ⟨-, hm⟩ := get?_erase_eq_some.mp hm
  -- the parent keeps its carriers, and no other node is written
  cases hp : st.nodes.get? parent_id with
  | none =>
    rw [hp] at hm
    exact h j m hm
  | some parent =>
    rw [hp] at hm
    rcases get?_set_eq_some.mp hm with ⟨rfl, rfl⟩ | ⟨-, hm⟩
    · exact h _ parent hp
    · exact h j m hm

theorem prune_cascade (h : AllCarriers P st) (start : NodeId) :
    AllCarriers P (st.prune_cascade start) :=
  prune_loop_induct (fun _ cursor p n h _ _ _ _ => h.detach cursor p n.block_hash) _ st start h

variable {worker : KvWorkerId} {tiers : Tiers}

theorem insert_loop (hempty : P .empty) (hadd : ∀ ws, P ws → P (add_tiers ws worker tiers)) :
    ∀ (rest : List BlockHash) (st : TreeState) (current : NodeId) (prev_hash : Option BlockHash),
      AllCarriers P st →
      AllCarriers P (TreeState.insert_loop worker tiers rest st current prev_hash) := by
  intro rest
  induction rest with
  | nil =>
    intro st _ _ h
    exact h
  | cons b rest ih =>
    intro st current prev_hash h
    -- the next node is a child already there or a new one
    obtain ⟨found, hfound, heq⟩ : ∃ found : TreeState × Option NodeId, AllCarriers P found.1 ∧
        TreeState.insert_loop worker tiers (b :: rest) st current prev_hash
          = found.2.elim found.1 fun child_id => (found.1.nodes.get? child_id).elim found.1
            fun child => TreeState.insert_loop worker tiers rest
              (found.1.put child_id { child with workers := add_tiers child.workers worker tiers })
              child_id (some b) := by
      rw [TreeState.insert_loop]
      cases hchild : (st.nodes.get? current).bind fun n => n.children.get? b with
      | none =>
        refine ⟨st.create_child current b prev_hash, h.create_child hempty current b prev_hash, ?_⟩
        rcases st.create_child current b prev_hash with ⟨st', _ | child_id⟩
        · rfl
        · dsimp only [Option.elim_some]
          cases st'.nodes.get? child_id with
          | none => rfl
          | some child => rfl
      | some child_id =>
        refine ⟨(st, some child_id), h, ?_⟩
        dsimp only [Option.elim_some]
        cases st.nodes.get? child_id with
        | none => rfl
        | some child => rfl
    rw [heq]
    obtain ⟨st', found⟩ := found
    cases found with
    | none => exact hfound
    | some child_id =>
      dsimp only [Option.elim_some]
      cases hchild : st'.nodes.get? child_id with
      | none => exact hfound
      | some child =>
        exact ih _ child_id (some b) (hfound.put (hadd _ (hfound child_id child hchild)))

theorem insert (h : AllCarriers P st) (hempty : P .empty)
    (hadd : ∀ ws, P ws → P (add_tiers ws worker tiers)) (link : ParentLink)
    (hashes : List BlockHash) : AllCarriers P (st.insert worker link hashes tiers) := by
  unfold TreeState.insert
  split
  · exact h
  · exact insert_loop hempty hadd hashes st _ link.breadcrumb h

theorem remove (h : AllCarriers P st) (hrelease : ∀ ws, P ws → P (release_tiers ws worker tiers))
    (hashes : List BlockHash) : AllCarriers P (st.remove worker hashes tiers) := by
  refine List.foldlRecOn _ _ h (fun st h id _ => ?_)
  unfold TreeState.remove_one
  cases hn : st.nodes.get? id with
  | none => exact h
  | some n =>
    have hput : AllCarriers P
        (st.put id { n with workers := release_tiers n.workers worker tiers }) :=
      h.put (hrelease _ (h id n hn))
    dsimp only
    split
    · exact hput.prune_cascade id
    · exact hput

theorem prune_all (candidates : List NodeId) (h : AllCarriers P st) :
    AllCarriers P (candidates.foldl TreeState.prune_one st) := by
  refine List.foldlRecOn _ _ h (fun st h id _ => ?_)
  unfold TreeState.prune_one
  split
  · exact h.prune_cascade id
  · exact h

theorem clear_worker (h : AllCarriers P st) (herase : ∀ ws, P ws → P (ws.erase worker)) :
    AllCarriers P (st.clear_worker worker) := by
  refine prune_all _ (List.foldlRecOn
    (motive := fun acc : TreeState × List NodeId => AllCarriers P acc.1) _ _ h
    (fun acc h id _ => ?_))
  unfold TreeState.clear_one
  cases hn : acc.1.nodes.get? id with
  | none => exact h
  | some n =>
    dsimp only
    split
    · exact h
    · exact h.put (herase _ (h id n hn))

end AllCarriers

/-! ## One worker -/

/-- The worker is on no node of the shard. -/
def Free (worker : KvWorkerId) (st : TreeState) : Prop :=
  AllCarriers (fun ws => ws.get? worker = none) st

/-- **After `clear_worker` the worker is on no node.** Every node but the root is a target, and
the root never has carriers. -/
theorem Sound.free_clear_worker {ok : BlockHash → Prop} {E : NodeId → Prop} {st : TreeState}
    (hi : Sound ok E st) (worker : KvWorkerId) : Free worker (st.clear_worker worker) := by
  have hloop (targets : List NodeId) (acc : TreeState × List NodeId) :
      (∀ id n, acc.1.nodes.get? id = some n → id ∉ targets → n.workers.get? worker = none) →
      ∀ id n, (targets.foldl (TreeState.clear_one worker) acc).1.nodes.get? id = some n →
        n.workers.get? worker = none := by
    induction targets generalizing acc with
    | nil =>
      intro h id n hn
      exact h id n hn List.not_mem_nil
    | cons t targets ih =>
      intro h
      apply ih
      intro id n hn hid
      unfold TreeState.clear_one at hn
      cases ht : acc.1.nodes.get? t with
      | none =>
        simp only [ht] at hn
        apply h id n hn
        intro hmem
        rcases List.mem_cons.mp hmem with rfl | hmem
        · rw [ht] at hn
          cases hn
        · exact hid hmem
      | some m =>
        simp only [ht] at hn
        cases hw : m.workers.get? worker with
        | none =>
          simp only [hw] at hn
          by_cases hidt : id = t
          · rw [hidt, ht] at hn
            cases hn
            exact hw
          · exact h id n hn (by simp [hidt, hid])
        | some held =>
          simp only [hw] at hn
          replace hn : (acc.1.nodes.set t { m with workers := m.workers.erase worker }).get? id
              = some n := hn
          rcases get?_set_eq_some.mp hn with ⟨rfl, rfl⟩ | ⟨hidt, hn⟩
          · rw [get?_erase, if_pos rfl]
          · exact h id n hn (by simp [hidt, hid])
  apply AllCarriers.prune_all
  apply hloop
  intro id n hn hid
  have hroot : id = ROOT_ID := by
    by_contra hne
    apply hid
    refine List.mem_filter.mpr ⟨mem_keys_iff.mpr ⟨n, hn⟩, ?_⟩
    exact decide_eq_true hne
  subst hroot
  exact get?_of_items_nil (hi.root_free n hn) worker

/-- The worker is on no node of the tree. -/
def TreeFree (worker : KvWorkerId) (tree : HashTree) : Prop := ∀ s, Free worker (tree.shards s)

variable {worker : KvWorkerId} {tree : HashTree}

theorem TreeFree.put (h : TreeFree worker tree) {idx : Fin N_SHARDS} {st : TreeState}
    (hst : Free worker st) : TreeFree worker (tree.put idx st) := by
  intro s
  rw [HashTree.shards_put]
  split
  · exact hst
  · exact h s

theorem TreeFree.pass {step : HashTree → Fin N_SHARDS → HashTree}
    (hstep : ∀ tree idx, TreeFree worker tree → TreeFree worker (step tree idx))
    (todo : List (Fin N_SHARDS)) (h : TreeFree worker tree) :
    TreeFree worker (todo.foldl step tree) :=
  List.foldlRecOn todo step h (fun tree h idx _ => hstep tree idx h)

/-- **An event of another worker puts nobody else on a node.** -/
theorem TreeFree.apply_event (h : TreeFree worker tree) {ev : KvWorkerId × KvCacheEvent}
    (hne : ev.1 ≠ worker) : TreeFree worker (apply_event tree ev) := by
  obtain ⟨other, e⟩ := ev
  replace hne : worker ≠ other := Ne.symm hne
  cases e with
  | BlockStored b =>
    show TreeFree worker (tree.insert_tiered other b.parent_block_hash b.block_hashes _)
    unfold HashTree.insert_tiered
    cases b.block_hashes with
    | nil => exact h
    | cons first rest =>
      dsimp only
      split
      · exact h
      · apply h.put
        apply (h _).insert (get?_empty worker)
        intro ws hws
        unfold add_tiers
        split
        · rw [get?_set, if_neg hne]
          exact hws
        · rw [get?_set, if_neg hne]
          exact hws
  | BlockRemoved b =>
    show TreeFree worker (tree.remove_tiered other b.block_hashes _)
    unfold HashTree.remove_tiered
    split
    · exact h
    · apply TreeFree.pass _ _ h
      intro acc idx hacc
      split
      · apply hacc.put
        apply (hacc idx).remove
        intro ws hws
        unfold release_tiers
        split
        · exact hws
        · split
          · rw [get?_erase, if_neg hne]
            exact hws
          · rw [get?_set, if_neg hne]
            exact hws
      · exact hacc
  | AllBlocksCleared =>
    apply TreeFree.pass _ _ h
    intro acc idx hacc
    apply hacc.put
    apply (hacc idx).clear_worker
    intro ws hws
    rw [get?_erase, if_neg hne]
    exact hws

theorem TreeFree.clear_other {other : KvWorkerId} (h : TreeFree worker tree) (hne : other ≠ worker) :
    TreeFree worker (tree.clear_worker other) := by
  have hev : TreeFree worker (KvIndex.apply_event tree (other, .AllBlocksCleared)) :=
    h.apply_event hne
  exact hev

/-- **After `clear_worker` the worker is on no node of the tree.** -/
theorem TreeSound.free_clear_worker (ht : TreeSound tree) (worker : KvWorkerId) :
    TreeFree worker (tree.clear_worker worker) := by
  have hloop (todo : List (Fin N_SHARDS)) (acc : HashTree) : TreeSound acc →
      (∀ i, i ∉ todo → Free worker (acc.shards i)) →
      TreeFree worker (todo.foldl
        (fun acc idx => acc.put idx ((acc.shards idx).clear_worker worker)) acc) := by
    induction todo generalizing acc with
    | nil =>
      intro _ h i
      exact h i List.not_mem_nil
    | cons idx todo ih =>
      intro hs h
      apply ih
      · exact hs.put ((hs idx).clear_worker worker)
      · intro i hi
        rw [HashTree.shards_put]
        by_cases hidx : i = idx
        · rw [if_pos hidx]
          exact (hs idx).free_clear_worker worker
        · rw [if_neg hidx]
          exact h i (by simp [hidx, hi])
  apply hloop _ tree ht
  intro i hi
  exact absurd (List.mem_finRange i) hi

theorem TreeSound.apply_event (ht : TreeSound tree) (ev : KvWorkerId × KvCacheEvent) :
    TreeSound (apply_event tree ev) := by
  obtain ⟨worker, e⟩ := ev
  cases e with
  | BlockStored b => exact ht.insert_tiered worker b.parent_block_hash b.block_hashes _
  | BlockRemoved b => exact ht.remove_tiered worker b.block_hashes _
  | AllBlocksCleared => exact ht.clear_worker worker

end LightningH3.KvIndex
