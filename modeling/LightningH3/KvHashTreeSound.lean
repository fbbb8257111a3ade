/-
The representation invariant of the hash tree, for any events at all.

`Sound` needs nothing of the hashes: they may be unknown, repeated or ambiguous. It says that
the links of a shard agree, that the reverse index has no empty entry, that no carrier entry is
empty, and that a node without carriers has children. The last is what pruning restores; inside an
operation the nodes it still owes stand in `E`.
-/
import LightningH3.KvHashTreeOps
import Mathlib.Algebra.GroupWithZero.Nat
import Mathlib.Algebra.Order.BigOperators.Group.List
import Mathlib.Algebra.Order.Group.Nat
import Mathlib.Data.List.FinRange

set_option autoImplicit false

namespace LightningH3.KvIndex

open List OrderedDict

/-- Chains may hang off the root only where `ok` allows their first hash. -/
def rooted (ok : BlockHash → Prop) (parent : Option BlockHash) (h : BlockHash) : Prop :=
  parent = none → ok h

/-- One shard is well formed, up to the empty leaves in `E`. -/
structure Sound (ok : BlockHash → Prop) (E : NodeId → Prop) (st : TreeState) : Prop where
  linked : Linked (rooted ok) st
  entries : NoEmptyEntry st
  filled : ∀ id n, st.nodes.get? id = some n → Filled n.workers
  root_free : ∀ n, st.nodes.get? ROOT_ID = some n → n.workers.items = []
  leaves : ∀ id n, id ≠ ROOT_ID → st.nodes.get? id = some n → n.is_spent = true → E id

theorem is_spent_iff {n : Node} :
    n.is_spent = true ↔ n.workers.items = [] ∧ n.children.items = [] := by
  unfold Node.is_spent
  simp

theorem items_ne_nil_of_get? {κ ν : Type} [DecidableEq κ] {d : OrderedDict κ ν} {k : κ} {v : ν}
    (h : d.get? k = some v) : d.items ≠ [] := by
  intro hnil
  have hmem := get?_eq_some_iff.mp h
  rw [hnil] at hmem
  exact absurd hmem not_mem_nil

theorem get?_of_items_nil {κ ν : Type} [DecidableEq κ] {d : OrderedDict κ ν}
    (h : d.items = []) (k : κ) : d.get? k = none := by
  unfold OrderedDict.get?
  rw [h]
  rfl

namespace Sound

variable {ok : BlockHash → Prop} {E E' : NodeId → Prop} {st : TreeState}

theorem mono (hi : Sound ok E st) (h : ∀ id, E id → E' id) : Sound ok E' st :=
  ⟨hi.linked, hi.entries, hi.filled, hi.root_free, fun id n hid hn hs =>
    h id (hi.leaves id n hid hn hs)⟩

theorem new (ok : BlockHash → Prop) : Sound ok (fun _ => False) TreeState.new := by
  constructor
  · exact Linked.new (rooted ok)
  · intro h l hl
    cases hl
  · intro id n hn
    obtain ⟨-, rfl⟩ := TreeState.nodes_new hn
    exact filled_empty
  · intro n hn
    obtain ⟨-, rfl⟩ := TreeState.nodes_new hn
    rfl
  · intro id n hid hn _
    exact absurd (TreeState.nodes_new hn).1 hid

/-! ## The three moves -/

variable {id : NodeId}

theorem put (hi : Sound ok E st) {n : Node} (hid : id ≠ ROOT_ID) (hn : st.nodes.get? id = some n)
    {ws : OrderedDict KvWorkerId Tiers} (hws : Filled ws) (hE : ∀ j, E j → j ≠ id → E' j)
    (hspent : ({ n with workers := ws } : Node).is_spent = true → E' id) :
    Sound ok E' (st.put id { n with workers := ws }) := by
  have hget := st.get?_put id { n with workers := ws }
  constructor
  · exact hi.linked.of_same_links (SameLinks.put hn ws)
  · exact hi.entries
  · intro j m hm
    rw [hget] at hm
    by_cases hj : j = id
    · rw [if_pos hj] at hm
      cases hm
      exact hws
    · rw [if_neg hj] at hm
      exact hi.filled j m hm
  · intro m hm
    rw [hget, if_neg (Ne.symm hid)] at hm
    exact hi.root_free m hm
  · intro j m hj hm hs
    rw [hget] at hm
    by_cases hji : j = id
    · rw [if_pos hji] at hm
      cases hm
      rw [hji]
      exact hspent hs
    · rw [if_neg hji] at hm
      exact hE j (hi.leaves j m hj hm hs) hji

theorem grown (hi : Sound ok E st) {st' : TreeState} {p : NodeId} {np : Node} {h : BlockHash}
    {breadcrumb : Option BlockHash} (hp : st.nodes.get? p = some np)
    (hslot : np.children.get? h = none) (hok : p = ROOT_ID → ok h)
    (hg : Grown st st' p np h breadcrumb) (hE : ∀ j, E j → E' j) (hnew : E' st.next_id) :
    Sound ok E' st' := by
  have hbelow : rooted ok (spot p np) h := by
    intro hnone
    apply hok
    by_contra hne
    rw [spot_of_ne hne] at hnone
    cases hnone
  constructor
  · exact hi.linked.grown hp hslot hbelow hg
  · exact hg.entries hi.entries
  · intro j m hm
    rcases hg.cases_node hp hm with ⟨m₀, hm₀, -, -, hworkers, -⟩ | ⟨-, rfl⟩
    · rw [hworkers]
      exact hi.filled j m₀ hm₀
    · exact filled_empty
  · intro m hm
    rcases hg.cases_node hp hm with ⟨m₀, hm₀, -, -, hworkers, -⟩ | ⟨hroot, -⟩
    · rw [hworkers]
      exact hi.root_free m₀ hm₀
    · obtain ⟨r, hr⟩ := hi.linked.root
      exact absurd hroot (Nat.ne_of_lt (hi.linked.fresh _ r hr))
  · intro j m hj hm hs
    rcases hg.cases_node hp hm with ⟨m₀, hm₀, -, -, hworkers, -⟩ | ⟨rfl, -⟩
    · apply hE
      apply hi.leaves j m₀ hj hm₀
      -- A spent node of after is not the parent, and the others did not change.
      have hjp : j ≠ p := by
        rintro rfl
        rw [hg.nodes, if_pos rfl] at hm
        cases hm
        have hchild : (np.children.set h st.next_id).get? h = some st.next_id := by
          rw [get?_set, if_pos rfl]
        exact items_ne_nil_of_get? hchild (is_spent_iff.mp hs).2
      have hjn : j ≠ st.next_id := Nat.ne_of_lt (hi.linked.fresh j m₀ hm₀)
      rw [hg.nodes, if_neg hjp, if_neg hjn, hm₀] at hm
      cases hm
      exact hs
    · exact hnew

theorem dropped (hi : Sound ok E st) {st' : TreeState} {cursor p : NodeId} {n np : Node}
    (hroot : cursor ≠ ROOT_ID) (hn : st.nodes.get? cursor = some n)
    (hspent : n.is_spent = true) (hparent : n.parent = some p)
    (hp : st.nodes.get? p = some np) (hd : Dropped st st' cursor p np n.block_hash)
    (hE : ∀ j, E j → j ≠ cursor → E' j)
    (hparentE : ∀ np', st'.nodes.get? p = some np' → p ≠ ROOT_ID → np'.is_spent = true → E' p) :
    Sound ok E' st' := by
  have hleaf : ∀ k, n.children.get? k = none := get?_of_items_nil (is_spent_iff.mp hspent).2
  constructor
  · exact hi.linked.dropped hroot hn hleaf hparent hp hd
  · exact hd.entries hi.entries
  · intro j m' hm'
    obtain ⟨-, m, hm, -, -, hworkers, -⟩ := hd.node_of hp hm'
    rw [hworkers]
    exact hi.filled j m hm
  · intro m' hm'
    obtain ⟨-, m, hm, -, -, hworkers, -⟩ := hd.node_of hp hm'
    rw [hworkers]
    exact hi.root_free m hm
  · intro j m' hj hm' hs
    by_cases hjp : j = p
    · subst hjp
      exact hparentE m' hm' hj hs
    · have hjc : j ≠ cursor := (hd.node_of hp hm').1
      rw [hd.nodes, if_neg hjc, if_neg hjp] at hm'
      exact hE j (hi.leaves j m' hj hm' hs) hjc

/-! ## Pruning pays what is owed -/

/-- **The loop of `prune_cascade` leaves no empty leaf that it was not entitled to leave.** -/
theorem prune_loop (fuel : ℕ) (st : TreeState) (cursor : NodeId) : st.nodes.size ≤ fuel →
    Sound ok (fun j => E j ∨ j = cursor) st → Sound ok E (TreeState.prune_loop fuel st cursor) := by
  induction fuel generalizing st cursor with
  | zero =>
    intro hsize hi
    obtain ⟨r, hr⟩ := hi.linked.root
    have hnil : st.nodes.items = [] := eq_nil_of_length_eq_zero (Nat.le_zero.mp hsize)
    exact absurd hnil (items_ne_nil_of_get? hr)
  | succ fuel ih =>
    intro hsize hi
    unfold TreeState.prune_loop
    by_cases hroot : cursor = ROOT_ID
    · rw [if_pos hroot]
      refine ⟨hi.linked, hi.entries, hi.filled, hi.root_free, ?_⟩
      intro j m hj hm hs
      rcases hi.leaves j m hj hm hs with hE | hc
      · exact hE
      · exact absurd (hc.trans hroot) hj
    · rw [if_neg hroot]
      cases hn : st.nodes.get? cursor with
      | none =>
        refine ⟨hi.linked, hi.entries, hi.filled, hi.root_free, ?_⟩
        intro j m hj hm hs
        rcases hi.leaves j m hj hm hs with hE | hc
        · exact hE
        · rw [hc, hn] at hm
          cases hm
      | some n =>
        obtain ⟨p, np, hparent, -, hp, -, -⟩ := hi.linked.up cursor n hroot hn
        simp only [hparent]
        by_cases hspent : n.is_spent = true
        · rw [if_pos hspent]
          have hd : Dropped st (st.detach cursor p n.block_hash) cursor p np n.block_hash :=
            detach_dropped hp
          have hlt : (st.detach cursor p n.block_hash).nodes.size ≤ fuel :=
            Nat.le_of_lt_succ (Nat.lt_of_lt_of_le (size_detach_lt _ hn) hsize)
          split
          · apply ih _ p hlt
            apply hi.dropped hroot hn hspent hparent hp hd
            · intro j hj hjc
              rcases hj with hj | hj
              · exact Or.inl hj
              · exact absurd hj hjc
            · intro _ _ _ _
              exact Or.inr rfl
          · next hstop =>
            apply hi.dropped hroot hn hspent hparent hp hd
            · intro j hj hjc
              rcases hj with hj | hj
              · exact hj
              · exact absurd hj hjc
            · intro np' hnp' hpr hs
              exfalso
              apply hstop
              rw [hnp', Option.any_some, hs, Bool.and_true]
              exact decide_eq_true hpr
        · rw [if_neg hspent]
          refine ⟨hi.linked, hi.entries, hi.filled, hi.root_free, ?_⟩
          intro j m hj hm hs
          rcases hi.leaves j m hj hm hs with hE | hc
          · exact hE
          · rw [hc, hn] at hm
            cases hm
            exact absurd hs hspent

theorem prune_cascade {start : NodeId} (hi : Sound ok (fun j => E j ∨ j = start) st) :
    Sound ok E (st.prune_cascade start) :=
  prune_loop _ st start (Nat.le_refl _) hi

/-! ## Storing -/

theorem insert_loop {worker : KvWorkerId} {tiers : Tiers} (ht : tiers ≠ Tiers.none_held) :
    ∀ (rest : List BlockHash) (st : TreeState) (current : NodeId) (np : Node)
      (prev_hash : Option BlockHash), Sound ok E st → st.nodes.get? current = some np →
      (current = ROOT_ID → ∀ h, rest.head? = some h → ok h) →
      Sound ok E (TreeState.insert_loop worker tiers rest st current prev_hash) := by
  intro rest
  induction rest with
  | nil =>
    intro st current np _ hi _ _
    exact hi
  | cons h rest ih =>
    intro st current np prev_hash hi hcur hok
    -- Marking the node of `h` gives it a carrier, and the loop goes on from there.
    have hgo : ∀ (st' : TreeState) (id : NodeId) (n : Node),
        Sound ok (fun j => E j ∨ j = id) st' → id ≠ ROOT_ID → st'.nodes.get? id = some n →
        Sound ok E (TreeState.insert_loop worker tiers rest
          (st'.put id { n with workers := add_tiers n.workers worker tiers }) id (some h)) := by
      intro st' id n hi' hid hn
      have hc := add_tiers_carried n.workers worker ht
      have hmark : Sound ok E
          (st'.put id { n with workers := add_tiers n.workers worker tiers }) := by
        apply hi'.put hid hn (hc.filled (hi'.filled id n hn))
        · intro j hj hji
          rcases hj with hj | hj
          · exact hj
          · exact absurd hj hji
        · intro hs
          have hempty : (add_tiers n.workers worker tiers).items = [] := (is_spent_iff.mp hs).1
          have hnone := get?_of_items_nil hempty worker
          unfold add_tiers at hnone
          split at hnone
          · rw [get?_set, if_pos rfl] at hnone
            cases hnone
          · rw [get?_set, if_pos rfl] at hnone
            cases hnone
      apply ih _ id { n with workers := add_tiers n.workers worker tiers } (some h) hmark
      · exact (get?_set _ _ _ _).trans (if_pos rfl)
      · intro hbad
        exact absurd hbad hid
    unfold TreeState.insert_loop
    cases hslot : np.children.get? h with
    | some id =>
      obtain ⟨hid, n, hn, -, -⟩ := hi.linked.down current np h id hcur hslot
      simp only [hcur, Option.bind_some, hslot, hn]
      exact hgo st id n (hi.mono fun j hj => Or.inl hj) hid hn
    | none =>
      obtain ⟨st', hcreate, hg⟩ := hi.linked.create_child hcur h prev_hash
      have hi' : Sound ok (fun j => E j ∨ j = st.next_id) st' :=
        hi.grown hcur hslot (fun hroot => hok hroot h rfl) hg (fun j hj => Or.inl hj)
          (Or.inr rfl)
      obtain ⟨hid, hn⟩ := hi.linked.grown_child hcur hg
      simp only [hcur, Option.bind_some, hslot, hcreate, hn]
      exact hgo st' st.next_id _ hi' hid hn

theorem resolve_parent_cases (st : TreeState) (worker : KvWorkerId) (attach : Option BlockHash) :
    st.resolve_parent worker attach = ROOT_ID ∨
      ∃ p, attach = some p ∧ st.resolve_parent worker attach ∈ st.ids p := by
  unfold TreeState.resolve_parent
  cases attach with
  | none => exact Or.inl rfl
  | some p =>
    cases hb : st.by_hash.get? p with
    | none =>
      exact Or.inl (by simp [hb])
    | some candidates =>
      have hids : st.ids p = candidates := by
        unfold TreeState.ids
        rw [hb]
        rfl
      have hfound : ∀ o : Option NodeId, (∀ c, o = some c → c ∈ candidates) →
          o.getD ROOT_ID = ROOT_ID ∨ ∃ q, some p = some q ∧ o.getD ROOT_ID ∈ st.ids q := by
        intro o ho
        cases o with
        | none => exact Or.inl rfl
        | some c => exact Or.inr ⟨p, rfl, by rw [hids]; exact ho c rfl⟩
      cases candidates with
      | nil => exact Or.inl (by simp [hb])
      | cons a rest =>
        cases rest with
        | nil =>
          simp only [hb]
          exact Or.inr ⟨p, rfl, by rw [hids]; exact mem_singleton_self a⟩
        | cons b rest =>
          simp only [hb]
          apply hfound
          intro c hc
          exact mem_of_find?_eq_some hc

/-- **`insert` keeps a shard well formed**, if a chain it hangs off the root is allowed there. -/
theorem insert (hi : Sound ok E st) (worker : KvWorkerId) (link : ParentLink)
    (hashes : List BlockHash) (tiers : Tiers)
    (hok : st.resolve_parent worker link.attach = ROOT_ID → ∀ h, hashes.head? = some h → ok h) :
    Sound ok E (st.insert worker link hashes tiers) := by
  unfold TreeState.insert
  by_cases hskip : (hashes.isEmpty || tiers.is_empty) = true
  · rw [if_pos hskip]
    exact hi
  · rw [if_neg hskip]
    have ht : tiers ≠ Tiers.none_held := by
      intro hnone
      apply hskip
      rw [Tiers.is_empty_iff.mpr hnone, Bool.or_true]
    have hnode : ∃ np, st.nodes.get? (st.resolve_parent worker link.attach) = some np := by
      rcases resolve_parent_cases st worker link.attach with hroot | ⟨p, -, hmem⟩
      · rw [hroot]
        exact hi.linked.root
      · obtain ⟨-, n, hn, -⟩ := (hi.linked.index p _).mp hmem
        exact ⟨n, hn⟩
    obtain ⟨np, hnp⟩ := hnode
    exact insert_loop ht hashes st _ np link.breadcrumb hi hnp hok

/-! ## Removing and clearing -/

theorem remove_one (hi : Sound ok (fun _ => False) st) (worker : KvWorkerId) (tiers : Tiers)
    (hid : id ≠ ROOT_ID) : Sound ok (fun _ => False) (TreeState.remove_one worker tiers st id) := by
  unfold TreeState.remove_one
  cases hn : st.nodes.get? id with
  | none => exact hi
  | some n =>
    have hc := release_tiers_carried n.workers worker tiers
    dsimp only
    split
    · apply prune_cascade
      apply hi.put hid hn (hc.filled (hi.filled id n hn))
      · intro j hj
        exact hj.elim
      · intro _
        exact Or.inr rfl
    · next hstop =>
      apply hi.put hid hn (hc.filled (hi.filled id n hn))
      · intro j hj
        exact hj.elim
      · intro hs
        exact hstop hs

/-- **`remove` keeps a shard well formed.** -/
theorem remove (hi : Sound ok (fun _ => False) st) (worker : KvWorkerId)
    (hashes : List BlockHash) (tiers : Tiers) :
    Sound ok (fun _ => False) (st.remove worker hashes tiers) := by
  have htargets : ∀ id ∈ hashes.flatMap st.ids, id ≠ ROOT_ID := by
    intro id hmem
    obtain ⟨h, -, hid⟩ := mem_flatMap.mp hmem
    exact ((hi.linked.index h id).mp hid).1
  exact foldlRecOn _ _ hi (fun st hi id hid => hi.remove_one worker tiers (htargets id hid))

theorem clear_one {acc : TreeState × List NodeId} (hi : Sound ok (fun j => j ∈ acc.2) acc.1)
    (worker : KvWorkerId) (hid : id ≠ ROOT_ID) :
    Sound ok (fun j => j ∈ (TreeState.clear_one worker acc id).2)
      (TreeState.clear_one worker acc id).1 := by
  unfold TreeState.clear_one
  cases hn : acc.1.nodes.get? id with
  | none => exact hi
  | some n =>
    dsimp only
    cases hw : n.workers.get? worker with
    | none => exact hi
    | some held =>
      have hc := erase_carried n.workers worker
      dsimp only
      apply hi.put hid hn (hc.filled (hi.filled id n hn))
      · intro j hj _
        split
        · exact mem_append_left _ hj
        · exact hj
      · intro hs
        rw [if_pos hs]
        exact mem_append_right _ (mem_singleton_self id)

/-- **`clear_worker` keeps a shard well formed**: the candidates of the first loop are all the
second has to prune. -/
theorem clear_worker (hi : Sound ok (fun _ => False) st) (worker : KvWorkerId) :
    Sound ok (fun _ => False) (st.clear_worker worker) := by
  have hsecond (candidates : List NodeId) (st : TreeState) :
      Sound ok (fun j => j ∈ candidates) st →
      Sound ok (fun _ => False) (candidates.foldl TreeState.prune_one st) := by
    induction candidates generalizing st with
    | nil =>
      intro hi
      exact hi.mono fun j hj => absurd hj not_mem_nil
    | cons id candidates ih =>
      intro hi
      apply ih
      unfold TreeState.prune_one
      split
      · apply prune_cascade
        apply hi.mono
        intro j hj
        rcases mem_cons.mp hj with hj | hj
        · exact Or.inr hj
        · exact Or.inl hj
      · next hgone =>
        refine ⟨hi.linked, hi.entries, hi.filled, hi.root_free, ?_⟩
        intro j m hj hm hs
        rcases mem_cons.mp (hi.leaves j m hj hm hs) with hj' | hj'
        · rw [← hj', hm] at hgone
          exact absurd rfl hgone
        · exact hj'
  apply hsecond
  exact foldlRecOn
    (motive := fun acc : TreeState × List NodeId => Sound ok (fun j => j ∈ acc.2) acc.1) _ _
    (hi.mono fun j hj => hj.elim)
    (fun _ hi id hid => hi.clear_one worker (of_decide_eq_true (mem_filter.mp hid).2))

end Sound

/-! ## All shards -/

/-- Every shard is well formed, and holds the chains whose first hash is its own. -/
def TreeSound (tree : HashTree) : Prop :=
  ∀ s, Sound (fun h => shard_of h = s) (fun _ => False) (tree.shards s)

theorem TreeSound.new : TreeSound HashTree.new := fun _ => Sound.new _

variable {tree : HashTree}

theorem TreeSound.put (ht : TreeSound tree) {idx : Fin N_SHARDS} {st : TreeState}
    (hi : Sound (fun h => shard_of h = idx) (fun _ => False) st) : TreeSound (tree.put idx st) := by
  intro s
  show Sound _ _ (if s = idx then st else tree.shards s)
  by_cases hs : s = idx
  · rw [if_pos hs, hs]
    exact hi
  · rw [if_neg hs]
    exact ht s

/-! ### What the scan of `route_insert` finds -/

/-- The worker is on one of the candidates of a hash in this shard. -/
def owns_candidate (st : TreeState) (worker : KvWorkerId) (p : BlockHash) : Bool :=
  (st.ids p).any fun id => (st.nodes.get? id).any fun n => (n.workers.get? worker).isSome

section Scan

variable (tree : HashTree) (worker : KvWorkerId) (p : BlockHash)

theorem owns_candidate_of_nil {st : TreeState} (h : (st.ids p).isEmpty = true) :
    owns_candidate st worker p = false := by
  unfold owns_candidate
  rw [List.isEmpty_iff.mp h]
  rfl

theorem scan_total (todo : List (Fin N_SHARDS)) (acc : HashTree.Carriers) :
    (todo.foldl (tree.scan_shard worker p) acc).total
      = acc.total + (todo.map fun s => ((tree.shards s).ids p).length).sum := by
  induction todo generalizing acc with
  | nil => rfl
  | cons s todo ih =>
    rw [foldl_cons, ih, map_cons, sum_cons, ← Nat.add_assoc]
    congr 1
    unfold HashTree.scan_shard
    dsimp only
    split
    · next hnil => rw [List.isEmpty_iff.mp hnil, length_nil, Nat.add_zero]
    · rfl

theorem scan_single (todo : List (Fin N_SHARDS)) (acc : HashTree.Carriers) :
    (todo.foldl (tree.scan_shard worker p) acc).total = acc.total ∨
      ∃ i, (todo.foldl (tree.scan_shard worker p) acc).single = some i ∧
        (tree.shards i).ids p ≠ [] := by
  refine foldlRecOn (motive := fun st : HashTree.Carriers => st.total = acc.total ∨
    ∃ i, st.single = some i ∧ (tree.shards i).ids p ≠ []) _ _ (Or.inl rfl) (fun st ih s _ => ?_)
  unfold HashTree.scan_shard
  dsimp only
  split
  · exact ih
  · next hne => exact Or.inr ⟨s, rfl, fun hnil => hne (List.isEmpty_iff.mpr hnil)⟩

theorem scan_owned (todo : List (Fin N_SHARDS)) (acc : HashTree.Carriers) :
    (todo.foldl (tree.scan_shard worker p) acc).owned
      = acc.owned.or (todo.find? fun s => owns_candidate (tree.shards s) worker p) := by
  induction todo generalizing acc with
  | nil => exact Option.or_none.symm
  | cons s todo ih =>
    have hstep : (tree.scan_shard worker p acc s).owned
        = acc.owned.or (if owns_candidate (tree.shards s) worker p then some s else none) := by
      unfold HashTree.scan_shard
      dsimp only
      split
      · next hnil =>
        rw [owns_candidate_of_nil worker p hnil]
        exact Option.or_none.symm
      · cases acc.owned with
        | none => rfl
        | some i => rfl
    rw [foldl_cons, ih, hstep, Option.or_assoc, find?_cons]
    cases owns_candidate (tree.shards s) worker p with
    | false => rfl
    | true => rfl

end Scan

/-! ### Stores, removals and clears -/

theorem resolve_parent_mem {st : TreeState} {worker : KvWorkerId} {p : BlockHash}
    (hne : st.ids p ≠ []) (h : (st.ids p).length = 1 ∨ owns_candidate st worker p = true) :
    st.resolve_parent worker (some p) ∈ st.ids p := by
  unfold TreeState.resolve_parent
  cases hids : st.ids p with
  | nil => exact absurd hids hne
  | cons a rest =>
    have hb := get?_by_hash_of_ids hids
    cases rest with
    | nil =>
      simp only [hb]
      exact mem_singleton_self a
    | cons b rest =>
      simp only [hb]
      rcases h with h | h
      · rw [hids] at h
        simp at h
      · unfold owns_candidate at h
        rw [hids] at h
        obtain ⟨c, hc⟩ := Option.isSome_iff_exists.mp (find?_isSome.mpr (any_eq_true.mp h))
        rw [hc]
        exact mem_of_find?_eq_some hc

/-- How many nodes of the whole tree carry a hash. -/
def carriers (tree : HashTree) (p : BlockHash) : ℕ :=
  (HashTree.indices.map fun s => ((tree.shards s).ids p).length).sum

theorem length_ids_le_carriers (tree : HashTree) (p : BlockHash) (i : Fin N_SHARDS) :
    ((tree.shards i).ids p).length ≤ carriers tree p :=
  single_le_sum (fun _ _ => Nat.zero_le _) _
    (mem_map.mpr ⟨i, mem_finRange i, rfl⟩)

theorem length_ids_of_one {tree : HashTree} {p : BlockHash} {i : Fin N_SHARDS}
    (hone : carriers tree p = 1) (hne : (tree.shards i).ids p ≠ []) :
    ((tree.shards i).ids p).length = 1 :=
  Nat.le_antisymm (hone ▸ length_ids_le_carriers tree p i) (length_pos_of_ne_nil hne)

/-- **The four ways a store with a parent is routed**: no candidate, one, several with an owned
one, several without. -/
theorem route_insert_cases (tree : HashTree) (worker : KvWorkerId) (p first : BlockHash) :
    (carriers tree p = 0 ∧
        tree.route_insert worker (some p) first = (shard_of first, ⟨some p, some p⟩)) ∨
      (∃ i, carriers tree p = 1 ∧ (tree.shards i).ids p ≠ [] ∧
        tree.route_insert worker (some p) first = (i, ⟨some p, some p⟩)) ∨
      (∃ i, 1 < carriers tree p ∧ owns_candidate (tree.shards i) worker p = true ∧
        tree.route_insert worker (some p) first = (i, ⟨some p, some p⟩)) ∨
      (1 < carriers tree p ∧ (∀ i, owns_candidate (tree.shards i) worker p = false) ∧
        tree.route_insert worker (some p) first = (shard_of first, ⟨none, some p⟩)) := by
  have hsum := scan_total tree worker p HashTree.indices ⟨0, none, none⟩
  have hsingle := scan_single tree worker p HashTree.indices ⟨0, none, none⟩
  have howned := scan_owned tree worker p HashTree.indices ⟨0, none, none⟩
  rw [Nat.zero_add] at hsum
  unfold HashTree.route_insert
  dsimp only
  generalize HashTree.indices.foldl (tree.scan_shard worker p) ⟨0, none, none⟩ = found at *
  replace hsum : found.total = carriers tree p := hsum
  rw [← hsum]
  split
  · next htotal => exact Or.inl ⟨htotal, rfl⟩
  · next htotal =>
    refine Or.inr (Or.inl ?_)
    -- one candidate, which the scan has seen
    rcases hsingle with hzero | ⟨i, hi, hne⟩
    · rw [htotal] at hzero
      cases hzero
    · exact ⟨i, htotal, hne, by rw [hi]; rfl⟩
  · next h0 h1 =>
    have htotal : 1 < found.total := by
      have hne0 : found.total ≠ 0 := h0
      have hne1 : found.total ≠ 1 := h1
      omega
    refine Or.inr (Or.inr ?_)
    cases ho : found.owned with
    | some i =>
      rw [ho] at howned
      have hown := find?_some (p := fun s => owns_candidate (tree.shards s) worker p) howned.symm
      exact Or.inl ⟨i, htotal, hown, rfl⟩
    | none =>
      rw [ho] at howned
      refine Or.inr ⟨htotal, fun i => ?_, rfl⟩
      exact Bool.eq_false_of_not_eq_true (find?_eq_none.mp howned.symm i (mem_finRange i))

/-- **Where a store is routed it hangs off the root only in the shard of its first hash.** -/
theorem route_insert_root (tree : HashTree) (hsound : TreeSound tree) (worker : KvWorkerId)
    (parent_hash : Option BlockHash) (first : BlockHash)
    (hroot : (tree.shards (tree.route_insert worker parent_hash first).1).resolve_parent worker
      (tree.route_insert worker parent_hash first).2.attach = ROOT_ID) :
    shard_of first = (tree.route_insert worker parent_hash first).1 := by
  cases parent_hash with
  | none => rfl
  | some p =>
    have hnotroot : ∀ i, (tree.shards i).ids p ≠ [] →
        ((tree.shards i).ids p).length = 1 ∨ owns_candidate (tree.shards i) worker p = true →
        (tree.shards i).resolve_parent worker (some p) ≠ ROOT_ID := by
      intro i hne h
      exact (((hsound i).linked.index p _).mp (resolve_parent_mem hne h)).1
    rcases route_insert_cases tree worker p first with
      ⟨-, hr⟩ | ⟨i, htotal, hne, hr⟩ | ⟨i, -, hown, hr⟩ | ⟨-, -, hr⟩
    · rw [hr]
    · rw [hr] at hroot
      have hlen := length_ids_of_one htotal hne
      exact absurd hroot (hnotroot i hne (Or.inl hlen))
    · rw [hr] at hroot
      have hne : (tree.shards i).ids p ≠ [] := by
        intro hnil
        rw [owns_candidate_of_nil worker p (List.isEmpty_iff.mpr hnil)] at hown
        cases hown
      exact absurd hroot (hnotroot i hne (Or.inr hown))
    · rw [hr]

theorem TreeSound.insert_tiered (ht : TreeSound tree) (worker : KvWorkerId)
    (parent_hash : Option BlockHash) (hashes : List BlockHash) (tiers : Tiers) :
    TreeSound (tree.insert_tiered worker parent_hash hashes tiers) := by
  unfold HashTree.insert_tiered
  cases hashes with
  | nil => exact ht
  | cons first rest =>
    dsimp only
    split
    · exact ht
    · apply ht.put
      apply (ht _).insert
      intro hroot h hh
      cases hh
      exact route_insert_root tree ht worker parent_hash first hroot

theorem TreeSound.pass {step : HashTree → Fin N_SHARDS → HashTree}
    (hstep : ∀ tree idx, TreeSound tree → TreeSound (step tree idx))
    (todo : List (Fin N_SHARDS)) (ht : TreeSound tree) : TreeSound (todo.foldl step tree) :=
  foldlRecOn todo step ht (fun tree ht idx _ => hstep tree idx ht)

theorem TreeSound.remove_tiered (ht : TreeSound tree) (worker : KvWorkerId)
    (hashes : List BlockHash) (tiers : Tiers) :
    TreeSound (tree.remove_tiered worker hashes tiers) := by
  unfold HashTree.remove_tiered
  split
  · exact ht
  · apply TreeSound.pass _ _ ht
    intro acc idx hacc
    split
    · exact hacc.put ((hacc idx).remove worker hashes tiers)
    · exact hacc

theorem TreeSound.clear_worker (ht : TreeSound tree) (worker : KvWorkerId) :
    TreeSound (tree.clear_worker worker) := by
  apply TreeSound.pass _ _ ht
  intro acc idx hacc
  exact hacc.put ((hacc idx).clear_worker worker)

end LightningH3.KvIndex
