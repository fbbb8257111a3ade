/-
The sharded hash tree: what a store, a removal and a clear do across all shards, and what the
tree answers.

`TreeIndexes C H tree` says that every shard indexes the same holdings `H`. A held parent has
its one node in the shard of its chain, so the scan of `route_insert` finds it there; removals and
clears go over all shards. From the invariant follow the three answers: a hash has at most one
position, its tiers in the tree are those of `H`, and `prefix_depths` counts the leading blocks.
-/
import LightningH3.KvHashTreeSound

set_option autoImplicit false

namespace LightningH3.KvIndex

open List

/-! ## Counting the leading blocks that are held -/

/-- How many leading blocks of the list the worker holds on some tier. -/
def held_depth (H : Holdings) (w : KvWorkerId) (hashes : List BlockHash) : ℕ :=
  (hashes.takeWhile fun h => H w h ≠ Tiers.none_held).length

variable {H : Holdings} {h : BlockHash}

theorem held_depth_cons_held {w : KvWorkerId} (hh : H w h ≠ Tiers.none_held)
    (rest : List BlockHash) : held_depth H w (h :: rest) = held_depth H w rest + 1 := by
  unfold held_depth
  rw [takeWhile_cons_of_pos (by simp [hh]), length_cons]

theorem held_depth_cons_none {w : KvWorkerId} (hh : H w h = Tiers.none_held)
    (rest : List BlockHash) : held_depth H w (h :: rest) = 0 := by
  unfold held_depth
  rw [takeWhile_cons_of_neg (by simp [hh]), length_nil]

theorem get?_freeze (dropped : List KvWorkerId) (depth : ℕ) (w : KvWorkerId) :
    ∀ depths : OrderedDict KvWorkerId ℕ, (TreeState.freeze depths dropped depth).get? w
        = if w ∈ dropped then some depth else depths.get? w := by
  induction dropped with
  | nil =>
    intro depths
    rfl
  | cons a dropped ih =>
    intro depths
    show (TreeState.freeze (depths.set a depth) dropped depth).get? w = _
    rw [ih, OrderedDict.get?_set]
    by_cases hd : w ∈ dropped
    · rw [if_pos hd, if_pos (mem_cons_of_mem _ hd)]
    · rw [if_neg hd]
      by_cases ha : w = a
      · rw [if_pos ha, if_pos (by rw [ha]; exact mem_cons_self)]
      · rw [if_neg ha, if_neg (by simp [ha, hd])]

section Walk

variable {C : Chains BlockHash} {s : Fin N_SHARDS} {H : Holdings} {st : TreeState}

theorem Indexes.none_of_no_child (hi : Indexes C s H st) {current : NodeId} {np : Node}
    (hcur : st.nodes.get? current = some np)
    (hbelow : C.path h = C.path_to (spot current np) ++ [h])
    (hhome : shard_of (C.head h) = s) (hslot : np.children.get? h = none) (w : KvWorkerId) :
    H w h = Tiers.none_held := by
  apply hi.none_of_absent hhome
  rintro id n hid hn rfl
  rw [hi.linked.child_eq hid hn hcur hbelow] at hslot
  cases hslot

/-- **Below the first level the walk adds, for each worker still alive, the blocks it goes on
to hold.** The induction is on the hashes left; a worker leaves at the first it does not hold. -/
theorem Indexes.depth_walk (hi : Indexes C s H st) (w : KvWorkerId) :
    ∀ (rest : List BlockHash) (current : NodeId) (np : Node) (reached : ℕ)
      (depths : OrderedDict KvWorkerId ℕ) (alive : List KvWorkerId),
      st.nodes.get? current = some np → Determined C.path (C.path_to (spot current np) ++ rest) →
      (∀ a ∈ rest, shard_of (C.head a) = s) → 0 < reached →
      (TreeState.depth_walk st rest current reached depths alive).get? w =
        if w ∈ alive then some (reached + held_depth H w rest) else depths.get? w := by
  intro rest
  induction rest with
  | nil =>
    intro current np reached depths alive _ _ _ _
    exact get?_freeze alive reached w depths
  | cons h rest ih =>
    intro current np reached depths alive hcur hdet hhome hreached
    have hbelow : C.path h = C.path_to (spot current np) ++ [h] := C.below_of_determined hdet
    unfold TreeState.depth_walk
    cases hslot : np.children.get? h with
    | none =>
      have hnone : H w h = Tiers.none_held :=
        hi.none_of_no_child hcur hbelow (hhome h mem_cons_self) hslot w
      simp only [hcur, Option.bind_some, hslot]
      rw [get?_freeze, held_depth_cons_none hnone, Nat.add_zero]
    | some id =>
      obtain ⟨hid, n, hn, hh, -⟩ := hi.linked.down current np h id hcur hslot
      have hon : (n.workers.get? w).isSome = true ↔ H w h ≠ Tiers.none_held := by
        rw [← hh]
        exact hi.on_node_iff hid hn w
      have hspot : Determined C.path (C.path_to (spot id n) ++ rest) := by
        rw [spot_of_ne hid, hh]
        exact C.determined_step hdet
      simp only [hcur, Option.bind_some, hslot, hn, if_neg (Nat.ne_of_gt hreached)]
      set still := alive.filter fun v => (n.workers.get? v).isSome with hstill
      set left := alive.filter fun v => (n.workers.get? v).isNone with hleft
      have hmem : w ∈ still ↔ w ∈ alive ∧ H w h ≠ Tiers.none_held := by
        rw [mem_filter, hon]
      have hmem' : w ∈ left ↔ w ∈ alive ∧ H w h = Tiers.none_held := by
        have hoff : (n.workers.get? w).isSome = false ↔ H w h = Tiers.none_held := by
          rw [← Bool.not_eq_true, hon, not_not]
        rw [mem_filter, ← Option.not_isSome, Bool.not_eq_true', hoff]
      -- Whether the walk stops here or goes on, it answers like the rest of it would.
      have hgo : (if still.isEmpty = true then
            TreeState.freeze (TreeState.freeze depths left reached) still (reached + 1)
          else TreeState.depth_walk st rest id (reached + 1)
            (TreeState.freeze depths left reached) still).get? w
          = if w ∈ still then some (reached + 1 + held_depth H w rest)
            else (TreeState.freeze depths left reached).get? w := by
        by_cases hempty : still.isEmpty = true
        · rw [List.isEmpty_iff.mp hempty]
          rfl
        · rw [if_neg hempty]
          exact ih id n (reached + 1) _ still hn hspot
            (fun a ha => hhome a (mem_cons_of_mem _ ha)) (Nat.succ_pos _)
      rw [hgo, get?_freeze]
      by_cases hheld : H w h = Tiers.none_held
      · rw [held_depth_cons_none hheld]
        by_cases halive : w ∈ alive
        · rw [if_neg (fun hbad => (hmem.mp hbad).2 hheld),
            if_pos (hmem'.mpr ⟨halive, hheld⟩), if_pos halive, Nat.add_zero]
        · rw [if_neg (fun hbad => halive (hmem.mp hbad).1),
            if_neg (fun hbad => halive (hmem'.mp hbad).1), if_neg halive]
      · rw [held_depth_cons_held hheld]
        by_cases halive : w ∈ alive
        · rw [if_pos (hmem.mpr ⟨halive, hheld⟩), if_pos halive]
          congr 1
          omega
        · rw [if_neg (fun hbad => halive (hmem.mp hbad).1),
            if_neg (fun hbad => halive (hmem'.mp hbad).1), if_neg halive]

/-- **The walk from the root reports the leading blocks held, and nothing for a worker that
does not hold the first.** -/
theorem Indexes.prefix_depths (hi : Indexes C s H st) {chain : List BlockHash}
    (hdet : Determined C.path (C.path_to none ++ chain))
    (hhome : ∀ a ∈ chain, shard_of (C.head a) = s) (w : KvWorkerId) :
    (st.prefix_depths none chain).get? w =
      if held_depth H w chain = 0 then none else some (held_depth H w chain) := by
  obtain ⟨root, hroot⟩ := hi.linked.root
  cases chain with
  | nil => rfl
  | cons h rest =>
    have hbelow : C.path h = C.path_to (spot ROOT_ID root) ++ [h] := by
      exact C.below_of_determined hdet
    show (TreeState.depth_walk st (h :: rest) ROOT_ID 0 .empty []).get? w = _
    unfold TreeState.depth_walk
    cases hslot : root.children.get? h with
    | none =>
      have hnone : H w h = Tiers.none_held :=
        hi.none_of_no_child hroot hbelow (hhome h mem_cons_self) hslot w
      simp only [hroot, Option.bind_some, hslot]
      rw [held_depth_cons_none hnone]
      rfl
    | some id =>
      obtain ⟨hid, n, hn, hh, -⟩ := hi.linked.down ROOT_ID root h id hroot hslot
      have hon : w ∈ n.workers.keys ↔ H w h ≠ Tiers.none_held := by
        rw [← hh, ← hi.on_node_iff hid hn w, OrderedDict.mem_keys_iff, Option.isSome_iff_exists]
      have hspot : Determined C.path (C.path_to (spot id n) ++ rest) := by
        rw [spot_of_ne hid, hh]
        exact C.determined_step hdet
      simp only [hroot, Option.bind_some, hslot, hn, if_true]
      have hgo : (if n.workers.keys.isEmpty = true then
            TreeState.freeze OrderedDict.empty n.workers.keys (0 + 1)
          else TreeState.depth_walk st rest id (0 + 1) OrderedDict.empty
            n.workers.keys).get? w
          = if w ∈ n.workers.keys then some (0 + 1 + held_depth H w rest) else none := by
        by_cases hempty : n.workers.keys.isEmpty = true
        · rw [List.isEmpty_iff.mp hempty]
          rfl
        · rw [if_neg hempty]
          exact hi.depth_walk w rest id n (0 + 1) .empty n.workers.keys hn hspot
            (fun a ha => hhome a (mem_cons_of_mem _ ha)) (Nat.succ_pos _)
      rw [hgo]
      by_cases hheld : H w h = Tiers.none_held
      · rw [held_depth_cons_none hheld, if_neg (fun hbad => hon.mp hbad hheld), if_pos rfl]
      · rw [held_depth_cons_held hheld, if_pos (hon.mpr hheld)]
        congr 1
        omega

end Walk

/-! ## All shards index the same holdings -/

/-- Every shard indexes `H`. -/
def TreeIndexes (C : Chains BlockHash) (H : Holdings) (tree : HashTree) : Prop :=
  ∀ s, Indexes C s H (tree.shards s)

theorem TreeIndexes.new (C : Chains BlockHash) :
    TreeIndexes C (fun _ _ => Tiers.none_held) HashTree.new :=
  fun s => Indexes.new C s

namespace HashTree

theorem shards_put (tree : HashTree) (idx : Fin N_SHARDS) (st : TreeState) (i : Fin N_SHARDS) :
    (tree.put idx st).shards i = if i = idx then st else tree.shards i := rfl

end HashTree

variable {C : Chains BlockHash} {tree : HashTree}

theorem TreeIndexes.pass {H' : Holdings} {step : HashTree → Fin N_SHARDS → HashTree}
    (hother : ∀ tree idx i, i ≠ idx → (step tree idx).shards i = tree.shards i)
    (hown : ∀ tree idx, Indexes C idx H (tree.shards idx) →
      Indexes C idx H' ((step tree idx).shards idx)) (ht : TreeIndexes C H tree) :
    TreeIndexes C H' (HashTree.indices.foldl step tree) := by
  have hloop (todo : List (Fin N_SHARDS)) (acc : HashTree) : todo.Nodup →
      (∀ i ∈ todo, Indexes C i H (acc.shards i)) →
      (∀ i, i ∉ todo → Indexes C i H' (acc.shards i)) →
      TreeIndexes C H' (todo.foldl step acc) := by
    induction todo generalizing acc with
    | nil =>
      intro _ _ hdone i
      exact hdone i not_mem_nil
    | cons idx todo ih =>
      intro hnd htodo hdone
      obtain ⟨hidx, hnd⟩ := nodup_cons.mp hnd
      apply ih _ hnd
      · intro i hi
        have hne : i ≠ idx := by
          rintro rfl
          exact hidx hi
        rw [hother acc idx i hne]
        exact htodo i (mem_cons_of_mem _ hi)
      · intro i hi
        by_cases hne : i = idx
        · rw [hne]
          exact hown acc idx (htodo idx mem_cons_self)
        · rw [hother acc idx i hne]
          exact hdone i (by simp [hne, hi])
  apply hloop _ tree (nodup_finRange _)
  · intro i _
    exact ht i
  · intro i hi
    exact absurd (mem_finRange i) hi

/-- **`clear_worker` empties the worker.** -/
theorem TreeIndexes.clear_worker (ht : TreeIndexes C H tree) (worker : KvWorkerId) :
    TreeIndexes C (cleared H worker) (tree.clear_worker worker) := by
  apply ht.pass
  · intro acc idx i hne
    rw [HashTree.shards_put, if_neg hne]
  · intro acc idx hi
    rw [HashTree.shards_put, if_pos rfl]
    exact hi.clear_worker worker

theorem Indexes.skip_remove {s : Fin N_SHARDS} {st : TreeState} (hi : Indexes C s H st)
    (worker : KvWorkerId) {hashes : List BlockHash} (tiers : Tiers)
    (hskip : st.carries_any hashes = false) :
    Indexes C s (revise H worker hashes fun t => t.difference tiers) st := by
  apply hi.congr_home
  intro w h hhome
  have hcongr : revise H worker hashes (fun t => t.difference tiers) w h
      = revise H worker [] (fun t => t.difference tiers) w h := by
    apply revise_at_congr
    by_cases hh : h ∈ hashes
    · have hnone : H worker h = Tiers.none_held := by
        apply hi.none_of_absent hhome
        rintro id n hid hn rfl
        have hids := get?_by_hash_of_ids (hi.linked.ids_eq_singleton hid hn)
        have hno := any_eq_false.mp hskip _ hh
        rw [hids] at hno
        exact hno rfl
      rw [hnone]
      exact Or.inl (Tiers.none_difference tiers)
    · exact Or.inr (by simp [hh])
  rw [hcongr, revise_nil]

/-- **`remove_tiered` deletes the tiers at the listed hashes.** -/
theorem TreeIndexes.remove_tiered (ht : TreeIndexes C H tree) (worker : KvWorkerId)
    (hashes : List BlockHash) (tiers : Tiers) :
    TreeIndexes C (revise H worker hashes fun t => t.difference tiers)
      (tree.remove_tiered worker hashes tiers) := by
  unfold HashTree.remove_tiered
  by_cases hskip : (hashes.isEmpty || tiers.is_empty) = true
  · rw [if_pos hskip]
    have hsame : revise H worker hashes (fun t => t.difference tiers) = H := by
      rcases Bool.or_eq_true_iff.mp hskip with hempty | hempty
      · rw [List.isEmpty_iff.mp hempty, revise_nil]
      · rw [Tiers.is_empty_iff.mp hempty]
        exact revise_eq_self H worker hashes Tiers.difference_none
    rw [hsame]
    exact ht
  · rw [if_neg hskip]
    apply ht.pass
    · intro acc idx i hne
      split
      · rw [HashTree.shards_put, if_neg hne]
      · rfl
    · intro acc idx hi
      split
      · rw [HashTree.shards_put, if_pos rfl]
        exact hi.remove worker hashes tiers
      · next hno => exact hi.skip_remove worker tiers (Bool.eq_false_iff.mpr hno)

/-! ## Routing a store -/

section Route

variable {C : Chains BlockHash} {H : Holdings} {tree : HashTree}

variable {p : BlockHash}

theorem TreeIndexes.ids_of_held (ht : TreeIndexes C H tree) {w : KvWorkerId}
    (hp : H w p ≠ Tiers.none_held) :
    ∃ id n, id ≠ ROOT_ID ∧ (tree.shards (shard_of (C.head p))).nodes.get? id = some n ∧
      n.block_hash = p ∧
      ∀ s, (tree.shards s).ids p = if s = shard_of (C.head p) then [id] else [] := by
  obtain ⟨id, n, hid, hn, hh⟩ := (ht (shard_of (C.head p))).present w p rfl hp
  refine ⟨id, n, hid, hn, hh, ?_⟩
  intro s
  by_cases hs : s = shard_of (C.head p)
  · rw [if_pos hs, hs, ← hh]
    rw [← hh] at hn
    exact (ht _).linked.ids_eq_singleton hid hn
  · rw [if_neg hs]
    apply (ht s).linked.ids_eq_nil
    rintro j m hj hm rfl
    exact hs ((ht s).home j m hj hm).symm

section

variable {home : Fin N_SHARDS} {id : NodeId} (worker : KvWorkerId)
  (hids : ∀ s, (tree.shards s).ids p = if s = home then [id] else [])
include worker hids

/-- **A store below a held parent is routed to the shard of the parent's chain.** -/
theorem route_insert_of_held (first : BlockHash) :
    tree.route_insert worker (some p) first = (home, ⟨some p, some p⟩) := by
  have hone := sum_map_eq_nsmul_single home (l := HashTree.indices)
    (fun s => ((tree.shards s).ids p).length) (fun s hs _ => by rw [hids, if_neg hs]; rfl)
  have hcount : count home HashTree.indices = 1 :=
    count_eq_one_of_mem (nodup_finRange _) (mem_finRange home)
  rw [hcount, hids, if_pos rfl] at hone
  change carriers tree p = 1 at hone
  rcases route_insert_cases tree worker p first with
    ⟨h, -⟩ | ⟨i, -, hne, h⟩ | ⟨i, h, -⟩ | ⟨h, -⟩
  · omega
  · rw [hids] at hne
    by_cases hi : i = home
    · rw [h, hi]
    · exact absurd (if_neg hi) hne
  · omega
  · omega

end

/-- **`insert_tiered` adds the tiers at the listed hashes**, when these continue the chain of a
parent the worker holds, or are a whole chain. -/
theorem TreeIndexes.insert_tiered (ht : TreeIndexes C H tree) (worker : KvWorkerId)
    (parent_hash : Option BlockHash) (hashes : List BlockHash) (tiers : Tiers)
    (hdet : hashes ≠ [] → Determined C.path (C.path_to parent_hash ++ hashes))
    (hheld : hashes ≠ [] → ∀ p, parent_hash = some p → H worker p ≠ Tiers.none_held) :
    TreeIndexes C (revise H worker hashes fun t => t.union tiers)
      (tree.insert_tiered worker parent_hash hashes tiers) := by
  cases hashes with
  | nil =>
    rw [revise_nil]
    exact ht
  | cons first rest =>
    have hne : first :: rest ≠ [] := cons_ne_nil _ _
    replace hdet := hdet hne
    replace hheld := hheld hne
    unfold HashTree.insert_tiered
    by_cases hempty : tiers.is_empty = true
    · have hsame : revise H worker (first :: rest) (fun t => t.union tiers) = H := by
        rw [Tiers.is_empty_iff.mp hempty]
        exact revise_eq_self H worker (first :: rest) Tiers.union_none
      simp only [if_pos hempty]
      rw [hsame]
      exact ht
    · simp only [if_neg hempty]
      have hnone : tiers ≠ Tiers.none_held := fun h => hempty (Tiers.is_empty_iff.mpr h)
      -- The other shards do not see the hashes of this chain.
      have hput : ∀ (home : Fin N_SHARDS) (st : TreeState),
          (∀ a ∈ first :: rest, shard_of (C.head a) = home) →
          Indexes C home (revise H worker (first :: rest) fun t => t.union tiers) st →
          TreeIndexes C (revise H worker (first :: rest) fun t => t.union tiers)
            (tree.put home st) := by
        intro home st hhome hi s
        rw [HashTree.shards_put]
        by_cases hs : s = home
        · rw [if_pos hs, hs]
          exact hi
        · rw [if_neg hs]
          apply (ht s).congr_home
          intro w a ha
          unfold revise
          rw [if_neg]
          rintro ⟨-, hmem⟩
          exact hs (ha.symm.trans (hhome a hmem))
      cases parent_hash with
      | none =>
        have hhome : ∀ a ∈ first :: rest, shard_of (C.head a) = shard_of first :=
          fun a ha => congrArg shard_of (C.head_of_determined hdet a ha)
        exact hput (shard_of first) _ hhome
          ((ht _).insert_root rfl hne hnone hdet hhome)
      | some p =>
        obtain ⟨id, n, hid, hn, hh, hids⟩ := ht.ids_of_held (hheld p rfl)
        have hhome : ∀ a ∈ first :: rest, shard_of (C.head a) = shard_of (C.head p) :=
          fun a ha => congrArg shard_of (C.head_of_determined_below hdet a ha)
        rw [route_insert_of_held worker hids first]
        refine hput (shard_of (C.head p)) _ hhome ?_
        rw [← hh] at hdet
        exact (ht _).insert_below hid hn (congrArg some hh.symm) hne hnone hdet hhome

end Route

/-! ## What the tree answers -/

/-- The nodes of one shard that carry a hash. -/
def TreeState.positions (st : TreeState) (h : BlockHash) : List NodeId :=
  (st.nodes.items.filter fun e => decide (e.1 ≠ ROOT_ID) && decide (e.2.block_hash = h)).map
    Prod.fst

namespace HashTree

/-- The positions of a hash in the tree: shard and node. -/
def positions (tree : HashTree) (h : BlockHash) : List (Fin N_SHARDS × NodeId) :=
  indices.flatMap fun s => ((tree.shards s).positions h).map fun id => (s, id)

/-- The tiers on which a worker holds a hash in the tree, over all positions. -/
def tiers_of (tree : HashTree) (worker : KvWorkerId) (h : BlockHash) : Tiers :=
  (tree.positions h).foldl (fun acc pos =>
    acc.union ((((tree.shards pos.1).nodes.get? pos.2).map fun n => n.tiers_of worker).getD
      Tiers.none_held)) Tiers.none_held

theorem mem_positions {tree : HashTree} {s : Fin N_SHARDS} {id : NodeId} :
    (s, id) ∈ tree.positions h ↔
      id ≠ ROOT_ID ∧ ∃ n, (tree.shards s).nodes.get? id = some n ∧ n.block_hash = h := by
  constructor
  · intro hmem
    obtain ⟨i, -, hi⟩ := mem_flatMap.mp hmem
    obtain ⟨j, hj, heq⟩ := mem_map.mp hi
    cases heq
    obtain ⟨⟨k, n⟩, hk, rfl⟩ := mem_map.mp hj
    obtain ⟨hin, hkeep⟩ := mem_filter.mp hk
    rw [Bool.and_eq_true, decide_eq_true_eq, decide_eq_true_eq] at hkeep
    exact ⟨hkeep.1, n, OrderedDict.get?_eq_some_iff.mpr hin, hkeep.2⟩
  · rintro ⟨hid, n, hn, hh⟩
    refine mem_flatMap.mpr ⟨s, mem_finRange s, mem_map.mpr ⟨id, ?_, rfl⟩⟩
    refine mem_map.mpr ⟨(id, n), ?_, rfl⟩
    refine mem_filter.mpr ⟨OrderedDict.get?_eq_some_iff.mp hn, ?_⟩
    rw [Bool.and_eq_true, decide_eq_true_eq, decide_eq_true_eq]
    exact ⟨hid, hh⟩

theorem nodup_positions (tree : HashTree) (h : BlockHash) : (tree.positions h).Nodup := by
  apply nodup_flatMap.mpr
  constructor
  · intro s _
    apply List.Nodup.map (fun a b hab => (Prod.mk.inj hab).2)
    exact (filter_sublist.map _).nodup (tree.shards s).nodes.nodup
  · apply List.Pairwise.imp _ (nodup_finRange N_SHARDS)
    intro a b hab pos ha hb
    obtain ⟨i, -, rfl⟩ := mem_map.mp ha
    obtain ⟨j, -, heq⟩ := mem_map.mp hb
    exact hab (Prod.mk.inj heq).1.symm

end HashTree

section Answers

variable {C : Chains BlockHash} {H : Holdings} {tree : HashTree}

section

variable (ht : TreeIndexes C H tree)
include ht

theorem TreeIndexes.position_unique {a b : Fin N_SHARDS × NodeId}
    (ha : a ∈ tree.positions h) (hb : b ∈ tree.positions h) : a = b := by
  obtain ⟨s, i⟩ := a
  obtain ⟨t, j⟩ := b
  obtain ⟨hi, n, hn, hnh⟩ := HashTree.mem_positions.mp ha
  obtain ⟨hj, m, hm, hmh⟩ := HashTree.mem_positions.mp hb
  have hs : shard_of (C.head h) = s := by
    rw [← hnh]
    exact (ht s).home i n hi hn
  have hst : shard_of (C.head h) = t := by
    rw [← hmh]
    exact (ht t).home j m hj hm
  obtain rfl : s = t := hs.symm.trans hst
  obtain rfl : i = j := (ht s).linked.node_unique hi hj hn hm (hnh.trans hmh.symm)
  rfl

/-- **A block hash has at most one position.** -/
theorem TreeIndexes.positions_le_one (h : BlockHash) : (tree.positions h).length ≤ 1 := by
  have hnd := tree.nodup_positions h
  cases hpos : tree.positions h with
  | nil => exact Nat.zero_le _
  | cons a rest =>
    cases rest with
    | nil => exact Nat.le_refl _
    | cons b rest' =>
      have hab : a = b := by
        apply ht.position_unique (h := h)
        · rw [hpos]
          exact mem_cons_self
        · rw [hpos]
          exact mem_cons_of_mem _ mem_cons_self
      rw [hpos, hab] at hnd
      exact absurd mem_cons_self (nodup_cons.mp hnd).1

/-- **The tiers in the tree are those of the holdings.** -/
theorem TreeIndexes.tiers_of_eq (w : KvWorkerId) (h : BlockHash) : tree.tiers_of w h = H w h := by
  unfold HashTree.tiers_of
  cases hpos : tree.positions h with
  | nil =>
    by_contra hne
    obtain ⟨id, n, hid, hn, hh⟩ := (ht (shard_of (C.head h))).present w h rfl (Ne.symm hne)
    have hmem := HashTree.mem_positions.mpr ⟨hid, n, hn, hh⟩
    rw [hpos] at hmem
    exact absurd hmem not_mem_nil
  | cons a rest =>
    obtain rfl : rest = [] := by
      have hle := ht.positions_le_one h
      rw [hpos, length_cons] at hle
      exact eq_nil_of_length_eq_zero (by omega)
    obtain ⟨s, id⟩ := a
    have hmem : (s, id) ∈ tree.positions h := by
      rw [hpos]
      exact mem_cons_self
    obtain ⟨hid, n, hn, hh⟩ := HashTree.mem_positions.mp hmem
    rw [foldl_cons, Tiers.none_union, hn, ← hh]
    exact (ht s).tiers id n hid hn w

/-- **`prefix_depths` without a parent counts the leading blocks held**, for every chain and
every worker. -/
theorem TreeIndexes.prefix_depths_eq {chain : List BlockHash} (hdet : Determined C.path chain)
    (w : KvWorkerId) : (tree.prefix_depths none chain).get? w =
      if held_depth H w chain = 0 then none else some (held_depth H w chain) := by
  cases chain with
  | nil => rfl
  | cons first rest =>
    apply (ht (shard_of first)).prefix_depths
    · exact hdet
    · intro a ha
      rw [C.head_of_determined hdet a ha]

end

end Answers

end LightningH3.KvIndex
