/-
Sharding the hash tree is invisible: 32 shards hold the tree that one `TreeState` would hold.
-/
import LightningH3.KvHashTreeSharding

set_option autoImplicit false

namespace LightningH3.KvIndex

open List

/-! ## 1. Passes over the shards -/

theorem shards_pass {f : TreeState → TreeState} {step : HashTree → Fin N_SHARDS → HashTree}
    (hstep : ∀ tree idx s, (step tree idx).shards s
      = if s = idx then f (tree.shards idx) else tree.shards s) :
    ∀ (todo : List (Fin N_SHARDS)), todo.Nodup → ∀ (tree : HashTree) (s : Fin N_SHARDS),
      (todo.foldl step tree).shards s = if s ∈ todo then f (tree.shards s) else tree.shards s := by
  intro todo
  induction todo with
  | nil =>
    intro _ tree s
    exact (if_neg not_mem_nil).symm
  | cons idx todo ih =>
    intro hnodup tree s
    obtain ⟨hnot, hrest⟩ := nodup_cons.mp hnodup
    rw [foldl_cons, ih hrest, hstep]
    by_cases hs : s = idx
    · rw [hs, if_neg hnot, if_pos rfl, if_pos mem_cons_self]
    · rw [if_neg hs]
      exact if_congr ⟨mem_cons_of_mem _, fun h => (mem_cons.mp h).resolve_left hs⟩
        rfl rfl

theorem shards_clear_worker (tree : HashTree) (worker : KvWorkerId) (s : Fin N_SHARDS) :
    (tree.clear_worker worker).shards s = (tree.shards s).clear_worker worker := by
  unfold HashTree.clear_worker
  rw [shards_pass (f := fun st => st.clear_worker worker) (fun _ _ _ => rfl) HashTree.indices
    (nodup_finRange _)]
  exact if_pos (mem_finRange s)

variable {st : TreeState} {hashes : List BlockHash}

theorem remove_of_not_carries (h : st.carries_any hashes = false) (worker : KvWorkerId)
    (tiers : Tiers) : st.remove worker hashes tiers = st := by
  have hnil : hashes.flatMap st.ids = [] := by
    apply flatMap_eq_nil_iff.mpr
    intro k hk
    have hnone := any_eq_false.mp h k hk
    unfold TreeState.ids
    rw [Option.not_isSome_iff_eq_none.mp hnone]
    rfl
  unfold TreeState.remove
  rw [hnil]
  rfl

theorem release_none_held {ws : OrderedDict KvWorkerId Tiers} (hf : Filled ws)
    (worker : KvWorkerId) : release_tiers ws worker Tiers.none_held = ws := by
  unfold release_tiers
  cases hheld : ws.get? worker with
  | none => rfl
  | some held =>
    have hsame : held.difference Tiers.none_held = held := by
      show (⟨held.bits &&& ~~~0#8⟩ : Tiers) = held
      rw [BitVec.not_zero, BitVec.and_allOnes]
    dsimp only
    rw [hsame, if_neg, OrderedDict.set_self hheld]
    intro hempty
    exact hf worker held hheld (Tiers.is_empty_iff.mp hempty)

theorem remove_none_held {ok : BlockHash → Prop} (hi : Sound ok (fun _ => False) st)
    (worker : KvWorkerId) (hashes : List BlockHash) :
    st.remove worker hashes Tiers.none_held = st := by
  have hone : ∀ id ∈ hashes.flatMap st.ids,
      TreeState.remove_one worker Tiers.none_held st id = st := by
    intro id hmem
    obtain ⟨h, -, hid⟩ := mem_flatMap.mp hmem
    obtain ⟨hroot, n, hn, -⟩ := (hi.linked.index h id).mp hid
    have hput : st.put id { n with workers := release_tiers n.workers worker Tiers.none_held }
        = st := by
      rw [release_none_held (hi.filled id n hn)]
      unfold TreeState.put
      rw [OrderedDict.set_self hn]
    unfold TreeState.remove_one
    rw [hn]
    dsimp only
    rw [hput, if_neg]
    rw [release_none_held (hi.filled id n hn)]
    exact hi.leaves id n hroot hn
  exact foldlRecOn (motive := fun acc => acc = st) _ _ rfl
    (fun _ hacc id hid => hacc ▸ hone id hid)

variable {tree : HashTree}

theorem shards_remove_tiered (ht : TreeSound tree) (worker : KvWorkerId) (hashes : List BlockHash)
    (tiers : Tiers) (s : Fin N_SHARDS) : (tree.remove_tiered worker hashes tiers).shards s
      = (tree.shards s).remove worker hashes tiers := by
  unfold HashTree.remove_tiered
  by_cases hskip : (hashes.isEmpty || tiers.is_empty) = true
  · rw [if_pos hskip]
    rcases Bool.or_eq_true_iff.mp hskip with hnil | hnone
    · rw [List.isEmpty_iff.mp hnil]
      rfl
    · rw [Tiers.is_empty_iff.mp hnone, remove_none_held (ht s)]
  · rw [if_neg hskip, shards_pass (f := fun st => st.remove worker hashes tiers) _
      HashTree.indices (nodup_finRange _)]
    · exact if_pos (mem_finRange s)
    · intro acc idx i
      by_cases hcarries : (acc.shards idx).carries_any hashes = true
      · rw [if_pos hcarries]
        rfl
      · rw [if_neg hcarries, remove_of_not_carries (Bool.eq_false_iff.mpr hcarries)]
        by_cases hi : i = idx
        · rw [if_pos hi, hi]
        · rw [if_neg hi]

/-! ## 2. Every call keeps the mirror -/

theorem HashTree.put_self (tree : HashTree) (idx : Fin N_SHARDS) :
    tree.put idx (tree.shards idx) = tree := by
  unfold HashTree.put
  congr 1
  funext i
  by_cases hi : i = idx
  · rw [if_pos hi, hi]
  · rw [if_neg hi]

theorem TreeState.insert_at_skip {tiers : Tiers} (hskip : (hashes.isEmpty || tiers.is_empty) = true)
    (st : TreeState) (start : NodeId) (worker : KvWorkerId) (crumb : Option BlockHash) :
    st.insert_at start worker crumb hashes tiers = st := by
  exact if_pos hskip

theorem TreeState.insert_at_go {tiers : Tiers} (hskip : ¬ (hashes.isEmpty || tiers.is_empty) = true)
    (st : TreeState) (start : NodeId) (worker : KvWorkerId) (crumb : Option BlockHash) :
    st.insert_at start worker crumb hashes tiers
      = TreeState.insert_loop worker tiers hashes st start crumb := by
  exact if_neg hskip

variable {v u : NodeId} {idx : Fin N_SHARDS}

namespace Mirror

variable {tree : HashTree} {st : TreeState}

section

variable (hm : Mirror tree st) (worker : KvWorkerId)
include hm worker

theorem insert_at_path {path : List BlockHash}
    (crumb : Option BlockHash) (first : BlockHash) (rest : List BlockHash) (tiers : Tiers)
    (hv : (tree.shards idx).find ROOT_ID path = some v) (hu : st.find ROOT_ID path = some u)
    (hhead : ∀ k q, path ++ [first] = k :: q → shard_of k = idx) : Mirror
      (tree.put idx ((tree.shards idx).insert_at v worker crumb (first :: rest) tiers))
      (st.insert_at u worker crumb (first :: rest) tiers) := by
  by_cases hskip : ((first :: rest).isEmpty || tiers.is_empty) = true
  · rw [TreeState.insert_at_skip hskip, TreeState.insert_at_skip hskip, HashTree.put_self]
    exact hm
  · rw [TreeState.insert_at_go hskip, TreeState.insert_at_go hskip]
    have ht : tiers ≠ Tiers.none_held := by
      intro hnone
      apply hskip
      rw [Tiers.is_empty_iff.mpr hnone, Bool.or_true]
    have hroot : path = [] → ∀ h, (first :: rest).head? = some h → shard_of h = idx := by
      rintro rfl h hh
      cases hh
      exact hhead first [] rfl
    obtain ⟨nv, hnv⟩ := (hm.shards idx).linked.find_mem hv
    obtain ⟨nu, hnu⟩ := hm.sound.linked.find_mem hu
    have hshard : (TreeState.insert_loop worker tiers (first :: rest) (tree.shards idx) v
          crumb).lookup
        = store worker tiers (first :: rest) (tree.shards idx).lookup path crumb :=
      lookup_insert_loop _ _ _ _ _ (hm.shards idx).linked hv hroot
    have hwhole : (TreeState.insert_loop worker tiers (first :: rest) st u crumb).lookup
        = store worker tiers (first :: rest) st.lookup path crumb :=
      lookup_insert_loop _ _ _ _ _ hm.sound.linked hu (fun _ _ _ => trivial)
    -- the shard and the whole agree at the paths of the shard, and the store stays among them
    let mine : List BlockHash → Prop := fun q => ∃ k r, q = k :: r ∧ shard_of k = idx
    have hagree : ∀ q, mine q → (tree.shards idx).lookup q = st.lookup q := by
      rintro q ⟨k, r, rfl, hk⟩
      have hsame := hm.same k r
      rw [hk] at hsame
      exact hsame
    have hinside : ∀ n, n < (first :: rest).length →
        mine (path ++ (first :: rest).take (n + 1)) := by
      intro n _
      cases path with
      | nil => exact ⟨first, rest.take n, rfl, hhead first [] rfl⟩
      | cons k q => exact ⟨k, _, rfl, hhead k (q ++ [first]) rfl⟩
    have hstore : (∀ q, mine q →
          store worker tiers (first :: rest) (tree.shards idx).lookup path crumb q
            = store worker tiers (first :: rest) st.lookup path crumb q) ∧
        ∀ q, ¬ mine q → store worker tiers (first :: rest) st.lookup path crumb q
          = st.lookup q :=
      store_congr _ _ _ _ _ hagree hinside
    obtain ⟨hin, hout⟩ := hstore
    constructor
    · apply hm.shards.put
      apply Sound.insert_loop ht _ _ v nv crumb (hm.shards idx) hnv
      intro hvroot
      apply hroot
      by_contra hne
      exact (hm.shards idx).linked.find_ne_root hv hne hvroot
    · exact Sound.insert_loop ht _ _ u nu crumb hm.sound hnu (fun _ _ _ => trivial)
    · intro k r
      rw [hwhole]
      show (if shard_of k = idx then _ else tree.shards (shard_of k)).lookup _ = _
      by_cases hk : shard_of k = idx
      · rw [if_pos hk, hshard]
        exact hin _ ⟨k, r, rfl, hk⟩
      · rw [if_neg hk, hm.same, hout]
        rintro ⟨k', r', heq, hk'⟩
        rw [(List.cons.inj heq).1] at hk
        exact hk hk'

/-- **A store keeps the mirror**, whichever owned candidate it takes. -/
theorem insert_tiered (parent_hash : Option BlockHash) (first : BlockHash) (rest : List BlockHash)
    (tiers : Tiers) {link : ParentLink}
    (hroute : tree.route_insert worker parent_hash first = (idx, link))
    (hv : (tree.shards idx).Resolves worker link.attach v) (hu : st.Resolves worker parent_hash u)
    (hsame : SameChoice st worker parent_hash u (tree.shards idx) v) : Mirror
      (tree.put idx ((tree.shards idx).insert_at v worker link.breadcrumb (first :: rest) tiers))
      (st.insert_at u worker parent_hash (first :: rest) tiers) := by
  obtain ⟨hcrumb, hplace⟩ := hm.resolved hroute hv hu hsame
  rw [hcrumb]
  rcases hplace with ⟨hshard, rfl, rfl⟩ | ⟨k, q, hk, hpv, hpu⟩
  · have hroot : (tree.shards idx).find ROOT_ID [] = some ROOT_ID := rfl
    have hroot' : st.find ROOT_ID [] = some ROOT_ID := rfl
    apply hm.insert_at_path worker parent_hash first rest tiers hroot hroot'
    intro k' q' heq
    rw [← (List.cons.inj heq).1]
    exact hshard
  · apply hm.insert_at_path worker parent_hash first rest tiers hpv hpu
    intro k' q' heq
    rw [← (List.cons.inj heq).1]
    exact hk

omit hm worker in
theorem trimmed (hm : Mirror tree st) {tree' : HashTree} {st' : TreeState}
    (T : BlockHash → Prop) [DecidablePred T]
    (f : OrderedDict KvWorkerId Tiers → OrderedDict KvWorkerId Tiers)
    (hshards : TreeSound tree') (hsound : Sound (fun _ => True) (fun _ => False) st')
    (htree : ∀ s path, path ≠ [] →
      (tree'.shards s).lookup path = trim T f (tree.shards s).lookup path)
    (hst : ∀ path, path ≠ [] → st'.lookup path = trim T f st.lookup path) : Mirror tree' st' where
  shards := hshards
  sound := hsound
  same first rest := by
    rw [htree _ _ (cons_ne_nil _ _), hst _ (cons_ne_nil _ _)]
    apply trim_congr
    intro ext
    exact hm.same first (rest ++ ext)

theorem remove_tiered (hashes : List BlockHash) (tiers : Tiers) :
    Mirror (tree.remove_tiered worker hashes tiers) (st.remove worker hashes tiers) := by
  apply hm.trimmed (· ∈ hashes) (fun ws => release_tiers ws worker tiers)
    (hm.shards.remove_tiered worker hashes tiers) (hm.sound.remove worker hashes tiers)
  · intro s path hne
    rw [shards_remove_tiered hm.shards]
    exact lookup_remove (hm.shards s) worker hashes tiers hne
  · intro path hne
    exact lookup_remove hm.sound worker hashes tiers hne

theorem clear_worker : Mirror (tree.clear_worker worker) (st.clear_worker worker) := by
  apply hm.trimmed (fun _ => True) (fun ws => ws.erase worker)
    (hm.shards.clear_worker worker) (hm.sound.clear_worker worker)
  · intro s path hne
    rw [shards_clear_worker]
    exact lookup_clear_worker (hm.shards s) worker hne
  · intro path hne
    exact lookup_clear_worker hm.sound worker hne

end

end Mirror

/-- **The two mirror each other after any calls.** -/
theorem Together.mirror (h : Together tree st) : Mirror tree st := by
  induction h with
  | new => exact Mirror.new
  | insert_tiered _ worker parent_hash first rest tiers idx link v u hroute hv hu hsame ih =>
    exact ih.insert_tiered worker parent_hash first rest tiers hroute hv hu hsame
  | remove_tiered _ worker hashes tiers ih => exact ih.remove_tiered worker hashes tiers
  | clear_worker _ worker ih => exact ih.clear_worker worker

/-! ## 3. Two walks abreast -/

/-- Two nodes at the ends of one path, with the same entries on the way down `hashes`. -/
def Abreast (a b : TreeState) (v u : NodeId) (hashes : List BlockHash) : Prop :=
  ∃ path, a.find ROOT_ID path = some v ∧ b.find ROOT_ID path = some u ∧
    ∀ n, n < hashes.length →
      a.lookup (path ++ hashes.take (n + 1)) = b.lookup (path ++ hashes.take (n + 1))

section Walks

variable {below below' : Option BlockHash → BlockHash → Prop} {a b : TreeState}

theorem Abreast.step (ha : Linked below a) (hb : Linked below' b) {h : BlockHash}
    {rest : List BlockHash} (hab : Abreast a b v u (h :: rest)) :
    (a.child v h = none ∧ b.child u h = none) ∨
      ∃ v' u' n m, a.child v h = some v' ∧ b.child u h = some u' ∧
        a.nodes.get? v' = some n ∧ b.nodes.get? u' = some m ∧ n.workers = m.workers ∧
        Abreast a b v' u' rest := by
  obtain ⟨path, hv, hu, hsame⟩ := hab
  have hava : a.find ROOT_ID (path ++ [h]) = a.child v h := by
    rw [TreeState.find_snoc, hv, Option.bind_some]
  have hbub : b.find ROOT_ID (path ++ [h]) = b.child u h := by
    rw [TreeState.find_snoc, hu, Option.bind_some]
  have hhere : a.lookup (path ++ [h]) = b.lookup (path ++ [h]) := hsame 0 (Nat.succ_pos _)
  cases hc : a.child v h with
  | none =>
    left
    have hnone : a.lookup (path ++ [h]) = none := ha.lookup_eq_none.mpr (hava.trans hc)
    refine ⟨rfl, ?_⟩
    rw [← hbub]
    exact hb.lookup_eq_none.mp (hhere.symm.trans hnone)
  | some v' =>
    right
    have hv' : a.find ROOT_ID (path ++ [h]) = some v' := hava.trans hc
    obtain ⟨n, hn⟩ := ha.find_mem hv'
    have hlook := hhere.symm.trans (Linked.lookup_of_find hv' hn)
    obtain ⟨u', m, hu', hm, hentry⟩ := Linked.find_of_lookup hlook
    refine ⟨v', u', n, m, rfl, hbub.symm.trans hu', hn, hm,
      (congrArg Entry.workers hentry).symm, path ++ [h], hv', hu', ?_⟩
    intro k hk
    have hnext := hsame (k + 1) (Nat.succ_lt_succ hk)
    rw [append_assoc]
    exact hnext

theorem match_walk_cons (st : TreeState) (h : BlockHash) (rest : List BlockHash)
    (current : NodeId) (matched : ℕ) : st.match_walk (h :: rest) current matched
      = match st.child current h with
        | some child_id => st.match_walk rest child_id (matched + 1)
        | none => (current, matched) := rfl

theorem Abreast.match_walk (ha : Linked below a) (hb : Linked below' b) :
    ∀ (hashes : List BlockHash) (v u : NodeId) (matched : ℕ), Abreast a b v u hashes →
      (a.match_walk hashes v matched).2 = (b.match_walk hashes u matched).2 ∧
      ((a.nodes.get? v).map Node.workers = (b.nodes.get? u).map Node.workers ∨
          matched < (a.match_walk hashes v matched).2 →
        (a.nodes.get? (a.match_walk hashes v matched).1).map Node.workers
          = (b.nodes.get? (b.match_walk hashes u matched).1).map Node.workers) := by
  intro hashes
  induction hashes with
  | nil =>
    intro v u matched _
    refine ⟨rfl, ?_⟩
    rintro (hsame | hlt)
    · exact hsame
    · exact absurd hlt (Nat.lt_irrefl _)
  | cons h rest ih =>
    intro v u matched hab
    rw [match_walk_cons, match_walk_cons]
    rcases hab.step ha hb with ⟨hv, hu⟩ | ⟨v', u', n, m, hv, hu, hn, hm, hsame, hrest⟩
    · rw [hv, hu]
      refine ⟨rfl, ?_⟩
      rintro (hsame | hlt)
      · exact hsame
      · exact absurd hlt (Nat.lt_irrefl _)
    · rw [hv, hu]
      obtain ⟨hcount, hend⟩ := ih v' u' (matched + 1) hrest
      refine ⟨hcount, fun _ => hend (Or.inl ?_)⟩
      rw [hn, hm, Option.map_some, Option.map_some, hsame]

theorem depth_walk_cons (st : TreeState) (h : BlockHash) (rest : List BlockHash)
    (current : NodeId) (reached : ℕ) (depths : OrderedDict KvWorkerId ℕ)
    (alive : List KvWorkerId) : st.depth_walk (h :: rest) current reached depths alive
      = match st.child current h with
        | none => TreeState.freeze depths alive reached
        | some child_id =>
          match st.nodes.get? child_id with
          | none => TreeState.freeze depths alive reached
          | some child =>
            let still : List KvWorkerId :=
              if reached = 0 then child.workers.keys
              else alive.filter fun w => (child.workers.get? w).isSome
            let depths' : OrderedDict KvWorkerId ℕ :=
              if reached = 0 then depths
              else TreeState.freeze depths
                (alive.filter fun w => (child.workers.get? w).isNone) reached
            if still.isEmpty then TreeState.freeze depths' still (reached + 1)
            else st.depth_walk rest child_id (reached + 1) depths' still := rfl

theorem Abreast.depth_walk (ha : Linked below a) (hb : Linked below' b) :
    ∀ (hashes : List BlockHash) (v u : NodeId) (reached : ℕ) (depths : OrderedDict KvWorkerId ℕ)
      (alive : List KvWorkerId), Abreast a b v u hashes →
      a.depth_walk hashes v reached depths alive = b.depth_walk hashes u reached depths alive := by
  intro hashes
  induction hashes with
  | nil =>
    intro v u reached depths alive _
    rfl
  | cons h rest ih =>
    intro v u reached depths alive hab
    rw [depth_walk_cons, depth_walk_cons]
    rcases hab.step ha hb with ⟨hv, hu⟩ | ⟨v', u', n, m, hv, hu, hn, hm, hsame, hrest⟩
    · rw [hv, hu]
    · rw [hv, hu]
      dsimp only
      rw [hn, hm]
      dsimp only
      rw [hsame, ih v' u' _ _ _ hrest]

end Walks

/-! ## 4. Every query reads the same -/

theorem count_total (tree : HashTree) (p : BlockHash) (todo : List (Fin N_SHARDS))
    (acc : ℕ × Option (Fin N_SHARDS)) : (todo.foldl (tree.count_shard p) acc).1
        = acc.1 + (todo.map fun s => ((tree.shards s).ids p).length).sum ∨
      (1 < (todo.foldl (tree.count_shard p) acc).1 ∧
        1 < acc.1 + (todo.map fun s => ((tree.shards s).ids p).length).sum) := by
  induction todo generalizing acc with
  | nil => exact Or.inl rfl
  | cons s todo ih =>
    rw [foldl_cons, map_cons, sum_cons]
    have hstep : (tree.count_shard p acc s).1 = acc.1 + ((tree.shards s).ids p).length ∨
        (1 < acc.1 ∧ (tree.count_shard p acc s).1 = acc.1) := by
      unfold HashTree.count_shard
      by_cases hstop : acc.1 > 1
      · rw [if_pos hstop]
        exact Or.inr ⟨hstop, rfl⟩
      · rw [if_neg hstop]
        split
        · next hnil =>
          rw [List.isEmpty_iff.mp hnil]
          exact Or.inl rfl
        · exact Or.inl rfl
    rcases ih (tree.count_shard p acc s) with h | ⟨h, h'⟩ <;> omega

theorem count_single (tree : HashTree) (p : BlockHash) (todo : List (Fin N_SHARDS))
    (acc : ℕ × Option (Fin N_SHARDS))
    (h : acc.1 ≠ 0 → ∃ i, acc.2 = some i ∧ (tree.shards i).ids p ≠ []) :
    (todo.foldl (tree.count_shard p) acc).1 ≠ 0 →
      ∃ i, (todo.foldl (tree.count_shard p) acc).2 = some i ∧ (tree.shards i).ids p ≠ [] := by
  refine foldlRecOn (motive := fun acc : ℕ × Option (Fin N_SHARDS) =>
    acc.1 ≠ 0 → ∃ i, acc.2 = some i ∧ (tree.shards i).ids p ≠ []) _ _ h (fun acc h s _ => ?_)
  unfold HashTree.count_shard
  split
  · exact h
  · split
    · exact h
    · next hne =>
      intro _
      exact ⟨s, rfl, fun hnil => hne (List.isEmpty_iff.mpr hnil)⟩

/-- **The two ways a match with a parent is routed**: one candidate, or not one. -/
theorem route_match_cases (tree : HashTree) (p first : BlockHash) :
    (∃ i, carriers tree p = 1 ∧ (tree.shards i).ids p ≠ [] ∧
        tree.route_match (some p) first = (i, some p)) ∨
      (carriers tree p ≠ 1 ∧ tree.route_match (some p) first = (shard_of first, none)) := by
  have htotal := count_total tree p HashTree.indices (0, none)
  have hsingle := count_single tree p HashTree.indices (0, none) (fun h => absurd rfl h)
  rw [Nat.zero_add] at htotal
  unfold HashTree.route_match
  dsimp only
  generalize HashTree.indices.foldl (tree.count_shard p) (0, none) = found at *
  replace htotal : found.1 = carriers tree p ∨ (1 < found.1 ∧ 1 < carriers tree p) := htotal
  by_cases hone : found.1 = 1
  · obtain ⟨i, hi, hne⟩ := hsingle (by rw [hone]; exact Nat.one_ne_zero)
    refine Or.inl ⟨i, by omega, hne, ?_⟩
    rw [if_pos hone, hi]
    rfl
  · exact Or.inr ⟨by omega, if_neg hone⟩

theorem match_start_of_single {p : BlockHash} {u : NodeId} (h : st.ids p = [u]) :
    st.match_start (some p) = u := by
  unfold TreeState.match_start
  dsimp only
  rw [get?_by_hash_of_ids h]

theorem match_start_of_not_single {p : BlockHash} (h : (st.ids p).length ≠ 1) :
    st.match_start (some p) = ROOT_ID := by
  unfold TreeState.match_start
  dsimp only
  split
  · next only hb =>
    exfalso
    apply h
    unfold TreeState.ids
    rw [hb]
    rfl
  · rfl

namespace Mirror

variable {tree : HashTree} {st : TreeState}

section

variable (hm : Mirror tree st)
include hm

theorem abreast_root (first : BlockHash) (rest : List BlockHash) :
    Abreast (tree.shards (shard_of first)) st ROOT_ID ROOT_ID (first :: rest) := by
  refine ⟨[], rfl, rfl, ?_⟩
  intro n _
  exact hm.same first (rest.take n)

theorem abreast_mates {s : Fin N_SHARDS} (h : Mates tree st s v u)
    (hashes : List BlockHash) : Abreast (tree.shards s) st v u hashes := by
  obtain ⟨first, rest, rfl, hv, hu⟩ := h
  refine ⟨first :: rest, hv, hu, ?_⟩
  intro n _
  exact hm.same first (rest ++ hashes.take (n + 1))

/-- **A descent that reads alike where it walks abreast reads alike in the end**: it starts at
mates, or at the root in the shard of the first hash. -/
theorem descend_eq {α : Type} (body : TreeState → NodeId → α) (first : BlockHash)
    (rest : List BlockHash) (hbody : ∀ s v u, Abreast (tree.shards s) st v u (first :: rest) →
      body (tree.shards s) v = body st u) (parent_hash : Option BlockHash) :
    tree.descend_match_shard parent_hash first (fun sh parent => body sh (sh.match_start parent))
      = body st (st.match_start parent_hash) := by
  have hroot : body (tree.shards (shard_of first)) ROOT_ID = body st ROOT_ID :=
    hbody _ _ _ (hm.abreast_root first rest)
  cases parent_hash with
  | none => exact hroot
  | some p =>
    unfold HashTree.descend_match_shard
    have hcount := hm.carriers_eq p
    rcases route_match_cases tree p first with ⟨i, hone, hne, hr⟩ | ⟨hother, hr⟩
    · rw [hr]
      dsimp only
      have hlen := length_ids_of_one hone hne
      rw [if_pos hlen]
      obtain ⟨v, hv⟩ := length_eq_one_iff.mp hlen
      obtain ⟨u, hu⟩ := length_eq_one_iff.mp (hcount.symm.trans hone)
      have hmem : v ∈ (tree.shards i).ids p := by
        rw [hv]
        exact mem_singleton_self v
      obtain ⟨u', hu', hmates⟩ := hm.mate_of_candidate hmem
      rw [hu] at hu'
      obtain rfl := mem_singleton.mp hu'
      rw [match_start_of_single hv, match_start_of_single hu]
      exact hbody i v u' (hm.abreast_mates hmates _)
    · rw [hr]
      rw [match_start_of_not_single (hcount ▸ hother)]
      exact hroot

theorem prefix_depths_eq (parent_hash : Option BlockHash) (hashes : List BlockHash) :
    tree.prefix_depths parent_hash hashes = st.prefix_depths parent_hash hashes := by
  cases hashes with
  | nil => rfl
  | cons first rest =>
    have hbody : ∀ s v u, Abreast (tree.shards s) st v u (first :: rest) →
        (tree.shards s).depth_walk (first :: rest) v 0 .empty []
          = st.depth_walk (first :: rest) u 0 .empty [] := by
      intro s v u hab
      exact hab.depth_walk (hm.shards s).linked hm.sound.linked _ _ _ _ _ _
    exact hm.descend_eq (fun sh start => sh.depth_walk (first :: rest) start 0 .empty []) first rest
      hbody parent_hash

theorem match_prefix_eq (parent_hash : Option BlockHash) (hashes : List BlockHash) :
    tree.match_prefix parent_hash hashes = st.match_prefix parent_hash hashes := by
  cases hashes with
  | nil => rfl
  | cons first rest =>
    have hbody : ∀ s v u, Abreast (tree.shards s) st v u (first :: rest) →
        (tree.shards s).match_from v (first :: rest) = st.match_from u (first :: rest) := by
      intro s v u hab
      obtain ⟨hcount, hend⟩ :=
        hab.match_walk (hm.shards s).linked hm.sound.linked _ _ _ 0
      unfold TreeState.match_from
      dsimp only
      rw [← hcount]
      by_cases hpos : 0 < ((tree.shards s).match_walk (first :: rest) v 0).2
      · rw [if_pos hpos, if_pos hpos, hend (Or.inr hpos)]
      · rw [if_neg hpos, if_neg hpos]
    exact hm.descend_eq (fun sh start => sh.match_from start (first :: rest)) first rest
      hbody parent_hash

theorem exists_same_choice {worker : KvWorkerId} {parent_hash : Option BlockHash}
    {first : BlockHash} {link : ParentLink} {v : NodeId}
    (hroute : tree.route_insert worker parent_hash first = (idx, link))
    (hv : (tree.shards idx).Resolves worker link.attach v) : ∃ u, st.Resolves worker parent_hash u ∧
      SameChoice st worker parent_hash u (tree.shards idx) v := by
  by_cases hmany : ∃ p, parent_hash = some p ∧
      ∃ a b, a ∈ st.ids p ∧ b ∈ st.ids p ∧ a ≠ b ∧ st.owns worker a ∧ st.owns worker b
  · obtain ⟨p, rfl, a, b, ha, hb, hab, hown, -⟩ := hmany
    have hlen : 1 < (st.ids p).length := by
      cases hlist : st.ids p with
      | nil =>
        rw [hlist] at ha
        exact absurd ha not_mem_nil
      | cons x tail =>
        rw [hlist] at ha hb
        cases tail with
        | nil =>
          exact absurd ((mem_singleton.mp ha).trans (mem_singleton.mp hb).symm) hab
        | cons y tail => exact Nat.succ_lt_succ (Nat.succ_pos _)
    -- so the store was routed to a shard with an owned candidate, and took one there
    have hcount := hm.carriers_eq p
    rcases route_insert_cases tree worker p first with
      ⟨hzero, -⟩ | ⟨i, hone, -, -⟩ | ⟨i, -, hcand, hr⟩ | ⟨-, hnone, -⟩
    · omega
    · omega
    · cases hr.symm.trans hroute
      obtain ⟨hvmem, hvown⟩ := Resolves.of_owned hv (owns_candidate_iff.mp hcand)
      obtain ⟨u, hu, hmates⟩ := hm.mate_of_candidate hvmem
      have huown := (hm.owns_iff_of_mates hmates worker).mp hvown
      refine ⟨u, Or.inr (Or.inr ⟨hlen, Or.inl ⟨hu, huown⟩⟩), ?_⟩
      intro _ _ _
      obtain ⟨k, q, -, hpv, hpu⟩ := hmates
      exact ⟨k :: q, hpu, hpv⟩
    · obtain ⟨s, w, hw, hwown⟩ := (hm.owned_iff worker p).mpr ⟨a, ha, hown⟩
      have hyes := owns_candidate_iff.mpr ⟨w, hw, hwown⟩
      rw [hnone s] at hyes
      cases hyes
  · refine ⟨st.resolve_parent worker parent_hash, st.resolves_resolve_parent worker parent_hash, ?_⟩
    intro p hp howned
    exact absurd ⟨p, hp, howned⟩ hmany

end

end Mirror

/-! ## 5. Sharding is invisible -/

/-- The calls that change a tree. -/
inductive TreeWrite where
  | insert_tiered (worker : KvWorkerId) (parent_hash : Option BlockHash)
      (block_hashes : List BlockHash) (tiers : Tiers)
  | remove_tiered (worker : KvWorkerId) (block_hashes : List BlockHash) (tiers : Tiers)
  | clear_worker (worker : KvWorkerId)

def HashTree.write (tree : HashTree) : TreeWrite → HashTree
  | .insert_tiered worker parent_hash block_hashes tiers =>
    tree.insert_tiered worker parent_hash block_hashes tiers
  | .remove_tiered worker block_hashes tiers => tree.remove_tiered worker block_hashes tiers
  | .clear_worker worker => tree.clear_worker worker

theorem Together.write (h : Together tree st) (w : TreeWrite) :
    ∃ st', Together (tree.write w) st' := by
  cases w with
  | insert_tiered worker parent_hash block_hashes tiers =>
    cases block_hashes with
    | nil => exact ⟨st, h⟩
    | cons first rest =>
      by_cases hnone : tiers.is_empty = true
      · refine ⟨st, ?_⟩
        have hskip : tree.write (.insert_tiered worker parent_hash (first :: rest) tiers)
            = tree := if_pos hnone
        rw [hskip]
        exact h
      · cases hroute : tree.route_insert worker parent_hash first with
        | mk idx link =>
          have hv := (tree.shards idx).resolves_resolve_parent worker link.attach
          obtain ⟨u, hu, hsame⟩ := h.mirror.exists_same_choice hroute hv
          refine ⟨st.insert_at u worker parent_hash (first :: rest) tiers, ?_⟩
          have heq : tree.write (.insert_tiered worker parent_hash (first :: rest) tiers)
              = tree.put idx ((tree.shards idx).insert_at
                  ((tree.shards idx).resolve_parent worker link.attach) worker
                  link.breadcrumb (first :: rest) tiers) := by
            show (if tiers.is_empty = true then tree else _) = _
            rw [if_neg hnone, hroute]
            rfl
          rw [heq]
          exact h.insert_tiered worker parent_hash first rest tiers idx link _ u
            hroute hv hu hsame
  | remove_tiered worker block_hashes tiers =>
    exact ⟨_, h.remove_tiered worker block_hashes tiers⟩
  | clear_worker worker => exact ⟨_, h.clear_worker worker⟩

/-- The same tree up to node ids: the same entry at every path, which lies in the shard of its first
hash; and every node of either side is at the end of exactly one path. -/
structure SameTree (tree : HashTree) (st : TreeState) : Prop where
  entries : ∀ first rest, (tree.shards (shard_of first)).lookup (first :: rest)
    = st.lookup (first :: rest)
  whole_node : ∀ u m, st.nodes.get? u = some m → ∃! path, st.find ROOT_ID path = some u
  shard_node : ∀ s v n, v ≠ ROOT_ID → (tree.shards s).nodes.get? v = some n →
    ∃ first rest, shard_of first = s ∧
      (∀ path, (tree.shards s).find ROOT_ID path = some v ↔ path = first :: rest)
  candidates : ∀ p, carriers tree p = (st.ids p).length

theorem Mirror.same_tree (hm : Mirror tree st) : SameTree tree st where
  entries := hm.same
  whole_node u m hmu := by
    obtain ⟨path, hpath⟩ := hm.sound.linked.exists_path u m hmu
    exact ⟨path, hpath, fun q hq => hm.sound.linked.find_inj q path u hq hpath⟩
  shard_node s v n hv hn := by
    obtain ⟨u, m, -, -, ⟨first, rest, hs, hpath, -⟩, -⟩ := hm.mate_of_shard hv hn
    refine ⟨first, rest, hs, ?_⟩
    intro path
    constructor
    · intro h
      exact (hm.shards s).linked.find_inj path (first :: rest) v h hpath
    · rintro rfl
      exact hpath
  candidates := hm.carriers_eq

/-- **Sharding is invisible.** Any calls on the sharded tree can be made on an unsharded one beside
it, and whichever candidate the sharded one takes the other can take; in all those runs they hold
the same tree and answer every query alike, and every chain hangs off the root of the shard of its
first hash. -/
theorem sharding_invisible :
    (∀ writes : List TreeWrite, ∃ st, Together (writes.foldl HashTree.write HashTree.new) st) ∧
      ∀ tree st, Together tree st → (∀ worker parent_hash first v,
          (tree.shards (tree.route_insert worker parent_hash first).1).Resolves worker
            (tree.route_insert worker parent_hash first).2.attach v →
          ∃ u, st.Resolves worker parent_hash u ∧ SameChoice st worker parent_hash u
            (tree.shards (tree.route_insert worker parent_hash first).1) v) ∧ SameTree tree st ∧
        (∀ parent_hash hashes,
          tree.match_prefix parent_hash hashes = st.match_prefix parent_hash hashes ∧
          tree.prefix_depths parent_hash hashes = st.prefix_depths parent_hash hashes) ∧
        ∀ s h c, (tree.shards s).child ROOT_ID h = some c → shard_of h = s := by
  constructor
  · intro writes
    exact foldlRecOn (motive := fun tree => ∃ st, Together tree st) _ _ ⟨_, Together.new⟩
      (fun _ h w _ => h.elim (fun _ h => h.write w))
  · intro tree st h
    have hm := h.mirror
    refine ⟨?_, hm.same_tree, ?_, ?_⟩
    · intro worker parent_hash first v hv
      exact hm.exists_same_choice rfl hv
    · intro parent_hash hashes
      exact ⟨hm.match_prefix_eq parent_hash hashes, hm.prefix_depths_eq parent_hash hashes⟩
    · intro s h c hc
      have hpath : (tree.shards s).find ROOT_ID [h] = some c := by
        show ((tree.shards s).child ROOT_ID h).bind _ = _
        rw [hc]
        rfl
      obtain ⟨n, hn⟩ := (hm.shards s).linked.find_mem hpath
      exact lookup_head (hm.shards s).linked (Linked.lookup_of_find hpath hn)

end LightningH3.KvIndex
