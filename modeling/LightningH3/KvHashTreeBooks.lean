/-
`sgl-router/src/state/kv_events/tree.rs`: a shard with its books, and the eviction that reads them.

`KvHashTree` has the arena and the reverse index of a shard. Here is the rest: when each node was
last used, how many nodes each worker holds on each tier (`occupancy`), and the two counters of
bookkeeping errors. Every operation is the source's, with the books kept at the same places; what it
does to the arena is the operation of `KvHashTree` (`Shard.tree_insert` and its kin).

The clock is an argument: an insert reads it once for the whole chain. A match reads the tree only,
but for the nodes it touches (`ShardedTree.touch`).
-/
import LightningH3.KvHashTreeSound
import Mathlib.Data.Prod.Lex

set_option autoImplicit false

namespace LightningH3.KvIndex

/-! ## Counting tiers -/

namespace Tiers

/-- Whether every bit of `other` is set here. -/
def contains (t other : Tiers) : Bool := t.bits &&& other.bits = other.bits

def intersection (t other : Tiers) : Tiers := ⟨t.bits &&& other.bits⟩

abbrev TIER_SLOT_COUNT : ℕ := 4

/-- `SLOTS`, without the labels. -/
def SLOTS : Fin TIER_SLOT_COUNT → Tiers
  | 0 => DEVICE
  | 1 => HOST
  | 2 => DISK
  | 3 => EXTERNAL

end Tiers

/-- `TierCounts`: how many nodes one worker holds on each tier. -/
abbrev TierCounts := Fin Tiers.TIER_SLOT_COUNT → ℕ

/-- `TierCounts::default()`. -/
def no_counts : TierCounts := fun _ => 0

/-- `tally_tiers`: one node's worth of bits. -/
def tally_tiers (counts : TierCounts) (bits : Tiers) : TierCounts := fun slot =>
  if bits.contains (Tiers.SLOTS slot) then counts slot + 1 else counts slot

/-- The bits `add_tiers` returns: those it newly sets. -/
def added_tiers (carriers : OrderedDict KvWorkerId Tiers) (worker : KvWorkerId)
    (tiers : Tiers) : Tiers :=
  match carriers.get? worker with
  | some held => tiers.difference held
  | none => tiers

/-- The bits `TreeState::remove` takes from the worker at one node. -/
def released_tiers (carriers : OrderedDict KvWorkerId Tiers) (worker : KvWorkerId)
    (tiers : Tiers) : Tiers :=
  match carriers.get? worker with
  | some held => held.intersection tiers
  | none => Tiers.none_held

/-! ## One shard -/

/-- `TreeState` in full; `missing_row` and `underflow` are the two `accounting_errors`. -/
structure Shard where
  tree : TreeState
  last_used : NodeId → ℕ
  occupancy : OrderedDict KvWorkerId TierCounts
  missing_row : ℕ
  underflow : ℕ

/-- The loops over candidates keep the first of the least ones. -/
def keep_least {κ : Type} [LT κ] [DecidableLT κ] (oldest : Option κ) (cand : κ) : Option κ :=
  match oldest with
  | none => some cand
  | some cur => if cand < cur then some cand else some cur

namespace Shard

/-- `TreeState::new`. -/
def new : Shard where
  tree := TreeState.new
  last_used _ := 0
  occupancy := .empty
  missing_row := 0
  underflow := 0

def account_add (sh : Shard) (worker : KvWorkerId) (delta : TierCounts) : Shard :=
  if ∀ slot, delta slot = 0 then sh
  else
    match sh.occupancy.get? worker with
    | some counts =>
      { sh with occupancy := sh.occupancy.set worker fun slot => counts slot + delta slot }
    | none => { sh with occupancy := sh.occupancy.set worker delta }

/-- `account_remove_counts`: the row goes with its last count. -/
def account_remove_counts (sh : Shard) (worker : KvWorkerId) (delta : TierCounts) : Shard :=
  if ∀ slot, delta slot = 0 then sh
  else
    match sh.occupancy.get? worker with
    | none => { sh with missing_row := sh.missing_row + 1 }
    | some counts =>
      let left : TierCounts := fun slot => counts slot - delta slot
      { sh with
        underflow := if ∃ slot, counts slot < delta slot then sh.underflow + 1 else sh.underflow
        occupancy :=
          if ∀ slot, left slot = 0 then sh.occupancy.erase worker
          else sh.occupancy.set worker left }

def account_remove (sh : Shard) (worker : KvWorkerId) (removed : Tiers) : Shard :=
  sh.account_remove_counts worker (tally_tiers no_counts removed)

/-- The loop of `insert`, with what is to be booked for the chain so far. -/
def insert_loop (worker : KvWorkerId) (tiers : Tiers) (now : ℕ) :
    List BlockHash → Shard → TierCounts → NodeId → Option BlockHash → Shard × TierCounts
  | [], sh, delta, _, _ => (sh, delta)
  | h :: rest, sh, delta, current, prev_hash =>
    let found : TreeState × Option NodeId :=
      match (sh.tree.nodes.get? current).bind fun n => n.children.get? h with
      | some id => (sh.tree, some id)
      | none => sh.tree.create_child current h prev_hash
    match found with
    | (tree, none) => ({ sh with tree := tree }, delta)
    | (tree, some child_id) =>
      match tree.nodes.get? child_id with
      | none => ({ sh with tree := tree }, delta)
      | some child =>
        insert_loop worker tiers now rest
          { sh with
            tree := tree.put child_id
              { child with workers := add_tiers child.workers worker tiers }
            last_used := Function.update sh.last_used child_id now }
          (tally_tiers delta (added_tiers child.workers worker tiers)) child_id (some h)

/-- `TreeState::insert`: the chain is booked once. -/
def insert (sh : Shard) (worker : KvWorkerId) (parent : ParentLink)
    (block_hashes : List BlockHash) (tiers : Tiers) (now : ℕ) : Shard :=
  if block_hashes.isEmpty || tiers.is_empty then sh
  else
    let marked := insert_loop worker tiers now block_hashes sh no_counts
      (sh.tree.resolve_parent worker parent.attach) parent.breadcrumb
    marked.1.account_add worker marked.2

/-- One turn of the loop of `remove`. -/
def remove_one (worker : KvWorkerId) (tiers : Tiers) (sh : Shard) (id : NodeId) : Shard :=
  match sh.tree.nodes.get? id with
  | none => sh.account_remove worker Tiers.none_held
  | some n =>
    let n' := { n with workers := release_tiers n.workers worker tiers }
    let sh' := { sh with tree := sh.tree.put id n' }.account_remove worker
      (released_tiers n.workers worker tiers)
    if n'.is_spent then { sh' with tree := sh'.tree.prune_cascade id } else sh'

/-- `TreeState::remove`. -/
def remove (sh : Shard) (worker : KvWorkerId) (block_hashes : List BlockHash)
    (tiers : Tiers) : Shard :=
  (block_hashes.flatMap sh.tree.ids).foldl (remove_one worker tiers) sh

/-- What the first loop of `clear_worker` has so far: the shard, what is to be booked, and the
nodes it emptied. -/
structure Clearing where
  shard : Shard
  delta : TierCounts
  prune_candidates : List NodeId

/-- One turn of the first loop of `clear_worker`. -/
def clear_one (worker : KvWorkerId) (acc : Clearing) (id : NodeId) : Clearing :=
  match acc.shard.tree.nodes.get? id with
  | none => acc
  | some n =>
    match n.workers.get? worker with
    | none => acc
    | some held =>
      let n' := { n with workers := n.workers.erase worker }
      { shard := { acc.shard with tree := acc.shard.tree.put id n' }
        delta := tally_tiers acc.delta held
        prune_candidates :=
          if n'.is_spent then acc.prune_candidates ++ [id] else acc.prune_candidates }

/-- One turn of the loops that prune a list of nodes. -/
def prune_one (sh : Shard) (id : NodeId) : Shard := { sh with tree := sh.tree.prune_one id }

/-- `TreeState::clear_worker`: what is booked away is booked once. -/
def clear_worker (sh : Shard) (worker : KvWorkerId) : Shard :=
  let cleared := (sh.tree.nodes.keys.filter (· ≠ ROOT_ID)).foldl (clear_one worker)
    ⟨sh, no_counts, []⟩
  cleared.prune_candidates.foldl prune_one (cleared.shard.account_remove_counts worker cleared.delta)

/-- `TreeState::node_count`: the root does not count. -/
def node_count (sh : Shard) : ℕ := sh.tree.nodes.size - 1

/-- `drop_empty_leaves`: the shard without them, and how many nodes went. -/
def drop_empty_leaves (sh : Shard) : Shard × ℕ :=
  let empty_leaves := (sh.tree.nodes.items.filter fun e =>
    decide (e.1 ≠ ROOT_ID) && e.2.is_spent).map Prod.fst
  let sh' := empty_leaves.foldl prune_one sh
  (sh', sh.tree.nodes.size - sh'.tree.nodes.size)

/-- `lru_leaf`: the leaf used longest ago, the lowest id among equals. -/
def lru_leaf (sh : Shard) : Option (ℕ ×ₗ NodeId) :=
  ((sh.tree.nodes.items.filter fun e => decide (e.1 ≠ ROOT_ID) && e.2.children.items.isEmpty).map
    fun e => toLex (sh.last_used e.1, e.1)).foldl keep_least none

/-- `evict_leaf`: the carriers are drained and booked away one by one, then the node is pruned. -/
def evict_leaf (sh : Shard) (victim : NodeId) : Shard × ℕ :=
  match sh.tree.nodes.get? victim with
  | none => (sh, 0)
  | some n =>
    if n.children.items.isEmpty then
      let drained := { sh with tree := sh.tree.put victim { n with workers := .empty } }
      let released := n.workers.items.foldl (fun acc c => acc.account_remove c.1 c.2) drained
      let sh' := { released with tree := released.tree.prune_cascade victim }
      (sh', sh.tree.nodes.size - sh'.tree.nodes.size)
    else (sh, 0)

end Shard

/-! ## All shards -/

/-- `HashTree` with the books of its shards. -/
structure ShardedTree where
  shards : Fin N_SHARDS → Shard

namespace ShardedTree

/-- `HashTree::new`. -/
def new : ShardedTree := ⟨fun _ => Shard.new⟩

/-- The arenas alone. -/
def index (t : ShardedTree) : HashTree := ⟨fun i => (t.shards i).tree⟩

/-- Writes one shard back. -/
def put (t : ShardedTree) (idx : Fin N_SHARDS) (sh : Shard) : ShardedTree :=
  ⟨fun i => if i = idx then sh else t.shards i⟩

def insert_tiered (t : ShardedTree) (worker : KvWorkerId) (parent_hash : Option BlockHash)
    (block_hashes : List BlockHash) (tiers : Tiers) (now : ℕ) : ShardedTree :=
  match block_hashes with
  | [] => t
  | first :: _ =>
    if tiers.is_empty then t
    else
      let routed := t.index.route_insert worker parent_hash first
      t.put routed.1 ((t.shards routed.1).insert worker routed.2 block_hashes tiers now)

def remove_tiered (t : ShardedTree) (worker : KvWorkerId) (block_hashes : List BlockHash)
    (tiers : Tiers) : ShardedTree :=
  if block_hashes.isEmpty || tiers.is_empty then t
  else
    HashTree.indices.foldl (fun acc idx =>
      if (acc.shards idx).tree.carries_any block_hashes then
        acc.put idx ((acc.shards idx).remove worker block_hashes tiers)
      else acc) t

def clear_worker (t : ShardedTree) (worker : KvWorkerId) : ShardedTree :=
  HashTree.indices.foldl (fun acc idx => acc.put idx ((acc.shards idx).clear_worker worker)) t

/-- What a match does to one node of its path. -/
def touch (t : ShardedTree) (idx : Fin N_SHARDS) (id : NodeId) (now : ℕ) : ShardedTree :=
  t.put idx { t.shards idx with last_used := Function.update (t.shards idx).last_used id now }

/-- `HashTree::node_count`. -/
def node_count (t : ShardedTree) : ℕ := (HashTree.indices.map fun i => (t.shards i).node_count).sum

/-- What `evict_lru` carries along: the tree, the nodes dropped so far, and the count it keeps. -/
structure Evicting where
  tree : ShardedTree
  pruned : ℕ
  remaining : ℕ

/-- The first phase: empty leaves, shard by shard, until the count is low enough. `true` where that
ends the call. -/
def free_empty_leaves (max_size : ℕ) : List (Fin N_SHARDS) → Evicting → Evicting × Bool
  | [], acc => (acc, false)
  | idx :: rest, acc =>
    let dropped := (acc.tree.shards idx).drop_empty_leaves
    let acc' : Evicting :=
      ⟨acc.tree.put idx dropped.1, acc.pruned + dropped.2, acc.remaining - dropped.2⟩
    if acc'.remaining ≤ max_size then (acc', true) else free_empty_leaves max_size rest acc'

/-- The oldest leaf of all shards. -/
def oldest_leaf (t : ShardedTree) : Option (ℕ ×ₗ NodeId ×ₗ Fin N_SHARDS) :=
  (HashTree.indices.filterMap fun idx => (t.shards idx).lru_leaf.map fun leaf =>
    toLex ((ofLex leaf).1, toLex ((ofLex leaf).2, idx))).foldl keep_least none

/-- The second phase, with the iterations it has left. -/
def evict_loop (max_size : ℕ) : ℕ → Evicting → Evicting
  | 0, acc => acc
  | iters + 1, acc =>
    if max_size < acc.remaining then
      match acc.tree.oldest_leaf with
      | none => acc
      | some target =>
        let victim := (ofLex (ofLex target).2).1
        let idx := (ofLex (ofLex target).2).2
        let evicted := (acc.tree.shards idx).evict_leaf victim
        if evicted.2 = 0 then
          evict_loop max_size iters { acc with tree := acc.tree.put idx evicted.1 }
        else
          evict_loop max_size iters
            ⟨acc.tree.put idx evicted.1, acc.pruned + evicted.2, acc.remaining - evicted.2⟩
    else acc

/-- `evict_lru`: the tree after it, and the number of nodes it says it pruned. -/
def evict_lru (t : ShardedTree) (max_size : ℕ) : ShardedTree × ℕ :=
  if t.node_count ≤ max_size then (t, 0)
  else
    let freed := free_empty_leaves max_size HashTree.indices ⟨t, 0, t.node_count⟩
    if freed.2 then (freed.1.tree, freed.1.pruned)
    else
      let evicted := evict_loop max_size (freed.1.remaining + 1) freed.1
      (evicted.tree, evicted.pruned)

end ShardedTree

/-! ## What the arena sees -/

namespace Shard

@[simp] theorem tree_account_add (sh : Shard) (worker : KvWorkerId) (delta : TierCounts) :
    (sh.account_add worker delta).tree = sh.tree := by
  unfold account_add
  split
  · rfl
  · split
    · rfl
    · rfl

@[simp] theorem tree_account_remove_counts (sh : Shard) (worker : KvWorkerId)
    (delta : TierCounts) : (sh.account_remove_counts worker delta).tree = sh.tree := by
  unfold account_remove_counts
  split
  · rfl
  · split
    · rfl
    · rfl

@[simp] theorem tree_account_remove (sh : Shard) (worker : KvWorkerId) (removed : Tiers) :
    (sh.account_remove worker removed).tree = sh.tree :=
  tree_account_remove_counts sh worker _

section

variable (worker : KvWorkerId)

theorem tree_insert_loop (tiers : Tiers) (now : ℕ) :
    ∀ (hashes : List BlockHash) (sh : Shard) (delta : TierCounts) (current : NodeId)
      (prev_hash : Option BlockHash),
      (insert_loop worker tiers now hashes sh delta current prev_hash).1.tree
        = TreeState.insert_loop worker tiers hashes sh.tree current prev_hash := by
  intro hashes
  induction hashes with
  | nil =>
    intro sh delta current prev_hash
    rfl
  | cons h rest ih =>
    intro sh delta current prev_hash
    unfold insert_loop TreeState.insert_loop
    cases (sh.tree.nodes.get? current).bind fun n => n.children.get? h with
    | some id =>
      dsimp only
      cases sh.tree.nodes.get? id with
      | none => rfl
      | some child => exact ih _ _ _ _
    | none =>
      obtain ⟨tree, created⟩ := sh.tree.create_child current h prev_hash
      cases created with
      | none => rfl
      | some id =>
        dsimp only
        cases tree.nodes.get? id with
        | none => rfl
        | some child => exact ih _ _ _ _

theorem tree_insert (sh : Shard) (worker : KvWorkerId) (parent : ParentLink)
    (hashes : List BlockHash) (tiers : Tiers) (now : ℕ) :
    (sh.insert worker parent hashes tiers now).tree = sh.tree.insert worker parent hashes tiers := by
  unfold insert TreeState.insert
  split
  · rfl
  · rw [tree_account_add, tree_insert_loop]

theorem tree_remove_one (tiers : Tiers) (sh : Shard) (id : NodeId) :
    (remove_one worker tiers sh id).tree = TreeState.remove_one worker tiers sh.tree id := by
  unfold remove_one TreeState.remove_one
  cases sh.tree.nodes.get? id with
  | none => exact tree_account_remove _ _ _
  | some n =>
    dsimp only
    split
    · rw [tree_account_remove]
    · rw [tree_account_remove]

theorem tree_remove (sh : Shard) (worker : KvWorkerId) (hashes : List BlockHash) (tiers : Tiers) :
    (sh.remove worker hashes tiers).tree = sh.tree.remove worker hashes tiers := by
  exact (List.foldl_hom tree (fun sh id => (tree_remove_one worker tiers sh id).symm)).symm

theorem tree_clear_one (acc : Clearing) (id : NodeId) :
    ((clear_one worker acc id).shard.tree, (clear_one worker acc id).prune_candidates)
      = TreeState.clear_one worker (acc.shard.tree, acc.prune_candidates) id := by
  unfold clear_one TreeState.clear_one
  cases acc.shard.tree.nodes.get? id with
  | none => rfl
  | some n =>
    dsimp only
    cases n.workers.get? worker with
    | none => rfl
    | some held => rfl

theorem tree_clear_loop (targets : List NodeId) (acc : Clearing) :
    ((targets.foldl (clear_one worker) acc).shard.tree,
        (targets.foldl (clear_one worker) acc).prune_candidates)
      = targets.foldl (TreeState.clear_one worker) (acc.shard.tree, acc.prune_candidates) :=
  (List.foldl_hom (fun acc : Clearing => (acc.shard.tree, acc.prune_candidates))
    (fun acc id => (tree_clear_one worker acc id).symm)).symm

end

theorem tree_prune_all (targets : List NodeId) (sh : Shard) :
    (targets.foldl prune_one sh).tree = targets.foldl TreeState.prune_one sh.tree :=
  (List.foldl_hom tree (fun _ _ => rfl)).symm

theorem tree_clear_worker (sh : Shard) (worker : KvWorkerId) :
    (sh.clear_worker worker).tree = sh.tree.clear_worker worker := by
  unfold clear_worker TreeState.clear_worker
  rw [tree_prune_all, tree_account_remove_counts, ← tree_clear_loop worker _ ⟨sh, no_counts, []⟩]

end Shard

namespace ShardedTree

theorem index_put (t : ShardedTree) (idx : Fin N_SHARDS) (sh : Shard) :
    (t.put idx sh).index = t.index.put idx sh.tree := by
  unfold index put HashTree.put
  congr 1
  funext i
  dsimp only
  split
  · rfl
  · rfl

theorem index_pass {step : ShardedTree → Fin N_SHARDS → ShardedTree}
    {step' : HashTree → Fin N_SHARDS → HashTree}
    (h : ∀ t idx, (step t idx).index = step' t.index idx) (todo : List (Fin N_SHARDS))
    (t : ShardedTree) : (todo.foldl step t).index = todo.foldl step' t.index :=
  (List.foldl_hom index (fun t idx => (h t idx).symm)).symm

theorem index_insert_tiered (t : ShardedTree) (worker : KvWorkerId)
    (parent_hash : Option BlockHash) (hashes : List BlockHash) (tiers : Tiers) (now : ℕ) :
    (t.insert_tiered worker parent_hash hashes tiers now).index
      = t.index.insert_tiered worker parent_hash hashes tiers := by
  unfold insert_tiered HashTree.insert_tiered
  cases hashes with
  | nil => rfl
  | cons first rest =>
    dsimp only
    split
    · rfl
    · rw [index_put, Shard.tree_insert]
      rfl

theorem index_remove_tiered (t : ShardedTree) (worker : KvWorkerId) (hashes : List BlockHash)
    (tiers : Tiers) :
    (t.remove_tiered worker hashes tiers).index = t.index.remove_tiered worker hashes tiers := by
  unfold remove_tiered HashTree.remove_tiered
  split
  · rfl
  · apply index_pass
    intro t idx
    show _ = if (t.shards idx).tree.carries_any hashes = true then _ else _
    split
    · rw [index_put, Shard.tree_remove]
      rfl
    · rfl

theorem index_clear_worker (t : ShardedTree) (worker : KvWorkerId) :
    (t.clear_worker worker).index = t.index.clear_worker worker := by
  apply index_pass
  intro t idx
  rw [index_put, Shard.tree_clear_worker]
  rfl

end ShardedTree

/-! ## Runs -/

/-- The calls that change the tree, and what a match does to one node. -/
inductive TreeOp where
  | insert_tiered (worker : KvWorkerId) (parent_hash : Option BlockHash)
      (block_hashes : List BlockHash) (tiers : Tiers) (now : ℕ)
  | remove_tiered (worker : KvWorkerId) (block_hashes : List BlockHash) (tiers : Tiers)
  | clear_worker (worker : KvWorkerId)
  | touch (idx : Fin N_SHARDS) (id : NodeId) (now : ℕ)
  | evict_lru (max_size : ℕ)

def apply_op (t : ShardedTree) : TreeOp → ShardedTree
  | .insert_tiered worker parent_hash hashes tiers now =>
    t.insert_tiered worker parent_hash hashes tiers now
  | .remove_tiered worker hashes tiers => t.remove_tiered worker hashes tiers
  | .clear_worker worker => t.clear_worker worker
  | .touch idx id now => t.touch idx id now
  | .evict_lru max_size => (t.evict_lru max_size).1

/-- The tree after a sequence of calls. -/
def tree_after (ops : List TreeOp) : ShardedTree := ops.foldl apply_op ShardedTree.new

end LightningH3.KvIndex
