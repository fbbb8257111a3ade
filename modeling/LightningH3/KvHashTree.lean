/-
`sgl-router/src/state/kv_events/tree.rs`: the hash-keyed tree that indexes which worker holds
which cached block, on which storage tiers.

A `TreeState` is one shard: an arena of nodes, one per block hash and position, with the reverse
index `by_hash` from a hash to the nodes that carry it. A `HashTree` is 32 shards; a chain lives
in the shard its first hash mixes to. Every method below is the method of the same name.

What is left out: the `last_used` clock and the LRU eviction that reads it (nothing outside
the tests calls it), the occupancy counters, the locks (one writer at a time, `HashTree::writer`)
and the log lines. A hash map is modelled by a dictionary in insertion order, a hash set by the
list of its elements; node ids are natural numbers.
-/
import LightningH3.Lib.OrderedDict

set_option autoImplicit false

namespace LightningH3.KvIndex

/-! ## Block hashes and their shards -/

/-- A 64-bit block hash; only its bits are used. -/
abbrev BlockHash := BitVec 64

/-- `N_SHARDS`. -/
abbrev N_SHARDS : ℕ := 32

/-- `SHARD_MIX`, the Fibonacci-hashing constant. -/
def SHARD_MIX : BitVec 64 := 0x9E3779B97F4A7C15#64

/-- `shard_of`: the top five bits of the mixed hash. The bound is what indexing `shards` needs. -/
def shard_of (root_hash : BlockHash) : Fin N_SHARDS :=
  ⟨((root_hash * SHARD_MIX) >>> 59).toNat, by
    have hlt : (root_hash * SHARD_MIX).toNat < 2 ^ 64 := BitVec.isLt _
    rw [BitVec.toNat_ushiftRight, Nat.shiftRight_eq_div_pow]
    show _ < 32
    omega⟩

/-- `KvWorkerId`: a worker endpoint and its data-parallel rank. -/
structure KvWorkerId where
  url : String
  dp_rank : BitVec 32
  deriving DecidableEq

/-! ## Storage tiers -/

/-- `Tiers(u8)`: the tiers on which one worker holds one block. -/
structure Tiers where
  bits : BitVec 8
  deriving DecidableEq

namespace Tiers

/-- `Tiers::default()`. -/
def none_held : Tiers := ⟨0#8⟩

def DEVICE : Tiers := ⟨1#8⟩
def HOST : Tiers := ⟨2#8⟩
def DISK : Tiers := ⟨4#8⟩
def EXTERNAL : Tiers := ⟨8#8⟩

def is_empty (t : Tiers) : Bool := t.bits = 0#8

/-- The bits set in either; `insert` stores this. -/
def union (t other : Tiers) : Tiers := ⟨t.bits ||| other.bits⟩

/-- The bits set here and not in `other`; `remove` stores this. -/
def difference (t other : Tiers) : Tiers := ⟨t.bits &&& ~~~other.bits⟩

def ALL : Tiers := ((DEVICE.union HOST).union DISK).union EXTERNAL

/-- The medium strings on the wire and the tier each lands on. -/
def WIRE_MEDIA : List (String × Tiers) :=
  [("GPU", DEVICE), ("CPU_PINNED", HOST), ("DISK", DISK), ("EXTERNAL", EXTERNAL)]

def known (medium : String) : Option Tiers :=
  (WIRE_MEDIA.find? fun entry => entry.1 = medium).map Prod.snd

/-- The tiers a `BlockStored` lands on: untagged is a device store, an unknown tag lands on no
tier. -/
def for_store : Option String → Tiers
  | none => DEVICE
  | some m => (known m).getD none_held

/-- The tiers a `BlockRemoved` clears: its own, or every tier when the tag is absent or
unknown. -/
def for_remove (medium : Option String) : Tiers :=
  (medium.bind known).getD ALL

end Tiers

/-- `add_tiers`: adds `tiers` to the worker's hold, creating the entry on first sight. -/
def add_tiers (carriers : OrderedDict KvWorkerId Tiers) (worker : KvWorkerId) (tiers : Tiers) :
    OrderedDict KvWorkerId Tiers :=
  match carriers.get? worker with
  | some held => carriers.set worker (held.union tiers)
  | none => carriers.set worker tiers

/-- What `TreeState::remove` does to one node's carriers: the worker loses `tiers`, and its entry
goes with its last tier. -/
def release_tiers (carriers : OrderedDict KvWorkerId Tiers) (worker : KvWorkerId)
    (tiers : Tiers) : OrderedDict KvWorkerId Tiers :=
  match carriers.get? worker with
  | none => carriers
  | some held =>
    if (held.difference tiers).is_empty then carriers.erase worker
    else carriers.set worker (held.difference tiers)

/-! ## One shard -/

abbrev NodeId := ℕ

def ROOT_ID : NodeId := 0

/-- `ROOT_HASH_SENTINEL`, `i64::MIN`. -/
def ROOT_HASH_SENTINEL : BlockHash := 0x8000000000000000#64

/-- `Node`: `parent` is `none` for the root sentinel only. -/
structure Node where
  block_hash : BlockHash
  parent_block_hash : Option BlockHash
  parent : Option NodeId
  workers : OrderedDict KvWorkerId Tiers
  children : OrderedDict BlockHash NodeId

namespace Node

/-- `Node::new_child`. -/
def new_child (block_hash : BlockHash) (parent_block_hash : Option BlockHash)
    (parent : NodeId) : Node where
  block_hash := block_hash
  parent_block_hash := parent_block_hash
  parent := some parent
  workers := .empty
  children := .empty

/-- The root sentinel `TreeState::new` inserts. -/
def sentinel : Node where
  block_hash := ROOT_HASH_SENTINEL
  parent_block_hash := none
  parent := none
  workers := .empty
  children := .empty

/-- `workers.is_empty() && children.is_empty()`. -/
def is_spent (n : Node) : Bool := n.workers.items.isEmpty && n.children.items.isEmpty

/-- The tiers on which `worker` holds this node's block. -/
def tiers_of (n : Node) (worker : KvWorkerId) : Tiers :=
  (n.workers.get? worker).getD Tiers.none_held

end Node

/-- `ParentLink`: where an insert hangs its chain, and what its first node records. -/
structure ParentLink where
  attach : Option BlockHash
  breadcrumb : Option BlockHash

/-- `TreeState`: the arena and the reverse index of one shard. -/
structure TreeState where
  nodes : OrderedDict NodeId Node
  by_hash : OrderedDict BlockHash (List NodeId)
  next_id : NodeId

namespace TreeState

/-- `TreeState::new`. -/
def new : TreeState where
  nodes := OrderedDict.empty.set ROOT_ID Node.sentinel
  by_hash := .empty
  next_id := 1

/-- `by_hash.get(h)`, with the absent entry read as no candidate. -/
def ids (st : TreeState) (h : BlockHash) : List NodeId := (st.by_hash.get? h).getD []

/-- Writes a node back into the arena: what mutating through `nodes.get_mut` does. -/
def put (st : TreeState) (id : NodeId) (n : Node) : TreeState :=
  { st with nodes := st.nodes.set id n }

/-- `create_child`: `none` when `parent_id` is unknown, with the id spent all the same. -/
def create_child (st : TreeState) (parent_id : NodeId) (block_hash : BlockHash)
    (parent_block_hash : Option BlockHash) : TreeState × Option NodeId :=
  let id := st.next_id
  let nodes := st.nodes.set id (Node.new_child block_hash parent_block_hash parent_id)
  match nodes.get? parent_id with
  | none => ({ st with nodes := nodes.erase id, next_id := id + 1 }, none)
  | some parent =>
    ({ nodes := nodes.set parent_id { parent with children := parent.children.set block_hash id }
       by_hash := st.by_hash.set block_hash
        (if id ∈ st.ids block_hash then st.ids block_hash else st.ids block_hash ++ [id])
       next_id := id + 1 }, some id)

/-- `resolve_parent`: the single candidate, else one the worker is on, else the root. -/
def resolve_parent (st : TreeState) (worker : KvWorkerId) (parent_hash : Option BlockHash) :
    NodeId :=
  match parent_hash with
  | none => ROOT_ID
  | some p =>
    match st.by_hash.get? p with
    | none => ROOT_ID
    | some [only] => only
    | some candidates =>
      (candidates.find? fun cand =>
        (st.nodes.get? cand).any fun n => (n.workers.get? worker).isSome).getD ROOT_ID

/-- The loop of `insert`, standing at node `current`: find or create the child for the next hash,
mark it, descend. -/
def insert_loop (worker : KvWorkerId) (tiers : Tiers) :
    List BlockHash → TreeState → NodeId → Option BlockHash → TreeState
  | [], st, _, _ => st
  | h :: rest, st, current, prev_hash =>
    let found : TreeState × Option NodeId :=
      match (st.nodes.get? current).bind fun n => n.children.get? h with
      | some id => (st, some id)
      | none => st.create_child current h prev_hash
    match found with
    | (st', none) => st'
    | (st', some child_id) =>
      match st'.nodes.get? child_id with
      | none => st'
      | some child =>
        insert_loop worker tiers rest
          (st'.put child_id { child with workers := add_tiers child.workers worker tiers })
          child_id (some h)

/-- `TreeState::insert`. -/
def insert (st : TreeState) (worker : KvWorkerId) (parent : ParentLink)
    (block_hashes : List BlockHash) (tiers : Tiers) : TreeState :=
  if block_hashes.isEmpty || tiers.is_empty then st
  else
    insert_loop worker tiers block_hashes st (st.resolve_parent worker parent.attach)
      parent.breadcrumb

def carries_any (st : TreeState) (block_hashes : List BlockHash) : Bool :=
  block_hashes.any fun h => (st.by_hash.get? h).isSome

/-- One node leaves the shard: unlinked from its parent, from the reverse index and from the
arena (the middle of the loop of `prune_cascade`). -/
def detach (st : TreeState) (cursor parent_id : NodeId) (block_hash : BlockHash) : TreeState :=
  let nodes :=
    match st.nodes.get? parent_id with
    | none => st.nodes
    | some parent =>
      st.nodes.set parent_id { parent with children := parent.children.erase block_hash }
  let by_hash :=
    match st.by_hash.get? block_hash with
    | none => st.by_hash
    | some set =>
      if (set.filter (· ≠ cursor)).isEmpty then st.by_hash.erase block_hash
      else st.by_hash.set block_hash (set.filter (· ≠ cursor))
  { st with nodes := nodes.erase cursor, by_hash := by_hash }

/-- The loop of `prune_cascade`. The fuel bounds the number of turns; every turn that goes on has
dropped a node. -/
def prune_loop : ℕ → TreeState → NodeId → TreeState
  | 0, st, _ => st
  | fuel + 1, st, cursor =>
    if cursor = ROOT_ID then st
    else
      match st.nodes.get? cursor with
      | none => st
      | some n =>
        match n.parent with
        | none => st
        | some parent_id =>
          if n.is_spent then
            let st' := st.detach cursor parent_id n.block_hash
            if (st'.nodes.get? parent_id).any
                fun p => decide (parent_id ≠ ROOT_ID) && p.is_spent then
              prune_loop fuel st' parent_id
            else st'
          else st

/-- `prune_cascade`: detach `start` and every ancestor that becomes empty and childless. -/
def prune_cascade (st : TreeState) (start : NodeId) : TreeState :=
  prune_loop st.nodes.size st start

/-- One turn of the loop of `remove`: the node may be gone already. -/
def remove_one (worker : KvWorkerId) (tiers : Tiers) (st : TreeState) (id : NodeId) : TreeState :=
  match st.nodes.get? id with
  | none => st
  | some n =>
    let n' := { n with workers := release_tiers n.workers worker tiers }
    if n'.is_spent then (st.put id n').prune_cascade id else st.put id n'

/-- `TreeState::remove`: the targets are a snapshot of the reverse index. -/
def remove (st : TreeState) (worker : KvWorkerId) (block_hashes : List BlockHash)
    (tiers : Tiers) : TreeState :=
  (block_hashes.flatMap st.ids).foldl (remove_one worker tiers) st

/-- One turn of the first loop of `clear_worker`, collecting the nodes it emptied. -/
def clear_one (worker : KvWorkerId) (acc : TreeState × List NodeId) (id : NodeId) :
    TreeState × List NodeId :=
  match acc.1.nodes.get? id with
  | none => acc
  | some n =>
    match n.workers.get? worker with
    | none => acc
    | some _ =>
      let n' := { n with workers := n.workers.erase worker }
      (acc.1.put id n', if n'.is_spent then acc.2 ++ [id] else acc.2)

/-- One turn of the second loop of `clear_worker`: a cascade may have taken the node. -/
def prune_one (st : TreeState) (id : NodeId) : TreeState :=
  if (st.nodes.get? id).isSome then st.prune_cascade id else st

/-- `TreeState::clear_worker`. -/
def clear_worker (st : TreeState) (worker : KvWorkerId) : TreeState :=
  let cleared := (st.nodes.keys.filter (· ≠ ROOT_ID)).foldl (clear_one worker) (st, [])
  cleared.2.foldl prune_one cleared.1

/-- The start of a match: the unique node that carries the parent hash, else the root. -/
def match_start (st : TreeState) (parent_hash : Option BlockHash) : NodeId :=
  match parent_hash with
  | none => ROOT_ID
  | some p =>
    match st.by_hash.get? p with
    | some [only] => only
    | _ => ROOT_ID

/-- The workers a level of the walk of `prefix_depths` freezes: each keeps the depth before. -/
def freeze (depths : OrderedDict KvWorkerId ℕ) (dropped : List KvWorkerId) (depth : ℕ) :
    OrderedDict KvWorkerId ℕ :=
  dropped.foldl (fun acc w => acc.set w depth) depths

/-- The walk of `prefix_depths` at node `current` after `reached` levels. -/
def depth_walk (st : TreeState) :
    List BlockHash → NodeId → ℕ → OrderedDict KvWorkerId ℕ → List KvWorkerId →
      OrderedDict KvWorkerId ℕ
  | [], _, reached, depths, alive => freeze depths alive reached
  | h :: rest, current, reached, depths, alive =>
    match (st.nodes.get? current).bind fun n => n.children.get? h with
    | none => freeze depths alive reached
    | some child_id =>
      match st.nodes.get? child_id with
      | none => freeze depths alive reached
      | some child =>
        let still : List KvWorkerId :=
          if reached = 0 then child.workers.keys
          else alive.filter fun w => (child.workers.get? w).isSome
        let depths' : OrderedDict KvWorkerId ℕ :=
          if reached = 0 then depths
          else freeze depths (alive.filter fun w => (child.workers.get? w).isNone) reached
        if still.isEmpty then freeze depths' still (reached + 1)
        else depth_walk st rest child_id (reached + 1) depths' still

/-- `TreeState::prefix_depths`. -/
def prefix_depths (st : TreeState) (parent_hash : Option BlockHash)
    (block_hashes : List BlockHash) : OrderedDict KvWorkerId ℕ :=
  if block_hashes.isEmpty then .empty
  else depth_walk st block_hashes (st.match_start parent_hash) 0 .empty []

end TreeState

/-! ## The sharded tree -/

/-- `HashTree`: the shards, keyed by the mixed root hash of a chain. -/
structure HashTree where
  shards : Fin N_SHARDS → TreeState

namespace HashTree

/-- `HashTree::new`. -/
def new : HashTree := ⟨fun _ => TreeState.new⟩

/-- Writes one shard back. -/
def put (tree : HashTree) (idx : Fin N_SHARDS) (st : TreeState) : HashTree :=
  ⟨fun i => if i = idx then st else tree.shards i⟩

/-- All shards in index order. -/
def indices : List (Fin N_SHARDS) := List.finRange N_SHARDS

/-- What the scan of `route_insert` has found so far. -/
structure Carriers where
  total : ℕ
  single : Option (Fin N_SHARDS)
  owned : Option (Fin N_SHARDS)

/-- One shard of the scan: how many nodes carry `p`, and whether `worker` is on one of them. -/
def scan_shard (tree : HashTree) (worker : KvWorkerId) (p : BlockHash) (acc : Carriers)
    (idx : Fin N_SHARDS) : Carriers :=
  let st := tree.shards idx
  let ids := st.ids p
  if ids.isEmpty then acc
  else
    { total := acc.total + ids.length
      single := some idx
      owned :=
        if acc.owned.isNone &&
            ids.any fun id => (st.nodes.get? id).any fun n => (n.workers.get? worker).isSome
        then some idx else acc.owned }

/-- `route_insert`: the shard to write in and the link to write with. The first hash is passed
apart, the caller having returned on an empty list. -/
def route_insert (tree : HashTree) (worker : KvWorkerId) (parent_hash : Option BlockHash)
    (first : BlockHash) : Fin N_SHARDS × ParentLink :=
  match parent_hash with
  | none => (shard_of first, ⟨none, none⟩)
  | some p =>
    let found := indices.foldl (tree.scan_shard worker p) ⟨0, none, none⟩
    match found.total with
    | 0 => (shard_of first, ⟨some p, some p⟩)
    | 1 => (found.single.getD (shard_of first), ⟨some p, some p⟩)
    | _ =>
      match found.owned with
      | some idx => (idx, ⟨some p, some p⟩)
      | none => (shard_of first, ⟨none, some p⟩)

/-- One shard of the scan of `route_match`: a second carrier ends the scan, which the total
records. -/
def count_shard (tree : HashTree) (p : BlockHash) (acc : ℕ × Option (Fin N_SHARDS))
    (idx : Fin N_SHARDS) : ℕ × Option (Fin N_SHARDS) :=
  if acc.1 > 1 then acc
  else if ((tree.shards idx).ids p).isEmpty then acc
  else (acc.1 + ((tree.shards idx).ids p).length, some idx)

/-- `route_match`: only a unique carrier is honoured. -/
def route_match (tree : HashTree) (parent_hash : Option BlockHash) (first : BlockHash) :
    Fin N_SHARDS × Option BlockHash :=
  match parent_hash with
  | none => (shard_of first, none)
  | some p =>
    let found := indices.foldl (tree.count_shard p) (0, none)
    if found.1 = 1 then (found.2.getD (shard_of first), some p) else (shard_of first, none)

/-- `insert_tiered`: applies a `BlockStored` on `tiers`. -/
def insert_tiered (tree : HashTree) (worker : KvWorkerId) (parent_hash : Option BlockHash)
    (block_hashes : List BlockHash) (tiers : Tiers) : HashTree :=
  match block_hashes with
  | [] => tree
  | first :: _ =>
    if tiers.is_empty then tree
    else
      let routed := tree.route_insert worker parent_hash first
      tree.put routed.1 ((tree.shards routed.1).insert worker routed.2 block_hashes tiers)

/-- `remove_tiered`: applies a `BlockRemoved` for `tiers` to every shard that carries one of the
hashes. -/
def remove_tiered (tree : HashTree) (worker : KvWorkerId) (block_hashes : List BlockHash)
    (tiers : Tiers) : HashTree :=
  if block_hashes.isEmpty || tiers.is_empty then tree
  else
    indices.foldl (fun acc idx =>
      if (acc.shards idx).carries_any block_hashes then
        acc.put idx ((acc.shards idx).remove worker block_hashes tiers)
      else acc) tree

/-- `clear_worker`: applies an `AllBlocksCleared` to every shard. -/
def clear_worker (tree : HashTree) (worker : KvWorkerId) : HashTree :=
  indices.foldl (fun acc idx => acc.put idx ((acc.shards idx).clear_worker worker)) tree

/-- `prefix_depths`, with `descend_match_shard` and `descend_routed`: the resolved parent is
checked again in its shard. -/
def prefix_depths (tree : HashTree) (parent_hash : Option BlockHash)
    (block_hashes : List BlockHash) : OrderedDict KvWorkerId ℕ :=
  match block_hashes with
  | [] => .empty
  | first :: _ =>
    let routed := tree.route_match parent_hash first
    match routed.2 with
    | some p =>
      if ((tree.shards routed.1).ids p).length = 1 then
        (tree.shards routed.1).prefix_depths (some p) block_hashes
      else (tree.shards (shard_of first)).prefix_depths none block_hashes
    | none => (tree.shards (shard_of first)).prefix_depths none block_hashes

end HashTree

end LightningH3.KvIndex
