/-
The radix cache of the KV slots (`srt/mem_cache/radix_cache.py`, class `RadixCache`) with the
recorder of its KV events (`srt/mem_cache/events.py`) and the page hashes these publish
(`srt/mem_cache/utils.py`).

Tree nodes are mutable objects that keep their identity when they are split, so the tree lives in
an arena. A node's key, slots and lock count are its payload there; its counters and hashes, which
never steer a lookup, are kept beside it in `info`. Access times are left out: they are read by the
eviction strategy only, and the order in which `evict` pops its heap is left open (`EvictionOrder`),
so what is proved holds for every strategy and for every way of breaking its ties.
-/
import LightningH3.Lib.Arena
import LightningH3.RadixKey

set_option autoImplicit false

namespace LightningH3.Radix

/-! ## Hashes -/

/-- The digests behind the block hashes: one page after its predecessor's digest (the native page
hash), the two namespace seeds, and the 64-bit value that is published. The native hash raises on a
token that is no `uint32`; here every token has a digest. -/
structure HashFns (H : Type) where
  page : Option H → List Atom → H
  namespace_digest : Option String → Option String → H
  salt_digest : String → H
  to_int64 : H → ℤ

section hashes

variable {H : Type} (F : HashFns H)

/-- The pages of a key, the last one possibly short. -/
def pages (page_size : ℕ) (us : List Atom) : List (List Atom) :=
  (List.range ((us.length + page_size - 1) / page_size)).map fun i =>
    (us.drop (i * page_size)).take page_size

/-- The chain over the pages: each digest is the prior of the next page. -/
def hash_pages : Option H → List (List Atom) → List H
  | _, [] => []
  | prior, p :: ps => F.page prior p :: hash_pages (some (F.page prior p)) ps

/-- `get_hash_str` with a page size. -/
def get_hash_str (k : RadixKey) (prior : Option H) (page_size : ℕ) : List H :=
  hash_pages F prior (pages page_size k.units)

def storage_namespace_seed (extra_key cache_salt : Option String) : Option H :=
  match extra_key, cache_salt with
  | none, none => none
  | extra_key, cache_salt => some (F.namespace_digest extra_key cache_salt)

def get_storage_hash_str (k : RadixKey) (prior : Option H) (page_size : ℕ) : List H :=
  match prior with
  | none => get_hash_str F k (storage_namespace_seed F k.extra_key k.cache_salt) page_size
  | some h => get_hash_str F k (some h) page_size

end hashes

def split_node_hash_value {H : Type} (hash_value : Option (List H)) (split_len page_size : ℕ) :
    Option (List H) × Option (List H) :=
  let split_pages := if page_size = 1 then split_len else split_len / page_size
  (hash_value.map (·.take split_pages), hash_value.map (·.drop split_pages))

/-! ## Events -/

inductive StorageMedium
  | gpu
  | cpu
  deriving DecidableEq, Repr

structure BlockStored where
  block_hashes : List ℤ
  parent_block_hash : Option ℤ
  token_ids : List Atom
  block_size : ℕ
  lora_id : Option ℤ
  medium : StorageMedium
  cache_salt : Option String
  session_id : Option String
  deriving DecidableEq, Repr

structure BlockRemoved where
  block_hashes : List ℤ
  medium : StorageMedium
  deriving DecidableEq, Repr

inductive Event
  | stored (e : BlockStored)
  | removed (e : BlockRemoved)
  | cleared
  deriving DecidableEq, Repr

/-- When `enqueue` appends a stored block to the event at the tail of the queue. -/
def BlockStored.Continues (event tail : BlockStored) : Prop :=
  tail.medium = event.medium ∧ tail.lora_id = event.lora_id ∧
    tail.block_size = event.block_size ∧ tail.cache_salt = event.cache_salt ∧
    tail.session_id = event.session_id ∧ tail.block_hashes ≠ [] ∧
    event.parent_block_hash = tail.block_hashes.getLast?

instance (event tail : BlockStored) : Decidable (event.Continues tail) :=
  inferInstanceAs (Decidable (_ ∧ _))

/-- `KVCacheEventRecorder.enqueue`: append an event, coalescing it with a compatible tail. -/
def enqueue (queue : List Event) (event : Event) : List Event :=
  match queue.getLast?, event with
  | some (.removed tail), .removed e =>
    if tail.medium = e.medium then
      queue.dropLast ++ [.removed { tail with block_hashes := tail.block_hashes ++ e.block_hashes }]
    else queue ++ [event]
  | some (.stored tail), .stored e =>
    if e.Continues tail then
      queue.dropLast ++ [.stored { tail with
        block_hashes := tail.block_hashes ++ e.block_hashes
        token_ids := tail.token_ids ++ e.token_ids }]
    else queue ++ [event]
  | _, _ => queue ++ [event]

/-! ## The cache -/

/-- The payload of a tree node: its part of the key, the KV slots of that part, and its locks. -/
structure TreeNode where
  key : RadixKey
  value : List ℤ
  lock_ref : ℤ
  deriving DecidableEq, Repr

/-- A tree node's counters and hashes. -/
structure NodeInfo (H : Type) where
  hit_count : ℕ
  priority : ℤ
  hash_value : Option (List H)
  event_hash_value : Option (List H)

structure CacheConfig where
  page_size : ℕ
  page_pos : 0 < page_size
  is_eagle : Bool
  disable : Bool
  enable_kv_cache_events : Bool

structure RadixCache (H : Type) where
  config : CacheConfig
  tree : Arena ChildKey TreeNode
  info : ℕ → NodeInfo H
  evictable_size_ : ℤ
  protected_size_ : ℤ
  evictable_leaves : List ℕ
  queue : List Event

namespace RadixCache

variable {H : Type} (F : HashFns H)

def page_size (c : RadixCache H) : ℕ := c.config.page_size

theorem page_size_pos (c : RadixCache H) : 0 < c.page_size := c.config.page_pos

def node (c : RadixCache H) (n : ℕ) : TreeNode := c.tree.data n

def root_node (c : RadixCache H) : ℕ := c.tree.root

def set_info (c : RadixCache H) (n : ℕ) (i : NodeInfo H) : RadixCache H :=
  { c with info := Function.update c.info n i }

/-! ## Recording events -/

def compute_node_hash_values (c : RadixCache H) (n : ℕ) : List H :=
  let parent_hash := do
    let p ← (c.tree.cell n).parent
    let hs ← (c.info p).hash_value
    if 0 < (c.node p).key.len then hs.getLast? else none
  get_storage_hash_str F (c.node n).key parent_hash c.page_size

/-- The climb of `compute_node_event_hash_values`: the nodes whose event hashes are missing, and the
node it stopped at. The climb ends at the root at the latest. -/
def missing_nodes (c : RadixCache H) (ns : Option String × Option String) :
    (fuel : ℕ) → (current : Option ℕ) → Except Fault (List ℕ × Option ℕ)
  | _, none => pure ([], none)
  | 0, some _ => throw .out_of_fuel
  | fuel + 1, some current =>
    if (c.node current).key.len > 0 then
      if (c.node current).key.namespace_of ≠ ns then throw .mismatched_namespaces
      else if (c.info current).event_hash_value.isSome then pure ([], some current)
      else do
        let (missing, stop) ← missing_nodes c ns fuel (c.tree.cell current).parent
        pure (current :: missing, stop)
    else pure ([], some current)

/-- Fill in the missing event hashes, the node nearest to the root first. -/
def fill_event_hashes (c : RadixCache H) : Option H → List ℕ → RadixCache H
  | _, [] => c
  | parent_hash, n :: ns =>
    let hash_values := get_hash_str F (c.node n).key parent_hash c.page_size
    let c := c.set_info n { c.info n with event_hash_value := some hash_values }
    fill_event_hashes c (hash_values.getLast?.or parent_hash) ns

/-- `compute_node_event_hash_values` for a node of a namespace: the salt seeds the chain, the extra
key does not. -/
def compute_node_event_hash_values (c : RadixCache H) (n : ℕ) :
    Except Fault (RadixCache H × List H) :=
  match (c.info n).event_hash_value with
  | some hs => pure (c, hs)
  | none => do
      let (missing, stop) ← missing_nodes c (c.node n).key.namespace_of (c.tree.counter + 1) (some n)
      let above := stop.bind fun current => (c.info current).event_hash_value.bind List.getLast?
      let parent_hash := above.or ((c.node n).key.cache_salt.map F.salt_digest)
      let c := fill_event_hashes F c parent_hash missing.reverse
      match (c.info n).event_hash_value with
      | some hs => pure (c, hs)
      | none => throw .hash_missing

def node_event_hash_values (c : RadixCache H) (n : ℕ) : Except Fault (RadixCache H × List H) :=
  let hash_value := (c.info n).hash_value.getD (compute_node_hash_values F c n)
  let c := c.set_info n { c.info n with hash_value := some hash_value }
  if (c.node n).key.extra_key = none ∧ (c.node n).key.cache_salt = none then pure (c, hash_value)
  else compute_node_event_hash_values F c n

/-- `_parent_block_hash`: the hash the first page of a node links back to, none below the root. -/
def parent_block_hash (c : RadixCache H) (n : ℕ) : Except Fault (Option ℤ) :=
  match (c.tree.cell n).parent with
  | none => pure none
  | some p =>
    if (c.tree.cell p).parent = none then pure none
    else if (c.node n).key.extra_key = none ∧ (c.node n).key.cache_salt = none then
      pure (((c.info p).hash_value.bind List.getLast?).map F.to_int64)
    else
      match (c.info p).event_hash_value with
      | none => throw .hash_missing
      | some hs => pure (hs.getLast?.map F.to_int64)

/-- The events of `record_store`: one block per page, each naming its predecessor. -/
def stored_events (cache_salt : Option String) :
    (parent : Option ℤ) → List (List Atom × H) → List Event
  | _, [] => []
  | parent, (page, h) :: rest =>
    .stored {
      block_hashes := [F.to_int64 h]
      parent_block_hash := parent
      token_ids := page
      block_size := page.length
      lora_id := none
      medium := .gpu
      cache_salt := cache_salt
      session_id := none } :: stored_events cache_salt (some (F.to_int64 h)) rest

def record_store (c : RadixCache H) (n : ℕ) : Except Fault (RadixCache H) :=
  if c.config.enable_kv_cache_events then do
    let (c, event_hash_values) ← node_event_hash_values F c n
    let parent ← parent_block_hash F c n
    let ps := pages c.page_size (c.node n).key.units
    if event_hash_values.length < ps.length then throw .hash_missing
    else pure { c with queue := (stored_events F (c.node n).key.cache_salt parent
      (ps.zip event_hash_values)).foldl enqueue c.queue }
  else pure c

/-- `record_remove`: one event per node. -/
def record_remove (c : RadixCache H) (n : ℕ) : Except Fault (RadixCache H) :=
  if c.config.enable_kv_cache_events then do
    let (c, event_hash_values) ← node_event_hash_values F c n
    let ps := pages c.page_size (c.node n).key.units
    if event_hash_values.length < ps.length then throw .hash_missing
    else
      let block_hashes := (event_hash_values.take ps.length).map F.to_int64
      if block_hashes = [] then pure c
      else pure { c with queue := enqueue c.queue (.removed ⟨block_hashes, .gpu⟩) }
  else pure c

def record_all_cleared (c : RadixCache H) : RadixCache H :=
  if c.config.enable_kv_cache_events then { c with queue := enqueue c.queue .cleared } else c

/-- `take`: hand out the queue and empty it. -/
def take_events (c : RadixCache H) : RadixCache H × List Event :=
  if c.config.enable_kv_cache_events then ({ c with queue := [] }, c.queue) else (c, [])

/-! ## Reset, splits and leaves -/

/-- `reset`: a fresh root, which is never unlocked; everything else is dropped. -/
def reset (c : RadixCache H) : RadixCache H :=
  let root := c.tree.counter
  let c := { c with
    tree := { c.tree.write root ⟨none, .empty, ⟨⟨[], none, none, false, none⟩, [], 1⟩⟩ with
      counter := root + 1
      root := root }
    info := Function.update c.info root ⟨0, -(2 ^ 63 - 1), some [], none⟩
    evictable_size_ := 0
    protected_size_ := 0
    evictable_leaves := [] }
  c.record_all_cleared

/-- `__init__` ends with a reset. -/
def init (config : CacheConfig) : RadixCache H :=
  reset {
    config := config
    tree := ⟨fun _ => ⟨none, .empty, ⟨⟨[], none, none, false, none⟩, [], 0⟩⟩, 0, 0⟩
    info := fun _ => ⟨0, 0, none, none⟩
    evictable_size_ := 0
    protected_size_ := 0
    evictable_leaves := []
    queue := [] }

def update_leaf_status (c : RadixCache H) (n : ℕ) : RadixCache H :=
  if (c.node n).lock_ref > 0 then { c with evictable_leaves := c.evictable_leaves.erase n }
  else if (c.tree.cell n).children.values ≠ [] then
    { c with evictable_leaves := c.evictable_leaves.erase n }
  else if n ∈ c.evictable_leaves then c
  else { c with evictable_leaves := c.evictable_leaves ++ [n] }

/-- `_split_node`: a new node takes over the first `split_len` units of `child`, its locks, its
priority and its hit count. -/
def split_node (c : RadixCache H) (key : RadixKey) (child split_len : ℕ) :
    Except Fault (RadixCache H × ℕ) := do
  let below ← (key.after split_len).child_key c.page_size
  let above ← key.child_key c.page_size
  match (c.tree.cell child).parent with
  | none => throw .parent_missing
  | some p =>
    let new_node := c.tree.counter
    let old := c.node child
    let i := c.info child
    let hash_value := split_node_hash_value i.hash_value split_len c.page_size
    let event_hash_value := split_node_hash_value i.event_hash_value split_len c.page_size
    let c := { c with
      tree := c.tree.splice p child above below
        ⟨old.key.upto split_len, old.value.take split_len, old.lock_ref⟩
        ⟨old.key.after split_len, old.value.drop split_len, old.lock_ref⟩ }
    let c := c.set_info new_node ⟨i.hit_count, i.priority, hash_value.1, event_hash_value.1⟩
    let c := c.set_info child
      { i with hash_value := hash_value.2, event_hash_value := event_hash_value.2 }
    pure (c, new_node)

/-! ## Lookup -/

/-- The loop of `_match_prefix_helper`. A round that goes on consumes at least one page. -/
def match_loop (c : RadixCache H) : (fuel : ℕ) → (node : ℕ) → (key : RadixKey) →
    (child_key : ChildKey) → (value : List (List ℤ)) →
    Except Fault (RadixCache H × List (List ℤ) × ℕ)
  | 0, _, _, _, _ => throw .out_of_fuel
  | fuel + 1, node, key, child_key, value =>
    if key.len > 0 then
      match c.tree.child? node child_key with
      | none => pure (c, value, node)
      | some child => do
          let prefix_len ← (c.node child).key.match_key key c.page_size
          if prefix_len < (c.node child).key.len then do
            let (c, new_node) ← c.split_node (c.node child).key child prefix_len
            pure (c, value ++ [(c.node new_node).value], new_node)
          else
            let key := key.after prefix_len
            let value := value ++ [(c.node child).value]
            if key.len > 0 then do
              let child_key ← key.child_key c.page_size
              match_loop c fuel child key child_key value
            else match_loop c fuel child key child_key value
    else pure (c, value, node)

def match_prefix_helper (c : RadixCache H) (node : ℕ) (key : RadixKey) :
    Except Fault (RadixCache H × List (List ℤ) × ℕ) := do
  let child_key ← key.child_key c.page_size
  match_loop c (key.len + 1) node key child_key []

/-- `match_prefix`: the slots of the longest cached prefix and the node it ends at. -/
def match_prefix (c : RadixCache H) (key : RadixKey) : Except Fault (RadixCache H × List ℤ × ℕ) :=
  let key := (key.maybe_to_bigram_view c.config.is_eagle none).1
  if c.config.disable ∨ key.len = 0 then pure (c, [], c.root_node)
  else
    let key := key.page_aligned c.page_size
    if key.len = 0 then pure (c, [], c.root_node)
    else do
      let (c, value, last_node) ← c.match_prefix_helper c.root_node key
      pure (c, value.flatten, last_node)

/-! ## Insertion -/

def inc_hit_count (c : RadixCache H) (n : ℕ) (chunked : Bool) : RadixCache H :=
  if chunked then c else c.set_info n { c.info n with hit_count := (c.info n).hit_count + 1 }

/-- Take the larger priority. -/
def raise_priority (c : RadixCache H) (n : ℕ) (priority : ℤ) : RadixCache H :=
  c.set_info n { c.info n with priority := max (c.info n).priority priority }

/-- The loop of `_insert_helper`; it returns the remaining key and value with the node below which
they belong. -/
def insert_loop (priority : ℤ) (chunked : Bool) (c : RadixCache H) : (fuel : ℕ) → (node : ℕ) →
    (key : RadixKey) → (value : List ℤ) → (child_key : ChildKey) → (total_prefix_length : ℕ) →
    Except Fault (RadixCache H × ℕ × RadixKey × List ℤ × ChildKey × ℕ)
  | 0, _, _, _, _, _ => throw .out_of_fuel
  | fuel + 1, node, key, value, child_key, total_prefix_length =>
    if key.len > 0 then
      match c.tree.child? node child_key with
      | none => pure (c, node, key, value, child_key, total_prefix_length)
      | some node => do
          let prefix_len ← (c.node node).key.match_key key c.page_size
          let total_prefix_length := total_prefix_length + prefix_len
          let key := key.after prefix_len
          let value := value.drop prefix_len
          if prefix_len < (c.node node).key.len then do
            let (c, new_node) ← c.split_node (c.node node).key node prefix_len
            let c := (c.raise_priority new_node priority).inc_hit_count new_node chunked
            if key.len > 0 then do
              let child_key ← key.child_key c.page_size
              insert_loop priority chunked c fuel new_node key value child_key total_prefix_length
            else insert_loop priority chunked c fuel new_node key value child_key total_prefix_length
          else
            let c := (c.raise_priority node priority).inc_hit_count node chunked
            if key.len > 0 then do
              let child_key ← key.child_key c.page_size
              insert_loop priority chunked c fuel node key value child_key total_prefix_length
            else insert_loop priority chunked c fuel node key value child_key total_prefix_length
    else pure (c, node, key, value, child_key, total_prefix_length)

/-- The end of `_insert_helper`: what is left of the key becomes a leaf. -/
def add_leaf (c : RadixCache H) (node : ℕ) (key : RadixKey) (value : List ℤ) (child_key : ChildKey)
    (priority : ℤ) (chunked : Bool) : Except Fault (RadixCache H × ℕ) := do
  let new_node := c.tree.counter
  let c := { c with
    tree := c.tree.attach node child_key ⟨key, value, 0⟩
    info := Function.update c.info new_node ⟨0, priority, none, none⟩ }
  let c := c.inc_hit_count new_node chunked
  let c := { c with evictable_size_ := c.evictable_size_ + key.len }
  let c := (c.update_leaf_status node).update_leaf_status new_node
  let c ← c.record_store F new_node
  pure (c, new_node)

/-- `_insert_helper`: the length of the part that was already there, and the last node. -/
def insert_helper (c : RadixCache H) (node : ℕ) (key : RadixKey) (value : List ℤ) (priority : ℤ)
    (chunked : Bool) : Except Fault (RadixCache H × ℕ × ℕ) :=
  let c := c.raise_priority node priority
  if key.len = 0 then pure (c, 0, node)
  else do
    let child_key ← key.child_key c.page_size
    let (c, node, key, value, child_key, total_prefix_length) ←
      insert_loop priority chunked c (key.len + 1) node key value child_key 0
    if key.len > 0 then do
      let (c, new_node) ← c.add_leaf F node key value child_key priority chunked
      pure (c, total_prefix_length, new_node)
    else pure (c, total_prefix_length, node)

/-- `insert`: `prefix_len` and the last node; a missing value falls back to the token ids. -/
def insert (c : RadixCache H) (key : RadixKey) (value : Option (List ℤ)) (priority : Option ℤ)
    (chunked : Bool) : Except Fault (RadixCache H × ℕ × Option ℕ) :=
  if c.config.disable then pure (c, 0, none)
  else do
    let (key, value) := key.maybe_to_bigram_view c.config.is_eagle value
    let key := key.page_aligned c.page_size
    let value := match value with
      | some value => value.take key.len
      | none => key.token_ids.take key.len
    let (c, prefix_len, last_node) ←
      c.insert_helper F c.root_node key value (priority.getD 0) chunked
    pure (c, prefix_len, some last_node)

/-! ## Locks -/

/-- One round of `inc_lock_ref`. -/
def inc_lock (c : RadixCache H) (n : ℕ) : RadixCache H :=
  let node := c.node n
  let c := if node.lock_ref = 0 then { c with
      evictable_size_ := c.evictable_size_ - node.key.len
      protected_size_ := c.protected_size_ + node.key.len } else c
  let c := { c with tree := c.tree.setData n { node with lock_ref := node.lock_ref + 1 } }
  c.update_leaf_status n

/-- The loop of `inc_lock_ref`: up to the root, which is left alone. -/
def inc_loop : (fuel : ℕ) → RadixCache H → (node : ℕ) → Except Fault (RadixCache H)
  | 0, c, node => if node = c.root_node then pure c else throw .out_of_fuel
  | fuel + 1, c, node =>
    if node = c.root_node then pure c
    else
      let c := c.inc_lock node
      match (c.tree.cell node).parent with
      | none => throw .parent_missing
      | some p => inc_loop fuel c p

def inc_lock_ref (c : RadixCache H) (node : ℕ) : Except Fault (RadixCache H) :=
  if c.config.disable then pure c else inc_loop c.tree.counter c node

/-- One round of `dec_lock_ref`. -/
def dec_lock (c : RadixCache H) (n : ℕ) : RadixCache H :=
  let node := c.node n
  let c := if node.lock_ref = 1 then { c with
      evictable_size_ := c.evictable_size_ + node.key.len
      protected_size_ := c.protected_size_ - node.key.len } else c
  let c := { c with tree := c.tree.setData n { node with lock_ref := node.lock_ref - 1 } }
  c.update_leaf_status n

def dec_loop : (fuel : ℕ) → RadixCache H → (node : ℕ) → Except Fault (RadixCache H)
  | 0, c, node => if node = c.root_node then pure c else throw .out_of_fuel
  | fuel + 1, c, node =>
    if node = c.root_node then pure c
    else
      let c := c.dec_lock node
      match (c.tree.cell node).parent with
      | none => throw .node_from_another_tree
      | some p => dec_loop fuel c p

def dec_lock_ref (c : RadixCache H) (node : ℕ) : Except Fault (RadixCache H) :=
  if c.config.disable then pure c else dec_loop c.tree.counter c node

/-! ## Eviction -/

/-- The order of an eviction: whatever the strategy, the heap hands out one of its nodes and keeps
the others. -/
structure EvictionOrder (H : Type) where
  heappop : RadixCache H → List ℕ → Option (ℕ × List ℕ)
  pops : ∀ c heap, heap ≠ [] → ∃ x rest, heappop c heap = some (x, rest) ∧ heap.Perm (x :: rest)

def delete_leaf (c : RadixCache H) (n : ℕ) : Except Fault (RadixCache H) := do
  let key ← (c.node n).key.child_key c.page_size
  match (c.tree.cell n).parent with
  | none => throw .parent_missing
  | some p =>
    if c.tree.child? p key = some n then
      let c := { c with
        tree := c.tree.detach p key
        evictable_size_ := c.evictable_size_ - (c.node n).key.len
        evictable_leaves := c.evictable_leaves.erase n }
      pure (c.update_leaf_status p)
    else throw .not_parents_child

/-- The loop of `evict`; `freed` collects the segments handed to the allocator, in order. -/
def evict_loop (order : EvictionOrder H) (num_tokens : ℤ) : (fuel : ℕ) → RadixCache H →
    (heap : List ℕ) → (freed : List (List ℤ)) → (num_evicted : ℕ) →
    Except Fault (RadixCache H × List (List ℤ) × ℕ)
  | 0, c, heap, freed, num_evicted =>
    if num_evicted < num_tokens ∧ heap ≠ [] then throw .out_of_fuel
    else pure (c, freed, num_evicted)
  | fuel + 1, c, heap, freed, num_evicted =>
    if num_evicted < num_tokens ∧ heap ≠ [] then
      match order.heappop c heap with
      | none => throw .out_of_fuel
      | some (x, heap) => do
          let freed := freed ++ [(c.node x).value]
          let num_evicted := num_evicted + (c.node x).value.length
          let c ← c.delete_leaf x
          match (c.tree.cell x).parent with
          | none => throw .parent_missing
          | some p =>
            let heap :=
              if (c.tree.cell p).children.size = 0 ∧ (c.node p).lock_ref = 0 then heap ++ [p]
              else heap
            let c ← c.record_remove F x
            evict_loop order num_tokens fuel c heap freed num_evicted
    else pure (c, freed, num_evicted)

/-- `evict`: the segments it frees and the number of slots in them. -/
def evict (order : EvictionOrder H) (c : RadixCache H) (num_tokens : ℤ) :
    Except Fault (RadixCache H × List (List ℤ) × ℕ) :=
  if c.config.disable then pure (c, [], 0)
  else evict_loop F order num_tokens c.tree.counter c c.evictable_leaves [] 0

end RadixCache

end LightningH3.Radix
