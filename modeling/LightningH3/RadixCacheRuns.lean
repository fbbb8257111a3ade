/-
Runs of the radix cache: any sequence of insertions, lookups, locks and their releases, evictions
and resets.

The state of a run is the cache, the locks that are outstanding and the events handed out so far. A
lock is released on a node it was taken on, in the tree it was taken in: `dec_lock_ref` asserts the
latter, so a reset voids the locks before it. An insertion brings at least one slot for each unit it
files, as its callers do. Under these two conditions no operation raises, and every state reached
is well structured and represents a prefix map.
-/
import LightningH3.RadixCacheOps

set_option autoImplicit false

namespace LightningH3.Radix

open Arena RadixKey List

variable {H : Type} (F : HashFns H)

/-! ## Runs -/

/-- A cache in use: `held` lists the nodes that are locked, once per lock, and `log` the events
taken from the queue. -/
structure Machine (H : Type) where
  cache : RadixCache H
  held : List ℕ
  log : List Event

inductive Op (H : Type)
  | insert (key : RadixKey) (value : Option (List ℤ)) (priority : Option ℤ) (chunked : Bool)
  | match_prefix (key : RadixKey)
  | inc_lock_ref (node : ℕ)
  | dec_lock_ref (node : ℕ)
  | evict (order : RadixCache.EvictionOrder H) (num_tokens : ℤ)
  | reset
  | take_events

def step (m : Machine H) : Op H → Except Fault (Machine H)
  | .insert key value priority chunked => do
      let (c, _, _) ← m.cache.insert F key value priority chunked
      pure { m with cache := c }
  | Op.match_prefix key => do
      let (c, _, _) ← m.cache.match_prefix key
      pure { m with cache := c }
  | .inc_lock_ref node => do
      let c ← m.cache.inc_lock_ref node
      pure { m with cache := c, held := node :: m.held }
  | .dec_lock_ref node => do
      let c ← m.cache.dec_lock_ref node
      pure { m with cache := c, held := m.held.erase node }
  | .evict order num_tokens => do
      let (c, _, _) ← RadixCache.evict F order m.cache num_tokens
      pure { m with cache := c }
  | .reset => pure { m with cache := m.cache.reset, held := [] }
  | .take_events =>
    let (c, events) := m.cache.take_events
    pure { m with cache := c, log := m.log ++ events }

/-- What the callers see to. -/
def Permitted (m : Machine H) : Op H → Prop
  | .insert key value _ _ => Covers m.cache key value
  | .inc_lock_ref node => InTree m.cache.tree node
  | .dec_lock_ref node => node ∈ m.held
  | _ => True

/-- The states of a run. -/
inductive Reachable (config : CacheConfig) : Machine H → Prop
  | init : Reachable config ⟨RadixCache.init config, [], []⟩
  | step {m m' : Machine H} {op : Op H} : Reachable config m → Permitted m op →
      step F m op = .ok m' → Reachable config m'

/-- What holds between two operations. -/
structure Sound (m : Machine H) : Prop where
  shape : Shape m.cache
  hashed : Hashed F m.cache
  counted : Counted m.cache m.held

/-- What an operation does to the state, in the terms of its specification. -/
inductive Moved (m : Machine H) : Op H → Machine H → Prop
  | skipped {key : RadixKey} {value : Option (List ℤ)} {priority : Option ℤ} {chunked : Bool} :
      m.cache.config.disable = true → Moved m (.insert key value priority chunked) m
  | inserted {key : RadixKey} {value : Option (List ℤ)} {priority : Option ℤ} {chunked : Bool}
      {c : RadixCache H} {old : List (Atom × ℤ)} : Inserts F m.cache c →
      Held m.cache key.namespace_of old → old.map Prod.fst <+: (filed_key m.cache key).units →
      Covers m.cache key value →
      (∀ ns es, Held c ns es ↔ Held m.cache ns es ∨ (ns = key.namespace_of ∧
        es <+: old ++ rest_entries m.cache key value old.length ∧ m.cache.page_size ∣ es.length)) →
      Moved m (.insert key value priority chunked) { m with cache := c }
  | matched {key : RadixKey} {c : RadixCache H} : Reshapes m.cache c →
      Moved m ( Op.match_prefix key) { m with cache := c }
  | locked {node : ℕ} {c : RadixCache H} : Relocked m.cache c →
      Moved m (.inc_lock_ref node) { m with cache := c, held := node :: m.held }
  | unlocked {node : ℕ} {c : RadixCache H} : Relocked m.cache c →
      Moved m (.dec_lock_ref node) { m with cache := c, held := m.held.erase node }
  | evicted {order : RadixCache.EvictionOrder H} {num_tokens : ℤ} {c : RadixCache H}
      {removed : List ℕ} : Evictions F m.cache c removed →
      Moved m (.evict order num_tokens) { m with cache := c }
  | reset : Moved m .reset { m with cache := m.cache.reset, held := [] }
  | taken : Moved m .take_events
      { m with cache := m.cache.take_events.1, log := m.log ++ m.cache.take_events.2 }

variable {F}

theorem sound_init (config : CacheConfig) : Sound F (⟨RadixCache.init config, [], []⟩ : Machine H) :=
  ⟨shape_reset _, hashed_reset F _, counted_reset _⟩

variable {c : RadixCache H}

theorem insert_disabled (hd : c.config.disable = true) (key : RadixKey) (value : Option (List ℤ))
    (priority : Option ℤ) (chunked : Bool) :
    c.insert F key value priority chunked = .ok (c, 0, none) := by
  unfold RadixCache.insert
  rw [if_pos hd]
  rfl

theorem SameBooks.take_events (c : RadixCache H) : SameBooks c c.take_events.1 := by
  unfold RadixCache.take_events
  split
  · exact ⟨rfl, rfl, rfl, rfl, rfl⟩
  · exact SameBooks.refl c

theorem info_take_events (c : RadixCache H) : c.take_events.1.info = c.info := by
  unfold RadixCache.take_events
  split <;> rfl

theorem hashed_take_events (hh : Hashed F c) : Hashed F c.take_events.1 := by
  have s := SameBooks.take_events c
  refine ⟨?_, ?_⟩
  · rw [s.tree, info_take_events]
    exact hh.root_hash
  · intro hen p k n us hr hk
    rw [s.config] at hen
    rw [s.tree] at hr hk
    have hpub : published c.take_events.1 n = published c n :=
      published_congr (by rw [s.node]) (by rw [info_take_events]) (by rw [info_take_events])
    rw [hpub, s.node_hashes]
    exact hh.nodes hen p k n us hr hk

variable {m : Machine H} {op : Op H}

/-- **One step.** A permitted operation does not raise; it does what its specification says and keeps
what holds between two operations. -/
theorem Sound.step (s : Sound F m) (hp : Permitted m op) :
    ∃ m', Radix.step F m op = .ok m' ∧ Moved F m op m' ∧ Sound F m' := by
  cases op with
  | insert key value priority chunked =>
    by_cases hd : m.cache.config.disable = true
    · refine ⟨m, ?_, .skipped hd, s⟩
      rw [Radix.step, insert_disabled hd]
      rfl
    · obtain ⟨c', last, old, hok, hins, hlong, hheld⟩ :=
        insert_spec F s.shape s.hashed key hp priority chunked (by simpa using hd)
      refine ⟨{ m with cache := c' }, ?_, .inserted hins hlong.held hlong.follows hp hheld,
        hins.shape s.shape, hins.hashed s.shape s.hashed, hins.counted s.counted⟩
      rw [Radix.step, hok]
      rfl
  | match_prefix key =>
    obtain ⟨c', es, last, hok, hr, -⟩ := match_prefix_spec s.shape key
    refine ⟨{ m with cache := c' }, ?_, .matched hr, hr.shape s.shape,
      hr.hashed F s.shape s.hashed, hr.counted s.counted⟩
    rw [Radix.step, hok]
    rfl
  | inc_lock_ref node =>
    obtain ⟨c', hok, hr, hc⟩ := inc_lock_ref_spec s.shape s.counted hp
    refine ⟨{ m with cache := c', held := node :: m.held }, ?_, .locked hr, hr.shape s.shape,
      hr.hashed F s.hashed, hc⟩
    rw [Radix.step, hok]
    rfl
  | dec_lock_ref node =>
    obtain ⟨c', hok, hr, hc⟩ := dec_lock_ref_spec s.shape s.counted hp
    refine ⟨{ m with cache := c', held := m.held.erase node }, ?_, .unlocked hr, hr.shape s.shape,
      hr.hashed F s.hashed, hc⟩
    rw [Radix.step, hok]
    rfl
  | evict order num_tokens =>
    obtain ⟨c', removed, hok, hev, hs, hh, hc, -⟩ :=
      evict_spec F order num_tokens s.shape s.hashed s.counted
    refine ⟨{ m with cache := c' }, ?_, .evicted hev, hs, hh, hc⟩
    rw [Radix.step, hok]
    rfl
  | reset =>
    exact ⟨_, rfl, .reset, shape_reset _, hashed_reset F _, counted_reset _⟩
  | take_events =>
    have same := SameBooks.take_events m.cache
    exact ⟨_, rfl, .taken, s.shape.congr same, hashed_take_events s.hashed, same.counted s.counted⟩

theorem Sound.moved {m' : Machine H} (s : Sound F m) (hp : Permitted m op)
    (hok : Radix.step F m op = .ok m') : Moved F m op m' ∧ Sound F m' := by
  obtain ⟨m₁, hok₁, hmoved, hs⟩ := s.step hp
  rw [hok] at hok₁
  cases hok₁
  exact ⟨hmoved, hs⟩

theorem Moved.config {m' : Machine H} (h : Moved F m op m') : m'.cache.config = m.cache.config := by
  cases h with
  | skipped => rfl
  | inserted hi => exact hi.config
  | matched hr => exact hr.config
  | locked hr => exact hr.config
  | unlocked hr => exact hr.config
  | evicted he => exact he.config
  | reset => exact config_reset _
  | taken => exact (SameBooks.take_events m.cache).config

variable {config : CacheConfig}

/-- **Every run.** -/
theorem sound_of_reachable (h : Reachable F config m) : Sound F m := by
  induction h with
  | init => exact sound_init config
  | step _ hp hok ih => exact (ih.moved hp hok).2

theorem config_of_reachable (h : Reachable F config m) : m.cache.config = config := by
  induction h with
  | init => exact config_reset _
  | step hr hp hok ih => rw [((sound_of_reachable hr).moved hp hok).1.config, ih]

/-! ## Structure -/

/-- **A well-structured tree.** The root stands outside the lock order: it is locked once and for
all, whatever is locked below it. -/
structure Structured (c : RadixCache H) : Prop where
  keyed : ∀ n, InTree c.tree n → n ≠ c.tree.root → 0 < (c.node n).key.len ∧
    c.page_size ∣ (c.node n).key.len ∧ (c.node n).value.length = (c.node n).key.len
  filed : ∀ n, InTree c.tree n → n ≠ c.tree.root → ∃ p k, InTree c.tree p ∧
    (c.tree.cell n).parent = some p ∧ (c.node n).key.child_key c.page_size = .ok k ∧
    c.tree.child? p k = some n
  siblings : ∀ p k k' n n', InTree c.tree p → c.tree.child? p k = some n →
    c.tree.child? p k' = some n' → n ≠ n' →
    ((c.node n).key.namespace_of, (c.node n).key.units.take c.page_size)
      ≠ ((c.node n').key.namespace_of, (c.node n').key.units.take c.page_size)
  locks : ∀ p k n, InTree c.tree p → p ≠ c.tree.root → c.tree.child? p k = some n →
    0 ≤ (c.node n).lock_ref ∧ (c.node n).lock_ref ≤ (c.node p).lock_ref
  evictable : c.evictable_size_
    = ∑ n ∈ c.tree.nodes with (c.node n).lock_ref = 0, ((c.node n).key.len : ℤ)
  guarded : c.protected_size_
    = ∑ n ∈ c.tree.nodes with (c.node n).lock_ref ≠ 0, ((c.node n).key.len : ℤ)
  leaves : c.evictable_leaves.Nodup ∧ ∀ n, n ∈ c.evictable_leaves ↔ (InTree c.tree n ∧
    n ≠ c.tree.root ∧ (c.node n).lock_ref = 0 ∧ ∀ k, c.tree.child? n k = none)

theorem Sound.structured (s : Sound F m) : Structured m.cache where
  keyed := s.shape.keyed
  filed n hn hr := by
    obtain ⟨p, k, hp, hpar, hk, hck⟩ := s.shape.exists_parent hn hr
    exact ⟨p, k, hp, hpar, hck, hk⟩
  siblings p k k' n n' hp hk hk' hne heq := by
    obtain ⟨hns, hpage⟩ := Prod.mk.inj heq
    have hkk : k = k' := by
      rw [s.shape.filed_eq hp hk, s.shape.filed_eq hp hk', hns, hpage]
    subst hkk
    exact hne (Option.some.inj (hk.symm.trans hk'))
  locks p k n hp hr hk :=
    ⟨s.shape.lock_nonneg n (.child hp hk), s.counted.lock_le s.shape hp hr hk⟩
  evictable := by
    rw [s.shape.evictable, Finset.sum_filter]
    rfl
  guarded := by
    rw [s.shape.guarded, Finset.sum_filter]
    apply Finset.sum_congr rfl
    intro n _
    simp only [ite_not]
    rfl
  leaves := by
    refine ⟨s.shape.leaves_nodup, fun n => ?_⟩
    rw [s.shape.leaves]
    exact ⟨fun x => ⟨x.1, x.2, x.3, x.4⟩, fun x => ⟨x.1, x.2.1, x.2.2.1, x.2.2.2⟩⟩

/-- **What an eviction of `num_tokens` slots does**: the segments it frees are the slots of the
nodes it removes, each once; these were unlocked; and it stops when enough is freed or every node
left is locked. -/
structure Evicted (c c' : RadixCache H) (num_tokens : ℤ) (freed : List (List ℤ)) (num : ℕ) :
    Prop where
  removed : ∃ xs : List ℕ, xs.Nodup ∧ freed = xs.map (fun x => (c.node x).value) ∧
    (∀ x ∈ xs, InTree c.tree x ∧ x ≠ c.tree.root ∧ (c.node x).lock_ref = 0) ∧
    ∀ n, InTree c'.tree n ↔ InTree c.tree n ∧ n ∉ xs
  kept : ∀ n, c'.node n = c.node n
  counted : num = freed.flatten.length
  stops : num_tokens ≤ num ∨
    ∀ n, InTree c'.tree n → n ≠ c'.tree.root → (c'.node n).lock_ref ≠ 0

theorem Sound.evicted (s : Sound F m) (order : RadixCache.EvictionOrder H) (num_tokens : ℤ) :
    ∃ c' freed num, RadixCache.evict F order m.cache num_tokens
      = .ok (c', freed, num) ∧ Evicted m.cache c' num_tokens freed num := by
  obtain ⟨c', xs, hok, e, hs, -, hc, hstop⟩ :=
    evict_spec F order num_tokens s.shape s.hashed s.counted
  refine ⟨c', _, _, hok, ⟨xs, e.nodup, rfl, fun x hx => e.unlocked hx, fun n => e.inTree_iff⟩,
    e.node, ?_, ?_⟩
  · rw [length_flatten, map_map]
    rfl
  · rcases hstop with hnum | hnone
    · exact .inl hnum
    · exact .inr fun n hn hr => hc.all_locked hs hnone hn hr

/-- **The structural invariant.** In every state of every run, at every page size and in both
views, the tree is well structured, no permitted operation raises, and an eviction in any order
frees the slots of what it removes exactly once. With events on, the tokens have to fit `uint32`. -/
theorem radix_cache_structured {config : CacheConfig} {m : Machine H} (h : Reachable F config m) :
    Structured m.cache ∧ (∀ op, Permitted m op → ∃ m', step F m op = .ok m') ∧
      ∀ order num_tokens, ∃ c' freed num, RadixCache.evict F order m.cache num_tokens
        = .ok (c', freed, num) ∧ Evicted m.cache c' num_tokens freed num := by
  have s := sound_of_reachable h
  refine ⟨s.structured, ?_, fun order num_tokens => s.evicted order num_tokens⟩
  intro op hp
  obtain ⟨m', hok, -, -⟩ := s.step hp
  exact ⟨m', hok⟩

/-! ### A small run -/

/-- The state after an operation (unchanged if it raised). -/
def next (F : HashFns H) (m : Machine H) (op : Op H) : Machine H :=
  match step F m op with
  | .ok m' => m'
  | .error _ => m

theorem step_next (s : Sound F m) (hp : Permitted m op) : step F m op = .ok (next F m op) := by
  obtain ⟨m', hok, -, -⟩ := s.step hp
  rw [next, hok]

theorem Reachable.next (h : Reachable F config m) (hp : Permitted m op) :
    Reachable F config (next F m op) :=
  .step h hp (step_next (sound_of_reachable h) hp)

/-- Digests of a small model: the number of pages hashed so far. -/
def page_counts : HashFns ℕ where
  page prior _ := prior.getD 0 + 1
  namespace_digest _ _ := 0
  salt_digest _ := 0
  to_int64 h := h

/-- A cache of single-token pages. -/
def token_cache (disable : Bool) : CacheConfig where
  page_size := 1
  page_pos := Nat.one_pos
  is_eagle := false
  disable := disable
  enable_kv_cache_events := false

/-- The plain key of a token list. -/
def plain_key (tokens : List ℤ) : RadixKey := RadixKey.init tokens none false none none

/-- One key inserted and its node locked twice. -/
def twice_locked : Machine ℕ :=
  next page_counts
    (next page_counts (next page_counts ⟨RadixCache.init (token_cache false), [], []⟩
        (.insert (plain_key [7]) none none false)) (.inc_lock_ref 1))
    (.inc_lock_ref 1)

theorem reachable_twice_locked : Reachable page_counts (token_cache false) twice_locked := by
  have hfiled : ∀ m : Machine ℕ, m.cache.tree.child? m.cache.tree.root (.plain [.token 7]) = some 1 →
      Permitted m (.inc_lock_ref 1) := fun m hm => .child .root hm
  refine .next (.next (.next .init ?_) (hfiled _ ?_)) (hfiled _ ?_)
  · intro v hv
    cases hv
  · decide +kernel
  · decide +kernel

/-- The root is locked once, its child twice. -/
theorem root_lock_below_child : ∃ m : Machine ℕ, Reachable page_counts (token_cache false) m ∧
    ∃ k n, m.cache.tree.child? m.cache.tree.root k = some n ∧
      ¬ (m.cache.node n).lock_ref ≤ (m.cache.node m.cache.tree.root).lock_ref :=
  ⟨twice_locked, reachable_twice_locked, .plain [.token 7], 1, by decide +kernel, by decide +kernel⟩

/-- The heap hands out its first node. -/
def pop_first : RadixCache.EvictionOrder H where
  heappop _ heap := match heap with
    | [] => none
    | x :: rest => some (x, rest)
  pops _ heap hne := by
    cases heap with
    | nil => exact absurd rfl hne
    | cons x rest => exact ⟨x, rest, rfl, List.Perm.refl _⟩

def insert_op (tokens : List ℤ) (extra_key cache_salt : Option String) : Op H :=
  .insert (RadixKey.init tokens extra_key false none cache_salt) none none false

theorem permitted_insert (m : Machine H) (tokens : List ℤ) (extra_key cache_salt : Option String) :
    Permitted m (insert_op tokens extra_key cache_salt) := by
  intro v hv
  cases hv

/-- Two keys that part after their first page, and that page under a salt. -/
def parted (F : HashFns H) (config : CacheConfig) : Machine H :=
  next F (next F (next F ⟨RadixCache.init config, [], []⟩ (insert_op [7, 8] none none))
    (insert_op [7, 9] none none)) (insert_op [7] none (some "salt"))

/-- One leaf is evicted after that. -/
def evicted_leaf (F : HashFns H) (config : CacheConfig) : Machine H :=
  next F (parted F config) (.evict pop_first 1)

/-- Four pages were filed under a divided node and a salt, and one of them is evicted. -/
theorem evicted_leaf_structured :
    (parted page_counts (token_cache false)).cache.evictable_size_ = 4 ∧
      (evicted_leaf page_counts (token_cache false)).cache.evictable_size_ = 3 ∧
      Structured (evicted_leaf page_counts (token_cache false)).cache := by
  have hreach : Reachable page_counts (token_cache false) (evicted_leaf _ _) :=
    .next (.next (.next (.next .init (permitted_insert _ [7, 8] none none))
      (permitted_insert _ [7, 9] none none)) (permitted_insert _ [7] none (some "salt"))) trivial
  exact ⟨by decide +kernel, by decide +kernel, (radix_cache_structured hreach).1⟩

/-! ## The prefix map -/

/-- `es` is the longest page-aligned prefix of the units `us` that the cache holds. -/
structure LongestHeld (c : RadixCache H) (ns : Namespace) (us : List Atom) (es : List (Atom × ℤ)) :
    Prop where
  held : Held c ns es
  follows : es.map Prod.fst <+: us
  greatest : ∀ es', Held c ns es' → es'.map Prod.fst <+: us → es'.length ≤ es.length

/-- The slots a lookup returns. -/
def matched (c : RadixCache H) (key : RadixKey) : Except Fault (List ℤ) :=
  Except.map (fun r => r.2.1) ( c.match_prefix key)

theorem Shape.longestHeld_iff (h : Shape c) {ns : Namespace} {us : List Atom} {es : List (Atom × ℤ)} :
    LongestHeld c ns us es ↔ h.prefix_map.Longest ns us es :=
  ⟨fun l => ⟨l.held, l.follows, l.greatest⟩, fun l => ⟨l.held, l.follows, l.greatest⟩⟩

theorem LongestHeld.unique (h : Shape c) {ns : Namespace} {us : List Atom}
    {es es' : List (Atom × ℤ)} (l : LongestHeld c ns us es) (l' : LongestHeld c ns us es') :
    es = es' :=
  (h.longestHeld_iff.mp l).unique (h.longestHeld_iff.mp l')

theorem Shape.matched_eq (h : Shape c) (key : RadixKey) :
    ∃ es, LongestHeld c key.namespace_of (view c key).units es ∧
      matched c key = .ok (es.map Prod.snd) := by
  obtain ⟨c', es, last, hok, -, hlong⟩ := match_prefix_spec h key
  refine ⟨es, h.longestHeld_iff.mpr hlong, ?_⟩
  rw [matched, hok]
  rfl

theorem matched_congr {c' : RadixCache H} (h : Shape c) (h' : Shape c')
    (hconfig : c'.config = c.config) (hheld : ∀ ns es, Held c' ns es ↔ Held c ns es)
    (key : RadixKey) : matched c' key = matched c key := by
  obtain ⟨es, hl, hok⟩ := h.matched_eq key
  obtain ⟨es', hl', hok'⟩ := h'.matched_eq key
  have hview : view c' key = view c key := by rw [view, view, hconfig]
  rw [hview] at hl'
  have hlong : LongestHeld c key.namespace_of (view c key).units es' :=
    ⟨(hheld _ _).mp hl'.held, hl'.follows, fun e he hu => hl'.greatest e ((hheld _ _).mpr he) hu⟩
  rw [hok, hok', hlong.unique h hl]

/-- What a lookup may do. -/
structure LooksUp (c : RadixCache H) (key : RadixKey) (c' : RadixCache H) (slots : List ℤ) : Prop where
  longest : ∃ es, LongestHeld c key.namespace_of (view c key).units es ∧ slots = es.map Prod.snd
  held : ∀ ns es, Held c' ns es ↔ Held c ns es
  later : ∀ key', matched c' key' = matched c key'

/-- What an insertion has to do: `old` is the longest held prefix of what it files. -/
structure Files (c : RadixCache H) (key : RadixKey) (value : Option (List ℤ)) (c' : RadixCache H)
    (prefix_len : ℕ) : Prop where
  longest : ∃ old, LongestHeld c key.namespace_of (filed_key c key).units old ∧
    prefix_len = old.length ∧
    matched c' key = .ok (old.map Prod.snd ++ (filed_slots c key value).drop old.length)
  others : ∀ key', ∃ es es', LongestHeld c key'.namespace_of (view c key').units es ∧
    matched c key' = .ok (es.map Prod.snd) ∧ matched c' key' = .ok (es'.map Prod.snd) ∧
    es <+: es' ∧ (es' = es ∨ (key'.namespace_of = key.namespace_of ∧
      es'.map Prod.fst <+: (filed_key c key).units))

theorem Sound.looks_up (s : Sound F m) (key : RadixKey) :
    ∃ c' slots last, m.cache.match_prefix key = .ok (c', slots, last) ∧
      LooksUp m.cache key c' slots := by
  obtain ⟨c', es, last, hok, hr, hlong⟩ := match_prefix_spec s.shape key
  refine ⟨c', _, last, hok, ⟨es, s.shape.longestHeld_iff.mpr hlong, rfl⟩, fun ns es => hr.held_iff, ?_⟩
  exact fun key' => matched_congr s.shape (hr.shape s.shape) hr.config (fun ns es => hr.held_iff) key'

theorem spelled_rest {key : RadixKey} {value : Option (List ℤ)} (hv : Covers c key value)
    {old : List (Atom × ℤ)} (hold : old.map Prod.fst <+: (filed_key c key).units) :
    (old ++ rest_entries c key value old.length).map Prod.fst = (filed_key c key).units := by
  have htake := prefix_iff_eq_take.mp hold
  rw [length_map] at htake
  rw [map_append, rest_entries, map_drop, map_fst_zip
    (by rw [length_units, length_filed_slots hv]), htake, take_append_drop]

theorem Sound.files (s : Sound F m) (hen : m.cache.config.disable = false) (key : RadixKey)
    {value : Option (List ℤ)} (hv : Covers m.cache key value) (priority : Option ℤ) (chunked : Bool) :
    ∃ c' prefix_len last, m.cache.insert F key value priority chunked = .ok (c', prefix_len, last) ∧
      Files m.cache key value c' prefix_len := by
  obtain ⟨c', last, old, hok, hins, hlong, hheld⟩ :=
    insert_spec F s.shape s.hashed key hv priority chunked hen
  have hs' := hins.shape s.shape
  have hps : m.cache.page_size ∣ (filed_key m.cache key).units.length := by
    rw [length_units]
    exact dvd_len_page_aligned _ _
  have hslots := length_filed_slots hv
  have hspell := spelled_rest hv hlong.follows
  have ins : s.shape.prefix_map.Insertion key.namespace_of (filed_key m.cache key).units old
      (rest_entries m.cache key value old.length) := ⟨hlong, hspell, hps⟩
  have hview : ∀ key', view c' key' = view m.cache key' := by
    intro key'
    rw [view, view, hins.config]
  -- the longest held prefixes of the new cache are those of the map after the insertion
  have hlongest : ∀ {ns us es}, LongestHeld c' ns us es →
      (s.shape.prefix_map.insert ins).Longest ns us es := by
    intro ns us es l
    refine ⟨(hheld ns es).mp l.held, l.follows, ?_⟩
    intro e he hu
    exact l.greatest e ((hheld ns e).mpr he) hu
  refine ⟨c', old.length, some last, hok, ⟨old, s.shape.longestHeld_iff.mpr hlong, rfl, ?_⟩, ?_⟩
  · obtain ⟨es, hl, hmatch⟩ := hs'.matched_eq key
    rw [hview] at hl
    have hwhole : (s.shape.prefix_map.insert ins).Longest key.namespace_of
        (view m.cache key).units (old ++ rest_entries m.cache key value old.length) := by
      have hself := PrefixMap.longest_insert_self ins
      refine ⟨hself.held, ?_, ?_⟩
      · rw [hspell, filed_key, units_page_aligned]
        exact take_prefix _ _
      · intro e he hu
        refine hself.greatest e he ?_
        exact (follows_aligned_iff m.cache.page_size_pos
          ((s.shape.prefix_map.insert ins).aligned _ _ he)).mpr hu
    have heq := (hlongest hl).unique hwhole
    rw [hmatch, heq, map_append, rest_entries, map_drop, map_snd_zip]
    rw [length_units, hslots]
  · intro key'
    obtain ⟨es, hl, hmatch⟩ := s.shape.matched_eq key'
    obtain ⟨es', hl', hmatch'⟩ := hs'.matched_eq key'
    rw [hview] at hl'
    obtain ⟨hpre, hcase⟩ := PrefixMap.longest_insert ins (s.shape.longestHeld_iff.mp hl) (hlongest hl')
    refine ⟨es, es', hl, hmatch, hmatch', hpre, ?_⟩
    rcases hcase with heq | ⟨hns, hpath⟩
    · exact .inl heq
    · refine .inr ⟨hns, ?_⟩
      have := hpath.map Prod.fst
      rwa [hspell] at this

/-- **The cache is a prefix map.** In every state of every run a lookup returns the slots of the
longest held prefix and changes no later lookup; an insertion into a cache that is not disabled
returns the length of the longest held prefix of what it files, extends it by the new slots, and
changes other lookups along the inserted path only. A disabled cache files nothing. -/
theorem radix_cache_refines {config : CacheConfig} {m : Machine H} (h : Reachable F config m) :
    (∀ ns us es es', LongestHeld m.cache ns us es → LongestHeld m.cache ns us es' → es = es') ∧
    (∀ key, ∃ c' slots last, m.cache.match_prefix key = .ok (c', slots, last) ∧
      LooksUp m.cache key c' slots) ∧
    (∀ key value priority chunked, Covers m.cache key value → m.cache.config.disable = false →
      ∃ c' prefix_len last, m.cache.insert F key value priority chunked
        = .ok (c', prefix_len, last) ∧ Files m.cache key value c' prefix_len) ∧
    (∀ key value priority chunked, m.cache.config.disable = true →
      m.cache.insert F key value priority chunked = .ok (m.cache, 0, none)) := by
  have s := sound_of_reachable h
  refine ⟨fun ns us es es' l l' => l.unique s.shape l', s.looks_up, ?_, ?_⟩
  · intro key value priority chunked hv hen
    exact s.files hen key hv priority chunked
  · intro key value priority chunked hd
    exact insert_disabled hd key value priority chunked

theorem twice_locked_refines : ∃ c' prefix_len last,
    twice_locked.cache.insert page_counts (plain_key [7, 8]) none none false
      = .ok (c', prefix_len, last) ∧ Files twice_locked.cache (plain_key [7, 8]) none c' prefix_len :=
  (radix_cache_refines reachable_twice_locked).2.2.1 (plain_key [7, 8]) none none false
    (fun v hv => by cases hv) (by decide +kernel)

/-- A disabled cache does not return what was inserted. -/
theorem disabled_cache_forgets : ∃ m : Machine ℕ, Reachable page_counts (token_cache true) m ∧
    ∃ c', m.cache.insert page_counts (plain_key [7]) none none false = .ok (c', 0, none) ∧
      filed_slots m.cache (plain_key [7]) none = [7] ∧ matched c' (plain_key [7]) = .ok [] :=
  ⟨_, .init, _, rfl, by decide +kernel, by decide +kernel⟩

end LightningH3.Radix
