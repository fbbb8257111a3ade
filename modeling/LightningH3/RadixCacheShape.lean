/-
The structural invariant of the radix cache.

`Shape` is what every state between two operations satisfies, locks aside: consistent links, keys
of whole pages with one slot per unit, children filed under their own first page, counters that
are totals over the tree and a leaf set that is exactly the unlocked leaves. It is kept by the
three ways the tree changes (a split, a new leaf, a removed leaf) and by raising or lowering the
lock count of one node, and everything else the operations do never touches what it is about.
-/
import LightningH3.RadixCache

set_option autoImplicit false

namespace LightningH3.Radix

open Arena List RadixKey

variable {H : Type}

/-! ## The invariant -/

/-- The part of a node's length that counts as evictable. -/
def evictable_len (d : TreeNode) : ℤ := if d.lock_ref = 0 then d.key.len else 0

/-- The part of a node's length that counts as protected. -/
def protected_len (d : TreeNode) : ℤ := if d.lock_ref = 0 then 0 else d.key.len

/-- An unlocked node without children, the root excluded. -/
structure EvictableLeaf (c : RadixCache H) (n : ℕ) : Prop where
  inTree : InTree c.tree n
  ne_root : n ≠ c.tree.root
  unlocked : (c.node n).lock_ref = 0
  childless : ∀ k, c.tree.child? n k = none

/-- **The shape of the cache.** -/
structure Shape (c : RadixCache H) : Prop where
  linked : c.tree.Linked
  keyed : ∀ n, InTree c.tree n → n ≠ c.tree.root → 0 < (c.node n).key.len ∧
    c.page_size ∣ (c.node n).key.len ∧ (c.node n).value.length = (c.node n).key.len
  filed : ∀ p k n, InTree c.tree p → c.tree.child? p k = some n →
    (c.node n).key.child_key c.page_size = .ok k
  uniform : ∀ p k n, InTree c.tree p → p ≠ c.tree.root → c.tree.child? p k = some n →
    (c.node n).key.namespace_of = (c.node p).key.namespace_of
  lock_nonneg : ∀ n, InTree c.tree n → 0 ≤ (c.node n).lock_ref
  root_locked : (c.node c.tree.root).lock_ref = 1
  root_key : (c.node c.tree.root).key.len = 0
  evictable : c.evictable_size_ = c.tree.total evictable_len
  guarded : c.protected_size_ = c.tree.total protected_len
  leaves_nodup : c.evictable_leaves.Nodup
  leaves : ∀ n, n ∈ c.evictable_leaves ↔ EvictableLeaf c n
  idle : c.config.disable = true → ∀ n, InTree c.tree n → n = c.tree.root

/-- Two states with the same tree and the same books; hashes, counters and events may differ. -/
structure SameBooks (c c' : RadixCache H) : Prop where
  config : c'.config = c.config
  tree : c'.tree = c.tree
  evictable : c'.evictable_size_ = c.evictable_size_
  guarded : c'.protected_size_ = c.protected_size_
  leaves : c'.evictable_leaves = c.evictable_leaves

namespace SameBooks

variable {c c' c'' : RadixCache H}

theorem refl (c : RadixCache H) : SameBooks c c := ⟨rfl, rfl, rfl, rfl, rfl⟩

theorem trans (h : SameBooks c c') (h' : SameBooks c' c'') : SameBooks c c'' :=
  ⟨h'.config.trans h.config, h'.tree.trans h.tree, h'.evictable.trans h.evictable,
    h'.guarded.trans h.guarded, h'.leaves.trans h.leaves⟩

theorem node (h : SameBooks c c') (n : ℕ) : c'.node n = c.node n := by
  rw [RadixCache.node, RadixCache.node, h.tree]

theorem page_size (h : SameBooks c c') : c'.page_size = c.page_size := by
  rw [RadixCache.page_size, RadixCache.page_size, h.config]

theorem set_info (c : RadixCache H) (n : ℕ) (i : NodeInfo H) : SameBooks c (c.set_info n i) :=
  ⟨rfl, rfl, rfl, rfl, rfl⟩

theorem raise_priority (c : RadixCache H) (n : ℕ) (priority : ℤ) :
    SameBooks c (c.raise_priority n priority) := set_info c n _

theorem inc_hit_count (c : RadixCache H) (n : ℕ) (chunked : Bool) :
    SameBooks c (c.inc_hit_count n chunked) := by
  unfold RadixCache.inc_hit_count
  split
  · exact refl c
  · exact set_info c n _

end SameBooks

variable {c : RadixCache H}

theorem Shape.congr {c' : RadixCache H} (h : Shape c) (hs : SameBooks c c') : Shape c' := by
  obtain ⟨cfg', tree', info', e', p', l', q'⟩ := c'
  obtain ⟨h₁, h₂, h₃, h₄, h₅⟩ := hs
  subst h₁ h₂ h₃ h₄ h₅
  exact ⟨h.linked, h.keyed, h.filed, h.uniform, h.lock_nonneg, h.root_locked, h.root_key,
    h.evictable, h.guarded, h.leaves_nodup,
    fun n => (h.leaves n).trans ⟨fun x => ⟨x.1, x.2, x.3, x.4⟩, fun x => ⟨x.1, x.2, x.3, x.4⟩⟩,
    h.idle⟩

namespace Shape

variable {c : RadixCache H} (h : Shape c)

include h

variable {n : ℕ}

theorem page_le (hn : InTree c.tree n) (hr : n ≠ c.tree.root) : c.page_size ≤ (c.node n).key.len :=
  Nat.le_of_dvd (h.keyed n hn hr).1 (h.keyed n hn hr).2.1

theorem filed_eq {p : ℕ} {k : ChildKey} (hp : InTree c.tree p) (hk : c.tree.child? p k = some n) :
    k = RadixKey.tagged (c.node n).key.namespace_of ((c.node n).key.units.take c.page_size) := by
  have hle := h.page_le (.child hp hk) (h.linked.ne_root hp hk)
  have hf := h.filed p k n hp hk
  rw [child_key_eq hle] at hf
  exact (Except.ok.inj hf).symm

theorem exists_parent (hn : InTree c.tree n) (hr : n ≠ c.tree.root) :
    ∃ p k, InTree c.tree p ∧ (c.tree.cell n).parent = some p ∧ c.tree.child? p k = some n ∧
      (c.node n).key.child_key c.page_size = .ok k := by
  obtain ⟨p, k, hp, hk⟩ := hn.exists_parent hr
  exact ⟨p, k, hp, h.linked.child_parent p k n hp hk, hk, h.filed p k n hp hk⟩

end Shape

/-! ## Leaves -/

theorem values_eq_nil_iff (c : RadixCache H) (n : ℕ) :
    (c.tree.cell n).children.values = [] ↔ ∀ k, c.tree.child? n k = none := by
  constructor
  · intro hv k
    rw [Option.eq_none_iff_forall_ne_some]
    intro m hm
    have hmem := OrderedDict.mem_values_iff.mpr ⟨k, hm⟩
    rw [hv] at hmem
    cases hmem
  · intro hk
    rw [eq_nil_iff_forall_not_mem]
    intro m hm
    obtain ⟨k, hkm⟩ := OrderedDict.mem_values_iff.mp hm
    have := hk k
    rw [Arena.child?, hkm] at this
    cases this

theorem size_eq_zero_iff (c : RadixCache H) (n : ℕ) :
    (c.tree.cell n).children.size = 0 ↔ ∀ k, c.tree.child? n k = none := by
  rw [← values_eq_nil_iff, OrderedDict.values, map_eq_nil_iff, OrderedDict.size, length_eq_zero_iff]

/-- **Leaf status.** After `_update_leaf_status` the leaf set is right at that node, and unchanged
elsewhere. -/
theorem mem_leaves_update_leaf_status (hd : c.evictable_leaves.Nodup) (n m : ℕ) :
    m ∈ (c.update_leaf_status n).evictable_leaves ↔
      if m = n then (c.node n).lock_ref ≤ 0 ∧ ∀ k, c.tree.child? n k = none
      else m ∈ c.evictable_leaves := by
  have herase : m ∈ c.evictable_leaves.erase n ↔ m ≠ n ∧ m ∈ c.evictable_leaves :=
    hd.mem_erase_iff
  unfold RadixCache.update_leaf_status
  rw [← values_eq_nil_iff]
  by_cases hlock : (c.node n).lock_ref > 0
  · rw [if_pos hlock]
    split <;> simp_all
  · rw [if_neg hlock]
    by_cases hv : (c.tree.cell n).children.values ≠ []
    · split <;> simp_all
    · rw [if_neg hv]
      have hleaf : (c.node n).lock_ref ≤ 0 ∧ (c.tree.cell n).children.values = [] :=
        ⟨by omega, not_not.mp hv⟩
      by_cases hin : n ∈ c.evictable_leaves
      · rw [if_pos hin]
        split
        · rename_i heq
          subst heq
          exact ⟨fun _ => hleaf, fun _ => hin⟩
        · exact Iff.rfl
      · rw [if_neg hin]
        rw [mem_append, mem_singleton]
        split
        · rename_i heq
          exact ⟨fun _ => hleaf, fun _ => .inr heq⟩
        · rename_i hne
          exact ⟨fun h => h.resolve_right hne, .inl⟩

theorem nodup_update_leaf_status (hd : c.evictable_leaves.Nodup) (n : ℕ) :
    (c.update_leaf_status n).evictable_leaves.Nodup := by
  unfold RadixCache.update_leaf_status
  split
  · exact hd.erase n
  · split
    · exact hd.erase n
    · split
      · exact hd
      · rename_i hn
        exact nodup_append.mpr ⟨hd, nodup_singleton n, by
          rintro x hx y hy rfl
          exact hn (mem_singleton.mp hy ▸ hx)⟩

section frame

variable (c : RadixCache H) (n : ℕ)

@[simp] theorem tree_update_leaf_status : (c.update_leaf_status n).tree = c.tree := by
  unfold RadixCache.update_leaf_status
  split_ifs <;> rfl

@[simp] theorem config_update_leaf_status : (c.update_leaf_status n).config = c.config := by
  unfold RadixCache.update_leaf_status
  split_ifs <;> rfl

@[simp] theorem evictable_update_leaf_status :
    (c.update_leaf_status n).evictable_size_ = c.evictable_size_ := by
  unfold RadixCache.update_leaf_status
  split_ifs <;> rfl

@[simp] theorem protected_update_leaf_status :
    (c.update_leaf_status n).protected_size_ = c.protected_size_ := by
  unfold RadixCache.update_leaf_status
  split_ifs <;> rfl

@[simp] theorem info_update_leaf_status : (c.update_leaf_status n).info = c.info := by
  unfold RadixCache.update_leaf_status
  split_ifs <;> rfl

@[simp] theorem queue_update_leaf_status : (c.update_leaf_status n).queue = c.queue := by
  unfold RadixCache.update_leaf_status
  split_ifs <;> rfl

@[simp] theorem node_update_leaf_status (m : ℕ) : (c.update_leaf_status n).node m = c.node m := by
  rw [RadixCache.node, tree_update_leaf_status, RadixCache.node]

end frame

/-! ## Splits -/

/-- The upper part of a node that is split after `m` units. -/
def upper (d : TreeNode) (m : ℕ) : TreeNode := ⟨d.key.upto m, d.value.take m, d.lock_ref⟩

def lower (d : TreeNode) (m : ℕ) : TreeNode := ⟨d.key.after m, d.value.drop m, d.lock_ref⟩

/-- The counters and hashes after a split: the new node takes its share of the hashes. -/
def split_info (c : RadixCache H) (child m : ℕ) : ℕ → NodeInfo H :=
  let i := c.info child
  let hash_value := split_node_hash_value i.hash_value m c.page_size
  let event_hash_value := split_node_hash_value i.event_hash_value m c.page_size
  Function.update
    (Function.update c.info c.tree.counter ⟨i.hit_count, i.priority, hash_value.1, event_hash_value.1⟩)
    child { i with hash_value := hash_value.2, event_hash_value := event_hash_value.2 }

/-- A state whose tree is that of `c` with `child` split after `m` units, and whose books are
those of `c`. -/
structure Splits (c c' : RadixCache H) (p child : ℕ) (k k' : ChildKey) (m : ℕ) : Prop where
  site : Spliceable c.tree p child k
  pos : 0 < m
  lt : m < (c.node child).key.len
  aligned : c.page_size ∣ m
  below : ((c.node child).key.after m).child_key c.page_size = .ok k'
  config : c'.config = c.config
  tree : c'.tree = c.tree.splice p child k k' (upper (c.node child) m) (lower (c.node child) m)
  evictable : c'.evictable_size_ = c.evictable_size_
  guarded : c'.protected_size_ = c.protected_size_
  leaves : c'.evictable_leaves = c.evictable_leaves
  info : c'.info = split_info c child m
  queue : c'.queue = c.queue

namespace Splits

variable {c c' : RadixCache H} {p child : ℕ} {k k' : ChildKey} {m : ℕ}
  (s : Splits c c' p child k k' m) (h : Shape c)

include s

theorem page_size : c'.page_size = c.page_size := by
  rw [RadixCache.page_size, s.config, RadixCache.page_size]

theorem root : c'.tree.root = c.tree.root := by rw [s.tree, root_splice]

theorem node_new : c'.node c.tree.counter = upper (c.node child) m := by
  rw [RadixCache.node, s.tree, s.site.data_new]

theorem node_child : c'.node child = lower (c.node child) m := by
  rw [RadixCache.node, s.tree, s.site.data_child]

variable {n : ℕ}

theorem node_other (hc : n ≠ child) (hn : n ≠ c.tree.counter) : c'.node n = c.node n := by
  rw [RadixCache.node, s.tree, s.site.data_other hc hn, RadixCache.node]

theorem inTree_iff : InTree c'.tree n ↔ InTree c.tree n ∨ n = c.tree.counter := by
  rw [s.tree]
  exact s.site.inTree_iff

theorem ne_counter (hn : InTree c.tree n) : n ≠ c.tree.counter :=
  (s.site.linked.fresh n hn).ne

theorem namespace_lock_old (hn : InTree c.tree n) :
    (c'.node n).key.namespace_of = (c.node n).key.namespace_of ∧
      (c'.node n).lock_ref = (c.node n).lock_ref := by
  by_cases hc : n = child
  · subst hc
    rw [s.node_child]
    exact ⟨namespace_after _ _, rfl⟩
  · rw [s.node_other hc (s.ne_counter hn)]
    exact ⟨rfl, rfl⟩

variable {q : ℕ} {key : ChildKey}

theorem edge_cases (hq : InTree c'.tree q) (hn : c'.tree.child? q key = some n) :
    (q = c.tree.counter ∧ key = k' ∧ n = child) ∨ (q = p ∧ key = k ∧ n = c.tree.counter) ∨
      (InTree c.tree q ∧ c.tree.child? q key = some n ∧ n ≠ child) := by
  have hq' := s.inTree_iff.mp hq
  rw [s.tree] at hn
  exact s.site.edge_cases hq' hn

include h

theorem keyed (hn : InTree c'.tree n) (hr : n ≠ c'.tree.root) :
    0 < (c'.node n).key.len ∧ c'.page_size ∣ (c'.node n).key.len ∧
      (c'.node n).value.length = (c'.node n).key.len := by
  have hch := h.keyed child s.site.child (h.linked.ne_root s.site.parent s.site.filed)
  have hlt := s.lt
  have hpos := s.pos
  rw [s.root] at hr
  rw [s.page_size]
  rcases s.inTree_iff.mp hn with hn | rfl
  · by_cases hc : n = child
    · subst hc
      rw [s.node_child]
      dsimp only [lower]
      rw [len_after, length_drop, hch.2.2]
      exact ⟨by omega, Nat.dvd_sub hch.2.1 s.aligned, rfl⟩
    · rw [s.node_other hc (s.ne_counter hn)]
      exact h.keyed n hn hr
  · rw [s.node_new]
    dsimp only [upper]
    rw [len_upto, length_take, hch.2.2, Nat.min_eq_left hlt.le]
    exact ⟨hpos, s.aligned, rfl⟩

theorem filed (hq : InTree c'.tree q) (hn : c'.tree.child? q key = some n) :
    (c'.node n).key.child_key c'.page_size = .ok key := by
  rw [s.page_size]
  rcases s.edge_cases hq hn with ⟨rfl, rfl, rfl⟩ | ⟨rfl, rfl, rfl⟩ | ⟨hq', hn', hne⟩
  · rw [s.node_child]
    exact s.below
  · have hps : c.page_size ≤ m := Nat.le_of_dvd s.pos s.aligned
    have hlt := s.lt
    have hlen : c.page_size ≤ ((c.node child).key.upto m).len := by
      rw [len_upto]
      omega
    rw [s.node_new]
    dsimp only [upper]
    rw [child_key_eq hlen, namespace_upto, units_upto, take_take,
      Nat.min_eq_left hps, h.filed_eq s.site.parent s.site.filed]
  · rw [s.node_other hne (s.ne_counter (.child hq' hn'))]
    exact h.filed q key n hq' hn'

theorem uniform (hq : InTree c'.tree q) (hr : q ≠ c'.tree.root) (hn : c'.tree.child? q key = some n)
    : (c'.node n).key.namespace_of = (c'.node q).key.namespace_of := by
  rw [s.root] at hr
  rcases s.edge_cases hq hn with ⟨rfl, -, rfl⟩ | ⟨rfl, -, rfl⟩ | ⟨hq', hn', -⟩
  · rw [s.node_child, s.node_new]
    exact (namespace_after _ _).trans (namespace_upto _ _).symm
  · rw [s.node_new, (s.namespace_lock_old s.site.parent).1, ← h.uniform _ _ _ s.site.parent hr
      s.site.filed]
    exact namespace_upto _ _
  · rw [(s.namespace_lock_old hq').1, (s.namespace_lock_old (.child hq' hn')).1]
    exact h.uniform q key n hq' hr hn'

omit h in
theorem total_eq {w : TreeNode → ℤ}
    (hw : w (upper (c.node child) m) + w (lower (c.node child) m) = w (c.node child)) :
    c'.tree.total w = c.tree.total w := by
  rw [s.tree]
  exact s.site.total_splice hw

omit h in
theorem evictableLeaf_iff : EvictableLeaf c' n ↔ EvictableLeaf c n := by
  constructor
  · rintro ⟨hn, hr, hu, hc⟩
    rcases s.inTree_iff.mp hn with hn | rfl
    · refine ⟨hn, by rwa [s.root] at hr, by rwa [(s.namespace_lock_old hn).2] at hu, ?_⟩
      intro key
      by_contra hne
      obtain ⟨x, hx⟩ := Option.ne_none_iff_exists'.mp hne
      -- an old edge leads to the child that was split or survives as it is
      by_cases hxc : x = child
      · subst hxc
        obtain ⟨rfl, rfl⟩ := s.site.edge_cut hn hx
        have := hc key
        rw [s.tree, s.site.filed_new] at this
        cases this
      · have := hc key
        rw [s.tree, s.site.edge_kept _ _ _ hn hx hxc] at this
        cases this
    · have := hc k'
      rw [s.tree, s.site.filed_child] at this
      cases this
  · rintro ⟨hn, hr, hu, hc⟩
    refine ⟨s.inTree_iff.mpr (.inl hn), by rwa [s.root], by rwa [(s.namespace_lock_old hn).2], ?_⟩
    intro key
    have hnp : n ≠ p := by
      rintro rfl
      have := s.site.filed
      rw [hc] at this
      cases this
    rw [s.tree, s.site.child?_other key hnp (s.ne_counter hn)]
    exact hc key

/-- **A split keeps the shape.** -/
theorem shape : Shape c' where
  linked := by
    rw [s.tree]
    exact s.site.linked_splice
  keyed n hn hr := s.keyed h hn hr
  filed q key n hq hn := s.filed h hq hn
  uniform q key n hq hr hn := s.uniform h hq hr hn
  lock_nonneg n hn := by
    rcases s.inTree_iff.mp hn with hn | rfl
    · rw [(s.namespace_lock_old hn).2]
      exact h.lock_nonneg n hn
    · rw [s.node_new]
      exact h.lock_nonneg child s.site.child
  root_locked := by
    rw [s.root, (s.namespace_lock_old .root).2]
    exact h.root_locked
  root_key := by
    have hrc : c.tree.root ≠ child := (h.linked.ne_root s.site.parent s.site.filed).symm
    rw [s.root, s.node_other hrc (s.ne_counter .root)]
    exact h.root_key
  evictable := by
    rw [s.evictable, h.evictable, s.total_eq]
    simp only [evictable_len, upper, lower, len_upto, len_after]
    split_ifs <;> omega
  guarded := by
    rw [s.guarded, h.guarded, s.total_eq]
    simp only [protected_len, upper, lower, len_upto, len_after]
    split_ifs <;> omega
  leaves_nodup := by
    rw [s.leaves]
    exact h.leaves_nodup
  leaves n := by
    rw [s.leaves, h.leaves, s.evictableLeaf_iff]
  idle hd n hn := by
    rw [s.config] at hd
    exact absurd (h.idle hd child s.site.child) (h.linked.ne_root s.site.parent s.site.filed)

end Splits

/-- **`_split_node` succeeds** on a node of the tree at a page boundary inside its key. -/
theorem split_node_spec (h : Shape c) {child m : ℕ} (hn : InTree c.tree child)
    (hr : child ≠ c.tree.root) (hpos : 0 < m) (hlt : m < (c.node child).key.len)
    (hdvd : c.page_size ∣ m) :
    ∃ p k k' c', c.split_node (c.node child).key child m = .ok (c', c.tree.counter) ∧
      Splits c c' p child k k' m := by
  obtain ⟨p, k, hp, hpar, hk, hck⟩ := h.exists_parent hn hr
  have hrest : c.page_size ≤ ((c.node child).key.after m).len := by
    rw [len_after]
    exact Nat.le_of_dvd (by omega) (Nat.dvd_sub (h.keyed child hn hr).2.1 hdvd)
  obtain ⟨k', hbelow⟩ : ∃ k', ((c.node child).key.after m).child_key c.page_size = .ok k' :=
    ⟨_, child_key_eq hrest⟩
  refine ⟨p, k, k', ?_⟩
  unfold RadixCache.split_node
  rw [hbelow, hck, hpar]
  exact ⟨_, rfl, ⟨h.linked, hp, hk⟩, hpos, hlt, hdvd, hbelow, rfl, rfl, rfl, rfl, rfl, rfl, rfl⟩

/-! ## New leaves -/

/-- A state whose tree is that of `c` with a new unlocked leaf below `p`, booked as evictable. -/
structure Grows (c c' : RadixCache H) (p : ℕ) (k : ChildKey) (key : RadixKey) (value : List ℤ) :
    Prop where
  site : Attachable c.tree p k
  first_page : key.child_key c.page_size = .ok k
  pos : 0 < key.len
  aligned : c.page_size ∣ key.len
  slots : value.length = key.len
  same_namespace : p ≠ c.tree.root → key.namespace_of = (c.node p).key.namespace_of
  enabled : c.config.disable = false
  config : c'.config = c.config
  tree : c'.tree = c.tree.attach p k ⟨key, value, 0⟩
  evictable : c'.evictable_size_ = c.evictable_size_ + key.len
  guarded : c'.protected_size_ = c.protected_size_
  leaves_nodup : c'.evictable_leaves.Nodup
  leaves : ∀ n, n ∈ c'.evictable_leaves ↔
    n = c.tree.counter ∨ (n ≠ p ∧ n ∈ c.evictable_leaves)

namespace Grows

variable {c c' : RadixCache H} {p : ℕ} {k : ChildKey} {key : RadixKey} {value : List ℤ}
  (g : Grows c c' p k key value) (h : Shape c)

include g

theorem page_size : c'.page_size = c.page_size := by
  rw [RadixCache.page_size, g.config, RadixCache.page_size]

theorem root : c'.tree.root = c.tree.root := by rw [g.tree, root_attach]

theorem node_new : c'.node c.tree.counter = ⟨key, value, 0⟩ := by
  rw [RadixCache.node, g.tree, g.site.data_new]

variable {n : ℕ}

theorem node_old (hn : InTree c.tree n) : c'.node n = c.node n := by
  rw [RadixCache.node, g.tree, g.site.data_old (g.site.linked.fresh n hn).ne, RadixCache.node]

theorem inTree_iff : InTree c'.tree n ↔ InTree c.tree n ∨ n = c.tree.counter := by
  rw [g.tree]
  exact g.site.inTree_iff

theorem edge_cases {q : ℕ} {ck : ChildKey} (hq : InTree c'.tree q)
    (hn : c'.tree.child? q ck = some n) :
    (q = p ∧ ck = k ∧ n = c.tree.counter) ∨ (InTree c.tree q ∧ c.tree.child? q ck = some n) := by
  have hq' := g.inTree_iff.mp hq
  rw [g.tree] at hn
  exact g.site.edge_cases hq' hn

theorem evictableLeaf_iff :
    EvictableLeaf c' n ↔ n = c.tree.counter ∨ (n ≠ p ∧ EvictableLeaf c n) := by
  constructor
  · rintro ⟨hn, hr, hu, hc⟩
    rcases g.inTree_iff.mp hn with hn | rfl
    · refine .inr ⟨?_, hn, by rwa [g.root] at hr, by rwa [g.node_old hn] at hu, ?_⟩
      · rintro rfl
        have := hc k
        rw [g.tree, g.site.filed_new] at this
        cases this
      · intro ck
        by_contra hne
        obtain ⟨x, hx⟩ := Option.ne_none_iff_exists'.mp hne
        have := hc ck
        rw [g.tree, g.site.edge_kept _ hn hx] at this
        cases this
    · exact .inl rfl
  · rintro (rfl | ⟨hnp, hn, hr, hu, hc⟩)
    · refine ⟨g.inTree_iff.mpr (.inr rfl), ?_, by rw [g.node_new], ?_⟩
      · rw [g.root]
        exact (g.site.linked.fresh c.tree.root .root).ne'
      · intro ck
        rw [g.tree, g.site.child?_new]
    · refine ⟨g.inTree_iff.mpr (.inl hn), by rwa [g.root], by rwa [g.node_old hn], ?_⟩
      intro ck
      rw [g.tree, Attachable.child?_other ck hnp (g.site.linked.fresh n hn).ne]
      exact hc ck

include h

/-- **A new leaf keeps the shape.** -/
theorem shape : Shape c' where
  linked := by
    rw [g.tree]
    exact g.site.linked_attach
  keyed n hn hr := by
    rw [g.page_size]
    rcases g.inTree_iff.mp hn with hn | rfl
    · rw [g.node_old hn]
      exact h.keyed n hn (by rwa [g.root] at hr)
    · rw [g.node_new]
      exact ⟨g.pos, g.aligned, g.slots⟩
  filed q ck n hq hn := by
    rw [g.page_size]
    rcases g.edge_cases hq hn with ⟨-, rfl, rfl⟩ | ⟨hq', hn'⟩
    · rw [g.node_new]
      exact g.first_page
    · rw [g.node_old (.child hq' hn')]
      exact h.filed q ck n hq' hn'
  uniform q ck n hq hr hn := by
    rw [g.root] at hr
    rcases g.edge_cases hq hn with ⟨rfl, -, rfl⟩ | ⟨hq', hn'⟩
    · rw [g.node_new, g.node_old g.site.parent]
      exact g.same_namespace hr
    · rw [g.node_old hq', g.node_old (.child hq' hn')]
      exact h.uniform q ck n hq' hr hn'
  lock_nonneg n hn := by
    rcases g.inTree_iff.mp hn with hn | rfl
    · rw [g.node_old hn]
      exact h.lock_nonneg n hn
    · rw [g.node_new]
  root_locked := by
    rw [g.root, g.node_old .root]
    exact h.root_locked
  root_key := by
    rw [g.root, g.node_old .root]
    exact h.root_key
  evictable := by
    rw [g.evictable, h.evictable, g.tree, g.site.total_attach]
    simp [evictable_len]
  guarded := by
    rw [g.guarded, h.guarded, g.tree, g.site.total_attach]
    simp [protected_len]
  leaves_nodup := g.leaves_nodup
  leaves n := by rw [g.leaves, h.leaves, g.evictableLeaf_iff]
  idle hd := by
    rw [g.config, g.enabled] at hd
    cases hd

end Grows

/-- The state of `add_leaf` before its event is recorded. -/
def grown (c : RadixCache H) (node : ℕ) (key : RadixKey) (value : List ℤ) (child_key : ChildKey)
    (priority : ℤ) (chunked : Bool) : RadixCache H :=
  let new_node := c.tree.counter
  let c := { c with
    tree := c.tree.attach node child_key ⟨key, value, 0⟩
    info := Function.update c.info new_node ⟨0, priority, none, none⟩ }
  let c := c.inc_hit_count new_node chunked
  let c := { c with evictable_size_ := c.evictable_size_ + key.len }
  (c.update_leaf_status node).update_leaf_status new_node

theorem add_leaf_eq (F : HashFns H) (c : RadixCache H) (node : ℕ) (key : RadixKey)
    (value : List ℤ) (child_key : ChildKey) (priority : ℤ) (chunked : Bool) :
    c.add_leaf F node key value child_key priority chunked =
      ((grown c node key value child_key priority chunked).record_store F c.tree.counter >>=
        fun c' => pure (c', c.tree.counter)) := rfl

theorem grown_spec (h : Shape c) {p : ℕ} {k : ChildKey} {key : RadixKey} {value : List ℤ}
    (hp : InTree c.tree p) (hk : c.tree.child? p k = none) (hck : key.child_key c.page_size = .ok k)
    (hpos : 0 < key.len) (hdvd : c.page_size ∣ key.len) (hval : value.length = key.len)
    (hns : p ≠ c.tree.root → key.namespace_of = (c.node p).key.namespace_of)
    (hen : c.config.disable = false) (priority : ℤ) (chunked : Bool) :
    Grows c (grown c p key value k priority chunked) p k key value := by
  have site : Attachable c.tree p k := ⟨h.linked, hp, hk⟩
  -- the state before the two leaf updates
  generalize hb : ({ RadixCache.inc_hit_count { c with
    tree := c.tree.attach p k ⟨key, value, 0⟩
    info := Function.update c.info c.tree.counter ⟨0, priority, none, none⟩ } c.tree.counter chunked
      with evictable_size_ := c.evictable_size_ + key.len } : RadixCache H) = b
  have hgrown : grown c p key value k priority chunked
      = (b.update_leaf_status p).update_leaf_status c.tree.counter := by
    rw [← hb]
    unfold grown RadixCache.inc_hit_count
    split <;> rfl
  have hbtree : b.tree = c.tree.attach p k ⟨key, value, 0⟩ := by
    rw [← hb]
    unfold RadixCache.inc_hit_count
    split <;> rfl
  have hbconf : b.config = c.config := by
    rw [← hb]
    unfold RadixCache.inc_hit_count
    split <;> rfl
  have hbev : b.evictable_size_ = c.evictable_size_ + key.len := by rw [← hb]
  have hbpr : b.protected_size_ = c.protected_size_ := by
    rw [← hb]
    unfold RadixCache.inc_hit_count
    split <;> rfl
  have hbl : b.evictable_leaves = c.evictable_leaves := by
    rw [← hb]
    unfold RadixCache.inc_hit_count
    split <;> rfl
  have hd : b.evictable_leaves.Nodup := by
    rw [hbl]
    exact h.leaves_nodup
  have hnew : b.node c.tree.counter = ⟨key, value, 0⟩ := by
    rw [RadixCache.node, hbtree, site.data_new]
  rw [hgrown]
  refine ⟨site, hck, hpos, hdvd, hval, hns, hen, ?_, ?_, ?_, ?_, ?_, ?_⟩
  · rw [config_update_leaf_status, config_update_leaf_status, hbconf]
  · rw [tree_update_leaf_status, tree_update_leaf_status, hbtree]
  · rw [evictable_update_leaf_status, evictable_update_leaf_status, hbev]
  · rw [protected_update_leaf_status, protected_update_leaf_status, hbpr]
  · exact nodup_update_leaf_status (nodup_update_leaf_status hd p) _
  · intro n
    rw [mem_leaves_update_leaf_status (nodup_update_leaf_status hd p),
      mem_leaves_update_leaf_status hd, node_update_leaf_status, tree_update_leaf_status, hnew]
    by_cases hn : n = c.tree.counter
    · have hleaf : ∀ key', b.tree.child? c.tree.counter key' = none := by
        intro key'
        rw [hbtree, site.child?_new]
      simp only [hn, true_or, le_refl, true_and, iff_true]
      exact hleaf
    · rw [if_neg hn]
      by_cases hnp : n = p
      · subst hnp
        rw [if_pos rfl]
        -- the parent has a child now
        have hchild : ¬ ∀ key', b.tree.child? n key' = none := by
          intro hall
          have := hall k
          rw [hbtree, site.filed_new] at this
          cases this
        simp only [hn, hchild, and_false, ne_eq, not_true_eq_false, false_and, or_self]
      · rw [if_neg hnp, hbl]
        simp only [hn, hnp, false_or, ne_eq, not_false_eq_true, true_and]

/-! ## Removed leaves -/

/-- A state whose tree is that of `c` without the leaf `x`. -/
structure Deletes (c c' : RadixCache H) (p x : ℕ) (k : ChildKey) : Prop where
  site : Detachable c.tree p x k
  unlocked : (c.node x).lock_ref = 0
  config : c'.config = c.config
  tree : c'.tree = c.tree.detach p k
  evictable : c'.evictable_size_ = c.evictable_size_ - (c.node x).key.len
  guarded : c'.protected_size_ = c.protected_size_
  leaves_nodup : c'.evictable_leaves.Nodup
  leaves : ∀ n, n ∈ c'.evictable_leaves ↔
    if n = p then (c.node p).lock_ref ≤ 0 ∧ ∀ key, c'.tree.child? p key = none
    else n ≠ x ∧ n ∈ c.evictable_leaves
  info : c'.info = c.info
  queue : c'.queue = c.queue

namespace Deletes

variable {c c' : RadixCache H} {p x : ℕ} {k : ChildKey} (d : Deletes c c' p x k) (h : Shape c)

include d

theorem page_size : c'.page_size = c.page_size := by
  rw [RadixCache.page_size, d.config, RadixCache.page_size]

theorem root : c'.tree.root = c.tree.root := by rw [d.tree, root_detach]

theorem node (n : ℕ) : c'.node n = c.node n := by
  rw [RadixCache.node, d.tree, data_detach, RadixCache.node]

variable {n : ℕ}

theorem inTree_iff : InTree c'.tree n ↔ InTree c.tree n ∧ n ≠ x := by
  rw [d.tree]
  exact d.site.inTree_iff

theorem edge_iff {q : ℕ} {key : ChildKey} (hq : InTree c.tree q) :
    c'.tree.child? q key = some n ↔ c.tree.child? q key = some n ∧ n ≠ x := by
  rw [d.tree]
  exact d.site.edge_iff hq

include h

theorem evictableLeaf_iff : EvictableLeaf c' n ↔
    if n = p then (c.node p).lock_ref ≤ 0 ∧ ∀ key, c'.tree.child? p key = none
    else n ≠ x ∧ EvictableLeaf c n := by
  by_cases hnp : n = p
  · subst hnp
    rw [if_pos rfl]
    constructor
    · rintro ⟨_, _, hu, hc⟩
      rw [d.node] at hu
      exact ⟨hu.le, hc⟩
    · rintro ⟨hlock, hc⟩
      have hnr : n ≠ c.tree.root := by
        rintro rfl
        rw [h.root_locked] at hlock
        omega
      refine ⟨d.inTree_iff.mpr ⟨d.site.parent, d.site.ne⟩, by rwa [d.root], ?_, hc⟩
      rw [d.node]
      exact le_antisymm hlock (h.lock_nonneg n d.site.parent)
  · rw [if_neg hnp]
    have hchild : ∀ key, c'.tree.child? n key = c.tree.child? n key := by
      intro key
      rw [d.tree, child?_detach, if_neg (fun hh => hnp hh.1)]
    constructor
    · rintro ⟨hn, hr, hu, hc⟩
      obtain ⟨hn', hne⟩ := d.inTree_iff.mp hn
      refine ⟨hne, hn', by rwa [d.root] at hr, by rwa [d.node] at hu, ?_⟩
      intro key
      rw [← hchild]
      exact hc key
    · rintro ⟨hne, hn, hr, hu, hc⟩
      refine ⟨d.inTree_iff.mpr ⟨hn, hne⟩, by rwa [d.root], by rwa [d.node], ?_⟩
      intro key
      rw [hchild]
      exact hc key

/-- **A removed leaf keeps the shape.** -/
theorem shape : Shape c' where
  linked := by
    rw [d.tree]
    exact d.site.linked_detach
  keyed n hn hr := by
    rw [d.node, d.page_size]
    exact h.keyed n (d.inTree_iff.mp hn).1 (by rwa [d.root] at hr)
  filed q key n hq hn := by
    have hq' := (d.inTree_iff.mp hq).1
    rw [d.node, d.page_size]
    exact h.filed q key n hq' ((d.edge_iff hq').mp hn).1
  uniform q key n hq hr hn := by
    have hq' := (d.inTree_iff.mp hq).1
    rw [d.node, d.node]
    exact h.uniform q key n hq' (by rwa [d.root] at hr) ((d.edge_iff hq').mp hn).1
  lock_nonneg n hn := by
    rw [d.node]
    exact h.lock_nonneg n (d.inTree_iff.mp hn).1
  root_locked := by
    rw [d.root, d.node]
    exact h.root_locked
  root_key := by
    rw [d.root, d.node]
    exact h.root_key
  evictable := by
    have htot : c'.tree.total evictable_len + evictable_len (c.node x) = c.tree.total evictable_len := by
      rw [d.tree]
      exact d.site.total_detach
    rw [evictable_len, if_pos d.unlocked] at htot
    rw [d.evictable, h.evictable]
    omega
  guarded := by
    have htot : c'.tree.total protected_len + protected_len (c.node x) = c.tree.total protected_len := by
      rw [d.tree]
      exact d.site.total_detach
    rw [protected_len, if_pos d.unlocked, add_zero] at htot
    rw [d.guarded, h.guarded, htot]
  leaves_nodup := d.leaves_nodup
  leaves n := by
    rw [d.leaves, d.evictableLeaf_iff h, h.leaves]
  idle hd n hn := by
    rw [d.config] at hd
    rw [d.root]
    exact h.idle hd n (d.inTree_iff.mp hn).1

end Deletes

/-- **`_delete_leaf` succeeds** on an unlocked leaf. -/
theorem delete_leaf_spec (h : Shape c) {x : ℕ} (hx : EvictableLeaf c x) :
    ∃ p k c', c.delete_leaf x = .ok c' ∧ Deletes c c' p x k := by
  obtain ⟨p, k, hp, hpar, hk, hck⟩ := h.exists_parent hx.inTree hx.ne_root
  refine ⟨p, k, ?_⟩
  unfold RadixCache.delete_leaf
  rw [hck, Fallible.ok_bind, hpar]
  dsimp only
  rw [if_pos hk]
  refine ⟨_, rfl, ⟨h.linked, hp, hk, hx.childless⟩, hx.unlocked, ?_, ?_, ?_, ?_, ?_, ?_, ?_, ?_⟩
  · rw [config_update_leaf_status]
  · rw [tree_update_leaf_status]
  · rw [evictable_update_leaf_status]
  · rw [protected_update_leaf_status]
  · exact nodup_update_leaf_status (h.leaves_nodup.erase x) p
  · intro n
    rw [mem_leaves_update_leaf_status (h.leaves_nodup.erase x), tree_update_leaf_status]
    have hnode : ∀ (c'' : RadixCache H), c''.tree = c.tree.detach p k → c''.node p = c.node p := by
      intro c'' ht
      rw [RadixCache.node, ht, data_detach, RadixCache.node]
    rw [hnode _ rfl]
    rw [h.leaves_nodup.mem_erase_iff]
  · rw [info_update_leaf_status]
  · rw [queue_update_leaf_status]

/-! ## Lock counts -/

/-- A state that differs from `c` in the lock count of `n`, booked on the side it belongs to. -/
structure Relocks (c c' : RadixCache H) (n : ℕ) (lock : ℤ) : Prop where
  inTree : InTree c.tree n
  ne_root : n ≠ c.tree.root
  nonneg : 0 ≤ lock
  config : c'.config = c.config
  tree : c'.tree = c.tree.setData n { c.node n with lock_ref := lock }
  evictable : c'.evictable_size_ = c.evictable_size_ - evictable_len (c.node n)
    + evictable_len { c.node n with lock_ref := lock }
  guarded : c'.protected_size_ = c.protected_size_ - protected_len (c.node n)
    + protected_len { c.node n with lock_ref := lock }
  leaves_nodup : c'.evictable_leaves.Nodup
  leaves : ∀ m, m ∈ c'.evictable_leaves ↔
    if m = n then lock ≤ 0 ∧ ∀ k, c.tree.child? n k = none else m ∈ c.evictable_leaves
  info : c'.info = c.info
  queue : c'.queue = c.queue

namespace Relocks

variable {c c' : RadixCache H} {n : ℕ} {lock : ℤ} (r : Relocks c c' n lock) (h : Shape c)

include r

theorem page_size : c'.page_size = c.page_size := by
  rw [RadixCache.page_size, r.config, RadixCache.page_size]

theorem root : c'.tree.root = c.tree.root := by rw [r.tree, root_setData]

theorem inTree_iff {m : ℕ} : InTree c'.tree m ↔ InTree c.tree m := by
  rw [r.tree, inTree_setData]

theorem child? (m : ℕ) (k : ChildKey) : c'.tree.child? m k = c.tree.child? m k := by
  rw [r.tree, child?_setData]

theorem node_self : c'.node n = { c.node n with lock_ref := lock } := by
  rw [RadixCache.node, r.tree, data_setData_self]

theorem node_other {m : ℕ} (hm : m ≠ n) : c'.node m = c.node m := by
  rw [RadixCache.node, r.tree, data_setData_ne hm, RadixCache.node]

theorem key_value (m : ℕ) : (c'.node m).key = (c.node m).key ∧ (c'.node m).value = (c.node m).value := by
  by_cases hm : m = n
  · subst hm
    rw [r.node_self]
    exact ⟨rfl, rfl⟩
  · rw [r.node_other hm]
    exact ⟨rfl, rfl⟩

include h

theorem total_eq (w : TreeNode → ℤ) : c'.tree.total w
    = c.tree.total w - w (c.node n) + w { c.node n with lock_ref := lock } := by
  have htot : c'.tree.total w + w (c.node n)
      = c.tree.total w + w { c.node n with lock_ref := lock } := by
    rw [r.tree]
    exact h.linked.total_setData r.inTree r.ne_root
  omega

/-- **A changed lock count keeps the shape.** -/
theorem shape : Shape c' where
  linked := by
    rw [r.tree]
    exact h.linked.setData
  keyed m hm hr := by
    rw [(r.key_value m).1, (r.key_value m).2, r.page_size]
    exact h.keyed m (r.inTree_iff.mp hm) (by rwa [r.root] at hr)
  filed q k m hq hm := by
    rw [(r.key_value m).1, r.page_size]
    rw [r.child?] at hm
    exact h.filed q k m (r.inTree_iff.mp hq) hm
  uniform q k m hq hr hm := by
    rw [(r.key_value m).1, (r.key_value q).1]
    rw [r.child?] at hm
    exact h.uniform q k m (r.inTree_iff.mp hq) (by rwa [r.root] at hr) hm
  lock_nonneg m hm := by
    by_cases hmn : m = n
    · subst hmn
      rw [r.node_self]
      exact r.nonneg
    · rw [r.node_other hmn]
      exact h.lock_nonneg m (r.inTree_iff.mp hm)
  root_locked := by
    rw [r.root, r.node_other r.ne_root.symm]
    exact h.root_locked
  root_key := by
    rw [r.root, r.node_other r.ne_root.symm]
    exact h.root_key
  evictable := by rw [r.evictable, r.total_eq h, h.evictable]
  guarded := by rw [r.guarded, r.total_eq h, h.guarded]
  leaves_nodup := r.leaves_nodup
  leaves m := by
    rw [r.leaves]
    by_cases hmn : m = n
    · subst hmn
      rw [if_pos rfl]
      constructor
      · rintro ⟨hlock, hc⟩
        refine ⟨r.inTree_iff.mpr r.inTree, by rw [r.root]; exact r.ne_root, ?_, ?_⟩
        · rw [r.node_self]
          exact le_antisymm hlock r.nonneg
        · intro k
          rw [r.child?]
          exact hc k
      · rintro ⟨_, _, hu, hc⟩
        rw [r.node_self] at hu
        refine ⟨hu.le, ?_⟩
        intro k
        rw [← r.child?]
        exact hc k
    · rw [if_neg hmn, h.leaves]
      constructor
      · rintro ⟨hm, hr, hu, hc⟩
        refine ⟨r.inTree_iff.mpr hm, by rwa [r.root], by rwa [r.node_other hmn], ?_⟩
        intro k
        rw [r.child?]
        exact hc k
      · rintro ⟨hm, hr, hu, hc⟩
        refine ⟨r.inTree_iff.mp hm, by rwa [r.root] at hr, by rwa [r.node_other hmn] at hu, ?_⟩
        intro k
        rw [← r.child?]
        exact hc k
  idle hd m hm := by
    rw [r.config] at hd
    rw [r.root]
    exact h.idle hd m (r.inTree_iff.mp hm)

end Relocks

variable {n : ℕ}

section

variable (h : Shape c) (hn : InTree c.tree n) (hr : n ≠ c.tree.root)
include h hn hr

theorem relocks_of_update {b : RadixCache H} {lock : ℤ} (hlock : 0 ≤ lock)
    (hconfig : b.config = c.config)
    (htree : b.tree = c.tree.setData n { c.node n with lock_ref := lock })
    (hev : b.evictable_size_ = c.evictable_size_ - evictable_len (c.node n)
      + evictable_len { c.node n with lock_ref := lock })
    (hpr : b.protected_size_ = c.protected_size_ - protected_len (c.node n)
      + protected_len { c.node n with lock_ref := lock })
    (hleaves : b.evictable_leaves = c.evictable_leaves) (hinfo : b.info = c.info)
    (hqueue : b.queue = c.queue) : Relocks c (b.update_leaf_status n) n lock := by
  have hd : b.evictable_leaves.Nodup := by
    rw [hleaves]
    exact h.leaves_nodup
  have hnode : b.node n = { c.node n with lock_ref := lock } := by
    rw [RadixCache.node, htree, data_setData_self]
  refine ⟨hn, hr, hlock, ?_, ?_, ?_, ?_, nodup_update_leaf_status hd n, ?_, ?_, ?_⟩
  · rw [config_update_leaf_status, hconfig]
  · rw [tree_update_leaf_status, htree]
  · rw [evictable_update_leaf_status, hev]
  · rw [protected_update_leaf_status, hpr]
  · intro m
    rw [mem_leaves_update_leaf_status hd, hnode, hleaves, htree]
    simp only [child?_setData]
  · rw [info_update_leaf_status, hinfo]
  · rw [queue_update_leaf_status, hqueue]

theorem inc_lock_spec : Relocks c (c.inc_lock n) n ((c.node n).lock_ref + 1) := by
  have hnn := h.lock_nonneg n hn
  have h1 : (c.node n).lock_ref + 1 ≠ 0 := by omega
  unfold RadixCache.inc_lock
  dsimp only
  by_cases h0 : (c.node n).lock_ref = 0
  · rw [if_pos h0]
    refine relocks_of_update h hn hr (by omega) rfl rfl ?_ ?_ rfl rfl rfl
    · simp [evictable_len, h0]
    · simp [protected_len, h0]
  · rw [if_neg h0]
    refine relocks_of_update h hn hr (by omega) rfl rfl ?_ ?_ rfl rfl rfl
    · simp [evictable_len, h0, h1]
    · simp [protected_len, h0, h1]

theorem dec_lock_spec (hlock : 0 < (c.node n).lock_ref) :
    Relocks c (c.dec_lock n) n ((c.node n).lock_ref - 1) := by
  have h0 : (c.node n).lock_ref ≠ 0 := by omega
  unfold RadixCache.dec_lock
  dsimp only
  by_cases h1 : (c.node n).lock_ref = 1
  · rw [if_pos h1]
    refine relocks_of_update h hn hr (by omega) rfl rfl ?_ ?_ rfl rfl rfl
    · simp [evictable_len, h1]
    · simp [protected_len, h1]
  · rw [if_neg h1]
    have h1' : (c.node n).lock_ref - 1 ≠ 0 := by omega
    refine relocks_of_update h hn hr (by omega) rfl rfl ?_ ?_ rfl rfl rfl
    · simp [evictable_len, h0, h1']
    · simp [protected_len, h0, h1']

end

end LightningH3.Radix
