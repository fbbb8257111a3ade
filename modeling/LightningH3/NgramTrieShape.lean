/-
The shape of the n-gram trie, and what each step does to it.

`Linked` says that the free part of the pool and the nodes below the root partition the pool, that
child pointers and the nodes' own records agree, that the three collections of a node's children hold
the same nodes, and that every stored iterator points to its node. `Ordered` is the other half: in
the global list a parent stands before its children. A new child goes to the back and keeps it, the
last node has no child by it, and moving a path to the front, deepest first, breaks and restores it.
-/
import LightningH3.NgramTrie

set_option autoImplicit false

namespace LightningH3.NgramTrie

open List

/-! ## 1. Sorted children -/

section Sorting

variable {nodes nodes' : NodeId → TrieNode} {a b c : NodeId}

theorem Before.irrefl (h : Before nodes a a) : False := by
  rcases h with h | ⟨-, h | ⟨-, h⟩⟩
  · exact lt_irrefl _ h
  · exact lt_irrefl _ h
  · exact lt_irrefl _ h

theorem Before.trans (h : Before nodes a b) (h' : Before nodes b c) : Before nodes a c := by
  rcases h with h | ⟨hf, h⟩ <;> rcases h' with h' | ⟨hf', h'⟩
  · exact Or.inl (lt_trans h' h)
  · exact Or.inl (hf' ▸ h)
  · exact Or.inl (hf ▸ h')
  · refine Or.inr ⟨hf'.trans hf, ?_⟩
    rcases h with h | ⟨ht, h⟩ <;> rcases h' with h' | ⟨ht', h'⟩
    · exact Or.inl (lt_trans h h')
    · exact Or.inl (ht' ▸ h)
    · exact Or.inl (ht ▸ h')
    · exact Or.inr ⟨ht.trans ht', lt_trans h h'⟩

variable (nodes) in
theorem Before.total (hne : a ≠ b) : Before nodes a b ∨ Before nodes b a := by
  rcases lt_trichotomy (nodes a).freq (nodes b).freq with h | hf | h
  · exact Or.inr (Or.inl h)
  · rcases lt_trichotomy (nodes a).token (nodes b).token with h | ht | h
    · exact Or.inl (Or.inr ⟨hf.symm, Or.inl h⟩)
    · rcases lt_or_gt_of_ne hne with h | h
      · exact Or.inl (Or.inr ⟨hf.symm, Or.inr ⟨ht, h⟩⟩)
      · exact Or.inr (Or.inr ⟨hf, Or.inr ⟨ht.symm, h⟩⟩)
    · exact Or.inr (Or.inr ⟨hf, Or.inl h⟩)
  · exact Or.inl (Or.inl h)

theorem before_congr (ha : (nodes' a).freq = (nodes a).freq ∧ (nodes' a).token = (nodes a).token)
    (hb : (nodes' b).freq = (nodes b).freq ∧ (nodes' b).token = (nodes b).token) :
    Before nodes' a b ↔ Before nodes a b := by
  unfold Before
  rw [ha.1, ha.2, hb.1, hb.2]

variable {l : List NodeId}

theorem pairwise_congr
    (h : ∀ c ∈ l, (nodes' c).freq = (nodes c).freq ∧ (nodes' c).token = (nodes c).token) :
    l.Pairwise (Before nodes') ↔ l.Pairwise (Before nodes) := by
  apply List.Pairwise.iff_of_mem
  intro x y hx hy
  exact before_congr (h x hx) (h y hy)

variable {node : NodeId}

theorem mem_sorted_insert : c ∈ sorted_insert nodes node l ↔ c = node ∨ c ∈ l := by
  exact mem_orderedInsert _

theorem pairwise_sorted_insert (hl : l.Pairwise (Before nodes)) (hnew : node ∉ l) :
    (sorted_insert nodes node l).Pairwise (Before nodes) := by
  induction l with
  | nil => exact pairwise_singleton _ _
  | cons x rest ih =>
    obtain ⟨hx, hrest⟩ := pairwise_cons.mp hl
    unfold sorted_insert
    rw [orderedInsert_cons]
    split
    · next hbefore =>
      refine pairwise_cons.mpr ⟨?_, hl⟩
      intro y hy
      rcases mem_cons.mp hy with rfl | hy
      · exact hbefore
      · exact hbefore.trans (hx y hy)
    · next hafter =>
      refine pairwise_cons.mpr ⟨?_, ih hrest fun h => hnew (mem_cons_of_mem _ h)⟩
      intro y hy
      rcases mem_sorted_insert.mp hy with rfl | hy
      · have hne : x ≠ y := fun heq => hnew (heq ▸ mem_cons_self)
        rcases Before.total nodes hne with h | h
        · exact h
        · exact absurd h hafter
      · exact hx y hy

theorem sorted_erase_eq (nodes : NodeId → TrieNode) (node : NodeId) (l : List NodeId) :
    sorted_erase nodes node l = l.filter fun c => decide (c ≠ node) := by
  apply filter_congr
  intro c _
  by_cases hc : c = node
  · subst hc
    rw [decide_eq_false (fun h => Before.irrefl h), decide_eq_false (fun h => h rfl)]
    rfl
  · rw [decide_eq_true hc]
    rcases Before.total nodes hc with h | h
    · rw [decide_eq_true h, Bool.true_or]
    · rw [decide_eq_true h, Bool.or_true]

theorem mem_sorted_erase : c ∈ sorted_erase nodes node l ↔ c ∈ l ∧ c ≠ node := by
  rw [sorted_erase_eq, mem_filter, decide_eq_true_eq]

end Sorting

/-! ## 2. The shape -/

namespace Trie

/-- The free part of the pool. -/
def free (t : Trie) : List NodeId := t.node_pool.take t.free_node_count

/-- The nodes of the global list, most recent first. -/
def held (t : Trie) : List NodeId := t.global_lru.values

def Live (t : Trie) (id : NodeId) : Prop := id = t.root ∨ id ∈ t.held

/-- **The trie is linked**: the pool is partitioned, and all records of a node agree. -/
structure Linked (t : Trie) : Prop where
  pool : t.node_pool.length = t.capacity
  count : t.free_node_count ≤ t.capacity
  partition : (t.free ++ t.root :: t.held).Perm (List.range t.capacity)
  down : ∀ p k c, t.Live p → t.child p k = some c →
    c ∈ t.held ∧ (t.nodes c).parent = p ∧ (t.nodes c).token = k
  up : ∀ c ∈ t.held, t.Live (t.nodes c).parent ∧
    t.child (t.nodes c).parent (t.nodes c).token = some c
  global_pos : ∀ c ∈ t.held, t.global_lru.Holds (t.nodes c).global_lru_pos c
  parent_pos : ∀ c ∈ t.held, (t.nodes (t.nodes c).parent).lru.Holds (t.nodes c).parent_lru_pos c
  recency : ∀ p, t.Live p → (t.nodes p).lru.values.Nodup ∧
    ∀ c, c ∈ (t.nodes p).lru.values ↔ ∃ k, t.child p k = some c
  sorted : ∀ p, t.Live p → (t.nodes p).sorted_children.Pairwise (Before t.nodes) ∧
    ∀ c, c ∈ (t.nodes p).sorted_children ↔ ∃ k, t.child p k = some c

/-- A parent is the root or stands nearer to the front than its child. -/
def Ordered (t : Trie) : Prop :=
  ∀ l₁ c l₂, t.held = l₁ ++ c :: l₂ → (t.nodes c).parent = t.root ∨ (t.nodes c).parent ∈ l₁

/-- The trie between two windows. -/
structure Sound (t : Trie) : Prop where
  linked : t.Linked
  ordered : t.Ordered

namespace Linked

variable {t : Trie}

section

variable (h : t.Linked)
include h

theorem nodup : (t.free ++ t.root :: t.held).Nodup :=
  (h.partition.nodup_iff).mpr nodup_range

theorem held_nodup : t.held.Nodup :=
  (nodup_cons.mp (List.Nodup.of_append_right h.nodup)).2

theorem root_not_held : t.root ∉ t.held :=
  (nodup_cons.mp (List.Nodup.of_append_right h.nodup)).1

theorem free_not_live {id : NodeId} (hfree : id ∈ t.free) : ¬ t.Live id := by
  intro hlive
  have hdisj := disjoint_of_nodup_append h.nodup
  apply hdisj hfree
  rcases hlive with rfl | hheld
  · exact mem_cons_self
  · exact mem_cons_of_mem _ hheld

theorem length_free : t.free.length = t.free_node_count := by
  unfold free
  rw [length_take, h.pool, Nat.min_eq_left h.count]

theorem count_eq : t.free_node_count + 1 + t.held.length = t.capacity := by
  have hlen := h.partition.length_eq
  rw [length_append, length_cons, length_range, h.length_free] at hlen
  omega

theorem lt_capacity_of_live {id : NodeId} (hlive : t.Live id) : id < t.capacity := by
  apply mem_range.mp
  apply h.partition.mem_iff.mp
  apply mem_append_right
  rcases hlive with rfl | hheld
  · exact mem_cons_self
  · exact mem_cons_of_mem _ hheld

end

end Linked

namespace Sound

variable {t : Trie}

theorem parent_ne (h : t.Sound) {c : NodeId} (hc : c ∈ t.held) : (t.nodes c).parent ≠ c := by
  intro heq
  obtain ⟨l₁, l₂, hsplit⟩ := append_of_mem hc
  rcases h.ordered l₁ c l₂ hsplit with hroot | hmem
  · rw [heq] at hroot
    exact h.linked.root_not_held (hroot ▸ hc)
  · rw [heq] at hmem
    have hnodup := h.linked.held_nodup
    rw [hsplit] at hnodup
    exact disjoint_of_nodup_append hnodup hmem mem_cons_self

theorem child_ne (h : t.Sound) {p c : NodeId} {k : Token} (hp : t.Live p)
    (hc : t.child p k = some c) : c ≠ p := by
  obtain ⟨hheld, hparent, -⟩ := h.linked.down p k c hp hc
  rintro rfl
  exact h.parent_ne hheld hparent

theorem tree (h : t.Sound) : PointerTree.Tree t.child t.root (· ∈ t.held)
    (fun c => (t.nodes c).parent) (fun c => (t.nodes c).token) (fun c => t.held.idxOf c) where
  root_not_live := h.linked.root_not_held
  down p k c hp hc := h.linked.down p k c hp hc
  up c hc := by
    obtain ⟨hlive, hchild⟩ := h.linked.up c hc
    refine ⟨?_, hchild⟩
    rcases hlive with hroot | hheld
    · exact Or.inl hroot
    · right
      refine ⟨hheld, ?_⟩
      obtain ⟨l₁, l₂, hsplit⟩ := append_of_mem hc
      rcases h.ordered l₁ c l₂ hsplit with hroot | hmem
      · rw [hroot] at hheld
        exact absurd hheld h.linked.root_not_held
      · have hnodup := h.linked.held_nodup
        rw [hsplit] at hnodup
        have hnot : c ∉ l₁ := fun hbad =>
          disjoint_of_nodup_append hnodup hbad mem_cons_self
        rw [hsplit, idxOf_append_of_mem hmem, idxOf_append_of_notMem hnot, idxOf_cons_self]
        exact idxOf_lt_length_iff.mpr hmem

end Sound

end Trie

end LightningH3.NgramTrie
