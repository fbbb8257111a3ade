/-
One token of a window: a child is created, or a known child is touched.
-/
import LightningH3.NgramTrieShape

set_option autoImplicit false

namespace LightningH3.NgramTrie

open List Function

theorem sorted_insert_congr {nodes nodes' : NodeId → TrieNode} (node : NodeId) (l : List NodeId)
    (h : ∀ id, (nodes' id).freq = (nodes id).freq ∧ (nodes' id).token = (nodes id).token) :
    sorted_insert nodes' node l = sorted_insert nodes node l := by
  unfold sorted_insert
  induction l with
  | nil => rfl
  | cons x rest ih =>
    rw [orderedInsert_cons, orderedInsert_cons, ih]
    have hiff := before_congr (h node) (h x)
    by_cases hb : Before nodes node x
    · rw [if_pos hb, if_pos (hiff.mpr hb)]
    · rw [if_neg hb, if_neg (fun hb' => hb (hiff.mp hb'))]

namespace Trie

/-! ## 1. What the branches write -/

/-- What a step on the nodes of the trie leaves alone. -/
structure SameFrame (t t' : Trie) : Prop where
  capacity : t'.capacity = t.capacity
  max_trie_depth : t'.max_trie_depth = t.max_trie_depth
  root : t'.root = t.root
  epoch : t'.trie_epoch = t.trie_epoch

theorem SameFrame.refl (t : Trie) : SameFrame t t := ⟨rfl, rfl, rfl, rfl⟩

variable {t : Trie}

theorem SameFrame.trans {t' t'' : Trie} (h : SameFrame t t') (h' : SameFrame t' t'') :
    SameFrame t t'' :=
  ⟨h'.capacity.trans h.capacity, h'.max_trie_depth.trans h.max_trie_depth, h'.root.trans h.root,
    h'.epoch.trans h.epoch⟩

/-- What `create_child` does. -/
structure Created (t : Trie) (cursor : NodeId) (token : Token) (node : NodeId) (t' : Trie) :
    Prop where
  frame : SameFrame t t'
  pool : t'.node_pool = t.node_pool
  count : t.free_node_count = t'.free_node_count + 1
  free : t.free = t'.free ++ [node]
  global : t'.global_lru = (t.global_lru.emplace_back node).1
  at_node : t'.nodes node = {
    TrieNode.new with
    version := (t.nodes node).version
    token := token
    parent := cursor
    parent_lru_pos := ((t.nodes cursor).lru.emplace_front node).2
    global_lru_pos := (t.global_lru.emplace_back node).2
    freq := 1 }
  at_cursor : t'.nodes cursor = {
    t.nodes cursor with
    child := (t.nodes cursor).child.set token node
    lru := ((t.nodes cursor).lru.emplace_front node).1
    sorted_children := sorted_insert t'.nodes node (t.nodes cursor).sorted_children }
  others : ∀ id, id ≠ node → id ≠ cursor → t'.nodes id = t.nodes id

/-- What `touch_child` does. -/
structure Touched (t : Trie) (cursor node : NodeId) (t' : Trie) : Prop where
  frame : SameFrame t t'
  pool : t'.node_pool = t.node_pool
  count : t'.free_node_count = t.free_node_count
  global : t'.global_lru = t.global_lru
  at_node : t'.nodes node = { t.nodes node with freq := int32 ((t.nodes node).freq + 1) }
  at_cursor : t'.nodes cursor = {
    t.nodes cursor with
    lru := (t.nodes cursor).lru.splice_front (t.nodes node).parent_lru_pos
    sorted_children := sorted_insert t'.nodes node
      (sorted_erase t.nodes node (t.nodes cursor).sorted_children) }
  others : ∀ id, id ≠ node → id ≠ cursor → t'.nodes id = t.nodes id

theorem getNode_eq {count : ℕ} {node : NodeId} (hcount : t.free_node_count = count + 1)
    (hnode : t.node_pool[count]? = some node) : t.getNode = .ok ({
      t.put node { TrieNode.new with version := (t.nodes node).version } with
      free_node_count := count }, node) := by
  unfold getNode
  rw [hcount]
  dsimp only
  rw [hnode]

theorem create_child_spec {cursor : NodeId} (token : Token) (h : t.Linked) (hlive : t.Live cursor)
    (hfree : 0 < t.free_node_count) : ∃ t' node, t.create_child cursor token = .ok (t', node) ∧
      Created t cursor token node t' := by
  obtain ⟨count, hcount⟩ := Nat.exists_eq_succ_of_ne_zero hfree.ne'
  have hlt : count < t.node_pool.length := by
    have hbound := h.count
    rw [h.pool]
    omega
  have hget := getElem?_eq_getElem hlt
  generalize t.node_pool[count] = node at hget
  have hsplit : t.free = t.node_pool.take count ++ [node] := by
    unfold free
    rw [hcount, take_add_one, hget]
    rfl
  have hmem : node ∈ t.free := by
    rw [hsplit]
    exact mem_concat_self
  have hne : cursor ≠ node := by
    rintro rfl
    exact h.free_not_live hmem hlive
  unfold create_child
  rw [getNode_eq hcount hget]
  refine ⟨_, node, rfl, ⟨rfl, rfl, rfl, rfl⟩, rfl, hcount, ?_, rfl, ?_, ?_, ?_⟩
  · exact hsplit
  · simp only [put, update_self, update_of_ne hne, update_of_ne hne.symm]
  · simp only [put, update_self, update_of_ne hne]
    congr 1
    apply sorted_insert_congr
    intro id
    by_cases hc : id = cursor
    · subst hc
      simp only [update_self, update_of_ne hne, and_self]
    · simp only [update_of_ne hc, and_self]
  · intro id hnode hcursor
    simp only [put, update_of_ne hnode, update_of_ne hcursor]

theorem touch_child_spec {cursor node : NodeId} (hne : node ≠ cursor) :
    Touched t cursor node (t.touch_child cursor node) := by
  unfold touch_child
  refine ⟨⟨rfl, rfl, rfl, rfl⟩, rfl, rfl, rfl, ?_, ?_, ?_⟩
  · simp only [put, update_self, update_of_ne hne]
  · simp only [put, update_self, update_of_ne hne, update_of_ne hne.symm]
    congr 1
    apply sorted_insert_congr
    intro id
    by_cases hc : id = cursor
    · subst hc
      simp only [update_self, update_of_ne hne.symm, and_self]
    · simp only [update_of_ne hc, and_self]
  · intro id hnode hcursor
    simp only [put, update_of_ne hnode, update_of_ne hcursor]

/-! ## 2. A new child -/

namespace Created

variable {t t' : Trie} {cursor node : NodeId} {token : Token}

section

variable (h : Created t cursor token node t')
include h

theorem held : t'.held = t.held ++ [node] := by
  unfold Trie.held
  rw [h.global, CellList.values_emplace_back]

theorem mem_free : node ∈ t.free := by
  rw [h.free]
  exact mem_concat_self

theorem records {id : NodeId} (hid : id ≠ node) :
    (t'.nodes id).freq = (t.nodes id).freq ∧ (t'.nodes id).token = (t.nodes id).token ∧
      (t'.nodes id).parent = (t.nodes id).parent ∧
      (t'.nodes id).parent_lru_pos = (t.nodes id).parent_lru_pos ∧
      (t'.nodes id).global_lru_pos = (t.nodes id).global_lru_pos := by
  by_cases hc : id = cursor
  · subst hc
    rw [h.at_cursor]
    exact ⟨rfl, rfl, rfl, rfl, rfl⟩
  · rw [h.others id hid hc]
    exact ⟨rfl, rfl, rfl, rfl, rfl⟩

theorem version (id : NodeId) : (t'.nodes id).version = (t.nodes id).version := by
  by_cases hn : id = node
  · rw [hn, h.at_node]
  · by_cases hc : id = cursor
    · rw [hc, h.at_cursor]
    · rw [h.others id hn hc]

theorem child_node (k : Token) : t'.child node k = none := by
  unfold child
  rw [h.at_node]
  exact OrderedDict.get?_empty k

theorem child_eq {p : NodeId} (hp : p ≠ node) (k : Token) :
    t'.child p k = if p = cursor ∧ k = token then some node else t.child p k := by
  unfold child
  by_cases hc : p = cursor
  · subst hc
    rw [h.at_cursor, OrderedDict.get?_set]
    by_cases hk : k = token
    · rw [if_pos hk, if_pos ⟨rfl, hk⟩]
    · rw [if_neg hk, if_neg fun hboth => hk hboth.2]
  · rw [h.others p hp hc, if_neg fun hboth => hc hboth.1]

theorem live_iff (id : NodeId) : t'.Live id ↔ t.Live id ∨ id = node := by
  unfold Live
  rw [h.held, h.frame.root, mem_append, mem_singleton, or_assoc]

theorem exists_child_iff (hfree : t.child cursor token = none) {p : NodeId} (hp : p ≠ node)
    (c : NodeId) :
    (∃ k, t'.child p k = some c) ↔ (∃ k, t.child p k = some c) ∨ (p = cursor ∧ c = node) := by
  constructor
  · rintro ⟨k, hk⟩
    rw [h.child_eq hp] at hk
    split at hk
    · next hat => exact Or.inr ⟨hat.1, (Option.some.inj hk).symm⟩
    · exact Or.inl ⟨k, hk⟩
  · rintro (⟨k, hk⟩ | ⟨rfl, rfl⟩)
    · refine ⟨k, ?_⟩
      rw [h.child_eq hp, if_neg]
      · exact hk
      · rintro ⟨rfl, rfl⟩
        rw [hfree] at hk
        exact absurd hk (by simp)
    · exact ⟨token, by rw [h.child_eq hp, if_pos ⟨rfl, rfl⟩]⟩

theorem linked (hlink : t.Linked) (hcursor : t.Live cursor) (hfree : t.child cursor token = none) :
    t'.Linked := by
  have hnew : ∀ {id}, t.Live id → id ≠ node := by
    rintro id hid rfl
    exact hlink.free_not_live h.mem_free hid
  have hheld : ∀ {c}, c ∈ t.held → c ≠ node := fun hc => hnew (Or.inr hc)
  have hchildren : ∀ {p}, t.Live p → ∀ c, (∃ k, t.child p k = some c) → c ≠ node := by
    rintro p hp c ⟨k, hk⟩
    exact hheld (hlink.down p k c hp hk).1
  refine ⟨?_, ?_, ?_, ?_, ?_, ?_, ?_, ?_, ?_⟩
  · rw [h.pool, h.frame.capacity]
    exact hlink.pool
  · have hcount := h.count
    have hbound := hlink.count
    rw [h.frame.capacity]
    omega
  · have hpart := hlink.partition
    rw [h.free] at hpart
    rw [h.held, h.frame.root, h.frame.capacity]
    refine List.Perm.trans ?_ hpart
    rw [append_assoc]
    apply List.Perm.append_left
    rw [← cons_append]
    exact perm_append_comm
  · intro p k c hp hc
    rcases (h.live_iff p).mp hp with hp | rfl
    · rw [h.child_eq (hnew hp)] at hc
      rw [h.held]
      split at hc
      · next hat =>
        obtain ⟨rfl, rfl⟩ := hat
        cases hc
        rw [h.at_node]
        exact ⟨mem_concat_self, rfl, rfl⟩
      · obtain ⟨hmem, hparent, htoken⟩ := hlink.down p k c hp hc
        obtain ⟨-, ht, hq, -, -⟩ := h.records (hheld hmem)
        exact ⟨mem_append_left _ hmem, hq.trans hparent, ht.trans htoken⟩
    · rw [h.child_node] at hc
      exact absurd hc (by simp)
  · intro c hc
    rw [h.held] at hc
    rcases mem_append.mp hc with hc | hc
    · obtain ⟨hp, hchild⟩ := hlink.up c hc
      obtain ⟨-, ht, hq, -, -⟩ := h.records (hheld hc)
      rw [ht, hq, h.child_eq (hnew hp), if_neg]
      · exact ⟨(h.live_iff _).mpr (Or.inl hp), hchild⟩
      · rintro ⟨hp', ht'⟩
        rw [hp', ht', hfree] at hchild
        exact absurd hchild (by simp)
    · obtain rfl := mem_singleton.mp hc
      have hparent : (t'.nodes c).parent = cursor := by rw [h.at_node]
      have htoken : (t'.nodes c).token = token := by rw [h.at_node]
      rw [hparent, htoken]
      refine ⟨(h.live_iff _).mpr (Or.inl hcursor), ?_⟩
      rw [h.child_eq (hnew hcursor), if_pos ⟨rfl, rfl⟩]
  · intro c hc
    rw [h.held] at hc
    rw [h.global]
    rcases mem_append.mp hc with hc | hc
    · rw [(h.records (hheld hc)).2.2.2.2]
      exact (hlink.global_pos c hc).emplace_back node
    · obtain rfl := mem_singleton.mp hc
      rw [h.at_node]
      exact CellList.holds_emplace_back _ c
  · intro c hc
    rw [h.held] at hc
    rcases mem_append.mp hc with hc | hc
    · obtain ⟨-, -, hq, hpos, -⟩ := h.records (hheld hc)
      rw [hq, hpos]
      have hold := hlink.parent_pos c hc
      have hp := (hlink.up c hc).1
      by_cases hpc : (t.nodes c).parent = cursor
      · rw [hpc] at hold ⊢
        rw [h.at_cursor]
        exact hold.emplace_front node
      · rw [h.others _ (hnew hp) hpc]
        exact hold
    · obtain rfl := mem_singleton.mp hc
      have hparent : (t'.nodes c).parent = cursor := by rw [h.at_node]
      rw [hparent, h.at_cursor, h.at_node]
      exact CellList.holds_emplace_front _ c
  · intro p hp
    rcases (h.live_iff p).mp hp with hp | rfl
    · obtain ⟨hnodup, hmem⟩ := hlink.recency p hp
      by_cases hpc : p = cursor
      · subst hpc
        rw [h.at_cursor, CellList.values_emplace_front]
        refine ⟨nodup_cons.mpr ⟨fun hbad => hchildren hp node ((hmem node).mp hbad) rfl, hnodup⟩,
          fun c => ?_⟩
        rw [h.exists_child_iff hfree (hnew hp), mem_cons, hmem, or_comm, and_iff_right rfl]
      · rw [h.others p (hnew hp) hpc]
        refine ⟨hnodup, fun c => ?_⟩
        rw [h.exists_child_iff hfree (hnew hp), hmem]
        exact (or_iff_left fun hbad => hpc hbad.1).symm
    · have hlru : (t'.nodes p).lru.values = [] := by
        rw [h.at_node]
        rfl
      rw [hlru]
      refine ⟨nodup_nil, fun c => ⟨fun hbad => absurd hbad not_mem_nil, ?_⟩⟩
      rintro ⟨k, hk⟩
      rw [h.child_node] at hk
      exact absurd hk (by simp)
  · intro p hp
    rcases (h.live_iff p).mp hp with hp | rfl
    · obtain ⟨hpair, hmem⟩ := hlink.sorted p hp
      have hkept : (t.nodes p).sorted_children.Pairwise (Before t'.nodes) := by
        refine (pairwise_congr fun c hc => ?_).mpr hpair
        obtain ⟨hf, ht, -⟩ := h.records (hchildren hp c ((hmem c).mp hc))
        exact ⟨hf, ht⟩
      by_cases hpc : p = cursor
      · subst hpc
        have hnot : node ∉ (t.nodes p).sorted_children := fun hbad =>
          hchildren hp node ((hmem node).mp hbad) rfl
        rw [h.at_cursor]
        refine ⟨pairwise_sorted_insert hkept hnot, fun c => ?_⟩
        rw [mem_sorted_insert, h.exists_child_iff hfree (hnew hp), hmem, or_comm, and_iff_right rfl]
      · rw [h.others p (hnew hp) hpc]
        refine ⟨hkept, fun c => ?_⟩
        rw [h.exists_child_iff hfree (hnew hp), hmem]
        exact (or_iff_left fun hbad => hpc hbad.1).symm
    · have hsorted : (t'.nodes p).sorted_children = [] := by
        rw [h.at_node]
        rfl
      rw [hsorted]
      refine ⟨List.Pairwise.nil, fun c => ⟨fun hbad => absurd hbad not_mem_nil, ?_⟩⟩
      rintro ⟨k, hk⟩
      rw [h.child_node] at hk
      exact absurd hk (by simp)

theorem ordered (hsound : t.Sound) (hcursor : t.Live cursor) : t'.Ordered := by
  intro l₁ c l₂ hsplit
  rw [h.held] at hsplit
  rcases eq_nil_or_concat' l₂ with rfl | ⟨l₂, d, rfl⟩
  · obtain ⟨rfl, hc⟩ := append_inj' hsplit rfl
    obtain rfl := head_eq_of_cons_eq hc
    rw [h.at_node, h.frame.root]
    exact hcursor
  · rw [← cons_append, ← append_assoc] at hsplit
    obtain ⟨hold, -⟩ := append_inj' hsplit rfl
    have hc : c ∈ t.held := by
      rw [hold]
      exact mem_append_right _ mem_cons_self
    have hne : c ≠ node := by
      rintro rfl
      exact hsound.linked.free_not_live h.mem_free (Or.inr hc)
    rw [(h.records hne).2.2.1, h.frame.root]
    exact hsound.ordered l₁ c l₂ hold

theorem sound (hsound : t.Sound) (hcursor : t.Live cursor) (hfree : t.child cursor token = none) :
    t'.Sound :=
  ⟨h.linked hsound.linked hcursor hfree, h.ordered hsound hcursor⟩

end

end Created

/-! ## 3. A known child -/

namespace Touched

variable {t t' : Trie} {cursor node : NodeId}

section

variable (h : Touched t cursor node t')
include h

theorem held : t'.held = t.held := by
  unfold Trie.held
  rw [h.global]

theorem free : t'.free = t.free := by
  unfold Trie.free
  rw [h.pool, h.count]

theorem records (hne : node ≠ cursor) (id : NodeId) :
    (t'.nodes id).child = (t.nodes id).child ∧ (t'.nodes id).token = (t.nodes id).token ∧
      (t'.nodes id).parent = (t.nodes id).parent ∧
      (t'.nodes id).parent_lru_pos = (t.nodes id).parent_lru_pos ∧
      (t'.nodes id).global_lru_pos = (t.nodes id).global_lru_pos ∧
      (t'.nodes id).version = (t.nodes id).version := by
  by_cases hn : id = node
  · subst hn
    rw [h.at_node]
    exact ⟨rfl, rfl, rfl, rfl, rfl, rfl⟩
  · by_cases hc : id = cursor
    · subst hc
      rw [h.at_cursor]
      exact ⟨rfl, rfl, rfl, rfl, rfl, rfl⟩
    · rw [h.others id hn hc]
      exact ⟨rfl, rfl, rfl, rfl, rfl, rfl⟩

theorem freq {id : NodeId} (hid : id ≠ node) : (t'.nodes id).freq = (t.nodes id).freq := by
  by_cases hc : id = cursor
  · subst hc
    rw [h.at_cursor]
  · rw [h.others id hid hc]

theorem child (hne : node ≠ cursor) : t'.child = t.child := by
  funext id k
  unfold Trie.child
  rw [(h.records hne id).1]

theorem live_iff (id : NodeId) : t'.Live id ↔ t.Live id := by
  unfold Live
  rw [h.held, h.frame.root]

theorem linked (hne : node ≠ cursor) (hlink : t.Linked) (hcursor : t.Live cursor) {token : Token}
    (hchild : t.child cursor token = some node) : t'.Linked := by
  obtain ⟨hheld, hparent, -⟩ := hlink.down cursor token node hcursor hchild
  have hpos := hlink.parent_pos node hheld
  rw [hparent] at hpos
  refine ⟨?_, ?_, ?_, ?_, ?_, ?_, ?_, ?_, ?_⟩
  · rw [h.pool, h.frame.capacity]
    exact hlink.pool
  · rw [h.count, h.frame.capacity]
    exact hlink.count
  · rw [h.free, h.held, h.frame.root, h.frame.capacity]
    exact hlink.partition
  · intro p k c hp hc
    obtain ⟨-, ht, hq, -⟩ := h.records hne c
    rw [h.child hne] at hc
    rw [h.held, ht, hq]
    exact hlink.down p k c ((h.live_iff p).mp hp) hc
  · intro c hc
    obtain ⟨-, ht, hq, -⟩ := h.records hne c
    rw [h.held] at hc
    rw [ht, hq, h.child hne, h.live_iff]
    exact hlink.up c hc
  · intro c hc
    rw [h.held] at hc
    rw [h.global, (h.records hne c).2.2.2.2.1]
    exact hlink.global_pos c hc
  · intro c hc
    obtain ⟨-, -, hq, hpp, -⟩ := h.records hne c
    rw [h.held] at hc
    rw [hq, hpp]
    have hold := hlink.parent_pos c hc
    by_cases hpc : (t.nodes c).parent = cursor
    · rw [hpc] at hold ⊢
      rw [h.at_cursor]
      exact (CellList.holds_splice_front_iff hpos).mpr hold
    · by_cases hpn : (t.nodes c).parent = node
      · rw [hpn] at hold ⊢
        rw [h.at_node]
        exact hold
      · rw [h.others _ hpn hpc]
        exact hold
  · intro p hp
    obtain ⟨hnodup, hmem⟩ := hlink.recency p ((h.live_iff p).mp hp)
    rw [h.child hne]
    by_cases hpc : p = cursor
    · subst hpc
      rw [h.at_cursor, CellList.values_splice_front hpos hnodup]
      refine ⟨nodup_cons.mpr ⟨fun hbad => ?_, hnodup.filter _⟩, fun c => ?_⟩
      · exact of_decide_eq_true (mem_filter.mp hbad).2 rfl
      · rw [mem_cons, mem_filter, decide_eq_true_eq, ← hmem]
        constructor
        · rintro (rfl | ⟨hc, -⟩)
          · exact (hmem c).mpr ⟨token, hchild⟩
          · exact hc
        · intro hc
          by_cases hcn : c = node
          · exact Or.inl hcn
          · exact Or.inr ⟨hc, hcn⟩
    · have hlru : (t'.nodes p).lru = (t.nodes p).lru := by
        by_cases hpn : p = node
        · rw [hpn, h.at_node]
        · rw [h.others p hpn hpc]
      rw [hlru]
      exact ⟨hnodup, hmem⟩
  · intro p hp
    have hplive := (h.live_iff p).mp hp
    obtain ⟨hpair, hmem⟩ := hlink.sorted p hplive
    have hkept : ∀ l : List NodeId, node ∉ l → l.Pairwise (Before t.nodes) →
        l.Pairwise (Before t'.nodes) := by
      intro l hl hpair
      refine (pairwise_congr fun c hc => ?_).mpr hpair
      exact ⟨h.freq fun heq => hl (heq ▸ hc), (h.records hne c).2.1⟩
    rw [h.child hne]
    by_cases hpc : p = cursor
    · subst hpc
      have hnot : node ∉ sorted_erase t.nodes node (t.nodes p).sorted_children := fun hbad =>
        (mem_sorted_erase.mp hbad).2 rfl
      rw [h.at_cursor]
      refine ⟨pairwise_sorted_insert (hkept _ hnot ?_) hnot, fun c => ?_⟩
      · exact hpair.sublist filter_sublist
      · rw [mem_sorted_insert, mem_sorted_erase, ← hmem]
        constructor
        · rintro (rfl | ⟨hc, -⟩)
          · exact (hmem c).mpr ⟨token, hchild⟩
          · exact hc
        · intro hc
          by_cases hcn : c = node
          · exact Or.inl hcn
          · exact Or.inr ⟨hc, hcn⟩
    · have hsorted : (t'.nodes p).sorted_children = (t.nodes p).sorted_children := by
        by_cases hpn : p = node
        · rw [hpn, h.at_node]
        · rw [h.others p hpn hpc]
      rw [hsorted]
      refine ⟨hkept _ (fun hbad => ?_) hpair, hmem⟩
      -- a node has one parent, so the touched one is no child of another node
      obtain ⟨k, hk⟩ := (hmem node).mp hbad
      exact hpc ((hlink.down p k node hplive hk).2.1.symm.trans hparent)

theorem sound (hsound : t.Sound) (hcursor : t.Live cursor) {token : Token}
    (hchild : t.child cursor token = some node) : t'.Sound := by
  have hne := hsound.child_ne hcursor hchild
  refine ⟨h.linked hne hsound.linked hcursor hchild, ?_⟩
  intro l₁ c l₂ hsplit
  rw [h.held] at hsplit
  rw [(h.records hne c).2.2.1, h.frame.root]
  exact hsound.ordered l₁ c l₂ hsplit

end

end Touched

end Trie

end LightningH3.NgramTrie
