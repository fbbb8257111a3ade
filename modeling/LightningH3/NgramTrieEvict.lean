/-
The last node of the global list is released.
-/
import LightningH3.NgramTrieWindow

set_option autoImplicit false

namespace LightningH3.NgramTrie

open List Function

namespace Trie

/-- What `release_last` does. -/
structure Released (t : Trie) (last : NodeId) (t' : Trie) : Prop where
  frame : SameFrame t t'
  pool : t'.node_pool.length = t.node_pool.length
  count : t'.free_node_count = t.free_node_count + 1
  free : t'.free = t.free ++ [last]
  held : t.held = t'.held ++ [last]
  global : t'.global_lru = t.global_lru.pop_back
  at_last : t'.nodes last = { t.nodes last with version := (t.nodes last).version + 1 }
  at_parent : t'.nodes (t.nodes last).parent = {
    t.nodes (t.nodes last).parent with
    lru := (t.nodes (t.nodes last).parent).lru.erase (t.nodes last).parent_lru_pos
    sorted_children := sorted_erase t.nodes last (t.nodes (t.nodes last).parent).sorted_children
    child := (t.nodes (t.nodes last).parent).child.erase (t.nodes last).token }
  others : ∀ id, id ≠ last → id ≠ (t.nodes last).parent → t'.nodes id = t.nodes id

/-! ## 1. The last node -/

variable {t : Trie}

/-- **The last node is a leaf**. -/
theorem Sound.last_is_leaf (h : t.Sound) {l : List NodeId} {last : NodeId}
    (hheld : t.held = l ++ [last]) (k : Token) : t.child last k = none := by
  cases hc : t.child last k with
  | none => rfl
  | some c =>
    exfalso
    have hlast : last ∈ t.held := by
      rw [hheld]
      exact mem_concat_self
    obtain ⟨hmem, hparent, -⟩ := h.linked.down last k c (Or.inr hlast) hc
    have hne := h.child_ne (Or.inr hlast) hc
    have hl : c ∈ l := by
      rw [hheld] at hmem
      rcases mem_append.mp hmem with hl | hl
      · exact hl
      · exact absurd (mem_singleton.mp hl) hne
    obtain ⟨l₁, l₂, rfl⟩ := append_of_mem hl
    have hsplit : t.held = l₁ ++ c :: (l₂ ++ [last]) := by
      rw [hheld, append_assoc, cons_append]
    rcases h.ordered l₁ c _ hsplit with hroot | hbefore
    · rw [hparent] at hroot
      exact h.linked.root_not_held (hroot ▸ hlast)
    · rw [hparent] at hbefore
      have hnodup := h.linked.held_nodup
      rw [hsplit] at hnodup
      apply disjoint_of_nodup_append hnodup hbefore
      exact mem_cons_of_mem _ mem_concat_self

theorem release_last_empty (h : t.held = []) : t.release_last = .error .undefined := by
  have hback : t.global_lru.back? = none := by
    show t.held.getLast? = none
    rw [h]
    rfl
  unfold release_last
  rw [hback]

theorem release_last_spec (h : t.Sound) (hne : t.held ≠ []) :
    ∃ t' last, t.release_last = .ok t' ∧ Released t last t' := by
  obtain ⟨l, last, hheld⟩ := (eq_nil_or_concat' t.held).resolve_left hne
  have hback : t.global_lru.back? = some last := by
    show t.held.getLast? = some last
    rw [hheld]
    exact getLast?_concat
  have hlast : last ∈ t.held := by
    rw [hheld]
    exact mem_concat_self
  have hitems : (t.nodes last).child.items = [] := OrderedDict.items_nil_of_get? (h.last_is_leaf hheld)
  have hparent := h.parent_ne hlast
  have hlt : t.free_node_count < t.node_pool.length := by
    have hcount := h.linked.count_eq
    rw [h.linked.pool]
    omega
  unfold release_last
  rw [hback]
  dsimp only
  rw [if_neg (fun hbad => hbad hitems)]
  dsimp only [put]
  refine ⟨_, last, if_pos hlt, ⟨rfl, rfl, rfl, rfl⟩, length_set, rfl, ?_, ?_, rfl, ?_, ?_, ?_⟩
  · show (t.node_pool.set t.free_node_count last).take (t.free_node_count + 1) = _
    rw [take_add_one, take_set_of_le (Nat.le_refl _), getElem?_set_self hlt]
    rfl
  · show t.held = t.global_lru.pop_back.values ++ [last]
    rw [CellList.values_pop_back]
    show t.held = t.held.dropLast ++ [last]
    rw [hheld, dropLast_concat]
  · dsimp only
    rw [update_self, update_of_ne hparent.symm]
  · dsimp only
    rw [update_of_ne hparent, update_self]
  · intro id hid hid'
    dsimp only
    rw [update_of_ne hid, update_of_ne hid']

/-! ## 2. A released leaf -/

namespace Released

variable {t t' : Trie} {last : NodeId}

section

variable (h : Released t last t')
include h

theorem mem_held_iff (hlink : t.Linked) (c : NodeId) : c ∈ t'.held ↔ c ∈ t.held ∧ c ≠ last := by
  have hnodup := hlink.held_nodup
  rw [h.held] at hnodup ⊢
  rw [mem_append, mem_singleton]
  constructor
  · intro hc
    refine ⟨Or.inl hc, ?_⟩
    rintro rfl
    exact disjoint_of_nodup_append hnodup hc (mem_singleton_self _)
  · rintro ⟨hc | hc, hne⟩
    · exact hc
    · exact absurd hc hne

theorem last_held : last ∈ t.held := by
  rw [h.held]
  exact mem_concat_self

theorem live_iff (hlink : t.Linked) (id : NodeId) : t'.Live id ↔ t.Live id ∧ id ≠ last := by
  unfold Live
  rw [h.mem_held_iff hlink, h.frame.root]
  constructor
  · rintro (rfl | ⟨hid, hne⟩)
    · refine ⟨Or.inl rfl, fun hbad => ?_⟩
      apply hlink.root_not_held
      rw [hbad]
      exact h.last_held
    · exact ⟨Or.inr hid, hne⟩
  · rintro ⟨hroot | hid, hne⟩
    · exact Or.inl hroot
    · exact Or.inr ⟨hid, hne⟩

theorem records {id : NodeId} (hid : id ≠ last) :
    (t'.nodes id).freq = (t.nodes id).freq ∧ (t'.nodes id).token = (t.nodes id).token ∧
      (t'.nodes id).parent = (t.nodes id).parent ∧
      (t'.nodes id).parent_lru_pos = (t.nodes id).parent_lru_pos ∧
      (t'.nodes id).global_lru_pos = (t.nodes id).global_lru_pos ∧
      (t'.nodes id).version = (t.nodes id).version := by
  by_cases hp : id = (t.nodes last).parent
  · rw [hp, h.at_parent]
    exact ⟨rfl, rfl, rfl, rfl, rfl, rfl⟩
  · rw [h.others id hid hp]
    exact ⟨rfl, rfl, rfl, rfl, rfl, rfl⟩

theorem child_eq {p : NodeId} (hp : p ≠ last) (k : Token) :
    t'.child p k = if p = (t.nodes last).parent ∧ k = (t.nodes last).token then none
      else t.child p k := by
  unfold child
  by_cases hc : p = (t.nodes last).parent
  · rw [hc, h.at_parent, OrderedDict.get?_erase]
    by_cases hk : k = (t.nodes last).token
    · rw [if_pos hk, if_pos ⟨rfl, hk⟩]
    · rw [if_neg hk, if_neg fun hboth => hk hboth.2]
  · rw [h.others p hp hc, if_neg fun hboth => hc hboth.1]

theorem exists_child_iff (hlink : t.Linked) {p : NodeId} (hp : t.Live p) (hne : p ≠ last)
    (c : NodeId) : (∃ k, t'.child p k = some c) ↔ (∃ k, t.child p k = some c) ∧ c ≠ last := by
  have hup := (hlink.up last h.last_held).2
  constructor
  · rintro ⟨k, hk⟩
    rw [h.child_eq hne] at hk
    split at hk
    · exact absurd hk (by simp)
    · next hat =>
      refine ⟨⟨k, hk⟩, ?_⟩
      rintro rfl
      obtain ⟨-, hparent, htoken⟩ := hlink.down p k c hp hk
      exact hat ⟨hparent.symm, htoken.symm⟩
  · rintro ⟨⟨k, hk⟩, hc⟩
    refine ⟨k, ?_⟩
    rw [h.child_eq hne, if_neg]
    · exact hk
    · rintro ⟨rfl, rfl⟩
      rw [hup] at hk
      exact hc (Option.some.inj hk).symm

theorem linked (hlink : t.Linked) (hleaf : ∀ k, t.child last k = none) : t'.Linked := by
  have hlast := h.last_held
  have hlastpos := hlink.parent_pos last hlast
  have hnotlast : ∀ {c}, c ∈ t.held → (t.nodes c).parent ≠ last := by
    intro c hc hbad
    have hchild := (hlink.up c hc).2
    rw [hbad, hleaf] at hchild
    exact absurd hchild (by simp)
  refine ⟨?_, ?_, ?_, ?_, ?_, ?_, ?_, ?_, ?_⟩
  · rw [h.pool, h.frame.capacity]
    exact hlink.pool
  · have hcount := hlink.count_eq
    rw [h.count, h.frame.capacity]
    omega
  · have hpart := hlink.partition
    rw [h.held] at hpart
    rw [h.free, h.frame.root, h.frame.capacity]
    refine List.Perm.trans ?_ hpart
    rw [append_assoc]
    apply List.Perm.append_left
    exact perm_append_singleton _ _ |>.symm
  · intro p k c hp hc
    obtain ⟨hp, hpne⟩ := (h.live_iff hlink p).mp hp
    obtain ⟨⟨l, hl⟩, hne⟩ := (h.exists_child_iff hlink hp hpne c).mp ⟨k, hc⟩
    rw [h.child_eq hpne] at hc
    split at hc
    · exact absurd hc (by simp)
    · obtain ⟨hmem, hparent, htoken⟩ := hlink.down p k c hp hc
      obtain ⟨-, ht, hq, -⟩ := h.records hne
      exact ⟨(h.mem_held_iff hlink c).mpr ⟨hmem, hne⟩, hq.trans hparent, ht.trans htoken⟩
  · intro c hc
    obtain ⟨hc, hne⟩ := (h.mem_held_iff hlink c).mp hc
    obtain ⟨hp, hchild⟩ := hlink.up c hc
    obtain ⟨-, ht, hq, -⟩ := h.records hne
    rw [ht, hq, h.child_eq (hnotlast hc), if_neg]
    · exact ⟨(h.live_iff hlink _).mpr ⟨hp, hnotlast hc⟩, hchild⟩
    · rintro ⟨hp', ht'⟩
      rw [hp', ht', (hlink.up last hlast).2] at hchild
      exact hne (Option.some.inj hchild).symm
  · intro c hc
    obtain ⟨hc, hne⟩ := (h.mem_held_iff hlink c).mp hc
    rw [h.global, (h.records hne).2.2.2.2.1]
    apply (hlink.global_pos c hc).pop_back
    show t.held.getLast? ≠ some c
    rw [h.held, getLast?_concat]
    exact fun hbad => hne (Option.some.inj hbad).symm
  · intro c hc
    obtain ⟨hc, hne⟩ := (h.mem_held_iff hlink c).mp hc
    obtain ⟨-, -, hq, hpp, -⟩ := h.records hne
    have hold := hlink.parent_pos c hc
    rw [hq, hpp]
    by_cases hp : (t.nodes c).parent = (t.nodes last).parent
    · rw [hp] at hold ⊢
      rw [h.at_parent]
      refine CellList.holds_erase_iff.mpr ⟨hold, fun hpos => hne ?_⟩
      rw [hpos] at hold
      exact hold.unique hlastpos
    · rw [h.others _ (hnotlast hc) hp]
      exact hold
  · intro p hp
    obtain ⟨hp, hpne⟩ := (h.live_iff hlink p).mp hp
    obtain ⟨hnodup, hmem⟩ := hlink.recency p hp
    by_cases hpp : p = (t.nodes last).parent
    · subst hpp
      rw [h.at_parent, CellList.values_erase hlastpos hnodup]
      refine ⟨hnodup.filter _, fun c => ?_⟩
      rw [h.exists_child_iff hlink hp hpne, mem_filter, decide_eq_true_eq, hmem]
    · rw [h.others p hpne hpp]
      refine ⟨hnodup, fun c => ?_⟩
      rw [h.exists_child_iff hlink hp hpne, hmem]
      refine ⟨fun hc => ⟨hc, ?_⟩, And.left⟩
      rintro rfl
      obtain ⟨k, hk⟩ := hc
      exact hpp (hlink.down p k c hp hk).2.1.symm
  · intro p hp
    obtain ⟨hp, hpne⟩ := (h.live_iff hlink p).mp hp
    obtain ⟨hpair, hmem⟩ := hlink.sorted p hp
    have hkept : ∀ l : List NodeId, last ∉ l → l.Pairwise (Before t.nodes) →
        l.Pairwise (Before t'.nodes) := by
      intro l hl hpair
      refine (pairwise_congr fun c hc => ?_).mpr hpair
      obtain ⟨hf, ht, -⟩ := h.records fun heq => hl (heq ▸ hc)
      exact ⟨hf, ht⟩
    by_cases hpp : p = (t.nodes last).parent
    · subst hpp
      rw [h.at_parent]
      refine ⟨hkept _ (fun hbad => (mem_sorted_erase.mp hbad).2 rfl)
        (hpair.sublist filter_sublist), fun c => ?_⟩
      rw [h.exists_child_iff hlink hp hpne, mem_sorted_erase, hmem]
    · have hnot : last ∉ (t.nodes p).sorted_children := by
        intro hbad
        obtain ⟨k, hk⟩ := (hmem last).mp hbad
        exact hpp (hlink.down p k last hp hk).2.1.symm
      rw [h.others p hpne hpp]
      refine ⟨hkept _ hnot hpair, fun c => ?_⟩
      rw [h.exists_child_iff hlink hp hpne, hmem]
      refine ⟨fun hc => ⟨hc, ?_⟩, And.left⟩
      rintro rfl
      exact hnot ((hmem c).mpr hc)

theorem sound (hsound : t.Sound) : t'.Sound := by
  refine ⟨h.linked hsound.linked (hsound.last_is_leaf h.held), ?_⟩
  intro l₁ c l₂ hsplit
  have hc : c ∈ t'.held := by
    rw [hsplit]
    exact mem_append_right _ mem_cons_self
  have hne := ((h.mem_held_iff hsound.linked c).mp hc).2
  rw [(h.records hne).2.2.1, h.frame.root]
  apply hsound.ordered l₁ c (l₂ ++ [last])
  rw [h.held, hsplit, append_assoc, cons_append]

theorem find_iff (hsound : t.Sound) {path : List Token} {c : NodeId} :
    t'.find path = some c ↔ t.find path = some c ∧ c ≠ last := by
  unfold find
  rw [h.frame.root]
  exact hsound.tree.find_cut h.last_held (hsound.last_is_leaf h.held)
    fun id l hid => h.child_eq hid l

/-- **A released path** is found no more; every other path is found and counted as before. -/
theorem freqAt (hsound : t.Sound) {q : List Token} (hq : t.find q = some last) (path : List Token) :
    t'.freqAt path = if path = q then 0 else t.freqAt path := by
  split
  · next heq =>
    subst heq
    apply freqAt_of_none
    cases hc : t'.find path with
    | none => rfl
    | some c =>
      obtain ⟨hold, hne⟩ := (h.find_iff hsound).mp hc
      rw [hq] at hold
      exact absurd (Option.some.inj hold).symm hne
  · next hne =>
    have hother : ∀ c, t.find path = some c → c ≠ last := by
      rintro c hc rfl
      exact hne (hsound.find_inj hc hq)
    exact freqAt_off (fun c hc => (h.find_iff hsound).mpr ⟨hc, hother c hc⟩)
      (fun c hc => ((h.find_iff hsound).mp hc).1) fun c hc => (h.records (hother c hc)).1

theorem version_last : (t'.nodes last).version = (t.nodes last).version + 1 := by
  rw [h.at_last]

end

end Released

end Trie

end LightningH3.NgramTrie
