/-
The operations of the radix cache, one specification each.
-/
import LightningH3.RadixCacheHashes

set_option autoImplicit false

namespace LightningH3.Radix

open Arena RadixKey List Fallible

variable {H : Type} (F : HashFns H)

/-! ## Outstanding locks -/

open Classical in
/-- How many of the locked nodes lie at or below `n`. -/
noncomputable def locks_below (c : RadixCache H) (held : List ℕ) (n : ℕ) : ℕ :=
  held.countP fun h => decide (Above c.tree n h)

/-- **Locks accounted for.** -/
structure Counted (c : RadixCache H) (held : List ℕ) : Prop where
  inTree : ∀ h ∈ held, InTree c.tree h
  count : ∀ n, InTree c.tree n → n ≠ c.tree.root → (c.node n).lock_ref = locks_below c held n

variable {c c' : RadixCache H} {held : List ℕ} {n : ℕ}

theorem locks_below_congr {m : ℕ} (h : ∀ x ∈ held, Above c'.tree m x ↔ Above c.tree n x) :
    locks_below c' held m = locks_below c held n := by
  classical
  apply countP_congr
  intro x hx
  rw [decide_eq_true_iff, decide_eq_true_iff]
  exact h x hx

variable {p : ℕ} {k : ChildKey}

theorem Counted.lock_le (hc : Counted c held) (h : Shape c) (hp : InTree c.tree p)
    (hr : p ≠ c.tree.root) (hk : c.tree.child? p k = some n) :
    (c.node n).lock_ref ≤ (c.node p).lock_ref := by
  classical
  rw [hc.count n (.child hp hk) (h.linked.ne_root hp hk), hc.count p hp hr]
  have hle : locks_below c held n ≤ locks_below c held p := by
    apply countP_mono_left
    intro x _ hx
    rw [decide_eq_true_iff] at hx ⊢
    exact above_of_parent hk hr hx hp
  exact_mod_cast hle

theorem SameBooks.counted (s : SameBooks c c') (hc : Counted c held) : Counted c' held where
  inTree x hx := by
    rw [s.tree]
    exact hc.inTree x hx
  count n hn hr := by
    rw [s.tree] at hn hr
    rw [s.node, hc.count n hn hr, locks_below, locks_below, s.tree]

theorem Splits.counted {child : ℕ} {k' : ChildKey} {m : ℕ} (s : Splits c c' p child k k' m)
    (hc : Counted c held) : Counted c' held where
  inTree x hx := s.inTree_iff.mpr (.inl (hc.inTree x hx))
  count n hn hr := by
    rw [s.root] at hr
    rcases s.inTree_iff.mp hn with hn | rfl
    · rw [(s.namespace_lock_old hn).2, hc.count n hn hr, locks_below_congr]
      intro x hx
      rw [s.tree]
      exact (s.site.above_old hn (hc.inTree x hx)).symm
    · have hchild := hc.count child s.site.child (s.site.linked.ne_root s.site.parent s.site.filed)
      have hnew : (c'.node c.tree.counter).lock_ref = (c.node child).lock_ref := by
        rw [s.node_new]
        rfl
      rw [hnew, hchild, locks_below_congr]
      intro x hx
      rw [s.tree]
      exact (s.site.above_new (hc.inTree x hx)).symm

theorem Reshapes.counted (r : Reshapes c c') (hc : Counted c held) : Counted c' held := by
  induction r with
  | refl => exact hc
  | count _ hs ih => exact hs.counted ih
  | split _ hs ih => exact hs.counted ih

variable {key : RadixKey} {value : List ℤ}

theorem Grows.counted (g : Grows c c' p k key value) (hc : Counted c held) : Counted c' held where
  inTree x hx := g.inTree_iff.mpr (.inl (hc.inTree x hx))
  count n hn hr := by
    rw [g.root] at hr
    rcases g.inTree_iff.mp hn with hn | rfl
    · rw [g.node_old hn, hc.count n hn hr, locks_below_congr]
      intro x hx
      rw [g.tree]
      exact (g.site.above_old (hc.inTree x hx)).symm
    · classical
      have hzero : locks_below c' held c.tree.counter = 0 := by
        apply countP_eq_zero.mpr
        intro x hx
        rw [decide_eq_true_iff, g.tree, g.site.above_old (hc.inTree x hx)]
        intro habove
        exact absurd rfl (g.site.linked.fresh _ habove.inTree_left.1).ne
      rw [g.node_new, hzero]
      rfl

theorem Deletes.counted {x : ℕ} (d : Deletes c c' p x k) (hc : Counted c held) :
    Counted c' held := by
  classical
  have hfree : ∀ y ∈ held, y ≠ x := by
    rintro y hy rfl
    have hcount := hc.count y d.site.child d.site.ne_root
    rw [d.unlocked] at hcount
    have hpos : 0 < locks_below c held y := by
      apply countP_pos_iff.mpr
      exact ⟨y, hy, by rw [decide_eq_true_iff]; exact .self d.site.child d.site.ne_root⟩
    omega
  refine ⟨fun y hy => d.inTree_iff.mpr ⟨hc.inTree y hy, hfree y hy⟩, ?_⟩
  intro n hn hr
  rw [d.root] at hr
  rw [d.node, hc.count n (d.inTree_iff.mp hn).1 hr, locks_below_congr]
  intro y hy
  rw [d.tree]
  exact (d.site.above_iff (hfree y hy)).symm

/-! ## Taking and releasing locks -/

/-- What the lock loops do: change the lock counts of some nodes. -/
inductive Relocked : RadixCache H → RadixCache H → Prop
  | refl (c : RadixCache H) : Relocked c c
  | step {c c' c'' : RadixCache H} {n : ℕ} {lock : ℤ} : Relocks c c' n lock → Relocked c' c'' →
      Relocked c c''

variable {es : List (Atom × ℤ)} {ns : Namespace}

theorem Relocks.held_iff {lock : ℤ} (r : Relocks c c' n lock) : Held c' ns es ↔ Held c ns es := by
  have hsame : c'.tree.setData n (c.node n) = c.tree := by
    rw [r.tree]
    unfold Arena.setData Arena.write RadixCache.node Arena.data
    simp
  have hfwd : ∀ {m full}, Reads c.tree entries m full → Reads c'.tree entries m full := by
    intro m full hr
    have hf : entries { c.node n with lock_ref := lock } = entries (c.tree.data n) := rfl
    rw [r.tree]
    exact hr.setData hf
  have hback : ∀ {m full}, Reads c'.tree entries m full → Reads c.tree entries m full := by
    intro m full hr
    rw [← hsame]
    refine hr.setData ?_
    rw [← RadixCache.node, entries, entries, (r.key_value n).1, (r.key_value n).2]
  constructor
  · rintro (rfl | ⟨m, full, hr, hns, hread, hpre, hdvd⟩)
    · exact .inl rfl
    · refine .inr ⟨m, full, by rwa [r.root] at hr, ?_, hback hread, hpre, by rwa [r.page_size] at hdvd⟩
      rw [← hns, (r.key_value m).1]
  · rintro (rfl | ⟨m, full, hr, hns, hread, hpre, hdvd⟩)
    · exact .inl rfl
    · refine .inr ⟨m, full, by rwa [r.root], ?_, hfwd hread, hpre, by rwa [r.page_size]⟩
      rw [← hns, (r.key_value m).1]

namespace Relocked

variable {c c' : RadixCache H} (r : Relocked c c')

include r

theorem config : c'.config = c.config := by
  induction r with
  | refl => rfl
  | step hr _ ih => rw [ih, hr.config]

theorem page_size : c'.page_size = c.page_size := by
  rw [RadixCache.page_size, r.config, RadixCache.page_size]

theorem root : c'.tree.root = c.tree.root := by
  induction r with
  | refl => rfl
  | step hr _ ih => rw [ih, hr.root]

theorem queue : c'.queue = c.queue := by
  induction r with
  | refl => rfl
  | step hr _ ih => rw [ih, hr.queue]

theorem inTree_iff {n : ℕ} : InTree c'.tree n ↔ InTree c.tree n := by
  induction r with
  | refl => exact Iff.rfl
  | step hr _ ih => exact ih.trans hr.inTree_iff

theorem above_iff {n m : ℕ} : Above c'.tree n m ↔ Above c.tree n m := by
  induction r with
  | refl => exact Iff.rfl
  | step hr _ ih =>
    refine ih.trans ?_
    rw [hr.tree, above_setData]

theorem shape (h : Shape c) : Shape c' := by
  induction r with
  | refl => exact h
  | step hr _ ih => exact ih (hr.shape h)

theorem hashed (hh : Hashed F c) : Hashed F c' := by
  induction r with
  | refl => exact hh
  | step hr _ ih => exact ih (hr.hashed F hh)

theorem held_iff {es : List (Atom × ℤ)} : Held c' ns es ↔ Held c ns es := by
  induction r with
  | refl => exact Iff.rfl
  | step hr _ ih => exact ih.trans hr.held_iff

end Relocked

theorem Relocks.lock_ref {lock : ℤ} (r : Relocks c c' n lock) (m : ℕ) :
    (c'.node m).lock_ref = if m = n then lock else (c.node m).lock_ref := by
  by_cases hm : m = n
  · subst hm
    rw [if_pos rfl, r.node_self]
  · rw [if_neg hm, r.node_other hm]

theorem trail_cases (h : Shape c) {l : List ℕ} (hl : Trail c.tree n l) (hn : n ≠ c.tree.root) :
    ∃ p l', Trail c.tree p l' ∧ l = l' ++ [n] ∧ (c.tree.cell n).parent = some p ∧ n ∉ l' := by
  have hnodup := h.linked.trail_nodup hl
  cases hl with
  | root => exact absurd rfl hn
  | child hp hk =>
    refine ⟨_, _, hp, rfl, h.linked.child_parent _ _ _ hp.inTree hk, fun hmem => ?_⟩
    exact (nodup_append.mp hnodup).2.2 n hmem n (mem_singleton_self n) rfl

theorem trail_nil (h : Shape c) (hl : Trail c.tree n []) : n = c.tree.root := by
  by_contra hn
  obtain ⟨p, l', -, hl', -⟩ := trail_cases h hl hn
  simp at hl'

/-- **The loop of `inc_lock_ref`** adds one to every node of the trail. -/
theorem inc_loop_spec (fuel : ℕ) : ∀ {c : RadixCache H} {n : ℕ} {l : List ℕ}, Shape c →
    Trail c.tree n l → l.length ≤ fuel → ∃ c', RadixCache.inc_loop fuel c n = .ok c' ∧
      Relocked c c' ∧ ∀ m, (c'.node m).lock_ref = (c.node m).lock_ref + if m ∈ l then 1 else 0 := by
  induction fuel with
  | zero =>
    intro c n l h hl hfuel
    obtain rfl : l = [] := length_eq_zero_iff.mp (Nat.le_zero.mp hfuel)
    refine ⟨c, ?_, .refl c, by simp⟩
    exact if_pos (trail_nil h hl)
  | succ fuel ih =>
    intro c n l h hl hfuel
    rw [RadixCache.inc_loop]
    by_cases hn : n = c.tree.root
    · subst hn
      rw [h.linked.trail_unique hl .root]
      refine ⟨c, ?_, .refl c, by simp⟩
      exact if_pos rfl
    · obtain ⟨p, l', hp, rfl, hpar, hnot⟩ := trail_cases h hl hn
      have hnroot : ¬ n = c.root_node := hn
      have r := inc_lock_spec h hl.inTree hn
      rw [if_neg hnroot]
      dsimp only
      have hpar' : ((c.inc_lock n).tree.cell n).parent = some p := by
        rw [r.tree, parent_setData, hpar]
      rw [hpar']
      have htrail : Trail (c.inc_lock n).tree p l' := by
        rw [r.tree]
        exact hp.setData
      rw [length_append, length_singleton] at hfuel
      obtain ⟨c', hok, rel, hlock⟩ := ih (r.shape h) htrail (by omega)
      refine ⟨c', hok, .step r rel, ?_⟩
      intro m
      rw [hlock m, r.lock_ref m]
      by_cases hm : m = n
      · subst hm
        simp [hnot]
      · simp [hm]

/-- **The loop of `dec_lock_ref`** takes one from every node of the trail, all of them locked. -/
theorem dec_loop_spec (fuel : ℕ) : ∀ {c : RadixCache H} {n : ℕ} {l : List ℕ}, Shape c →
    Trail c.tree n l → l.length ≤ fuel → (∀ m ∈ l, 0 < (c.node m).lock_ref) →
    ∃ c', RadixCache.dec_loop fuel c n = .ok c' ∧ Relocked c c' ∧
      ∀ m, (c'.node m).lock_ref = (c.node m).lock_ref - if m ∈ l then 1 else 0 := by
  induction fuel with
  | zero =>
    intro c n l h hl hfuel _
    obtain rfl : l = [] := length_eq_zero_iff.mp (Nat.le_zero.mp hfuel)
    refine ⟨c, ?_, .refl c, by simp⟩
    exact if_pos (trail_nil h hl)
  | succ fuel ih =>
    intro c n l h hl hfuel hpos
    rw [RadixCache.dec_loop]
    by_cases hn : n = c.tree.root
    · subst hn
      rw [h.linked.trail_unique hl .root]
      refine ⟨c, ?_, .refl c, by simp⟩
      exact if_pos rfl
    · obtain ⟨p, l', hp, rfl, hpar, hnot⟩ := trail_cases h hl hn
      have hnroot : ¬ n = c.root_node := hn
      have r := dec_lock_spec h hl.inTree hn (hpos n (by simp))
      rw [if_neg hnroot]
      dsimp only
      have hpar' : ((c.dec_lock n).tree.cell n).parent = some p := by
        rw [r.tree, parent_setData, hpar]
      rw [hpar']
      have htrail : Trail (c.dec_lock n).tree p l' := by
        rw [r.tree]
        exact hp.setData
      have hpos' : ∀ m ∈ l', 0 < ((c.dec_lock n).node m).lock_ref := by
        intro m hm
        have hmn : m ≠ n := by
          rintro rfl
          exact hnot hm
        rw [r.node_other hmn]
        exact hpos m (by simp [hm])
      rw [length_append, length_singleton] at hfuel
      obtain ⟨c', hok, rel, hlock⟩ := ih (r.shape h) htrail (by omega) hpos'
      refine ⟨c', hok, .step r rel, ?_⟩
      intro m
      rw [hlock m, r.lock_ref m]
      by_cases hm : m = n
      · subst hm
        simp [hnot]
      · simp [hm]

/-- **`inc_lock_ref`** takes one more lock on a node of the tree. -/
theorem inc_lock_ref_spec (h : Shape c) (hc : Counted c held) (hn : InTree c.tree n) :
    ∃ c', c.inc_lock_ref n = .ok c' ∧ Relocked c c' ∧ Counted c' (n :: held) := by
  classical
  unfold RadixCache.inc_lock_ref
  by_cases hd : c.config.disable = true
  · rw [if_pos hd]
    refine ⟨c, rfl, .refl c, ?_, ?_⟩
    · intro x hx
      rcases mem_cons.mp hx with rfl | hx
      · exact hn
      · exact hc.inTree x hx
    · intro m hm hr
      exact absurd (h.idle hd m hm) hr
  · rw [if_neg hd]
    obtain ⟨l, hl⟩ := hn.trail
    obtain ⟨c', hok, rel, hlock⟩ := inc_loop_spec c.tree.counter h hl (h.linked.trail_length_le hl)
    refine ⟨c', hok, rel, ?_, ?_⟩
    · intro x hx
      rw [rel.inTree_iff]
      rcases mem_cons.mp hx with rfl | hx
      · exact hn
      · exact hc.inTree x hx
    · intro m hm hr
      rw [rel.inTree_iff] at hm
      rw [rel.root] at hr
      have hold : locks_below c' (n :: held) m = locks_below c (n :: held) m :=
        locks_below_congr fun x _ => rel.above_iff
      rw [hlock m, hc.count m hm hr, hold, locks_below, locks_below, countP_cons]
      simp only [decide_eq_true_iff, h.linked.mem_trail_iff hl]
      push_cast
      rfl

/-- **`dec_lock_ref`** gives back a lock that is outstanding. -/
theorem dec_lock_ref_spec (h : Shape c) (hc : Counted c held) (hn : n ∈ held) :
    ∃ c', c.dec_lock_ref n = .ok c' ∧ Relocked c c' ∧ Counted c' (held.erase n) := by
  classical
  have hin : InTree c.tree n := hc.inTree n hn
  unfold RadixCache.dec_lock_ref
  by_cases hd : c.config.disable = true
  · rw [if_pos hd]
    refine ⟨c, rfl, .refl c, fun x hx => hc.inTree x (mem_of_mem_erase hx), ?_⟩
    intro m hm hr
    exact absurd (h.idle hd m hm) hr
  · rw [if_neg hd]
    obtain ⟨l, hl⟩ := hin.trail
    have hcount : ∀ m, locks_below c held m
        = locks_below c (held.erase n) m + if m ∈ l then 1 else 0 := by
      intro m
      rw [locks_below, (perm_cons_erase hn).countP_eq, countP_cons, locks_below]
      simp only [decide_eq_true_iff, h.linked.mem_trail_iff hl]
    have hpos : ∀ m ∈ l, 0 < (c.node m).lock_ref := by
      intro m hm
      have habove := (h.linked.mem_trail_iff hl).mp hm
      rw [hc.count m habove.inTree_left.1 habove.inTree_left.2, hcount m, if_pos hm]
      omega
    obtain ⟨c', hok, rel, hlock⟩ :=
      dec_loop_spec c.tree.counter h hl (h.linked.trail_length_le hl) hpos
    refine ⟨c', hok, rel, ?_, ?_⟩
    · intro x hx
      rw [rel.inTree_iff]
      exact hc.inTree x (mem_of_mem_erase hx)
    · intro m hm hr
      rw [rel.inTree_iff] at hm
      rw [rel.root] at hr
      have hold : locks_below c' (held.erase n) m = locks_below c (held.erase n) m :=
        locks_below_congr fun x _ => rel.above_iff
      rw [hlock m, hc.count m hm hr, hold, hcount m]
      split <;> simp

/-! ## Eviction -/

/-- A run of evictions: unlocked leaves are removed one after another, each with its event. -/
inductive Evictions : RadixCache H → RadixCache H → List ℕ → Prop
  | nil (c : RadixCache H) : Evictions c c []
  | cons {c c₁ c₂ c' : RadixCache H} {p x : ℕ} {k : ChildKey} {us : List Atom} {xs : List ℕ} :
      EvictableLeaf c x → Deletes c c₁ p x k → Records c₁ c₂ x → Reads c.tree units_of p us →
      (c₂.queue = if c.config.enable_kv_cache_events = true
        then enqueue c.queue (remove_event F (node_hashes F c x us)) else c.queue) →
      Evictions c₂ c' xs → Evictions c c' (x :: xs)

theorem Counted.exists_leaf (hc : Counted c held) (h : Shape c) (room : ℕ) :
    ∀ {n : ℕ} {l : List ℕ}, Trail c.tree n l → c.tree.counter - l.length ≤ room →
      n ≠ c.tree.root → (c.node n).lock_ref = 0 → ∃ x, EvictableLeaf c x := by
  induction room with
  | zero =>
    intro n l hl hroom hn hlock
    by_cases hleaf : ∀ k, c.tree.child? n k = none
    · exact ⟨n, hl.inTree, hn, hlock, hleaf⟩
    · -- a child would have a trail that is too long
      obtain ⟨k, hk⟩ := not_forall.mp hleaf
      obtain ⟨x, hx⟩ := Option.ne_none_iff_exists'.mp hk
      have := h.linked.trail_length_le (.child hl hx)
      rw [length_append, length_singleton] at this
      omega
  | succ room ih =>
    intro n l hl hroom hn hlock
    by_cases hleaf : ∀ k, c.tree.child? n k = none
    · exact ⟨n, hl.inTree, hn, hlock, hleaf⟩
    · obtain ⟨k, hk⟩ := not_forall.mp hleaf
      obtain ⟨x, hx⟩ := Option.ne_none_iff_exists'.mp hk
      have hin : InTree c.tree x := .child hl.inTree hx
      have hle := hc.lock_le h hl.inTree hn hx
      have hnn := h.lock_nonneg x hin
      refine ih (.child hl hx) ?_ (h.linked.ne_root hl.inTree hx) (by omega)
      rw [length_append, length_singleton]
      omega

theorem Counted.all_locked (hc : Counted c held) (h : Shape c) (hnone : c.evictable_leaves = [])
    (hn : InTree c.tree n) (hr : n ≠ c.tree.root) : (c.node n).lock_ref ≠ 0 := by
  intro hlock
  obtain ⟨l, hl⟩ := hn.trail
  obtain ⟨x, hx⟩ := hc.exists_leaf h _ hl (le_refl _) hr hlock
  have hmem := (h.leaves x).mpr hx
  rw [hnone] at hmem
  cases hmem

theorem Deletes.heap_perm {x : ℕ} (d : Deletes c c' p x k) (h : Shape c) {rest : List ℕ}
    (hperm : c.evictable_leaves.Perm (x :: rest)) :
    (if (c'.tree.cell p).children.size = 0 ∧ (c'.node p).lock_ref = 0 then rest ++ [p] else rest).Perm
      c'.evictable_leaves := by
  have hnodup : (x :: rest).Nodup := hperm.nodup_iff.mp h.leaves_nodup
  have hrest : ∀ n, n ∈ rest ↔ n ≠ x ∧ n ∈ c.evictable_leaves := by
    intro n
    rw [hperm.mem_iff, mem_cons]
    constructor
    · intro hn
      exact ⟨fun hnx => (nodup_cons.mp hnodup).1 (hnx ▸ hn), .inr hn⟩
    · rintro ⟨hne, hn | hn⟩
      · exact absurd hn hne
      · exact hn
  have hp : p ∉ rest := by
    intro hmem
    have hleaf := (h.leaves p).mp ((hrest p).mp hmem).2
    have := hleaf.childless k
    rw [d.site.filed] at this
    cases this
  have hcond : ((c'.tree.cell p).children.size = 0 ∧ (c'.node p).lock_ref = 0)
      ↔ ((c.node p).lock_ref ≤ 0 ∧ ∀ key, c'.tree.child? p key = none) := by
    rw [size_eq_zero_iff, d.node]
    have hnn := h.lock_nonneg p d.site.parent
    constructor
    · rintro ⟨hc, hl⟩
      exact ⟨hl.le, hc⟩
    · rintro ⟨hl, hc⟩
      exact ⟨hc, le_antisymm hl hnn⟩
  have hnr := (nodup_cons.mp hnodup).2
  split
  · rename_i hif
    rw [perm_ext_iff_of_nodup (nodup_append.mpr ⟨hnr, nodup_singleton p, by
        rintro a ha b hb rfl
        exact hp (mem_singleton.mp hb ▸ ha)⟩) d.leaves_nodup]
    intro n
    rw [d.leaves, mem_append, mem_singleton]
    by_cases hnp : n = p
    · rw [if_pos hnp]
      exact ⟨fun _ => hcond.mp hif, fun _ => .inr hnp⟩
    · rw [if_neg hnp, hrest]
      exact ⟨fun hn => hn.resolve_right hnp, .inl⟩
  · rename_i hif
    rw [perm_ext_iff_of_nodup hnr d.leaves_nodup]
    intro n
    rw [d.leaves]
    by_cases hnp : n = p
    · rw [if_pos hnp, ← hcond, hnp]
      exact ⟨fun hn => absurd hn hp, fun hn => absurd hn hif⟩
    · rw [if_neg hnp, hrest]

theorem length_node_hashes (n : ℕ) (us : List Atom) :
    (node_hashes F c n us).length = (pages c.page_size (c.node n).key.units).length := by
  rw [node_hashes, length_hash_pages]

theorem Shape.node_hashes_ne_nil (h : Shape c) (hn : InTree c.tree n) (hr : n ≠ c.tree.root)
    (us : List Atom) : node_hashes F c n us ≠ [] := by
  apply length_pos_iff.mp
  rw [length_node_hashes, length_pages_of_dvd c.page_size_pos
    (by rw [length_units]; exact (h.keyed n hn hr).2.1), length_units]
  exact Nat.div_pos (h.page_le hn hr) c.page_size_pos

/-- **The loop of `evict`** removes unlocked leaves until enough slots are freed or no unlocked node
is left. -/
theorem evict_loop_spec (order : RadixCache.EvictionOrder H) (num_tokens : ℤ) (fuel : ℕ) :
    ∀ {c : RadixCache H} {held heap : List ℕ} {freed : List (List ℤ)} {num : ℕ}, Shape c →
      Hashed F c → Counted c held → heap.Perm c.evictable_leaves → c.tree.nodes.card ≤ fuel →
      ∃ c' removed, RadixCache.evict_loop F order num_tokens fuel c heap freed num
          = .ok (c', freed ++ removed.map (fun x => (c.node x).value),
              num + (removed.map fun x => (c.node x).value.length).sum) ∧
        Evictions F c c' removed ∧ Shape c' ∧ Hashed F c' ∧ Counted c' held ∧
        (num_tokens ≤ (num + (removed.map fun x => (c.node x).value.length).sum : ℕ) ∨
          c'.evictable_leaves = []) := by
  induction fuel with
  | zero =>
    intro c held heap freed num h hh hc hperm hfuel
    -- without nodes there is no leaf to pop
    have hempty : c.evictable_leaves = [] := by
      rw [eq_nil_iff_forall_not_mem]
      intro x hx
      have hleaf := (h.leaves x).mp hx
      have hmem := h.linked.mem_nodes.mpr ⟨hleaf.inTree, hleaf.ne_root⟩
      rw [Finset.card_eq_zero.mp (Nat.le_zero.mp hfuel)] at hmem
      simp at hmem
    have hheap : heap = [] := by
      rw [hempty] at hperm
      exact hperm.eq_nil
    refine ⟨c, [], ?_, .nil c, h, hh, hc, .inr hempty⟩
    rw [RadixCache.evict_loop, if_neg (by simp [hheap])]
    simp
    rfl
  | succ fuel ih =>
    intro c held heap freed num h hh hc hperm hfuel
    rw [RadixCache.evict_loop]
    by_cases hgo : (num : ℤ) < num_tokens ∧ heap ≠ []
    · rw [if_pos hgo]
      obtain ⟨x, rest, hpop, hx⟩ := order.pops c heap hgo.2
      rw [hpop]
      dsimp only
      have hleaf : EvictableLeaf c x := by
        rw [← h.leaves, ← hperm.mem_iff, hx.mem_iff]
        exact mem_cons_self
      obtain ⟨p, k, c₁, hdel, d⟩ := delete_leaf_spec h hleaf
      have hpar : (c₁.tree.cell x).parent = some p := by
        rw [d.tree, parent_detach]
        exact h.linked.child_parent p k x d.site.parent d.site.filed
      obtain ⟨us, hus⟩ := d.site.parent.reads units_of
      have hpub : c₁.config.enable_kv_cache_events = true →
          published c₁ x = some (node_hashes F c x us) := by
        intro hen
        rw [d.config] at hen
        have hsame : published c₁ x = published c x :=
          published_congr (by rw [d.node]) (by rw [d.info]) (by rw [d.info])
        rw [hsame]
        exact hh.nodes hen p k x us hus d.site.filed
      obtain ⟨c₂, hrec, r, hq⟩ := record_remove_spec F hpub
        (by rw [length_node_hashes, d.node, d.page_size])
        (h.node_hashes_ne_nil F hleaf.inTree hleaf.ne_root us)
      have hgone : ¬ InTree c₁.tree x := fun hin => (d.inTree_iff.mp hin).2 rfl
      have h₁ := d.shape h
      have h₂ := h₁.congr r.toSameBooks
      have hcard : c₂.tree.nodes.card ≤ fuel := by
        rw [r.tree, d.tree, d.site.nodes_detach, Finset.card_erase_of_mem d.site.child_mem]
        omega
      have hheap := d.heap_perm h (hperm.symm.trans hx)
      rw [← r.leaves] at hheap
      rw [hdel, ok_bind, hpar]
      dsimp only
      rw [hrec, ok_bind]
      obtain ⟨c', removed, hok, hev, h', hh', hc', hstop⟩ := @ih c₂ held _
        (freed ++ [(c.node x).value]) (num + (c.node x).value.length) h₂
        (r.hashed F hgone (d.hashed F hh)) (r.toSameBooks.counted (d.counted hc)) hheap hcard
      have hnodes : ∀ y, c₂.node y = c.node y := fun y => (r.node y).trans (d.node y)
      simp only [hnodes] at hok hstop
      refine ⟨c', x :: removed, ?_, .cons hleaf d r hus ?_ hev, h', hh', hc', ?_⟩
      · rw [hok]
        simp [Nat.add_assoc]
      · rw [hq, d.config, d.queue]
      · rw [map_cons, sum_cons, ← Nat.add_assoc]
        exact hstop
    · rw [if_neg hgo]
      refine ⟨c, [], by simp; rfl, .nil c, h, hh, hc, ?_⟩
      rcases not_and_or.mp hgo with hnum | hheap
      · exact .inl (by simpa using not_lt.mp hnum)
      · right
        rw [not_not.mp hheap] at hperm
        exact hperm.symm.eq_nil

/-- **`evict`.** -/
theorem evict_spec (order : RadixCache.EvictionOrder H) (num_tokens : ℤ) (h : Shape c)
    (hh : Hashed F c) (hc : Counted c held) : ∃ c' removed, RadixCache.evict F order c num_tokens
        = .ok (c', removed.map (fun x => (c.node x).value),
            (removed.map fun x => (c.node x).value.length).sum) ∧
      Evictions F c c' removed ∧ Shape c' ∧ Hashed F c' ∧ Counted c' held ∧
      (num_tokens ≤ ((removed.map fun x => (c.node x).value.length).sum : ℕ) ∨
        c'.evictable_leaves = []) := by
  unfold RadixCache.evict
  by_cases hd : c.config.disable = true
  · rw [if_pos hd]
    refine ⟨c, [], rfl, .nil c, h, hh, hc, .inr ?_⟩
    rw [eq_nil_iff_forall_not_mem]
    intro x hx
    have hleaf := (h.leaves x).mp hx
    exact hleaf.ne_root (h.idle hd x hleaf.inTree)
  · rw [if_neg hd]
    have hcard : c.tree.nodes.card ≤ c.tree.counter := by
      classical
      refine (Finset.card_le_card (Finset.filter_subset _ _)).trans ?_
      rw [Finset.card_range]
    obtain ⟨c', removed, hok, hrest⟩ :=
      @evict_loop_spec H F order num_tokens c.tree.counter c held c.evictable_leaves [] 0 h hh hc
        (List.Perm.refl _) hcard
    simp only [Nat.zero_add] at hok hrest
    exact ⟨c', removed, hok, hrest⟩

/-! ## Lookup -/

/-- The key a cache looks up: the bigram view of it if the cache is of that kind. -/
def view (c : RadixCache H) (key : RadixKey) : RadixKey :=
  (key.maybe_to_bigram_view c.config.is_eagle none).1

theorem namespace_view (c : RadixCache H) (key : RadixKey) :
    (view c key).namespace_of = key.namespace_of := by
  unfold view maybe_to_bigram_view
  split <;> rfl

theorem view_eq (c : RadixCache H) (key : RadixKey) (value : Option (List ℤ)) :
    (key.maybe_to_bigram_view c.config.is_eagle value).1 = view c key := by
  unfold view maybe_to_bigram_view
  split <;> rfl

theorem follows_aligned_iff {page_size : ℕ} (hp : 0 < page_size) (hdvd : page_size ∣ es.length) :
    es.map Prod.fst <+: (key.page_aligned page_size).units ↔ es.map Prod.fst <+: key.units := by
  rw [units_page_aligned, prefix_take_iff, length_map]
  constructor
  · exact fun h => h.1
  · intro h
    refine ⟨h, ?_⟩
    obtain ⟨q, hq⟩ := hdvd
    have hlen := h.length_le
    rw [length_map, length_units, hq] at hlen
    rw [hq, Nat.mul_comm page_size q]
    exact Nat.mul_le_mul_right _ ((Nat.le_div_iff_mul_le hp).mpr (by rwa [Nat.mul_comm] at hlen))

theorem Walked.longest_root (h : Shape c) {last : ℕ}
    (w : Walked c c' key.namespace_of c.tree.root (key.page_aligned c.page_size).units es last) :
    h.prefix_map.Longest key.namespace_of key.units es := by
  have hread : Reads c'.tree entries last es := w.reads [] .root
  refine ⟨?_, (follows_aligned_iff c.page_size_pos w.aligned).mp w.follows, ?_⟩
  · have hheld : Held c' key.namespace_of es := by
      by_cases hlast : last = c'.tree.root
      · left
        rw [hlast] at hread
        exact (w.reshapes.shape h).linked.reads_unique hread .root
      · refine .inr ⟨last, es, hlast, w.in_namespace hlast, hread, prefix_refl _, ?_⟩
        rw [w.reshapes.page_size]
        exact w.aligned
    exact w.reshapes.held_iff.mp hheld
  · intro es' hes' hu
    refine w.longest es' (h.heldFrom_of_held hes') ?_
    exact (follows_aligned_iff c.page_size_pos (h.prefix_map.aligned _ _ hes')).mpr hu

theorem Shape.longest_nil (h : Shape c)
    (hempty : c.config.disable = true ∨ (key.page_aligned c.page_size).len = 0) :
    h.prefix_map.Longest key.namespace_of key.units [] := by
  refine ⟨h.prefix_map.nil _, nil_prefix, ?_⟩
  intro es hes hu
  rcases hempty with hd | hlen
  · rcases hes with rfl | ⟨n, full, hr, -, hread, -, -⟩
    · exact le_refl _
    · exact absurd (h.idle hd n hread.inTree) hr
  · have hfol := (follows_aligned_iff c.page_size_pos (h.prefix_map.aligned _ _ hes)).mpr hu
    have := hfol.length_le
    rw [length_map, length_units, hlen] at this
    exact this

/-- **`match_prefix`** returns the slots of the longest held prefix of the key. -/
theorem match_prefix_spec (h : Shape c) (key : RadixKey) :
    ∃ c' es last, c.match_prefix key = .ok (c', es.map Prod.snd, last) ∧ Reshapes c c' ∧
      h.prefix_map.Longest key.namespace_of (view c key).units es := by
  have hview : (key.maybe_to_bigram_view c.config.is_eagle none).1 = view c key := rfl
  unfold RadixCache.match_prefix
  rw [hview, ← namespace_view c key]
  by_cases hd : c.config.disable = true ∨ (view c key).len = 0
  · rw [if_pos hd]
    refine ⟨c, [], c.root_node, rfl, .refl c, h.longest_nil ?_⟩
    rcases hd with hd | hlen
    · exact .inl hd
    · right
      rw [len_page_aligned, hlen, Nat.zero_div, Nat.zero_mul]
  · rw [if_neg hd]
    by_cases hlen : ((view c key).page_aligned c.page_size).len = 0
    · rw [if_pos hlen]
      exact ⟨c, [], c.root_node, rfl, .refl c, h.longest_nil (.inr hlen)⟩
    · rw [if_neg hlen]
      have hdvd := dvd_len_page_aligned (view c key) c.page_size
      have hck := child_key_eq (Nat.le_of_dvd (Nat.pos_of_ne_zero hlen) hdvd)
      obtain ⟨c', value', last, es, hok, hval, w⟩ := @match_loop_spec H c h
        (((view c key).page_aligned c.page_size).len + 1) c.tree.root
        ((view c key).page_aligned c.page_size) _ [] .root (fun hne => absurd rfl hne)
        (Nat.lt_succ_self _) hdvd (fun _ => hck)
      rw [namespace_page_aligned] at w
      refine ⟨c', es, last, ?_, w.reshapes, w.longest_root h⟩
      unfold RadixCache.match_prefix_helper RadixCache.root_node
      rw [hck, ok_bind, hok, ok_bind]
      dsimp only
      rw [hval]
      rfl

/-! ## Insertion -/

/-- The whole pages of a key in the cache's view: what an insertion files. -/
def filed_key (c : RadixCache H) (key : RadixKey) : RadixKey := (view c key).page_aligned c.page_size

/-- The slots an insertion files for them. -/
def filed_slots (c : RadixCache H) (key : RadixKey) (value : Option (List ℤ)) : List ℤ :=
  match value with
  | some v => v.take (filed_key c key).len
  | none => (filed_key c key).token_ids.take (filed_key c key).len

/-- The caller hands over at least one slot for each unit that is filed. -/
def Covers (c : RadixCache H) (key : RadixKey) (value : Option (List ℤ)) : Prop :=
  ∀ v, value = some v → (filed_key c key).len ≤ v.length

theorem len_filed_le (c : RadixCache H) (key : RadixKey) : (filed_key c key).len ≤ (view c key).len := by
  rw [filed_key, len_page_aligned]
  exact Nat.div_mul_le_self _ _

theorem len_le_length (k : RadixKey) : k.len ≤ k.token_ids.length := by
  have := k.raw_len_le
  unfold len
  split_ifs <;> omega

theorem length_filed_slots {value : Option (List ℤ)} (hv : Covers c key value) :
    (filed_slots c key value).length = (filed_key c key).len := by
  unfold filed_slots
  cases value with
  | none =>
    rw [length_take]
    exact Nat.min_eq_left (len_le_length _)
  | some v =>
    rw [length_take]
    exact Nat.min_eq_left (hv v rfl)

theorem insert_value_eq (c : RadixCache H) (key : RadixKey) (value : Option (List ℤ)) :
    (match (key.maybe_to_bigram_view c.config.is_eagle value).2 with
      | some v => v.take (filed_key c key).len
      | none => (filed_key c key).token_ids.take (filed_key c key).len) = filed_slots c key value := by
  have hle := len_filed_le c key
  by_cases hflip : c.config.is_eagle = true ∧ ¬ key.is_bigram = true
  · have hview : view c key = { key with is_bigram := true } := by
      rw [view, maybe_to_bigram_view, if_pos hflip]
    rw [hview] at hle
    cases value with
    | none =>
      rw [maybe_to_bigram_view, if_pos hflip]
      rfl
    | some v =>
      rw [maybe_to_bigram_view, if_pos hflip]
      dsimp only [Option.map_some, filed_slots]
      rw [take_take, Nat.min_eq_left hle]
  · rw [maybe_to_bigram_view, if_neg hflip]
    cases value <;> rfl

theorem Grows.held_iff (g : Grows c c' p k key value) {full : List (Atom × ℤ)}
    (hp : Reads c.tree entries p full) :
    Held c' ns es ↔ Held c ns es ∨ (ns = key.namespace_of ∧ es <+: full ++ key.units.zip value ∧
      c.page_size ∣ es.length) := by
  have hlink : c'.tree.Linked := by
    rw [g.tree]
    exact g.site.linked_attach
  have hreads : ∀ {n us}, Reads c.tree entries n us → Reads c'.tree entries n us := by
    intro n us hr
    rw [g.tree]
    exact g.site.reads hr
  have hnew : Reads c'.tree entries c.tree.counter (full ++ key.units.zip value) := by
    rw [g.tree]
    exact g.site.reads_new hp
  have hne : c.tree.counter ≠ c.tree.root := (g.site.linked.fresh c.tree.root .root).ne'
  constructor
  · rintro (rfl | ⟨n, us, hr, hns, hread, hpre, hdvd⟩)
    · exact .inl (.inl rfl)
    · rw [g.page_size] at hdvd
      rcases g.inTree_iff.mp hread.inTree with hn | rfl
      · obtain ⟨us₀, hus₀⟩ := hn.reads entries
        rw [hlink.reads_unique hread (hreads hus₀)] at hpre
        rw [g.root] at hr
        rw [g.node_old hn] at hns
        exact .inl (.inr ⟨n, us₀, hr, hns, hus₀, hpre, hdvd⟩)
      · rw [hlink.reads_unique hread hnew] at hpre
        rw [g.node_new] at hns
        exact .inr ⟨hns.symm, hpre, hdvd⟩
  · rintro ((rfl | ⟨n, us, hr, hns, hread, hpre, hdvd⟩) | ⟨rfl, hpre, hdvd⟩)
    · exact .inl rfl
    · refine .inr ⟨n, us, by rwa [g.root], ?_, hreads hread, hpre, by rwa [g.page_size]⟩
      rw [g.node_old hread.inTree]
      exact hns
    · refine .inr ⟨c.tree.counter, _, by rwa [g.root], ?_, hnew, hpre, by rwa [g.page_size]⟩
      rw [g.node_new]

/-- What an insertion does to the cache: it may split nodes, and add one leaf with its event. -/
inductive Inserts : RadixCache H → RadixCache H → Prop
  | found {c c' : RadixCache H} : Reshapes c c' → Inserts c c'
  | stored {c c₁ c₂ c' : RadixCache H} {p : ℕ} {k : ChildKey} {key : RadixKey} {value : List ℤ}
      {us : List Atom} : Reshapes c c₁ → Grows c₁ c₂ p k key value →
      Reads c₁.tree units_of p us → Records c₂ c' c₁.tree.counter → Hashed F c' →
      (c'.queue = if c.config.enable_kv_cache_events = true
        then (store_events F c₂ c₁.tree.counter us).foldl enqueue c.queue else c.queue) →
      Inserts c c'

namespace Inserts

variable {F} {c c' : RadixCache H} (i : Inserts F c c')

include i

theorem shape (h : Shape c) : Shape c' := by
  cases i with
  | found r => exact r.shape h
  | stored r g _ rec _ _ => exact (g.shape (r.shape h)).congr rec.toSameBooks

theorem hashed (h : Shape c) (hh : Hashed F c) : Hashed F c' := by
  cases i with
  | found r => exact r.hashed F h hh
  | stored _ _ _ _ hh' _ => exact hh'

theorem counted {held : List ℕ} (hc : Counted c held) : Counted c' held := by
  cases i with
  | found r => exact r.counted hc
  | stored r g _ rec _ _ => exact rec.toSameBooks.counted (g.counted (r.counted hc))

theorem config : c'.config = c.config := by
  cases i with
  | found r => exact r.config
  | stored r g _ rec _ _ => rw [rec.config, g.config, r.config]

end Inserts

/-- The rest of a key and its slots, paired up. -/
def rest_entries (c : RadixCache H) (key : RadixKey) (value : Option (List ℤ)) (done : ℕ) :
    List (Atom × ℤ) := ((filed_key c key).units.zip (filed_slots c key value)).drop done

theorem insert_tail_spec {c₁ : RadixCache H} (h : Shape c) (hh : Hashed F c) {key' : RadixKey}
    {value' : List ℤ} {last : ℕ} {ck' : ChildKey} {old : List (Atom × ℤ)}
    (i : Inserting c c₁ c.tree.root key value last key' value' ck' old)
    (hdvd : c.page_size ∣ key.len) (hslots : value.length = key.len)
    (hen : c.config.disable = false) (priority : ℤ) (chunked : Bool) (hpos : 0 < key'.len) :
    ∃ c', c₁.add_leaf F last key' value' ck' priority chunked = .ok (c', c₁.tree.counter) ∧
      Inserts F c c' ∧ ∀ ns es, Held c' ns es ↔ Held c ns es ∨ (ns = key.namespace_of ∧
        es <+: old ++ (key.units.zip value).drop old.length ∧ c.page_size ∣ es.length) := by
  have w := i.walked
  have h₁ : Shape c₁ := w.reshapes.shape h
  have hread : Reads c₁.tree entries last old := w.reads [] .root
  have hlen : key'.len = key.len - old.length := by
    rw [← length_units, i.units, length_drop, length_units]
  have hdvd' : c₁.page_size ∣ key'.len := by
    rw [w.reshapes.page_size, hlen]
    exact Nat.dvd_sub hdvd w.aligned
  have hslots' : value'.length = key'.len := by
    rw [i.value, length_drop, hslots, hlen]
  obtain ⟨hck, hvac⟩ := i.vacant hpos
  have hns : last ≠ c₁.tree.root → key'.namespace_of = (c₁.node last).key.namespace_of := by
    intro hr
    rw [i.same_namespace, w.in_namespace hr]
  have g := grown_spec h₁ hread.inTree hvac hck hpos hdvd' hslots' hns
    (by rw [w.reshapes.config]; exact hen) priority chunked
  obtain ⟨us, hus⟩ := hread.inTree.reads units_of
  obtain ⟨hinfo, hhash, hevent⟩ := @info_grown H c₁ last key' value' ck' priority chunked
  have u := g.unhashed F h₁ (w.reshapes.hashed F h hh) hinfo hevent hus
  obtain ⟨c', hok, rec, hh', hq⟩ := record_store_spec F u hhash
  refine ⟨c', ?_, .stored w.reshapes g hus rec hh' ?_, ?_⟩
  · rw [add_leaf_eq, hok]
    rfl
  · rw [hq, queue_grown, g.config, w.reshapes.config, w.reshapes.queue]
  · intro ns es
    have hzip : key'.units.zip value' = (key.units.zip value).drop old.length := by
      rw [i.units, i.value]
      exact drop_zipWith.symm
    rw [rec.toSameBooks.held_iff, g.held_iff hread, w.reshapes.held_iff, i.same_namespace,
      w.reshapes.page_size, hzip]

/-- **`insert`** succeeds; it returns the length of the longest held prefix and files the rest of
the key below it. -/
theorem insert_spec (h : Shape c) (hh : Hashed F c) (key : RadixKey) {value : Option (List ℤ)}
    (hv : Covers c key value) (priority : Option ℤ) (chunked : Bool)
    (hen : c.config.disable = false) :
    ∃ c' last old, c.insert F key value priority chunked = .ok (c', old.length, some last) ∧
      Inserts F c c' ∧ h.prefix_map.Longest key.namespace_of (filed_key c key).units old ∧
      ∀ ns es, Held c' ns es ↔ Held c ns es ∨ (ns = key.namespace_of ∧
        es <+: old ++ rest_entries c key value old.length ∧ c.page_size ∣ es.length) := by
  have hns : (filed_key c key).namespace_of = key.namespace_of := by
    rw [filed_key, namespace_page_aligned, namespace_view]
  have hdvd : c.page_size ∣ (filed_key c key).len := dvd_len_page_aligned _ _
  have hslots := length_filed_slots hv
  -- the longest held prefix of the filed part is that of the whole key
  have hlong : ∀ {es}, h.prefix_map.Longest (view c key).namespace_of (view c key).units es →
      h.prefix_map.Longest key.namespace_of (filed_key c key).units es := by
    rintro es ⟨hheld, hfol, hmax⟩
    rw [namespace_view] at hheld hmax
    refine ⟨hheld, ?_, ?_⟩
    · exact (follows_aligned_iff c.page_size_pos (h.prefix_map.aligned _ _ hheld)).mpr hfol
    · intro es' hes' hu
      refine hmax es' hes' ?_
      exact (follows_aligned_iff c.page_size_pos (h.prefix_map.aligned _ _ hes')).mp hu
  -- `insert` is `_insert_helper` on the filed key and slots
  have hinsert : c.insert F key value priority chunked =
      (c.insert_helper F c.root_node (filed_key c key) (filed_slots c key value) (priority.getD 0)
        chunked >>= fun r => pure (r.1, r.2.1, some r.2.2)) := by
    unfold RadixCache.insert
    rw [if_neg (by rw [hen]; simp), ← insert_value_eq]
    unfold filed_key
    obtain ⟨k, hk⟩ : ∃ k, view c key = k := ⟨_, rfl⟩
    have hview := view_eq c key value
    rw [hk] at hview ⊢
    subst hview
    rfl
  generalize hb : c.raise_priority c.root_node (priority.getD 0) = b
  have same : SameRecords c b := by
    rw [← hb]
    exact SameRecords.raise_priority c c.root_node (priority.getD 0)
  have hbh := h.congr same.toSameBooks
  have hbhh := same.hashed F hh
  rw [hinsert]
  unfold RadixCache.insert_helper
  rw [hb]
  by_cases hlen : (filed_key c key).len = 0
  · rw [if_pos hlen]
    have hnil : h.prefix_map.Longest (view c key).namespace_of (view c key).units [] :=
      h.longest_nil (.inr hlen)
    refine ⟨b, c.root_node, [], rfl, .found (.count (.refl c) same), hlong hnil, fun ns es => ?_⟩
    rw [same.toSameBooks.held_iff]
    refine ⟨.inl, ?_⟩
    rintro (hes | ⟨rfl, hpre, -⟩)
    · exact hes
    · left
      have hu : (filed_key c key).units = [] := by
        apply eq_nil_of_length_eq_zero
        rw [length_units, hlen]
      rw [rest_entries, hu] at hpre
      simpa using hpre
  · rw [if_neg hlen]
    have hpos : 0 < (filed_key c key).len := Nat.pos_of_ne_zero hlen
    obtain ⟨ck, hck⟩ : ∃ ck, (filed_key c key).child_key b.page_size = .ok ck := by
      rw [same.page_size]
      exact ⟨_, child_key_eq (Nat.le_of_dvd hpos hdvd)⟩
    rw [hck, ok_bind]
    have hroot : c.root_node = b.tree.root := by
      rw [same.tree]
      rfl
    rw [hroot]
    obtain ⟨c₁, last, key', value', ck', old, hok, i⟩ := @insert_loop_spec H (priority.getD 0)
      chunked ((filed_key c key).len + 1) b b.tree.root (filed_key c key) (filed_slots c key value)
      _ 0 hbh .root (fun hne => absurd rfl hne) (Nat.lt_succ_self _)
      (by rw [same.page_size]; exact hdvd) (fun _ => hck)
    have wc : Walked c c₁ (view c key).namespace_of c.tree.root
        ((view c key).page_aligned c.page_size).units old last := by
      have hw := Walked.of_same same i.walked
      rw [hns, same.tree] at hw
      rw [namespace_view]
      exact hw
    have hlongest := wc.longest_root h
    rw [hok, ok_bind]
    dsimp only
    by_cases hmore : key'.len > 0
    · obtain ⟨c', hleaf, hins, hheld⟩ := insert_tail_spec F hbh hbhh i
        (by rw [same.page_size]; exact hdvd) hslots (by rw [same.config]; exact hen)
        (priority.getD 0) chunked hmore
      rw [if_pos hmore, hleaf]
      refine ⟨c', c₁.tree.counter, old, ?_, ?_, hlong hlongest, ?_⟩
      · simp only [Nat.zero_add]
        rfl
      · cases hins with
        | found r => exact .found ((Reshapes.count (.refl c) same).trans r)
        | stored r g hus rec hh' hq =>
          refine .stored ((Reshapes.count (.refl c) same).trans r) g hus rec hh' ?_
          rw [hq, same.config, same.queue]
      · intro ns es
        rw [hheld ns es, same.toSameBooks.held_iff, hns, same.page_size]
        rfl
    · rw [if_neg hmore]
      refine ⟨c₁, last, old, ?_, .found wc.reshapes, hlong hlongest, ?_⟩
      · simp only [ok_bind, Nat.zero_add, pure, Except.pure]
      · intro ns es
        rw [wc.reshapes.held_iff]
        refine ⟨.inl, ?_⟩
        rintro (hes | ⟨rfl, hpre, hd⟩)
        · exact hes
        · -- nothing is left of the key, so the path is held already
          have hdone : (filed_key c key).len ≤ old.length := by
            have := congrArg List.length i.units
            rw [length_units, length_drop, length_units] at this
            omega
          have hrest : rest_entries c key value old.length = [] := by
            apply drop_eq_nil_of_le
            rw [length_zip]
            omega
          rw [hrest, append_nil] at hpre
          have hold : Held c key.namespace_of old := (hlong hlongest).held
          exact h.prefix_map.closed _ _ _ hold hpre hd

/-! ## Reset -/

section reset

variable (c : RadixCache H)

theorem tree_reset : c.reset.tree = { c.tree.write c.tree.counter
    ⟨none, .empty, ⟨⟨[], none, none, false, none⟩, [], 1⟩⟩ with
      counter := c.tree.counter + 1
      root := c.tree.counter } := by
  unfold RadixCache.reset RadixCache.record_all_cleared
  dsimp only
  split <;> rfl

theorem config_reset : c.reset.config = c.config := by
  unfold RadixCache.reset RadixCache.record_all_cleared
  dsimp only
  split <;> rfl

theorem root_reset : c.reset.tree.root = c.tree.counter := by rw [tree_reset]

theorem node_root_reset : c.reset.node c.tree.counter = ⟨⟨[], none, none, false, none⟩, [], 1⟩ := by
  rw [RadixCache.node, tree_reset]
  simp [Arena.data, Arena.write]

theorem child?_root_reset (k : ChildKey) : c.reset.tree.child? c.tree.counter k = none := by
  rw [tree_reset]
  simp [Arena.child?, Arena.write]

theorem inTree_reset {n : ℕ} (hn : InTree c.reset.tree n) : n = c.tree.counter := by
  induction hn with
  | root => exact root_reset c
  | child _ hk ih =>
    rw [ih, child?_root_reset] at hk
    cases hk

theorem queue_reset : c.reset.queue
    = if c.config.enable_kv_cache_events = true then enqueue c.queue .cleared else c.queue := by
  unfold RadixCache.reset RadixCache.record_all_cleared
  dsimp only
  split <;> rfl

theorem nodes_reset (hl : c.reset.tree.Linked) : c.reset.tree.nodes = ∅ := by
  rw [Finset.eq_empty_iff_forall_notMem]
  intro n hn
  obtain ⟨hin, hr⟩ := hl.mem_nodes.mp hn
  rw [root_reset] at hr
  exact hr (inTree_reset c hin)

theorem linked_reset : c.reset.tree.Linked where
  fresh n hn := by
    rw [inTree_reset c hn, tree_reset]
    exact Nat.lt_succ_self _
  root_parent := by
    rw [tree_reset]
    simp [Arena.write]
  child_parent p k n hp hk := by
    rw [inTree_reset c hp, child?_root_reset] at hk
    cases hk
  filed_once p k k' n hp hk := by
    rw [inTree_reset c hp, child?_root_reset] at hk
    cases hk

/-- **`reset`** leaves a cache of good shape. -/
theorem shape_reset : Shape c.reset where
  linked := linked_reset c
  keyed n hn hr := by
    rw [root_reset] at hr
    exact absurd (inTree_reset c hn) hr
  filed p k n hp hk := by
    rw [inTree_reset c hp, child?_root_reset] at hk
    cases hk
  uniform p k n hp _ hk := by
    rw [inTree_reset c hp, child?_root_reset] at hk
    cases hk
  lock_nonneg n hn := by
    rw [inTree_reset c hn, node_root_reset]
    decide
  root_locked := by rw [root_reset, node_root_reset]
  root_key := by
    rw [root_reset, node_root_reset]
    rfl
  evictable := by
    rw [Arena.total, nodes_reset c (linked_reset c)]
    unfold RadixCache.reset RadixCache.record_all_cleared
    dsimp only
    split <;> rfl
  guarded := by
    rw [Arena.total, nodes_reset c (linked_reset c)]
    unfold RadixCache.reset RadixCache.record_all_cleared
    dsimp only
    split <;> rfl
  leaves_nodup := by
    unfold RadixCache.reset RadixCache.record_all_cleared
    dsimp only
    split <;> exact nodup_nil
  leaves n := by
    have hnil : c.reset.evictable_leaves = [] := by
      unfold RadixCache.reset RadixCache.record_all_cleared
      dsimp only
      split <;> rfl
    rw [hnil]
    constructor
    · intro hn
      cases hn
    · intro hleaf
      have hr := hleaf.ne_root
      rw [root_reset] at hr
      exact absurd (inTree_reset c hleaf.inTree) hr
  idle _ n hn := by
    rw [root_reset]
    exact inTree_reset c hn

theorem hashed_reset : Hashed F c.reset where
  root_hash := by
    unfold RadixCache.reset RadixCache.record_all_cleared
    dsimp only
    split <;> simp
  nodes _ p k n us hr hk := by
    rw [inTree_reset c hr.inTree, child?_root_reset] at hk
    cases hk

theorem counted_reset : Counted c.reset [] where
  inTree h hh := by cases hh
  count n hn hr := by
    rw [root_reset] at hr
    exact absurd (inTree_reset c hn) hr

theorem held_reset {es : List (Atom × ℤ)} : Held c.reset ns es → es = [] := by
  rintro (rfl | ⟨n, full, hr, -, hread, -, -⟩)
  · rfl
  · rw [root_reset] at hr
    exact absurd (inTree_reset c hread.inTree) hr

end reset

/-! ## Totals of a run of evictions -/

namespace Evictions

variable {F} {c c' : RadixCache H} {removed : List ℕ} (e : Evictions F c c' removed)

include e

theorem config : c'.config = c.config := by
  induction e with
  | nil => rfl
  | cons _ d r _ _ _ ih => rw [ih, r.config, d.config]

theorem node (n : ℕ) : c'.node n = c.node n := by
  induction e with
  | nil => rfl
  | cons _ d r _ _ _ ih => rw [ih, r.node, d.node]

/-- **Exactly the removed nodes are gone.** -/
theorem inTree_iff {n : ℕ} : InTree c'.tree n ↔ InTree c.tree n ∧ n ∉ removed := by
  induction e with
  | nil => simp
  | cons _ d r _ _ _ ih =>
    rw [ih, r.tree, d.inTree_iff, mem_cons, not_or, and_assoc]

theorem unlocked {x : ℕ} (hx : x ∈ removed) :
    InTree c.tree x ∧ x ≠ c.tree.root ∧ (c.node x).lock_ref = 0 := by
  induction e with
  | nil => cases hx
  | cons hleaf d r _ _ _ ih =>
    rcases mem_cons.mp hx with rfl | hx
    · exact ⟨hleaf.inTree, hleaf.ne_root, hleaf.unlocked⟩
    · obtain ⟨hin, hr, hu⟩ := ih hx
      rw [r.tree, d.root] at hr
      rw [r.node, d.node] at hu
      rw [r.tree] at hin
      exact ⟨(d.inTree_iff.mp hin).1, hr, hu⟩

theorem nodup : removed.Nodup := by
  induction e with
  | nil => exact nodup_nil
  | cons _ d r _ _ e' ih =>
    refine nodup_cons.mpr ⟨?_, ih⟩
    intro hmem
    have := (e'.unlocked hmem).1
    rw [r.tree] at this
    exact (d.inTree_iff.mp this).2 rfl

end Evictions

end LightningH3.Radix
