/-
`HashTree::evict_lru`, and the invariant of the hash tree over every sequence of calls.

What one eviction takes out is `Collapses`: the victim, then each ancestor that held nothing but the
node below it. `prune_loop_collapses` shows that the loop of `prune_cascade` takes out exactly that,
and `evict_leaf_spec` adds the books. `evict_loop_spec` is the run of evictions: each turn finds the
oldest leaf of all shards, and the count it keeps is the number of nodes.

The two main results are at the end, for the tree after any calls: `hash_tree_kept`.
-/
import LightningH3.KvHashTreeOccupancy
import Mathlib.Algebra.BigOperators.Fin

set_option autoImplicit false

namespace LightningH3.KvIndex

open List OrderedDict

/-! ## 1. The least candidate -/

section Least

variable {κ : Type} [LinearOrder κ]

theorem keep_least_some (oldest : Option κ) (cand : κ) :
    ∃ m, keep_least oldest cand = some m ∧ (oldest = some m ∨ m = cand) ∧ m ≤ cand ∧
      ∀ a, oldest = some a → m ≤ a := by
  cases oldest with
  | none => exact ⟨cand, rfl, Or.inr rfl, le_refl _, fun a ha => by cases ha⟩
  | some cur =>
    by_cases hlt : cand < cur
    · refine ⟨cand, if_pos hlt, Or.inr rfl, le_refl _, ?_⟩
      intro a ha
      cases ha
      exact le_of_lt hlt
    · refine ⟨cur, if_neg hlt, Or.inl rfl, not_lt.mp hlt, ?_⟩
      intro a ha
      cases ha
      exact le_refl _

theorem foldl_keep_least (l : List κ) (acc : Option κ) : (∀ m, l.foldl keep_least acc = some m →
      (acc = some m ∨ m ∈ l) ∧ (∀ a, acc = some a → m ≤ a) ∧ ∀ x ∈ l, m ≤ x) ∧
    (l.foldl keep_least acc = none → acc = none ∧ l = []) := by
  induction l generalizing acc with
  | nil =>
    refine ⟨?_, fun h => ⟨h, rfl⟩⟩
    intro m hm
    refine ⟨Or.inl hm, ?_, fun x hx => absurd hx not_mem_nil⟩
    intro a ha
    rw [ha] at hm
    rw [Option.some.inj hm]
  | cons c l ih =>
    rw [foldl_cons]
    obtain ⟨k, hk, hfrom, hle, hacc⟩ := keep_least_some acc c
    obtain ⟨hsome, hnone⟩ := ih (keep_least acc c)
    constructor
    · intro m hm
      obtain ⟨hwhere, hbelow, hrest⟩ := hsome m hm
      have hmk : m ≤ k := hbelow k hk
      refine ⟨?_, fun a ha => le_trans hmk (hacc a ha), ?_⟩
      · rcases hwhere with hw | hw
        · rw [hk] at hw
          cases hw
          rcases hfrom with h | h
          · exact Or.inl h
          · exact Or.inr (h ▸ mem_cons_self)
        · exact Or.inr (mem_cons_of_mem _ hw)
      · intro x hx
        rcases mem_cons.mp hx with rfl | hx
        · exact le_trans hmk hle
        · exact hrest x hx
    · intro hn
      rw [hk] at hnone
      rw [hk] at hn
      exact absurd (hnone hn).1 (Option.some_ne_none k)

end Least

/-! ## 2. Leaves and reachable nodes -/

/-- A leaf: the root does not count as one. -/
def IsLeaf (st : TreeState) (id : NodeId) : Prop :=
  id ≠ ROOT_ID ∧ ∃ n, st.nodes.get? id = some n ∧ n.children.items = []

/-- What the child pointers lead to from the root. -/
inductive Reachable (st : TreeState) : NodeId → Prop where
  | root : Reachable st ROOT_ID
  | child {id c : NodeId} {n : Node} {h : BlockHash} (hid : Reachable st id)
      (hn : st.nodes.get? id = some n) (hc : n.children.get? h = some c) : Reachable st c

namespace Linked

variable {below : Option BlockHash → BlockHash → Prop} {st : TreeState}

/-- **Every node is reachable from the root.** Parents are older, so the induction is on the id. -/
theorem reachable (hl : Linked below st) : ∀ (id : NodeId) (n : Node),
    st.nodes.get? id = some n → Reachable st id := by
  intro id
  induction id using Nat.strongRecOn with
  | ind id ih =>
    intro n hn
    by_cases hid : id = ROOT_ID
    · rw [hid]
      exact Reachable.root
    · obtain ⟨p, np, -, hlt, hp, hc, -⟩ := hl.up id n hid hn
      exact Reachable.child (ih p hlt np hp) hp hc

/-- **A shard with a node has a leaf.** Children are younger, so the descent ends. -/
theorem exists_leaf (hl : Linked below st) (left : ℕ) (id : NodeId) (n : Node) :
    id ≠ ROOT_ID → st.nodes.get? id = some n → st.next_id ≤ id + left → ∃ leaf, IsLeaf st leaf := by
  induction left generalizing id n with
  | zero =>
    intro _ hn hleft
    exact absurd (hl.fresh id n hn) (Nat.not_lt.mpr hleft)
  | succ left ih =>
    intro hid hn hleft
    by_cases hnone : ∀ h, n.children.get? h = none
    · exact ⟨id, hid, n, hn, items_nil_of_get? hnone⟩
    · obtain ⟨h, hh⟩ := not_forall.mp hnone
      obtain ⟨c, hc⟩ := Option.ne_none_iff_exists'.mp hh
      obtain ⟨hcroot, nc, hnc, -, hparent⟩ := hl.down id n h c hn hc
      obtain ⟨p, -, hp, hlt, -⟩ := hl.up c nc hcroot hnc
      rw [hparent] at hp
      cases hp
      apply ih c nc hcroot hnc
      have hnext : id + (left + 1) ≤ c + left := Nat.add_lt_add_right hlt left
      exact Nat.le_trans hleft hnext

end Linked

/-! ## 3. What one eviction takes out -/

/-- The nodes that go with `x`: `x`, and its parent too where the parent is not the root, has no
carrier and no other child; and so on upward. -/
inductive Collapses (st : TreeState) : NodeId → List NodeId → Prop where
  | last {x p : NodeId} {n : Node} (hn : st.nodes.get? x = some n) (hp : n.parent = some p)
      (hstop : p = ROOT_ID ∨ ∃ np, st.nodes.get? p = some np ∧
        (np.workers.items ≠ [] ∨ ∃ h c, np.children.get? h = some c ∧ c ≠ x)) : Collapses st x [x]
  | up {x p : NodeId} {n np : Node} {gone : List NodeId} (hn : st.nodes.get? x = some n)
      (hp : n.parent = some p) (hroot : p ≠ ROOT_ID) (hnp : st.nodes.get? p = some np)
      (hempty : np.workers.items = []) (honly : ∀ h c, np.children.get? h = some c → c = x)
      (hrest : Collapses st p gone) : Collapses st x (x :: gone)

/-- `st'` is `st` without these nodes and the child pointers to them. -/
structure Without (st st' : TreeState) (gone : List NodeId) : Prop where
  away : ∀ j ∈ gone, st'.nodes.get? j = none
  kept : ∀ j n, j ∉ gone → st.nodes.get? j = some n → ∃ n', st'.nodes.get? j = some n' ∧
    n'.block_hash = n.block_hash ∧ n'.parent_block_hash = n.parent_block_hash ∧
    n'.parent = n.parent ∧ n'.workers = n.workers ∧
    ∀ h c, n'.children.get? h = some c ↔ n.children.get? h = some c ∧ c ∉ gone
  old : ∀ j n', st'.nodes.get? j = some n' → ∃ n, st.nodes.get? j = some n

variable {st : TreeState} {x : NodeId}

theorem Without.cons {st₁ st₂ : TreeState} {gone : List NodeId} (h : Without st st₁ [x])
    (h' : Without st₁ st₂ gone) : Without st st₂ (x :: gone) := by
  constructor
  · intro j hj
    rcases mem_cons.mp hj with rfl | hj
    · cases hget : st₂.nodes.get? j with
      | none => rfl
      | some n' =>
        obtain ⟨n₁, hn₁⟩ := h'.old j n' hget
        rw [h.away j (mem_singleton_self j)] at hn₁
        cases hn₁
    · exact h'.away j hj
  · intro j n hj hn
    rw [mem_cons, not_or] at hj
    obtain ⟨n₁, hn₁, hhash₁, hcrumb₁, hparent₁, hworkers₁, hchildren₁⟩ :=
      h.kept j n (by rw [mem_singleton]; exact hj.1) hn
    obtain ⟨n₂, hn₂, hhash₂, hcrumb₂, hparent₂, hworkers₂, hchildren₂⟩ := h'.kept j n₁ hj.2 hn₁
    refine ⟨n₂, hn₂, hhash₂.trans hhash₁, hcrumb₂.trans hcrumb₁, hparent₂.trans hparent₁,
      hworkers₂.trans hworkers₁, ?_⟩
    intro k c
    rw [hchildren₂, hchildren₁, mem_singleton, mem_cons, not_or, and_assoc]
  · intro j n' hn'
    obtain ⟨n₁, hn₁⟩ := h'.old j n' hn'
    exact h.old j n₁ hn₁

variable {below : Option BlockHash → BlockHash → Prop} {n : Node}

theorem Dropped.without {st' : TreeState} (hl : Linked below st) {p : NodeId} {np : Node}
    (hx : x ≠ ROOT_ID) (hn : st.nodes.get? x = some n) (hparent : n.parent = some p)
    (hp : st.nodes.get? p = some np) (hd : Dropped st st' x p np n.block_hash) :
    Without st st' [x] := by
  obtain ⟨q, nq, hq, -, hnq, hslot, -⟩ := hl.up x n hx hn
  rw [hparent] at hq
  cases hq
  rw [hp] at hnq
  cases hnq
  constructor
  · intro j hj
    rw [mem_singleton.mp hj, hd.nodes, if_pos rfl]
  · intro j m hj hm
    rw [mem_singleton] at hj
    by_cases hjp : j = p
    · subst hjp
      rw [hp] at hm
      cases hm
      refine ⟨{ np with children := np.children.erase n.block_hash }, ?_, rfl, rfl, rfl, rfl, ?_⟩
      · rw [hd.nodes, if_neg hj, if_pos rfl]
      · intro h c
        rw [get?_erase, mem_singleton]
        by_cases hh : h = n.block_hash
        · subst hh
          rw [if_pos rfl, hslot]
          constructor
          · intro hbad
            cases hbad
          · rintro ⟨hc, hne⟩
            exact absurd (Option.some.inj hc).symm hne
        · rw [if_neg hh]
          refine ⟨fun hc => ⟨hc, ?_⟩, And.left⟩
          rintro rfl
          obtain ⟨-, nc, hnc, hhash, -⟩ := hl.down j np h c hp hc
          rw [hn] at hnc
          cases hnc
          exact hh hhash.symm
    · refine ⟨m, ?_, rfl, rfl, rfl, rfl, ?_⟩
      · rw [hd.nodes, if_neg hj, if_neg hjp, hm]
      · intro h c
        rw [mem_singleton]
        refine ⟨fun hc => ⟨hc, ?_⟩, And.left⟩
        rintro rfl
        obtain ⟨-, nc, hnc, -, hpc⟩ := hl.down j m h c hm hc
        rw [hn] at hnc
        cases hnc
        rw [hparent] at hpc
        exact hjp (Option.some.inj hpc).symm
  · intro j n' hn'
    rw [hd.nodes] at hn'
    split at hn'
    · cases hn'
    · split at hn'
      · next hjp => exact ⟨np, by rw [hjp]; exact hp⟩
      · exact ⟨n', hn'⟩

theorem Collapses.transfer {st₁ : TreeState} (hl : Linked below st₁) {gone : List NodeId}
    (h : Collapses st₁ x gone) : x ≠ ROOT_ID → (∀ n₁, st₁.nodes.get? x = some n₁ →
      ∃ n, st.nodes.get? x = some n ∧ n.parent = n₁.parent) →
    (∀ j, j < x → st.nodes.get? j = st₁.nodes.get? j) → Collapses st x gone := by
  induction h with
  | @last x p n₁ hn₁ hp hstop =>
    intro hx hsame hbelow
    obtain ⟨n, hn, hparent⟩ := hsame n₁ hn₁
    obtain ⟨q, -, hq, hlt, -⟩ := hl.up x n₁ hx hn₁
    rw [hp] at hq
    cases hq
    refine Collapses.last hn (hparent.trans hp) ?_
    rw [hbelow p hlt]
    exact hstop
  | @up x p n₁ np gone hn₁ hp hroot hnp hempty honly _ ih =>
    intro hx hsame hbelow
    obtain ⟨n, hn, hparent⟩ := hsame n₁ hn₁
    obtain ⟨q, -, hq, hlt, -⟩ := hl.up x n₁ hx hn₁
    rw [hp] at hq
    cases hq
    refine Collapses.up hn (hparent.trans hp) hroot ((hbelow p hlt).trans hnp) hempty honly ?_
    apply ih hroot
    · intro m hm
      exact ⟨m, (hbelow p hlt).trans hm, rfl⟩
    · intro j hj
      exact hbelow j (Nat.lt_trans hj hlt)

theorem size_detach {cursor p : NodeId} (h : BlockHash) (hn : st.nodes.get? cursor = some n) :
    (st.detach cursor p h).nodes.size + 1 = st.nodes.size := by
  have herase : ∀ d : OrderedDict NodeId Node, (∃ m, d.get? cursor = some m) →
      (d.erase cursor).size + 1 = d.size := by
    rintro d ⟨m, hm⟩
    have hlen := (items_perm_cons_erase hm).length_eq
    unfold OrderedDict.size
    rw [hlen, length_cons]
  unfold TreeState.detach
  cases hp : st.nodes.get? p with
  | none => exact herase st.nodes ⟨n, hn⟩
  | some np =>
    have hset := (items_set_perm_of_get?
      (w := { np with children := np.children.erase h }) hp).length_eq
    have hold := (items_perm_cons_erase hp).length_eq
    have hsize : (st.nodes.set p { np with children := np.children.erase h }).size
        = st.nodes.size := by
      unfold OrderedDict.size
      rw [hset, hold, length_cons, length_cons]
    rw [← hsize]
    apply herase
    rw [get?_set]
    by_cases hcp : cursor = p
    · exact ⟨{ np with children := np.children.erase h }, if_pos hcp⟩
    · exact ⟨n, by rw [if_neg hcp, hn]⟩

/-- **The loop of `prune_cascade` takes out what collapses, and nothing else.** The induction is on
the turns it has; a turn that goes on leaves its parent spent. -/
theorem prune_loop_collapses (fuel : ℕ) (st : TreeState) (x : NodeId) (n : Node) : Linked below st →
      st.nodes.size ≤ fuel → x ≠ ROOT_ID → st.nodes.get? x = some n → n.is_spent = true →
      ∃ gone, Collapses st x gone ∧ Without st (TreeState.prune_loop fuel st x) gone ∧
        st.nodes.size = (TreeState.prune_loop fuel st x).nodes.size + gone.length := by
  induction fuel generalizing st x n with
  | zero =>
    intro _ hsize _ hn _
    have hnil : st.nodes.items = [] := eq_nil_of_length_eq_zero (Nat.le_zero.mp hsize)
    exact absurd hnil (items_ne_nil_of_get? hn)
  | succ fuel ih =>
    intro hl hsize hx hn hspent
    obtain ⟨p, np, hparent, hlt, hp, hslot, -⟩ := hl.up x n hx hn
    have hleaf : ∀ k, n.children.get? k = none := get?_of_items_nil (is_spent_iff.mp hspent).2
    have hd : Dropped st (st.detach x p n.block_hash) x p np n.block_hash := detach_dropped hp
    have hl' : Linked below (st.detach x p n.block_hash) :=
      hl.dropped hx hn hleaf hparent hp hd
    have hw : Without st (st.detach x p n.block_hash) [x] := hd.without hl hx hn hparent hp
    have hone := size_detach (p := p) n.block_hash hn
    have hpx : p ≠ x := Nat.ne_of_lt hlt
    have hp' : (st.detach x p n.block_hash).nodes.get? p
        = some { np with children := np.children.erase n.block_hash } := by
      rw [hd.nodes, if_neg hpx, if_pos rfl]
    unfold TreeState.prune_loop
    rw [if_neg hx, hn]
    dsimp only
    rw [hparent]
    dsimp only
    rw [if_pos hspent, hp', Option.any_some]
    by_cases hgo : (decide (p ≠ ROOT_ID) &&
        ({ np with children := np.children.erase n.block_hash } : Node).is_spent) = true
    · -- the parent goes too
      rw [if_pos hgo]
      rw [Bool.and_eq_true, decide_eq_true_iff] at hgo
      obtain ⟨hproot, hpspent⟩ := hgo
      have hfuel : (st.detach x p n.block_hash).nodes.size ≤ fuel := by omega
      obtain ⟨gone, hcollapse, hwithout, hcount⟩ := ih _ p _ hl' hfuel hproot hp' hpspent
      obtain ⟨hpworkers, hpchildren⟩ := is_spent_iff.mp hpspent
      refine ⟨x :: gone, ?_, hw.cons hwithout, ?_⟩
      · refine Collapses.up hn hparent hproot hp hpworkers ?_ ?_
        · intro h c hc
          have hnone := get?_of_items_nil hpchildren h
          rw [get?_erase] at hnone
          by_cases hh : h = n.block_hash
          · rw [hh, hslot] at hc
            exact (Option.some.inj hc).symm
          · rw [if_neg hh, hc] at hnone
            cases hnone
        · apply hcollapse.transfer hl' hproot
          · intro n₁ hn₁
            rw [hp'] at hn₁
            cases hn₁
            exact ⟨np, hp, rfl⟩
          · intro j hj
            rw [hd.nodes, if_neg (Nat.ne_of_lt (Nat.lt_trans hj hlt)), if_neg (Nat.ne_of_lt hj)]
      · rw [length_cons]
        omega
    · -- the parent stays: it is the root, or held, or has another child
      rw [if_neg hgo]
      refine ⟨[x], ?_, hw, by rw [length_singleton]; omega⟩
      refine Collapses.last hn hparent ?_
      by_cases hproot : p = ROOT_ID
      · exact Or.inl hproot
      · refine Or.inr ⟨np, hp, ?_⟩
        by_contra hnone
        rw [not_or] at hnone
        obtain ⟨hworkers, hchildren⟩ := hnone
        apply hgo
        rw [Bool.and_eq_true, decide_eq_true_iff]
        refine ⟨hproot, is_spent_iff.mpr ⟨not_not.mp hworkers, ?_⟩⟩
        apply items_nil_of_get?
        intro h
        rw [get?_erase]
        by_cases hh : h = n.block_hash
        · exact if_pos hh
        · rw [if_neg hh]
          cases hc : np.children.get? h with
          | none => rfl
          | some c =>
            exfalso
            apply hchildren
            refine ⟨h, c, hc, ?_⟩
            rintro rfl
            obtain ⟨-, nc, hnc, hhash, -⟩ := hl.down p np h c hp hc
            rw [hn] at hnc
            cases hnc
            exact hh hhash.symm

theorem prune_cascade_collapses (hl : Linked below st) (hx : x ≠ ROOT_ID)
    (hn : st.nodes.get? x = some n) (hspent : n.is_spent = true) :
    ∃ gone, Collapses st x gone ∧ Without st (st.prune_cascade x) gone ∧
      st.nodes.size = (st.prune_cascade x).nodes.size + gone.length :=
  prune_loop_collapses _ st x n hl (Nat.le_refl _) hx hn hspent

/-! ## 4. One eviction -/

/-- A shard whose arena is well formed and whose books are right. -/
structure Good (ok : BlockHash → Prop) (sh : Shard) : Prop where
  sound : Sound ok (fun _ => False) sh.tree
  booked : Booked sh (recount sh.tree)

theorem last_used_account_remove (sh : Shard) (worker : KvWorkerId) (removed : Tiers) :
    (sh.account_remove worker removed).last_used = sh.last_used := by
  unfold Shard.account_remove Shard.account_remove_counts
  split
  · rfl
  · split
    · rfl
    · rfl

/-- What `evict_leaf` does with the drained carriers. -/
def release_all (sh : Shard) (carriers : List (KvWorkerId × Tiers)) : Shard :=
  carriers.foldl (fun acc c => acc.account_remove c.1 c.2) sh

theorem release_all_frame (carriers : List (KvWorkerId × Tiers)) (sh : Shard) :
    (release_all sh carriers).tree = sh.tree ∧
      (release_all sh carriers).last_used = sh.last_used := by
  induction carriers generalizing sh with
  | nil => exact ⟨rfl, rfl⟩
  | cons c carriers ih =>
    obtain ⟨htree, hused⟩ := ih (sh.account_remove c.1 c.2)
    exact ⟨htree.trans (Shard.tree_account_remove _ _ _),
      hused.trans (last_used_account_remove _ _ _)⟩

theorem Booked.release_all (carriers : List (KvWorkerId × Tiers)) {sh : Shard}
    {counts counts' : KvWorkerId → TierCounts} : (carriers.map Prod.fst).Nodup → Booked sh counts →
    (∀ c ∈ carriers, ∀ slot, counts c.1 slot = counts' c.1 slot + count_of c.2 slot) →
    (∀ w, w ∉ carriers.map Prod.fst → ∀ slot, counts w slot = counts' w slot) →
    Booked (release_all sh carriers) counts' := by
  induction carriers generalizing sh counts counts' with
  | nil =>
    intro _ h _ hrest
    apply h.congr
    intro w slot
    exact (hrest w not_mem_nil slot).symm
  | cons c carriers ih =>
    intro hnodup h hheld hrest
    rw [map_cons, nodup_cons] at hnodup
    have hle : ∀ slot, count_of c.2 slot ≤ counts c.1 slot := by
      intro slot
      have hc := hheld c mem_cons_self slot
      omega
    refine ih hnodup.2 (h.account_remove c.1 hle) ?_ ?_
    · intro d hd slot
      have hne : d.1 ≠ c.1 := by
        intro heq
        apply hnodup.1
        rw [← heq]
        exact mem_map_of_mem hd
      unfold counts_at
      rw [if_neg hne]
      exact hheld d (mem_cons_of_mem _ hd) slot
    · intro w hw slot
      unfold counts_at
      by_cases hwc : w = c.1
      · rw [if_pos hwc, hwc]
        have hc := hheld c mem_cons_self slot
        omega
      · rw [if_neg hwc]
        apply hrest
        rw [map_cons, mem_cons, not_or]
        exact ⟨hwc, hw⟩

variable {ok : BlockHash → Prop} {sh : Shard}

/-- **`evict_leaf` takes out what collapses with the leaf**, says how many nodes that was, and
leaves the shard well formed with its books right. -/
theorem evict_leaf_spec (h : Good ok sh) {victim : NodeId} (hleaf : IsLeaf sh.tree victim) :
    ∃ gone, Collapses sh.tree victim gone ∧ Without sh.tree (sh.evict_leaf victim).1.tree gone ∧
      (sh.evict_leaf victim).2 = gone.length ∧
      sh.tree.nodes.size = (sh.evict_leaf victim).1.tree.nodes.size + gone.length ∧
      (sh.evict_leaf victim).1.last_used = sh.last_used ∧ Good ok (sh.evict_leaf victim).1 := by
  obtain ⟨hroot, n, hn, hchildren⟩ := hleaf
  have hempty : n.children.items.isEmpty = true := List.isEmpty_iff.mpr hchildren
  -- the drained node is spent
  have hspent : ({ n with workers := .empty } : Node).is_spent = true :=
    is_spent_iff.mpr ⟨rfl, hchildren⟩
  have hget := sh.tree.get?_put victim { n with workers := .empty }
  have hvictim := (hget victim).trans (if_pos rfl)
  have hsound : Sound ok (fun j => False ∨ j = victim)
      (sh.tree.put victim { n with workers := .empty }) := by
    apply h.sound.put hroot hn filled_empty
    · intro j hj
      exact hj.elim
    · intro _
      exact Or.inr rfl
  obtain ⟨gone, hcollapse, hwithout, hcount⟩ :=
    prune_cascade_collapses hsound.linked hroot hvictim hspent
  have hsize : (sh.tree.put victim { n with workers := .empty }).nodes.size
      = sh.tree.nodes.size := by
    have hset := (items_set_perm_of_get? (w := { n with workers := .empty }) hn).length_eq
    have hold := (items_perm_cons_erase hn).length_eq
    unfold TreeState.put OrderedDict.size
    rw [hset, hold, length_cons, length_cons]
  have hmem : victim ∈ gone := by
    cases hcollapse with
    | last => exact mem_cons_self
    | up => exact mem_cons_self
  -- what `evict_leaf` comes to
  obtain ⟨htree, hused⟩ := release_all_frame n.workers.items
    { sh with tree := sh.tree.put victim { n with workers := .empty } }
  have hbooked : Booked (release_all
      { sh with tree := sh.tree.put victim { n with workers := .empty } } n.workers.items)
      (recount (sh.tree.put victim { n with workers := .empty })) := by
    have hwith : Booked { sh with tree := sh.tree.put victim { n with workers := .empty } }
        (recount sh.tree) := h.booked.with_tree rfl rfl rfl
    have hnone : ∀ w slot, count_of (({ n with workers := .empty } : Node).tiers_of w) slot = 0 :=
      fun w slot => count_of_spent w slot rfl
    refine Booked.release_all _ n.workers.nodup hwith ?_ ?_
    · intro c hc slot
      have hput := recount_put c.1 slot hn { n with workers := .empty }
      have hheld : n.tiers_of c.1 = c.2 := by
        unfold Node.tiers_of
        rw [get?_eq_some_iff.mpr hc]
        rfl
      rw [hnone, hheld] at hput
      omega
    · intro w hw slot
      have hput := recount_put w slot hn { n with workers := .empty }
      have hheld : n.tiers_of w = Tiers.none_held := by
        unfold Node.tiers_of
        rw [get?_eq_none_iff.mpr hw]
        rfl
      rw [hnone, hheld, count_of_none] at hput
      omega
  generalize hdrained : release_all
      { sh with tree := sh.tree.put victim { n with workers := .empty } } n.workers.items = drained
    at htree hused hbooked
  have heq : sh.evict_leaf victim =
      ({ drained with tree := drained.tree.prune_cascade victim },
        sh.tree.nodes.size - (drained.tree.prune_cascade victim).nodes.size) := by
    unfold Shard.evict_leaf
    rw [hn]
    dsimp only
    rw [if_pos hempty, ← hdrained]
    rfl
  rw [htree] at heq
  rw [heq]
  dsimp only
  rw [hsize] at hcount
  refine ⟨gone, ?_, ?_, ?_, hcount, hused, ?_, ?_⟩
  · apply hcollapse.transfer hsound.linked hroot
    · intro n₁ hn₁
      rw [hvictim] at hn₁
      cases hn₁
      exact ⟨n, hn, rfl⟩
    · intro j hj
      rw [hget, if_neg (Nat.ne_of_lt hj)]
  · refine ⟨hwithout.away, ?_, ?_⟩
    · intro j m hj hm
      apply hwithout.kept j m hj
      rw [hget, if_neg, hm]
      rintro rfl
      exact hj hmem
    · intro j n' hn'
      obtain ⟨m, hm⟩ := hwithout.old j n' hn'
      rw [hget] at hm
      split at hm
      · next hj => exact ⟨n, by rw [hj]; exact hn⟩
      · exact ⟨m, hm⟩
  · omega
  · exact hsound.prune_cascade
  · have hpruned : Booked { drained with
        tree := (sh.tree.put victim { n with workers := .empty }).prune_cascade victim }
        (recount (sh.tree.put victim { n with workers := .empty })) :=
      hbooked.with_tree rfl rfl rfl
    apply hpruned.congr
    intro w slot
    exact recount_prune_cascade w slot _ victim

/-! ## 5. The oldest leaf of all shards -/

/-- Every shard is well formed with its books right, and its chains are its own. -/
def TreeGood (t : ShardedTree) : Prop :=
  ∀ s, Good (fun h => shard_of h = s) (t.shards s)

theorem ShardedTree.shards_put (t : ShardedTree) (idx i : Fin N_SHARDS) (sh : Shard) :
    (t.put idx sh).shards i = if i = idx then sh else t.shards i := rfl

variable {t : ShardedTree}

theorem TreeGood.put (h : TreeGood t) {idx : Fin N_SHARDS}
    (hsh : Good (fun h => shard_of h = idx) sh) : TreeGood (t.put idx sh) := by
  intro s
  rw [ShardedTree.shards_put]
  by_cases hs : s = idx
  · rw [if_pos hs, hs]
    exact hsh
  · rw [if_neg hs]
    exact h s

/-- Where a node stands in the order of eviction: its last use, its id, its shard. -/
def age (t : ShardedTree) (idx : Fin N_SHARDS) (id : NodeId) : ℕ ×ₗ NodeId ×ₗ Fin N_SHARDS :=
  toLex ((t.shards idx).last_used id, toLex (id, idx))

/-- The leaf of least age. -/
structure OldestLeaf (t : ShardedTree) (idx : Fin N_SHARDS) (victim : NodeId) : Prop where
  leaf : IsLeaf (t.shards idx).tree victim
  least : ∀ i id, IsLeaf (t.shards i).tree id → age t idx victim ≤ age t i id

theorem mem_lru_candidates {key : ℕ ×ₗ NodeId} : key ∈ (sh.tree.nodes.items.filter fun e =>
        decide (e.1 ≠ ROOT_ID) && e.2.children.items.isEmpty).map
          (fun e => toLex (sh.last_used e.1, e.1)) ↔
      ∃ id, IsLeaf sh.tree id ∧ key = toLex (sh.last_used id, id) := by
  rw [mem_map]
  constructor
  · rintro ⟨⟨id, n⟩, hmem, rfl⟩
    obtain ⟨hmem, hleaf⟩ := mem_filter.mp hmem
    rw [Bool.and_eq_true, decide_eq_true_iff, List.isEmpty_iff] at hleaf
    exact ⟨id, ⟨hleaf.1, n, get?_eq_some_iff.mpr hmem, hleaf.2⟩, rfl⟩
  · rintro ⟨id, ⟨hroot, n, hn, hchildren⟩, rfl⟩
    refine ⟨(id, n), mem_filter.mpr ⟨get?_eq_some_iff.mp hn, ?_⟩, rfl⟩
    rw [Bool.and_eq_true, decide_eq_true_iff, List.isEmpty_iff]
    exact ⟨hroot, hchildren⟩

theorem lru_leaf_spec (sh : Shard) :
    (∀ key, sh.lru_leaf = some key → ∃ id, IsLeaf sh.tree id ∧ key = toLex (sh.last_used id, id) ∧
      ∀ j, IsLeaf sh.tree j → key ≤ toLex (sh.last_used j, j)) ∧
    (sh.lru_leaf = none → ∀ j, ¬ IsLeaf sh.tree j) := by
  obtain ⟨hsome, hnone⟩ := foldl_keep_least
    ((sh.tree.nodes.items.filter fun e =>
      decide (e.1 ≠ ROOT_ID) && e.2.children.items.isEmpty).map
        fun e => toLex (sh.last_used e.1, e.1)) none
  constructor
  · intro key hkey
    obtain ⟨hfrom, -, hleast⟩ := hsome key hkey
    rcases hfrom with hbad | hmem
    · cases hbad
    · obtain ⟨id, hleaf, rfl⟩ := mem_lru_candidates.mp hmem
      exact ⟨id, hleaf, rfl, fun j hj => hleast _ (mem_lru_candidates.mpr ⟨j, hj, rfl⟩)⟩
  · intro hn j hj
    have hnil := (hnone hn).2
    have hmem := mem_lru_candidates.mpr ⟨j, hj, rfl⟩
    rw [hnil] at hmem
    exact absurd hmem not_mem_nil

/-- **`oldest_leaf` finds the oldest leaf**, wherever there is a leaf. -/
theorem oldest_leaf_spec (t : ShardedTree) (hsome : ∃ i id, IsLeaf (t.shards i).tree id) :
    ∃ idx victim, t.oldest_leaf = some (age t idx victim) ∧ OldestLeaf t idx victim := by
  have hmem : ∀ key, key ∈ (HashTree.indices.filterMap fun idx =>
      (t.shards idx).lru_leaf.map fun leaf =>
        toLex ((ofLex leaf).1, toLex ((ofLex leaf).2, idx))) ↔
      ∃ idx leaf, (t.shards idx).lru_leaf = some leaf ∧
        key = toLex ((ofLex leaf).1, toLex ((ofLex leaf).2, idx)) := by
    intro key
    rw [mem_filterMap]
    constructor
    · rintro ⟨idx, -, hkey⟩
      obtain ⟨leaf, hleaf, rfl⟩ := Option.map_eq_some_iff.mp hkey
      exact ⟨idx, leaf, hleaf, rfl⟩
    · rintro ⟨idx, leaf, hleaf, rfl⟩
      exact ⟨idx, mem_finRange idx, Option.map_eq_some_iff.mpr ⟨leaf, hleaf, rfl⟩⟩
  obtain ⟨hfound, hmissed⟩ := foldl_keep_least (HashTree.indices.filterMap fun idx =>
    (t.shards idx).lru_leaf.map fun leaf =>
      toLex ((ofLex leaf).1, toLex ((ofLex leaf).2, idx))) none
  -- the oldest of its own shard stands for a leaf
  have hown : ∀ i id, IsLeaf (t.shards i).tree id → ∃ j leaf, (t.shards i).lru_leaf = some leaf ∧
      leaf = toLex ((t.shards i).last_used j, j) ∧ age t i j ≤ age t i id := by
    intro i id hid
    obtain ⟨hs, hn⟩ := lru_leaf_spec (t.shards i)
    cases hl : (t.shards i).lru_leaf with
    | none => exact absurd hid (hn hl id)
    | some leaf =>
      obtain ⟨j, -, rfl, hleast⟩ := hs leaf hl
      refine ⟨j, _, rfl, rfl, ?_⟩
      have hle := hleast id hid
      rcases Prod.Lex.toLex_le_toLex.mp hle with hlt | ⟨heq, hjid⟩
      · exact Prod.Lex.toLex_le_toLex.mpr (Or.inl hlt)
      · refine Prod.Lex.toLex_le_toLex.mpr (Or.inr ⟨heq, ?_⟩)
        rcases Nat.lt_or_eq_of_le hjid with hlt | hsame
        · exact Prod.Lex.toLex_le_toLex.mpr (Or.inl hlt)
        · exact Prod.Lex.toLex_le_toLex.mpr (Or.inr ⟨hsame, le_refl _⟩)
  unfold ShardedTree.oldest_leaf
  cases hfold : (HashTree.indices.filterMap fun idx => (t.shards idx).lru_leaf.map fun leaf =>
      toLex ((ofLex leaf).1, toLex ((ofLex leaf).2, idx))).foldl keep_least none with
  | none =>
    obtain ⟨i, id, hid⟩ := hsome
    obtain ⟨j, leaf, hl, -, -⟩ := hown i id hid
    have hin := (hmem _).mpr ⟨i, leaf, hl, rfl⟩
    rw [(hmissed hfold).2] at hin
    exact absurd hin not_mem_nil
  | some key =>
    obtain ⟨hfrom, -, hleast⟩ := hfound key hfold
    rcases hfrom with hbad | hin
    · cases hbad
    · obtain ⟨idx, leaf, hl, rfl⟩ := (hmem key).mp hin
      obtain ⟨victim, hleaf, rfl, -⟩ := (lru_leaf_spec (t.shards idx)).1 leaf hl
      refine ⟨idx, victim, rfl, hleaf, ?_⟩
      intro i id hid
      obtain ⟨j, leaf', hl', rfl, hle⟩ := hown i id hid
      exact le_trans (hleast _ ((hmem _).mpr ⟨i, _, hl', rfl⟩)) hle

/-! ## 6. Counting nodes -/

theorem node_count_eq_sum (t : ShardedTree) :
    t.node_count = ∑ i : Fin N_SHARDS, (t.shards i).node_count := by
  rfl

theorem node_count_put (t : ShardedTree) (idx : Fin N_SHARDS) (sh : Shard) :
    (t.put idx sh).node_count + (t.shards idx).node_count = t.node_count + sh.node_count := by
  rw [node_count_eq_sum, node_count_eq_sum, ← Finset.add_sum_erase _ _ (Finset.mem_univ idx),
    ← Finset.add_sum_erase (a := idx) _ (fun i => (t.shards i).node_count) (Finset.mem_univ idx)]
  have hsame : ∑ i ∈ Finset.univ.erase idx, ((t.put idx sh).shards i).node_count
      = ∑ i ∈ Finset.univ.erase idx, (t.shards i).node_count := by
    apply Finset.sum_congr rfl
    intro i hi
    rw [ShardedTree.shards_put, if_neg (Finset.ne_of_mem_erase hi)]
  rw [ShardedTree.shards_put, if_pos rfl]
  omega

theorem exists_leaf_of_node_count (h : TreeGood t) (hpos : 0 < t.node_count) :
    ∃ i id, IsLeaf (t.shards i).tree id := by
  rw [node_count_eq_sum] at hpos
  obtain ⟨i, -, hi⟩ := Finset.exists_ne_zero_of_sum_ne_zero (Nat.ne_of_gt hpos)
  have hl := (h i).sound.linked
  -- two entries, so one that is not the root
  have hother : ∃ id n, id ≠ ROOT_ID ∧ (t.shards i).tree.nodes.get? id = some n := by
    by_contra hnone
    have hall : ∀ id ∈ (t.shards i).tree.nodes.keys, id = ROOT_ID := by
      intro id hid
      obtain ⟨n, hn⟩ := mem_keys_iff.mp hid
      by_contra hne
      exact hnone ⟨id, n, hne, hn⟩
    have hlen : (t.shards i).tree.nodes.keys.length ≤ 1 := by
      have hnodup := (t.shards i).tree.nodes.keys_nodup
      cases hkeys : (t.shards i).tree.nodes.keys with
      | nil => exact Nat.zero_le 1
      | cons a rest =>
        cases rest with
        | nil => exact Nat.le_refl 1
        | cons b rest =>
          rw [hkeys] at hall hnodup
          have ha := hall a mem_cons_self
          have hb := hall b (mem_cons_of_mem _ mem_cons_self)
          rw [ha, hb] at hnodup
          exact absurd mem_cons_self (nodup_cons.mp hnodup).1
    rw [length_keys] at hlen
    apply hi
    unfold Shard.node_count
    omega
  obtain ⟨id, n, hid, hn⟩ := hother
  obtain ⟨leaf, hleaf⟩ := hl.exists_leaf _ id n hid hn (Nat.le_add_left _ _)
  exact ⟨i, leaf, hleaf⟩

theorem Good.size_pos (h : Good ok sh) : 0 < sh.tree.nodes.size := by
  obtain ⟨r, hr⟩ := h.sound.linked.root
  exact length_pos_of_ne_nil (items_ne_nil_of_get? hr)

/-! ## 7. The run of evictions -/

/-- One turn: the oldest leaf goes with what collapses with it; the other shards stay. -/
structure Evicted (t t' : ShardedTree) (gone : List NodeId) : Prop where
  oldest : ∃ idx victim, OldestLeaf t idx victim ∧ Collapses (t.shards idx).tree victim gone ∧
    Without (t.shards idx).tree (t'.shards idx).tree gone ∧
    (t'.shards idx).last_used = (t.shards idx).last_used ∧
    ∀ i, i ≠ idx → t'.shards i = t.shards i
  count : t.node_count = t'.node_count + gone.length

/-- The turns of `evict_lru`: one after another while there are more than `max_size` nodes. -/
inductive EvictRun (max_size : ℕ) : ShardedTree → List (List NodeId) → ShardedTree → Prop where
  | done {t : ShardedTree} (h : t.node_count ≤ max_size) : EvictRun max_size t [] t
  | turn {t t' t'' : ShardedTree} {gone : List NodeId} {rounds : List (List NodeId)}
      (hmany : max_size < t.node_count) (hone : Evicted t t' gone)
      (hrest : EvictRun max_size t' rounds t'') : EvictRun max_size t (gone :: rounds) t''

variable {max_size : ℕ}

section

variable {t' : ShardedTree} {rounds : List (List NodeId)} (h : EvictRun max_size t rounds t')
include h

theorem EvictRun.node_count_le : t'.node_count ≤ max_size := by
  induction h with
  | done h => exact h
  | turn _ _ _ ih => exact ih

theorem EvictRun.node_count : t.node_count = t'.node_count + rounds.flatten.length := by
  induction h with
  | done h => rw [flatten_nil, length_nil, Nat.add_zero]
  | turn hmany hone hrest ih =>
    rw [hone.count, flatten_cons, length_append]
    omega

end

/-- **The second phase is a run of evictions**, and the count it keeps stays the number of nodes. -/
theorem evict_loop_spec (max_size : ℕ) (iters : ℕ) (acc : ShardedTree.Evicting) :
    TreeGood acc.tree → acc.remaining = acc.tree.node_count → acc.remaining ≤ iters →
    ∃ rounds, EvictRun max_size acc.tree rounds (ShardedTree.evict_loop max_size iters acc).tree ∧
      (ShardedTree.evict_loop max_size iters acc).pruned = acc.pruned + rounds.flatten.length ∧
      TreeGood (ShardedTree.evict_loop max_size iters acc).tree := by
  induction iters generalizing acc with
  | zero =>
    intro hgood hremaining hiters
    refine ⟨[], EvictRun.done ?_, rfl, hgood⟩
    omega
  | succ iters ih =>
    intro hgood hremaining hiters
    by_cases hmany : max_size < acc.remaining
    · have hpos : 0 < acc.tree.node_count := by omega
      obtain ⟨idx, victim, hfound, holdest⟩ :=
        oldest_leaf_spec acc.tree (exists_leaf_of_node_count hgood hpos)
      obtain ⟨gone, hcollapse, hwithout, hdropped, hsize, hused, hgood'⟩ :=
        evict_leaf_spec (hgood idx) holdest.leaf
      have hgone : 0 < gone.length := by
        cases hcollapse with
        | last => exact Nat.one_pos
        | up => exact Nat.succ_pos _
      have hne : ¬ ((acc.tree.shards idx).evict_leaf victim).2 = 0 := by omega
      have hturn : ShardedTree.evict_loop max_size (iters + 1) acc
          = ShardedTree.evict_loop max_size iters
            ⟨acc.tree.put idx ((acc.tree.shards idx).evict_leaf victim).1,
              acc.pruned + ((acc.tree.shards idx).evict_leaf victim).2,
              acc.remaining - ((acc.tree.shards idx).evict_leaf victim).2⟩ := by
        rw [ShardedTree.evict_loop.eq_2, if_pos hmany, hfound]
        exact if_neg hne
      rw [hturn]
      generalize (acc.tree.shards idx).evict_leaf victim = evicted at *
      have hsizes' := hgood'.size_pos
      have hcount : acc.tree.node_count
          = (acc.tree.put idx evicted.1).node_count + gone.length := by
        have hput := node_count_put acc.tree idx evicted.1
        unfold Shard.node_count at hput
        omega
      have hstep : Evicted acc.tree (acc.tree.put idx evicted.1) gone := by
        refine ⟨⟨idx, victim, holdest, hcollapse, ?_, ?_, ?_⟩, hcount⟩
        · rw [ShardedTree.shards_put, if_pos rfl]
          exact hwithout
        · rw [ShardedTree.shards_put, if_pos rfl]
          exact hused
        · intro i hi
          rw [ShardedTree.shards_put, if_neg hi]
      obtain ⟨rounds, hrun, hpruned, hgood''⟩ := ih
        ⟨acc.tree.put idx evicted.1, acc.pruned + evicted.2, acc.remaining - evicted.2⟩
        (hgood.put hgood') (by dsimp only; omega) (by dsimp only; omega)
      refine ⟨gone :: rounds, EvictRun.turn (by omega) hstep hrun, ?_, hgood''⟩
      rw [hpruned, hdropped, flatten_cons, length_append, Nat.add_assoc]
    · have hstop : ShardedTree.evict_loop max_size (iters + 1) acc = acc := by
        rw [ShardedTree.evict_loop.eq_2, if_neg hmany]
      rw [hstop]
      refine ⟨[], EvictRun.done ?_, rfl, hgood⟩
      omega

theorem drop_empty_leaves_eq (h : Good ok sh) : sh.drop_empty_leaves = (sh, 0) := by
  have hnil : (sh.tree.nodes.items.filter fun e =>
      decide (e.1 ≠ ROOT_ID) && e.2.is_spent) = [] := by
    apply filter_eq_nil_iff.mpr
    rintro ⟨id, n⟩ hmem hspent
    rw [Bool.and_eq_true, decide_eq_true_iff] at hspent
    exact h.sound.leaves id n hspent.1 (get?_eq_some_iff.mpr hmem) hspent.2
  unfold Shard.drop_empty_leaves
  rw [hnil]
  exact Prod.ext rfl (Nat.sub_self _)

/-- **The first phase finds nothing to do.** -/
theorem free_empty_leaves_eq (todo : List (Fin N_SHARDS))
    (acc : ShardedTree.Evicting) : TreeGood acc.tree → max_size < acc.remaining →
    ShardedTree.free_empty_leaves max_size todo acc = (acc, false) := by
  induction todo generalizing acc with
  | nil =>
    intro _ _
    rfl
  | cons idx todo ih =>
    intro hgood hmany
    have hput : acc.tree.put idx (acc.tree.shards idx) = acc.tree := by
      unfold ShardedTree.put
      congr 1
      funext i
      split
      · next hi => rw [hi]
      · rfl
    unfold ShardedTree.free_empty_leaves
    rw [drop_empty_leaves_eq (hgood idx)]
    dsimp only
    rw [hput, Nat.sub_zero, if_neg (Nat.not_le.mpr hmany)]
    exact ih acc hgood hmany

/-- **`evict_lru` is a run of evictions** that ends with at most `max_size` nodes; it returns the
number of nodes that went. -/
theorem evict_lru_spec (hgood : TreeGood t) (max_size : ℕ) :
    ∃ rounds, EvictRun max_size t rounds (t.evict_lru max_size).1 ∧
      (t.evict_lru max_size).2 = rounds.flatten.length ∧ TreeGood (t.evict_lru max_size).1 := by
  unfold ShardedTree.evict_lru
  by_cases hfew : t.node_count ≤ max_size
  · rw [if_pos hfew]
    exact ⟨[], EvictRun.done hfew, rfl, hgood⟩
  · have hmany : max_size < t.node_count := Nat.not_le.mp hfew
    have hfree : ShardedTree.free_empty_leaves max_size HashTree.indices ⟨t, 0, t.node_count⟩
        = (⟨t, 0, t.node_count⟩, false) :=
      free_empty_leaves_eq HashTree.indices ⟨t, 0, t.node_count⟩ hgood hmany
    rw [if_neg hfew, hfree]
    rw [if_neg Bool.false_ne_true]
    have hiters : t.node_count ≤ t.node_count + 1 := Nat.le_succ _
    obtain ⟨rounds, hrun, hpruned, hgood'⟩ := evict_loop_spec max_size (t.node_count + 1)
      ⟨t, 0, t.node_count⟩ hgood rfl hiters
    generalize ShardedTree.evict_loop max_size (t.node_count + 1) ⟨t, 0, t.node_count⟩ = evicted
      at hrun hpruned hgood' ⊢
    refine ⟨rounds, hrun, ?_, hgood'⟩
    dsimp only at hpruned ⊢
    rw [hpruned, Nat.zero_add]

/-! ## 8. Every sequence of calls -/

theorem Good.new (ok : BlockHash → Prop) : Good ok Shard.new := by
  refine ⟨Sound.new ok, ?_, rfl, rfl⟩
  intro w
  have hzero : ∀ slot, recount TreeState.new w slot = 0 := by
    intro slot
    have hset := total_set_of_none
      (f := fun n : Node => count_of (n.tiers_of w) slot)
      (get?_empty (ν := Node) ROOT_ID) Node.sentinel
    rw [count_of_spent w slot rfl] at hset
    exact hset
  exact (if_pos hzero).symm

namespace TreeGood

variable {t : ShardedTree}

theorem new : TreeGood ShardedTree.new := fun _ => Good.new _

theorem index (h : TreeGood t) : TreeSound t.index := fun s => (h s).sound

theorem of_index (hsound : TreeSound t.index)
    (hbooked : ∀ s, Booked (t.shards s) (recount (t.shards s).tree)) : TreeGood t :=
  fun s => ⟨hsound s, hbooked s⟩

theorem insert_tiered (h : TreeGood t) (worker : KvWorkerId) (parent_hash : Option BlockHash)
    (hashes : List BlockHash) (tiers : Tiers) (now : ℕ) :
    TreeGood (t.insert_tiered worker parent_hash hashes tiers now) := by
  apply of_index
  · rw [ShardedTree.index_insert_tiered]
    exact h.index.insert_tiered worker parent_hash hashes tiers
  · intro s
    unfold ShardedTree.insert_tiered
    cases hashes with
    | nil => exact (h s).booked
    | cons first rest =>
      dsimp only
      split
      · exact (h s).booked
      · generalize t.index.route_insert worker parent_hash first = routed
        rw [ShardedTree.shards_put]
        by_cases hs : s = routed.1
        · rw [if_pos hs]
          exact (h routed.1).booked.insert (h routed.1).sound.linked.fresh worker routed.2 _ tiers
            now
        · rw [if_neg hs]
          exact (h s).booked

theorem booked_pass {step : ShardedTree → Fin N_SHARDS → ShardedTree}
    (hstep : ∀ (t : ShardedTree) (idx : Fin N_SHARDS),
      (∀ s, Booked (t.shards s) (recount (t.shards s).tree)) →
      ∀ s, Booked ((step t idx).shards s) (recount ((step t idx).shards s).tree))
    (todo : List (Fin N_SHARDS)) (h : ∀ s, Booked (t.shards s) (recount (t.shards s).tree)) :
    ∀ s, Booked ((todo.foldl step t).shards s) (recount ((todo.foldl step t).shards s).tree) :=
  List.foldlRecOn (motive := fun t => ∀ s, Booked (t.shards s) (recount (t.shards s).tree))
    todo step h (fun t h idx _ => hstep t idx h)

theorem booked_put (hbooked : ∀ s, Booked (t.shards s) (recount (t.shards s).tree))
    {idx : Fin N_SHARDS} {sh : Shard} (hsh : Booked sh (recount sh.tree)) :
    ∀ s, Booked ((t.put idx sh).shards s) (recount ((t.put idx sh).shards s).tree) := by
  intro s
  rw [ShardedTree.shards_put]
  split
  · exact hsh
  · exact hbooked s

theorem remove_tiered (h : TreeGood t) (worker : KvWorkerId) (hashes : List BlockHash)
    (tiers : Tiers) : TreeGood (t.remove_tiered worker hashes tiers) := by
  apply of_index
  · rw [ShardedTree.index_remove_tiered]
    exact h.index.remove_tiered worker hashes tiers
  · unfold ShardedTree.remove_tiered
    split
    · exact fun s => (h s).booked
    · apply booked_pass
      · intro t idx hbooked
        split
        · exact booked_put hbooked ((hbooked idx).remove worker hashes tiers)
        · exact hbooked
      · exact fun s => (h s).booked

theorem clear_worker (h : TreeGood t) (worker : KvWorkerId) : TreeGood (t.clear_worker worker) := by
  apply of_index
  · rw [ShardedTree.index_clear_worker]
    exact h.index.clear_worker worker
  · apply booked_pass
    · intro t idx hbooked
      exact booked_put hbooked ((hbooked idx).clear_worker worker)
    · exact fun s => (h s).booked

theorem touch (h : TreeGood t) (idx : Fin N_SHARDS) (id : NodeId) (now : ℕ) :
    TreeGood (t.touch idx id now) :=
  h.put ⟨(h idx).sound, (h idx).booked.with_tree rfl rfl rfl⟩

theorem apply_op (h : TreeGood t) (op : TreeOp) : TreeGood (apply_op t op) := by
  cases op with
  | insert_tiered worker parent_hash hashes tiers now =>
    exact h.insert_tiered worker parent_hash hashes tiers now
  | remove_tiered worker hashes tiers => exact h.remove_tiered worker hashes tiers
  | clear_worker worker => exact h.clear_worker worker
  | touch idx id now => exact h.touch idx id now
  | evict_lru max_size =>
    obtain ⟨-, -, -, hgood⟩ := evict_lru_spec h max_size
    exact hgood

theorem after (ops : List TreeOp) : TreeGood (tree_after ops) := by
  exact List.foldlRecOn ops _ new (fun t h op _ => h.apply_op op)

end TreeGood

/-- The representation invariant of one shard, in the terms of its fields. -/
structure Kept (sh : Shard) : Prop where
  parent_child : ∀ id n, id ≠ ROOT_ID → sh.tree.nodes.get? id = some n → ∃ p np,
    n.parent = some p ∧ sh.tree.nodes.get? p = some np ∧ np.children.get? n.block_hash = some id
  by_hash : ∀ h id, id ∈ sh.tree.ids h ↔
    id ≠ ROOT_ID ∧ ∃ n, sh.tree.nodes.get? id = some n ∧ n.block_hash = h
  by_hash_once : ∀ h, (sh.tree.ids h).Nodup
  no_empty_set : ∀ h ids, sh.tree.by_hash.get? h = some ids → ids ≠ []
  reachable : ∀ id n, sh.tree.nodes.get? id = some n → Reachable sh.tree id
  no_empty_tiers : ∀ id n w held, sh.tree.nodes.get? id = some n →
    n.workers.get? w = some held → held ≠ Tiers.none_held
  leaf_carried : ∀ id n, id ≠ ROOT_ID → sh.tree.nodes.get? id = some n →
    n.children.items = [] → n.workers.items ≠ []
  occupancy : ∀ w, sh.occupancy.get? w =
    if ∀ slot, recount sh.tree w slot = 0 then none else some (recount sh.tree w)
  accounting_errors : sh.missing_row = 0 ∧ sh.underflow = 0

theorem Good.kept (h : Good ok sh) : Kept sh where
  parent_child id n hid hn := by
    obtain ⟨p, np, hparent, -, hp, hchild, -⟩ := h.sound.linked.up id n hid hn
    exact ⟨p, np, hparent, hp, hchild⟩
  by_hash := h.sound.linked.index
  by_hash_once := h.sound.linked.index_nodup
  no_empty_set := h.sound.entries
  reachable := h.sound.linked.reachable
  no_empty_tiers id n w held hn hheld := h.sound.filled id n hn w held hheld
  leaf_carried id n hid hn hchildren hworkers :=
    h.sound.leaves id n hid hn (is_spent_iff.mpr ⟨hworkers, hchildren⟩)
  occupancy := h.booked.rows
  accounting_errors := ⟨h.booked.missing_row, h.booked.underflow⟩

/-- **The hash tree keeps its invariant**, after every sequence of calls with any hashes, tiers and
clock readings; and `evict_lru` on it takes out the oldest leaves with what collapses, one after
another, until at most `max_size` nodes are left, and returns how many nodes went. -/
theorem hash_tree_kept (ops : List TreeOp) : (∀ s, Kept ((tree_after ops).shards s)) ∧
    ∀ max_size, ∃ rounds,
      EvictRun max_size (tree_after ops) rounds ((tree_after ops).evict_lru max_size).1 ∧
      ((tree_after ops).evict_lru max_size).1.node_count ≤ max_size ∧
      ((tree_after ops).evict_lru max_size).2 = rounds.flatten.length ∧
      (tree_after ops).node_count = ((tree_after ops).evict_lru max_size).1.node_count
        + ((tree_after ops).evict_lru max_size).2 := by
  have hgood := TreeGood.after ops
  refine ⟨fun s => (hgood s).kept, ?_⟩
  intro max_size
  obtain ⟨rounds, hrun, hpruned, -⟩ := evict_lru_spec hgood max_size
  refine ⟨rounds, hrun, hrun.node_count_le, hpruned, ?_⟩
  rw [hpruned]
  exact hrun.node_count

end LightningH3.KvIndex
