/-
The books of a shard are right: the occupancy rows are the recount over all nodes.
-/
import LightningH3.KvHashTreeBooks
import LightningH3.Lib.DictSums

set_option autoImplicit false

namespace LightningH3.KvIndex

open Option OrderedDict

/-! ## One node's worth of tiers -/

/-- What one node held on `bits` adds to a row. -/
def count_of (bits : Tiers) : TierCounts := tally_tiers no_counts bits

theorem tally_tiers_apply (counts : TierCounts) (bits : Tiers) (slot : Fin Tiers.TIER_SLOT_COUNT) :
    tally_tiers counts bits slot = counts slot + count_of bits slot := by
  unfold count_of tally_tiers no_counts
  split
  · rfl
  · rfl

theorem contains_slot (t : Tiers) (slot : Fin Tiers.TIER_SLOT_COUNT) :
    t.contains (Tiers.SLOTS slot) = t.bits.getLsbD slot.val := by
  obtain ⟨bits⟩ := t
  revert bits slot
  decide

theorem count_of_apply (bits : Tiers) (slot : Fin Tiers.TIER_SLOT_COUNT) :
    count_of bits slot = (bits.bits.getLsbD slot.val).toNat := by
  unfold count_of tally_tiers no_counts
  rw [contains_slot]
  cases bits.bits.getLsbD slot.val with
  | true => rfl
  | false => rfl

theorem count_of_none (slot : Fin Tiers.TIER_SLOT_COUNT) : count_of Tiers.none_held slot = 0 := by
  rw [count_of_apply]
  unfold Tiers.none_held
  rw [BitVec.getLsbD_zero]
  rfl

theorem count_of_union (held tiers : Tiers) (slot : Fin Tiers.TIER_SLOT_COUNT) :
    count_of (held.union tiers) slot
      = count_of held slot + count_of (tiers.difference held) slot := by
  have hlt : slot.val < 8 := Nat.lt_of_lt_of_le slot.isLt (by decide)
  rw [count_of_apply, count_of_apply, count_of_apply]
  unfold Tiers.union Tiers.difference
  rw [BitVec.getLsbD_or, BitVec.getLsbD_and, BitVec.getLsbD_not, decide_eq_true hlt]
  cases held.bits.getLsbD slot.val with
  | true => cases tiers.bits.getLsbD slot.val <;> rfl
  | false => cases tiers.bits.getLsbD slot.val <;> rfl

theorem count_of_split (held tiers : Tiers) (slot : Fin Tiers.TIER_SLOT_COUNT) : count_of held slot
      = count_of (held.difference tiers) slot + count_of (held.intersection tiers) slot := by
  have hlt : slot.val < 8 := Nat.lt_of_lt_of_le slot.isLt (by decide)
  rw [count_of_apply, count_of_apply, count_of_apply]
  unfold Tiers.intersection Tiers.difference
  rw [BitVec.getLsbD_and, BitVec.getLsbD_and, BitVec.getLsbD_not, decide_eq_true hlt]
  cases held.bits.getLsbD slot.val with
  | true => cases tiers.bits.getLsbD slot.val <;> rfl
  | false => cases tiers.bits.getLsbD slot.val <;> rfl

/-! ## The recount -/

/-- How many nodes `worker` holds on each tier, counted over the arena. -/
def recount (st : TreeState) (worker : KvWorkerId) : TierCounts := fun slot =>
  OrderedDict.total (fun n : Node => count_of (n.tiers_of worker) slot) st.nodes

section Recount

variable {st : TreeState} (worker : KvWorkerId) (slot : Fin Tiers.TIER_SLOT_COUNT)

variable {n : Node}

theorem recount_put {id : NodeId} (hn : st.nodes.get? id = some n) (n' : Node) :
    recount (st.put id n') worker slot + count_of (n.tiers_of worker) slot
      = recount st worker slot + count_of (n'.tiers_of worker) slot :=
  total_set_of_get? hn n'

theorem count_of_le_recount {id : NodeId} (hn : st.nodes.get? id = some n) :
    count_of (n.tiers_of worker) slot ≤ recount st worker slot :=
  OrderedDict.le_total (f := fun n : Node => count_of (n.tiers_of worker) slot) hn

theorem count_of_spent (h : n.workers.items = []) : count_of (n.tiers_of worker) slot = 0 := by
  unfold Node.tiers_of
  rw [get?_of_items_nil h]
  exact count_of_none slot

/-- Every id in the arena is older than the next one. -/
def Fresh (st : TreeState) : Prop := ∀ id n, st.nodes.get? id = some n → id < st.next_id

theorem recount_create_child (hf : Fresh st) (parent_id : NodeId) (block_hash : BlockHash)
    (breadcrumb : Option BlockHash) :
    recount (st.create_child parent_id block_hash breadcrumb).1 worker slot
      = recount st worker slot := by
  have hnone : st.nodes.get? st.next_id = none := by
    cases h : st.nodes.get? st.next_id with
    | none => rfl
    | some n => exact absurd (hf _ n h) (Nat.lt_irrefl _)
  have hset := total_set_of_none
    (f := fun n : Node => count_of (n.tiers_of worker) slot) hnone
    (Node.new_child block_hash breadcrumb parent_id)
  have hzero : count_of ((Node.new_child block_hash breadcrumb parent_id).tiers_of worker) slot
      = 0 := count_of_spent worker slot rfl
  rw [hzero] at hset
  unfold TreeState.create_child
  dsimp only
  cases hp : (st.nodes.set st.next_id
      (Node.new_child block_hash breadcrumb parent_id)).get? parent_id with
  | none =>
    have hnew : (st.nodes.set st.next_id
        (Node.new_child block_hash breadcrumb parent_id)).get? st.next_id
        = some (Node.new_child block_hash breadcrumb parent_id) := by
      rw [get?_set, if_pos rfl]
    have herase := total_erase
      (f := fun n : Node => count_of (n.tiers_of worker) slot) hnew
    rw [hzero, hset] at herase
    exact herase
  | some parent =>
    have hparent := total_set_of_get?
      (f := fun n : Node => count_of (n.tiers_of worker) slot) hp
      { parent with children := parent.children.set block_hash st.next_id }
    rw [hset] at hparent
    exact Nat.add_right_cancel hparent

theorem recount_detach (parent_id : NodeId) {cursor : NodeId} (block_hash : BlockHash)
    (hn : st.nodes.get? cursor = some n) (hspent : n.workers.items = []) :
    recount (st.detach cursor parent_id block_hash) worker slot = recount st worker slot := by
  have herase : ∀ d : OrderedDict NodeId Node, (∃ m, d.get? cursor = some m ∧
      m.workers.items = []) →
      OrderedDict.total (fun n : Node => count_of (n.tiers_of worker) slot) (d.erase cursor)
        = OrderedDict.total (fun n : Node => count_of (n.tiers_of worker) slot) d := by
    rintro d ⟨m, hm, hmspent⟩
    have h := total_erase
      (f := fun n : Node => count_of (n.tiers_of worker) slot) hm
    rwa [count_of_spent worker slot hmspent, Nat.add_zero] at h
  unfold TreeState.detach recount
  cases hp : st.nodes.get? parent_id with
  | none => exact herase st.nodes ⟨n, hn, hspent⟩
  | some np =>
    have hparent := total_set_of_get?
      (f := fun n : Node => count_of (n.tiers_of worker) slot) hp
      { np with children := np.children.erase block_hash }
    rw [herase _ ?_]
    · exact Nat.add_right_cancel hparent
    · by_cases hcp : cursor = parent_id
      · subst hcp
        rw [hn] at hp
        cases hp
        refine ⟨{ n with children := n.children.erase block_hash }, ?_, hspent⟩
        rw [get?_set, if_pos rfl]
      · refine ⟨n, ?_, hspent⟩
        rw [get?_set, if_neg hcp, hn]

theorem recount_prune_cascade (st : TreeState) (start : NodeId) :
    recount (st.prune_cascade start) worker slot = recount st worker slot := by
  apply prune_loop_induct (P := fun st' => recount st' worker slot = recount st worker slot)
  · intro st' cursor p n h _ hn hspent _
    exact (recount_detach worker slot p n.block_hash hn (is_spent_iff.mp hspent).1).trans h
  · rfl

theorem recount_prune_one (st : TreeState) (id : NodeId) :
    recount (st.prune_one id) worker slot = recount st worker slot := by
  unfold TreeState.prune_one
  split
  · exact recount_prune_cascade worker slot st id
  · rfl

end Recount

/-! ## Rows -/

/-- The rows are these counts; a worker that holds nothing has no row. -/
def Rows (occupancy : OrderedDict KvWorkerId TierCounts) (counts : KvWorkerId → TierCounts) : Prop :=
  ∀ w, occupancy.get? w = if ∀ slot, counts w slot = 0 then none else some (counts w)

/-- Counts that differ for one worker only. -/
def counts_at (counts : KvWorkerId → TierCounts) (worker : KvWorkerId) (row : TierCounts) :
    KvWorkerId → TierCounts :=
  fun w => if w = worker then row else counts w

variable {occupancy : OrderedDict KvWorkerId TierCounts} {counts : KvWorkerId → TierCounts}

theorem Rows.congr {counts' : KvWorkerId → TierCounts} (h : Rows occupancy counts)
    (heq : ∀ w slot, counts' w slot = counts w slot) : Rows occupancy counts' := by
  have hcounts : counts' = counts := funext fun w => funext fun slot => heq w slot
  rw [hcounts]
  exact h

theorem Rows.set (h : Rows occupancy counts) (worker : KvWorkerId) {row : TierCounts}
    (hrow : ¬ ∀ slot, row slot = 0) :
    Rows (occupancy.set worker row) (counts_at counts worker row) := by
  intro w
  rw [get?_set]
  unfold counts_at
  by_cases hw : w = worker
  · simp only [if_pos hw, if_neg hrow]
  · simp only [if_neg hw]
    exact h w

theorem Rows.erase (h : Rows occupancy counts) (worker : KvWorkerId) {row : TierCounts}
    (hrow : ∀ slot, row slot = 0) :
    Rows (occupancy.erase worker) (counts_at counts worker row) := by
  intro w
  rw [get?_erase]
  unfold counts_at
  by_cases hw : w = worker
  · simp only [if_pos hw, if_pos hrow]
  · simp only [if_neg hw]
    exact h w

/-- The rows of a shard are its recount, and no error is counted. -/
structure Booked (sh : Shard) (counts : KvWorkerId → TierCounts) : Prop where
  rows : Rows sh.occupancy counts
  missing_row : sh.missing_row = 0
  underflow : sh.underflow = 0

namespace Booked

variable {sh : Shard} {counts : KvWorkerId → TierCounts}

section

variable (h : Booked sh counts)
include h

theorem congr {counts' : KvWorkerId → TierCounts} (heq : ∀ w slot, counts' w slot = counts w slot) :
    Booked sh counts' :=
  ⟨h.rows.congr heq, h.missing_row, h.underflow⟩

theorem with_tree {sh' : Shard} (hocc : sh'.occupancy = sh.occupancy)
    (hmissing : sh'.missing_row = sh.missing_row) (hunder : sh'.underflow = sh.underflow) :
    Booked sh' counts :=
  ⟨by rw [hocc]; exact h.rows, by rw [hmissing]; exact h.missing_row,
    by rw [hunder]; exact h.underflow⟩

/-- **`account_add` adds to the worker's row.** -/
theorem account_add (worker : KvWorkerId) (delta : TierCounts) :
    Booked (sh.account_add worker delta)
      (counts_at counts worker fun slot => counts worker slot + delta slot) := by
  have hrow := h.rows worker
  unfold Shard.account_add
  by_cases hzero : ∀ slot, delta slot = 0
  · rw [if_pos hzero]
    apply h.congr
    intro w slot
    unfold counts_at
    split
    · next hw =>
      dsimp only
      rw [hzero slot, hw, Nat.add_zero]
    · rfl
  · rw [if_neg hzero]
    have hsum : ¬ ∀ slot, counts worker slot + delta slot = 0 := by
      intro hall
      apply hzero
      intro slot
      have := hall slot
      omega
    by_cases hnone : ∀ slot, counts worker slot = 0
    · rw [if_pos hnone] at hrow
      simp only [hrow]
      have hdelta : delta = fun slot => counts worker slot + delta slot := by
        funext slot
        rw [hnone slot, Nat.zero_add]
      refine ⟨?_, h.missing_row, h.underflow⟩
      rw [← hdelta]
      exact h.rows.set worker hzero
    · rw [if_neg hnone] at hrow
      simp only [hrow]
      exact ⟨h.rows.set worker hsum, h.missing_row, h.underflow⟩

/-- **`account_remove_counts` takes from the worker's row**, which is never short of it. -/
theorem account_remove_counts (worker : KvWorkerId) {delta : TierCounts}
    (hle : ∀ slot, delta slot ≤ counts worker slot) : Booked (sh.account_remove_counts worker delta)
      (counts_at counts worker fun slot => counts worker slot - delta slot) := by
  have hrow := h.rows worker
  unfold Shard.account_remove_counts
  by_cases hzero : ∀ slot, delta slot = 0
  · rw [if_pos hzero]
    apply h.congr
    intro w slot
    unfold counts_at
    split
    · next hw =>
      dsimp only
      rw [hzero slot, hw, Nat.sub_zero]
    · rfl
  · rw [if_neg hzero]
    have hsome : ¬ ∀ slot, counts worker slot = 0 := by
      intro hall
      apply hzero
      intro slot
      have hslot := hle slot
      rw [hall slot] at hslot
      exact Nat.le_zero.mp hslot
    rw [if_neg hsome] at hrow
    simp only [hrow]
    have hno : ¬ ∃ slot, counts worker slot < delta slot := by
      rintro ⟨slot, hlt⟩
      exact absurd (hle slot) (Nat.not_le.mpr hlt)
    refine ⟨?_, h.missing_row, ?_⟩
    · by_cases hleft : ∀ slot, counts worker slot - delta slot = 0
      · rw [if_pos hleft]
        exact h.rows.erase worker hleft
      · rw [if_neg hleft]
        exact h.rows.set worker hleft
    · rw [if_neg hno]
      exact h.underflow

theorem account_remove (worker : KvWorkerId) {removed : Tiers}
    (hle : ∀ slot, count_of removed slot ≤ counts worker slot) :
    Booked (sh.account_remove worker removed)
      (counts_at counts worker fun slot => counts worker slot - count_of removed slot) :=
  h.account_remove_counts worker hle

end

end Booked

/-! ## Storing -/

variable {w : KvWorkerId}

theorem tiers_of_put_other {n : Node} {ws : OrderedDict KvWorkerId Tiers}
    (h : ws.get? w = n.workers.get? w) : ({ n with workers := ws } : Node).tiers_of w
      = n.tiers_of w := by
  unfold Node.tiers_of
  rw [h]

theorem count_of_add (n : Node) (worker : KvWorkerId) (tiers : Tiers)
    (slot : Fin Tiers.TIER_SLOT_COUNT) :
    count_of (({ n with workers := add_tiers n.workers worker tiers } : Node).tiers_of worker) slot
      = count_of (n.tiers_of worker) slot + count_of (added_tiers n.workers worker tiers) slot := by
  unfold Node.tiers_of add_tiers added_tiers
  cases n.workers.get? worker with
  | none =>
    rw [get?_set, if_pos rfl, getD_some, getD_none, count_of_none, Nat.zero_add]
  | some held =>
    rw [get?_set, if_pos rfl]
    exact count_of_union held tiers slot

variable {carriers : OrderedDict KvWorkerId Tiers}

theorem get?_add_tiers_other {worker : KvWorkerId} (tiers : Tiers) (hne : w ≠ worker) :
    (add_tiers carriers worker tiers).get? w = carriers.get? w := by
  unfold add_tiers
  split
  · rw [get?_set, if_neg hne]
  · rw [get?_set, if_neg hne]

theorem Fresh.put {st : TreeState} (hf : Fresh st) {id : NodeId} {n : Node}
    (hn : st.nodes.get? id = some n) (n' : Node) : Fresh (st.put id n') := by
  intro j m hm
  have hget : (st.put id n').nodes.get? j = if j = id then some n' else st.nodes.get? j :=
    get?_set _ _ _ _
  rw [hget] at hm
  by_cases hj : j = id
  · rw [hj]
    exact hf id n hn
  · rw [if_neg hj] at hm
    exact hf j m hm

theorem Fresh.create_child {st : TreeState} (hf : Fresh st) (parent_id : NodeId)
    (block_hash : BlockHash) (breadcrumb : Option BlockHash) :
    Fresh (st.create_child parent_id block_hash breadcrumb).1 := by
  have hset : ∀ j m, (st.nodes.set st.next_id
      (Node.new_child block_hash breadcrumb parent_id)).get? j = some m → j < st.next_id + 1 := by
    intro j m hm
    rcases get?_set_eq_some.mp hm with ⟨rfl, -⟩ | ⟨-, hm⟩
    · exact Nat.lt_succ_self _
    · exact Nat.lt_succ_of_lt (hf j m hm)
  unfold TreeState.create_child
  dsimp only
  cases hp : (st.nodes.set st.next_id
      (Node.new_child block_hash breadcrumb parent_id)).get? parent_id with
  | none =>
    intro j m hm
    rw [get?_erase] at hm
    by_cases hj : j = st.next_id
    · rw [hj]
      exact Nat.lt_succ_self _
    · rw [if_neg hj] at hm
      exact hset j m hm
  | some parent =>
    intro j m hm
    rcases get?_set_eq_some.mp hm with ⟨rfl, -⟩ | ⟨-, hm⟩
    · exact hset _ parent hp
    · exact hset j m hm

/-- Two shards with the same books. -/
structure SameBooks (sh sh' : Shard) : Prop where
  occupancy : sh'.occupancy = sh.occupancy
  missing_row : sh'.missing_row = sh.missing_row
  underflow : sh'.underflow = sh.underflow

variable {sh : Shard}

theorem SameBooks.booked {sh' : Shard} (hs : SameBooks sh sh') (h : Booked sh counts) :
    Booked sh' counts :=
  h.with_tree hs.occupancy hs.missing_row hs.underflow

theorem SameBooks.trans {sh' sh'' : Shard} (h : SameBooks sh sh') (h' : SameBooks sh' sh'') :
    SameBooks sh sh'' :=
  ⟨h'.occupancy.trans h.occupancy, h'.missing_row.trans h.missing_row,
    h'.underflow.trans h.underflow⟩

/-- **The loop of `insert` owes what it has tallied.** The books wait until the chain is done. -/
theorem insert_loop_owes (worker : KvWorkerId) (tiers : Tiers) (now : ℕ) :
    ∀ (hashes : List BlockHash) (sh : Shard) (delta : TierCounts) (current : NodeId)
      (prev_hash : Option BlockHash), Fresh sh.tree →
      SameBooks sh (Shard.insert_loop worker tiers now hashes sh delta current prev_hash).1 ∧
      (∀ w slot, w ≠ worker →
        recount (Shard.insert_loop worker tiers now hashes sh delta current prev_hash).1.tree w slot
          = recount sh.tree w slot) ∧ ∀ slot,
        recount (Shard.insert_loop worker tiers now hashes sh delta current prev_hash).1.tree
            worker slot + delta slot = recount sh.tree worker slot
            + (Shard.insert_loop worker tiers now hashes sh delta current prev_hash).2 slot := by
  intro hashes
  induction hashes with
  | nil =>
    intro sh delta current prev_hash _
    exact ⟨⟨rfl, rfl, rfl⟩, fun _ _ _ => rfl, fun _ => rfl⟩
  | cons h rest ih =>
    intro sh delta current prev_hash hf
    -- Marking a node of an arena with the same counts, and on with the rest.
    have hgo : ∀ (tree : TreeState) (id : NodeId) (child : Node), Fresh tree →
        (∀ w slot, recount tree w slot = recount sh.tree w slot) →
        tree.nodes.get? id = some child →
        SameBooks sh (Shard.insert_loop worker tiers now rest { sh with
            tree := tree.put id { child with workers := add_tiers child.workers worker tiers }
            last_used := Function.update sh.last_used id now }
          (tally_tiers delta (added_tiers child.workers worker tiers)) id (some h)).1 ∧
        (∀ w slot, w ≠ worker → recount (Shard.insert_loop worker tiers now rest { sh with
            tree := tree.put id { child with workers := add_tiers child.workers worker tiers }
            last_used := Function.update sh.last_used id now }
          (tally_tiers delta (added_tiers child.workers worker tiers)) id (some h)).1.tree w slot
            = recount sh.tree w slot) ∧
        ∀ slot, recount (Shard.insert_loop worker tiers now rest { sh with
            tree := tree.put id { child with workers := add_tiers child.workers worker tiers }
            last_used := Function.update sh.last_used id now }
          (tally_tiers delta (added_tiers child.workers worker tiers)) id (some h)).1.tree
            worker slot + delta slot
          = recount sh.tree worker slot + (Shard.insert_loop worker tiers now rest { sh with
            tree := tree.put id { child with workers := add_tiers child.workers worker tiers }
            last_used := Function.update sh.last_used id now }
          (tally_tiers delta (added_tiers child.workers worker tiers)) id (some h)).2 slot := by
      intro tree id child hfresh hsame hchild
      obtain ⟨hbooks, hother, howes⟩ := ih
        { sh with
          tree := tree.put id { child with workers := add_tiers child.workers worker tiers }
          last_used := Function.update sh.last_used id now }
        (tally_tiers delta (added_tiers child.workers worker tiers)) id (some h)
        (hfresh.put hchild _)
      refine ⟨⟨hbooks.occupancy, hbooks.missing_row, hbooks.underflow⟩, ?_, ?_⟩
      · intro w slot hw
        have hput := recount_put w slot hchild
          { child with workers := add_tiers child.workers worker tiers }
        rw [tiers_of_put_other (get?_add_tiers_other tiers hw)] at hput
        rw [hother w slot hw, ← hsame w slot]
        exact Nat.add_right_cancel hput
      · intro slot
        have hput := recount_put worker slot hchild
          { child with workers := add_tiers child.workers worker tiers }
        have hadd := count_of_add child worker tiers slot
        have hrest := howes slot
        have hbefore := hsame worker slot
        rw [tally_tiers_apply] at hrest
        dsimp only at hrest
        omega
    unfold Shard.insert_loop
    cases hslot : (sh.tree.nodes.get? current).bind fun n => n.children.get? h with
    | some id =>
      dsimp only
      cases hchild : sh.tree.nodes.get? id with
      | none => exact ⟨⟨rfl, rfl, rfl⟩, fun _ _ _ => rfl, fun _ => rfl⟩
      | some child => exact hgo sh.tree id child hf (fun _ _ => rfl) hchild
    | none =>
      have hcount := fun w slot => recount_create_child w slot hf current h prev_hash
      have hfresh := hf.create_child current h prev_hash
      generalize sh.tree.create_child current h prev_hash = created at hcount hfresh
      obtain ⟨tree, id⟩ := created
      cases id with
      | none =>
        refine ⟨⟨rfl, rfl, rfl⟩, fun w slot _ => hcount w slot, fun slot => ?_⟩
        rw [hcount worker slot]
      | some id =>
        dsimp only
        cases hchild : tree.nodes.get? id with
        | none =>
          refine ⟨⟨rfl, rfl, rfl⟩, fun w slot _ => hcount w slot, fun slot => ?_⟩
          rw [hcount worker slot]
        | some child => exact hgo tree id child hfresh hcount hchild

/-- **`insert` keeps the books right.** -/
theorem Booked.insert (h : Booked sh (recount sh.tree)) (hf : Fresh sh.tree) (worker : KvWorkerId)
    (parent : ParentLink) (hashes : List BlockHash) (tiers : Tiers) (now : ℕ) :
    Booked (sh.insert worker parent hashes tiers now)
      (recount (sh.insert worker parent hashes tiers now).tree) := by
  unfold Shard.insert
  split
  · exact h
  · obtain ⟨hbooks, hother, howes⟩ := insert_loop_owes worker tiers now hashes sh no_counts
      (sh.tree.resolve_parent worker parent.attach) parent.breadcrumb hf
    rw [Shard.tree_account_add]
    apply ((hbooks.booked h).account_add worker _).congr
    intro w slot
    unfold counts_at
    by_cases hw : w = worker
    · rw [if_pos hw, hw]
      have hrow := howes slot
      exact hrow
    · rw [if_neg hw]
      exact hother w slot hw

/-! ## Removing and clearing -/

theorem count_of_release (n : Node) (worker : KvWorkerId) (tiers : Tiers)
    (slot : Fin Tiers.TIER_SLOT_COUNT) : count_of (n.tiers_of worker) slot
      = count_of (({ n with workers := release_tiers n.workers worker tiers } : Node).tiers_of
          worker) slot + count_of (released_tiers n.workers worker tiers) slot := by
  unfold Node.tiers_of release_tiers released_tiers
  cases hheld : n.workers.get? worker with
  | none =>
    rw [hheld, getD_none, count_of_none]
  | some held =>
    dsimp only
    rw [getD_some, count_of_split held tiers slot]
    congr 1
    split
    · next hempty =>
      rw [get?_erase, if_pos rfl, getD_none, Tiers.is_empty_iff.mp hempty]
    · rw [get?_set, if_pos rfl, getD_some]

theorem get?_release_tiers_other {worker : KvWorkerId} (tiers : Tiers) (hne : w ≠ worker) :
    (release_tiers carriers worker tiers).get? w = carriers.get? w := by
  unfold release_tiers
  split
  · rfl
  · split
    · rw [get?_erase, if_neg hne]
    · rw [get?_set, if_neg hne]

theorem Booked.remove_one (h : Booked sh (recount sh.tree)) (worker : KvWorkerId) (tiers : Tiers)
    (id : NodeId) : Booked (Shard.remove_one worker tiers sh id)
      (recount (Shard.remove_one worker tiers sh id).tree) := by
  unfold Shard.remove_one
  cases hn : sh.tree.nodes.get? id with
  | none =>
    rw [Shard.tree_account_remove]
    apply (h.account_remove worker fun slot => ?_).congr
    · intro w slot
      unfold counts_at
      split
      · next hw =>
        dsimp only
        rw [hw, count_of_none, Nat.sub_zero]
      · rfl
    · rw [count_of_none]
      exact Nat.zero_le _
  | some n =>
    dsimp only
    have hput := fun w slot => recount_put w slot hn
      { n with workers := release_tiers n.workers worker tiers }
    have hrel := fun slot => count_of_release n worker tiers slot
    have hother : ∀ w, w ≠ worker →
        ({ n with workers := release_tiers n.workers worker tiers } : Node).tiers_of w
          = n.tiers_of w :=
      fun w hw => tiers_of_put_other (get?_release_tiers_other tiers hw)
    generalize ({ n with workers := release_tiers n.workers worker tiers } : Node) = n'
      at hput hrel hother
    have hdrop : Booked (({ sh with tree := sh.tree.put id n' } : Shard).account_remove worker
        (released_tiers n.workers worker tiers)) (recount (sh.tree.put id n')) := by
      have hwith : Booked ({ sh with tree := sh.tree.put id n' } : Shard) (recount sh.tree) :=
        h.with_tree rfl rfl rfl
      apply (hwith.account_remove worker fun slot => ?_).congr
      · intro w slot
        have hrow := hput w slot
        unfold counts_at
        by_cases hw : w = worker
        · rw [if_pos hw]
          rw [hw] at hrow ⊢
          have hsplit := hrel slot
          omega
        · rw [if_neg hw]
          rw [hother w hw] at hrow
          exact Nat.add_right_cancel hrow
      · have hsplit := hrel slot
        have hle := count_of_le_recount worker slot hn
        omega
    have htree : (({ sh with tree := sh.tree.put id n' } : Shard).account_remove worker
        (released_tiers n.workers worker tiers)).tree = sh.tree.put id n' :=
      Shard.tree_account_remove _ _ _
    generalize ({ sh with tree := sh.tree.put id n' } : Shard).account_remove worker
      (released_tiers n.workers worker tiers) = dropped at hdrop htree
    rw [← htree] at hdrop
    split
    · have hpruned : Booked { dropped with tree := dropped.tree.prune_cascade id }
          (recount dropped.tree) := hdrop.with_tree rfl rfl rfl
      apply hpruned.congr
      intro w slot
      exact recount_prune_cascade w slot _ id
    · exact hdrop

/-- **`remove` keeps the books right.** -/
theorem Booked.remove (h : Booked sh (recount sh.tree)) (worker : KvWorkerId)
    (hashes : List BlockHash) (tiers : Tiers) : Booked (sh.remove worker hashes tiers)
      (recount (sh.remove worker hashes tiers).tree) := by
  exact List.foldlRecOn (motive := fun sh => Booked sh (recount sh.tree)) _ _ h
    (fun sh h id _ => h.remove_one worker tiers id)

theorem clear_loop_owes (worker : KvWorkerId) (targets : List NodeId) (acc : Shard.Clearing) :
    SameBooks acc.shard (targets.foldl (Shard.clear_one worker) acc).shard ∧
    (∀ w slot, w ≠ worker → recount (targets.foldl (Shard.clear_one worker) acc).shard.tree w slot
      = recount acc.shard.tree w slot) ∧
    ∀ slot, recount (targets.foldl (Shard.clear_one worker) acc).shard.tree worker slot
        + (targets.foldl (Shard.clear_one worker) acc).delta slot
      = recount acc.shard.tree worker slot + acc.delta slot := by
  induction targets generalizing acc with
  | nil => exact ⟨⟨rfl, rfl, rfl⟩, fun _ _ _ => rfl, fun _ => rfl⟩
  | cons id targets ih =>
    rw [List.foldl_cons]
    have hone : SameBooks acc.shard (Shard.clear_one worker acc id).shard ∧
        (∀ w slot, w ≠ worker → recount (Shard.clear_one worker acc id).shard.tree w slot
          = recount acc.shard.tree w slot) ∧
        ∀ slot, recount (Shard.clear_one worker acc id).shard.tree worker slot
            + (Shard.clear_one worker acc id).delta slot
          = recount acc.shard.tree worker slot + acc.delta slot := by
      unfold Shard.clear_one
      cases hn : acc.shard.tree.nodes.get? id with
      | none => exact ⟨⟨rfl, rfl, rfl⟩, fun _ _ _ => rfl, fun _ => rfl⟩
      | some n =>
        dsimp only
        cases hw : n.workers.get? worker with
        | none => exact ⟨⟨rfl, rfl, rfl⟩, fun _ _ _ => rfl, fun _ => rfl⟩
        | some held =>
          dsimp only
          refine ⟨⟨rfl, rfl, rfl⟩, ?_, ?_⟩
          · intro w slot hne
            have hput := recount_put w slot hn { n with workers := n.workers.erase worker }
            have hother : (n.workers.erase worker).get? w = n.workers.get? w := by
              rw [get?_erase, if_neg hne]
            rw [tiers_of_put_other hother] at hput
            exact Nat.add_right_cancel hput
          · intro slot
            have hput := recount_put worker slot hn
              { n with workers := n.workers.erase worker }
            have hheld : n.tiers_of worker = held := by
              unfold Node.tiers_of
              rw [hw]
              rfl
            have hgone : ({ n with workers := n.workers.erase worker } : Node).tiers_of worker
                = Tiers.none_held := by
              unfold Node.tiers_of
              rw [get?_erase, if_pos rfl]
              rfl
            rw [hheld, hgone, count_of_none] at hput
            rw [tally_tiers_apply]
            omega
    obtain ⟨hbooks, hother, howes⟩ := hone
    obtain ⟨hbooks', hother', howes'⟩ := ih (Shard.clear_one worker acc id)
    refine ⟨hbooks.trans hbooks', ?_, ?_⟩
    · intro w slot hne
      rw [hother' w slot hne, hother w slot hne]
    · intro slot
      rw [howes' slot, howes slot]

theorem Booked.prune_all (targets : List NodeId) (h : Booked sh counts) :
    Booked (targets.foldl Shard.prune_one sh) counts :=
  List.foldlRecOn (motive := fun sh => Booked sh counts) targets _ h
    (fun _ h _ _ => h.with_tree rfl rfl rfl)

theorem recount_prune_all (w : KvWorkerId) (slot : Fin Tiers.TIER_SLOT_COUNT)
    (targets : List NodeId) (sh : Shard) :
    recount (targets.foldl Shard.prune_one sh).tree w slot = recount sh.tree w slot :=
  List.foldlRecOn (motive := fun st : Shard => recount st.tree w slot = recount sh.tree w slot)
    targets _ rfl (fun st h id _ => (recount_prune_one w slot st.tree id).trans h)

/-- **`clear_worker` keeps the books right.** -/
theorem Booked.clear_worker (h : Booked sh (recount sh.tree)) (worker : KvWorkerId) :
    Booked (sh.clear_worker worker) (recount (sh.clear_worker worker).tree) := by
  unfold Shard.clear_worker
  obtain ⟨hbooks, hother, howes⟩ := clear_loop_owes worker
    (sh.tree.nodes.keys.filter (· ≠ ROOT_ID)) ⟨sh, no_counts, []⟩
  generalize (sh.tree.nodes.keys.filter (· ≠ ROOT_ID)).foldl (Shard.clear_one worker)
    ⟨sh, no_counts, []⟩ = cleared at hbooks hother howes
  dsimp only at hbooks hother howes
  have hcleared : Booked (cleared.shard.account_remove_counts worker cleared.delta)
      (recount cleared.shard.tree) := by
    apply ((hbooks.booked h).account_remove_counts worker fun slot => ?_).congr
    · intro w slot
      unfold counts_at
      by_cases hw : w = worker
      · rw [if_pos hw, hw]
        have hrow := howes slot
        unfold no_counts at hrow
        omega
      · rw [if_neg hw]
        exact hother w slot hw
    · have hrow := howes slot
      unfold no_counts at hrow
      omega
  apply (hcleared.prune_all _).congr
  intro w slot
  rw [recount_prune_all, Shard.tree_account_remove_counts]

end LightningH3.KvIndex
