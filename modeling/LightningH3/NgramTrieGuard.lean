/-
The guard of `squeeze`.

`squeeze` compares the capacity with the free nodes and what is asked for, and so counts the root
among the nodes that it can release, where the list that it releases from lacks the root; and it adds
the two up in 64 bits. `Guarded` is what an operation promises: the nodes it needs are released, or it
is refused before the trie changes. The guard and the list disagree where the sum is exactly the
capacity or wraps around to at most the capacity, and `guarded_iff` says that every other operation is
guarded, on every trie that can be reached and for every depth.
-/
import LightningH3.NgramTrieRuns

set_option autoImplicit false

namespace LightningH3.NgramTrie

open List

variable {capacity max_trie_depth : ℕ} {t : Trie}

/-! ## 1. What is promised -/

/-- The tries that can be reached. -/
inductive Reaches (capacity max_trie_depth : ℕ) : Trie → Prop
  | new {t : Trie} (h : Trie.new capacity max_trie_depth = .ok t) :
    Reaches capacity max_trie_depth t
  | step {t t' : Trie} {op : Op} (h : Reaches capacity max_trie_depth t)
    (hstep : t.step op = .ok t') : Reaches capacity max_trie_depth t'

/-- `count` nodes below the root are released. -/
def Trie.Releases (t t' : Trie) (count : ℕ) : Prop :=
  t.squeeze count = .ok t' ∧ t'.free_node_count = t.free_node_count + count ∧
    t'.held.length + count = t.held.length

/-- Room is made for each window, and it passes. -/
def Trie.Inserts : List Token → Trie → Trie → Prop
  | [], t, t' => t' = t
  | token :: rest, t, t' => ∃ t₁ t₂,
    (if t.free_node_count < ((token :: rest).take t.max_trie_depth).length then
      t.Releases t₁ (((token :: rest).take t.max_trie_depth).length - t.free_node_count)
    else t₁ = t) ∧
    t₁.insert_window ((token :: rest).take t.max_trie_depth) = .ok t₂ ∧
    Trie.Inserts rest t₂ t'

/-- **What an operation promises**: what it needs is released, or it is refused at once. -/
def Guarded (t : Trie) : Op → Prop
  | .insert tokens =>
    (∃ t', Trie.insert tokens t = .ok t' ∧ Trie.Inserts tokens t t') ∨
    Trie.insert tokens t = .error .insufficient_node_size ∧
      t.squeeze ((tokens.take t.max_trie_depth).length - t.free_node_count)
        = .error .insufficient_node_size
  | .squeeze count =>
    (∃ t', t.Releases t' count) ∨ t.squeeze count = .error .insufficient_node_size
  | .reset => ∃ t', t.reset = .ok t'

/-- What the free nodes and the count come to is below the capacity, or the guard sees it above. -/
def Spared (t : Trie) : Op → Prop
  | .insert tokens => (tokens.take t.max_trie_depth).length < t.node_pool.length ∨
      t.node_pool.length < size_t (tokens.take t.max_trie_depth).length
  | .squeeze count => t.free_node_count + count < t.node_pool.length ∨
      t.node_pool.length < size_t (t.free_node_count + count)
  | .reset => True

/-! ## 2. The guard -/

section Guard

variable {r : Recency} (h : Refines capacity max_trie_depth t r)
include h

theorem Refines.pool_length : t.node_pool.length = t.free_node_count + 1 + t.held.length := by
  rw [h.sound.linked.pool, ← h.length_eq, h.count_eq, h.capacity_eq]

/-- **The three cases of a guard**: the last gets past it to an empty list. -/
theorem Refines.squeeze_cases (count : ℕ) :
    (t.free_node_count + count < t.node_pool.length ∧ ∃ t' r', t.Releases t' count ∧
      Refines capacity max_trie_depth t' r') ∨
    (t.node_pool.length < size_t (t.free_node_count + count) ∧
      t.squeeze count = .error .insufficient_node_size) ∨
    (t.node_pool.length ≤ t.free_node_count + count ∧
      size_t (t.free_node_count + count) ≤ t.node_pool.length ∧
      t.squeeze count = .error .undefined) := by
  have hpool := h.pool_length
  have hlength := h.length_eq
  rcases Nat.lt_or_ge (t.free_node_count + count) t.node_pool.length with hlt | hge
  · left
    have hcount : count ≤ r.order.length := by omega
    obtain ⟨t', hsqueeze, h', hfree⟩ := h.squeeze hcount
    have hpool' := h'.pool_length
    rw [h'.sound.linked.pool, h'.capacity_eq, ← h.capacity_eq, ← h.sound.linked.pool] at hpool'
    exact ⟨hlt, t', _, ⟨hsqueeze, hfree, by omega⟩, h'⟩
  · right
    unfold Trie.squeeze
    rcases Nat.lt_or_ge t.node_pool.length (size_t (t.free_node_count + count)) with hgt | hle
    · exact .inl ⟨hgt, if_neg (Nat.not_le.mpr hgt)⟩
    · rw [if_pos hle]
      exact .inr ⟨hge, hle, h.release_undefined (by omega)⟩

/-- **An insert whose first window fits** makes room for every window. -/
theorem Refines.inserts {tokens : List Token}
    (hfit : (tokens.take max_trie_depth).length < capacity) :
    ∃ t', Trie.insert tokens t = .ok t' ∧ Trie.Inserts tokens t t' := by
  induction tokens generalizing t r with
  | nil => exact ⟨t, rfl, rfl⟩
  | cons token rest ih =>
    have hrest := lt_of_le_of_lt (length_take_tail_le max_trie_depth token rest) hfit
    have hpool := h.sound.linked.pool
    rw [h.capacity_eq] at hpool
    rw [← h.depth_eq] at hfit
    by_cases hlt : t.free_node_count < ((token :: rest).take t.max_trie_depth).length
    · obtain ⟨-, t₁, r₁, hreleases, h₁⟩ := (h.squeeze_cases
        (((token :: rest).take t.max_trie_depth).length - t.free_node_count)).resolve_right
        (by
          have hwrap := size_t_le (t.free_node_count
            + (((token :: rest).take t.max_trie_depth).length - t.free_node_count))
          rintro (⟨hbad, -⟩ | ⟨hbad, -⟩) <;> omega)
      have hfree := hreleases.2.1
      obtain ⟨t₂, hwindow, h₂⟩ := h₁.window
        (show ((token :: rest).take t.max_trie_depth).length ≤ t₁.free_node_count by omega)
      obtain ⟨t', hinsert, hinserts⟩ := ih h₂ hrest
      refine ⟨t', ?_, t₁, t₂, by rwa [if_pos hlt], hwindow, hinserts⟩
      unfold Trie.insert Trie.insert_at
      rw [if_pos hlt, hreleases.1]
      show (t₁.insert_window _).bind _ = _
      rw [hwindow]
      exact hinsert
    · obtain ⟨t₂, hwindow, h₂⟩ := h.window (Nat.le_of_not_lt hlt)
      obtain ⟨t', hinsert, hinserts⟩ := ih h₂ hrest
      refine ⟨t', ?_, t, t₂, by rw [if_neg hlt], hwindow, hinserts⟩
      unfold Trie.insert Trie.insert_at
      rw [if_neg hlt]
      show (t.insert_window _).bind _ = _
      rw [hwindow]
      exact hinsert

/-- **An insert whose first window does not fit** ends in the guard. -/
theorem Refines.insert_stopped {tokens : List Token}
    (hlong : capacity ≤ (tokens.take max_trie_depth).length) {fault : Fault}
    (hsqueeze : t.squeeze ((tokens.take t.max_trie_depth).length - t.free_node_count)
      = .error fault) : Trie.insert tokens t = .error fault := by
  have hcount := h.count_eq
  rw [← h.depth_eq] at hlong
  cases tokens with
  | nil =>
    rw [take_nil, length_nil] at hlong
    omega
  | cons token rest =>
    unfold Trie.insert Trie.insert_at
    rw [if_pos (by omega), hsqueeze]
    rfl

end Guard

/-! ## 3. Every trie that can be reached -/

theorem Reaches.refines (hcap : 0 < capacity) (h : Reaches capacity max_trie_depth t) :
    ∃ r, Refines capacity max_trie_depth t r := by
  induction h with
  | new h =>
    obtain ⟨t, hnew, href⟩ := @Refines.new capacity max_trie_depth hcap
    cases hnew.symm.trans h
    exact ⟨_, href⟩
  | @step t t' op _ hstep ih =>
    obtain ⟨r, href⟩ := ih
    have hfit : ∀ tokens, op = .insert tokens → (tokens.take max_trie_depth).length < capacity := by
      rintro tokens rfl
      by_contra hlong
      have hpool := href.sound.linked.pool
      rw [href.capacity_eq] at hpool
      rcases href.squeeze_cases ((tokens.take t.max_trie_depth).length - t.free_node_count) with
        ⟨hlt, -⟩ | ⟨-, hsqueeze⟩ | ⟨-, -, hsqueeze⟩
      · rw [href.depth_eq] at hlt
        omega
      all_goals
        have hinsert : t.step (.insert tokens) = _ :=
          href.insert_stopped (Nat.le_of_not_lt hlong) hsqueeze
        rw [hinsert] at hstep
        exact absurd hstep (by simp)
    rcases href.step hcap hfit with ⟨count, -, -, herror⟩ | ⟨-, t₁, heq, href₁⟩
    · rw [herror] at hstep
      exact absurd hstep (by simp)
    · cases heq.symm.trans hstep
      exact ⟨_, href₁⟩

/-- **The guard of an operation is exact** except where the sum is the capacity or wraps around. -/
theorem guarded_iff (hcap : 0 < capacity) (h : Reaches capacity max_trie_depth t) (op : Op) :
    Guarded t op ↔ Spared t op := by
  obtain ⟨r, href⟩ := h.refines hcap
  cases op with
  | insert tokens =>
    have hpool := href.sound.linked.pool
    have hlength := href.pool_length
    rw [href.capacity_eq] at hpool
    have hwrap := size_t_le (t.free_node_count
      + ((tokens.take t.max_trie_depth).length - t.free_node_count))
    rcases href.squeeze_cases ((tokens.take t.max_trie_depth).length - t.free_node_count) with
      ⟨hlt, -⟩ | ⟨hgt, hsqueeze⟩ | ⟨hge, hle, hsqueeze⟩
    · have hshort : (tokens.take t.max_trie_depth).length < t.node_pool.length := by omega
      refine iff_of_true (Or.inl (href.inserts ?_)) (Or.inl hshort)
      rwa [← href.depth_eq, ← hpool]
    · have hlong : t.node_pool.length ≤ (tokens.take t.max_trie_depth).length := by omega
      rw [Nat.add_sub_of_le (by omega)] at hgt
      refine iff_of_true (Or.inr ⟨href.insert_stopped ?_ hsqueeze, hsqueeze⟩) (Or.inr hgt)
      rwa [← href.depth_eq, ← hpool]
    · rw [Nat.add_sub_of_le (by omega)] at hge hle
      have hinsert := href.insert_stopped (by rwa [← href.depth_eq, ← hpool]) hsqueeze
      refine iff_of_false ?_ (not_or.mpr ⟨Nat.not_lt.mpr hge, Nat.not_lt.mpr hle⟩)
      rintro (⟨t', hbad, -⟩ | ⟨hbad, -⟩)
      all_goals
        rw [hinsert] at hbad
        exact absurd hbad (by simp)
  | squeeze count =>
    rcases href.squeeze_cases count with ⟨hlt, t', -, hreleases, -⟩ | ⟨hgt, hsqueeze⟩ |
      ⟨hge, hle, hsqueeze⟩
    · exact iff_of_true (Or.inl ⟨t', hreleases⟩) (Or.inl hlt)
    · exact iff_of_true (Or.inr hsqueeze) (Or.inr hgt)
    · refine iff_of_false ?_ (not_or.mpr ⟨Nat.not_lt.mpr hge, Nat.not_lt.mpr hle⟩)
      rintro (⟨t', hbad, -⟩ | hbad)
      all_goals
        rw [hsqueeze] at hbad
        exact absurd hbad (by simp)
  | reset =>
    rcases @Refines.step _ _ _ _ href hcap .reset fun tokens hbad => absurd hbad (by simp) with
      ⟨count, hbad, -⟩ | ⟨-, t', heq, -⟩
    · exact absurd hbad (by simp)
    · exact iff_of_true ⟨t', heq⟩ trivial

/-- A new trie of two nodes takes a window of one token. -/
theorem guarded_one : ∃ t, Reaches 2 2 t ∧ Guarded t (.insert [1]) := by
  obtain ⟨t, hnew, href⟩ := @Refines.new 2 2 (by decide)
  refine ⟨t, .new hnew, (guarded_iff (by decide) (.new hnew) (.insert [1])).mpr ?_⟩
  left
  rw [href.depth_eq, href.sound.linked.pool, href.capacity_eq]
  decide

/-- A window of two tokens in a new trie of two nodes takes the back of an empty list, and so does
`squeeze` of one node. -/
theorem guard_counts_root : ∃ t, Reaches 2 2 t ∧ Trie.insert [1, 2] t = .error .undefined ∧
    t.squeeze 1 = .error .undefined ∧ ¬ Guarded t (.insert [1, 2]) ∧ ¬ Guarded t (.squeeze 1) := by
  obtain ⟨t, hnew⟩ : ∃ t, Trie.new 2 2 = .ok t := ⟨_, rfl⟩
  have hinsert : Trie.insert [1, 2] t = .error .undefined := by
    obtain rfl := Except.ok.inj hnew
    rfl
  have hsqueeze : t.squeeze 1 = .error .undefined := by
    obtain rfl := Except.ok.inj hnew
    rfl
  refine ⟨t, .new hnew, hinsert, hsqueeze, ?_, ?_⟩
  · rintro (⟨t', hbad, -⟩ | ⟨hbad, -⟩)
    all_goals
      rw [hinsert] at hbad
      exact absurd hbad (by simp)
  · rintro (⟨t', hbad, -⟩ | hbad)
    all_goals
      rw [hsqueeze] at hbad
      exact absurd hbad (by simp)

end LightningH3.NgramTrie
