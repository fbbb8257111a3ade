/-
Runs of the n-gram trie.

`Refines` connects the trie with the paths it stands for: the global list spells them in order, and
the frequency of a node is the number of windows that went along its path, as an `int32_t`. Each
operation keeps it. Two things can go wrong, both outside the order of the list. `squeeze` counts the
root among what it can release, and adds up in 64 bits, so asking for one node more than there are, or
for so many that the sum wraps around, takes the back of an empty list; and the frequency wraps around
at 2 ^ 31 windows. `Holds` is everything the trie promises after
a run, and `holds_iff` says that these two are the only exceptions.
-/
import LightningH3.NgramTrieEvict

set_option autoImplicit false

namespace LightningH3.NgramTrie

open List

/-! ## 1. A 32-bit count -/

theorem int32_add_one (n : ℕ) : int32 (int32 n + 1) = int32 ((n + 1 : ℕ) : ℤ) := by
  unfold int32
  rw [Int.bmod_add_bmod]
  rfl

theorem int32_eq_iff (n : ℕ) : int32 n = n ↔ n < 2 ^ 31 := by
  unfold int32 Int.bmod
  dsimp only
  split <;> omega

theorem forall₂_imp_of_mem {α β : Type} {R S : α → β → Prop} {l : List α} {u : List β}
    (h : List.Forall₂ R l u) (himp : ∀ a, ∀ b ∈ u, R a b → S a b) : List.Forall₂ S l u := by
  induction h with
  | nil => exact List.Forall₂.nil
  | cons hab _ ih =>
    refine List.Forall₂.cons (himp _ _ mem_cons_self hab) (ih fun a b hb => ?_)
    exact himp a b (mem_cons_of_mem _ hb)

/-! ## 2. The trie stands for its paths -/

/-- **The trie refines the model**: the global list spells the known paths in their order, and every
count is there, as an `int32_t`. -/
structure Refines (capacity max_trie_depth : ℕ) (t : Trie) (r : Recency) : Prop where
  capacity_eq : t.capacity = capacity
  depth_eq : t.max_trie_depth = max_trie_depth
  sound : t.Sound
  spelled : List.Forall₂ (fun path c => t.find path = some c) r.order t.held
  freq : ∀ path, t.freqAt path = int32 (r.passes path)

namespace Refines

variable {capacity max_trie_depth : ℕ} {t : Trie} {r : Recency}

section

variable (h : Refines capacity max_trie_depth t r)
include h

theorem length_eq : r.order.length = t.held.length :=
  h.spelled.length_eq

theorem count_eq : t.free_node_count + 1 + r.order.length = capacity := by
  have hcount := h.sound.linked.count_eq
  rw [← h.length_eq, h.capacity_eq] at hcount
  exact hcount

theorem mem_order_iff (path : List Token) :
    path ∈ r.order ↔ path ≠ [] ∧ ∃ c, t.find path = some c := by
  constructor
  · intro hmem
    obtain ⟨i, hi, rfl⟩ := mem_iff_getElem.mp hmem
    have hi' : i < t.held.length := h.length_eq ▸ hi
    have hat := h.spelled.get hi hi'
    refine ⟨fun hnil => ?_, _, hat⟩
    rw [get_eq_getElem, hnil] at hat
    have hroot : t.root = t.held[i] := Option.some.inj hat
    apply h.sound.linked.root_not_held
    rw [hroot]
    exact getElem_mem hi'
  · rintro ⟨hne, c, hc⟩
    have hheld := h.sound.held_of_find hc hne
    obtain ⟨i, hi, hget⟩ := mem_iff_getElem.mp hheld
    have hi' : i < r.order.length := h.length_eq ▸ hi
    have hat := h.spelled.get hi' hi
    rw [get_eq_getElem, get_eq_getElem, hget] at hat
    rw [h.sound.find_inj hc hat]
    exact getElem_mem hi'

/-- **A window** is the model's window. -/
theorem window {w : List Token} (hfree : w.length ≤ t.free_node_count) :
    ∃ t', t.insert_window w = .ok t' ∧ Refines capacity max_trie_depth t' (r.window w) := by
  obtain ⟨t', path, heq, hgrown, htrail, hheld⟩ := Trie.insert_window_spec h.sound hfree
  refine ⟨t', heq, hgrown.frame.capacity.trans h.capacity_eq,
    hgrown.frame.max_trie_depth.trans h.depth_eq, hgrown.sound, ?_, ?_⟩
  · rw [hheld]
    apply rel_append htrail.spelled
    have hold := h.spelled.imp fun p c hc => hgrown.grows p c hc
    refine rel_filter (fun p c hpc => ?_) hold
    show decide (¬ Along w p) = true ↔ decide (c ∉ path) = true
    rw [decide_eq_true_eq, decide_eq_true_eq, not_iff_not, htrail.mem_iff]
    constructor
    · rintro ⟨hne, hp⟩
      exact ⟨p, hne, hp, hpc⟩
    · rintro ⟨u, hne, hu, hc⟩
      obtain rfl := hgrown.sound.find_inj hc hpc
      exact ⟨hne, hu⟩
  · intro p
    by_cases hp : Along w p
    · have hpass : (r.window w).passes p = r.passes p + 1 := if_pos hp
      rw [hgrown.freq_on p hp, h.freq, int32_add_one, hpass]
    · have hpass : (r.window w).passes p = r.passes p := if_neg hp
      rw [hgrown.freq_off p hp, h.freq, hpass]

/-- **A release** forgets the last path. -/
theorem release_last (hne : r.order ≠ []) :
    ∃ t', t.release_last = .ok t' ∧ Refines capacity max_trie_depth t' r.evict ∧
      t'.free_node_count = t.free_node_count + 1 := by
  have hheld : t.held ≠ [] := by
    intro hnil
    have hlen := h.length_eq
    rw [hnil] at hlen
    exact hne (length_eq_zero_iff.mp hlen)
  obtain ⟨t', last, heq, hrel⟩ := Trie.release_last_spec h.sound hheld
  obtain ⟨order, q, hsplit⟩ := (eq_nil_or_concat' r.order).resolve_left hne
  have hspelled := h.spelled
  rw [hsplit, hrel.held] at hspelled
  have hlen : order.length = t'.held.length := by
    have hlength := hspelled.length_eq
    rw [length_append, length_append, length_singleton, length_singleton]
      at hlength
    omega
  have hfront := forall₂_take_append _ _ _ hspelled
  have hlast := forall₂_drop_append _ _ _ hspelled
  rw [← hlen, take_left] at hfront
  rw [← hlen, drop_left] at hlast
  have hq : t.find q = some last := (forall₂_cons.mp hlast).1
  refine ⟨t', heq, ⟨hrel.frame.capacity.trans h.capacity_eq,
    hrel.frame.max_trie_depth.trans h.depth_eq, hrel.sound h.sound, ?_, ?_⟩, hrel.count⟩
  · show List.Forall₂ _ r.order.dropLast t'.held
    rw [hsplit, dropLast_concat]
    refine forall₂_imp_of_mem hfront fun path c hc hpath => ?_
    exact (hrel.find_iff h.sound).mpr ⟨hpath, ((hrel.mem_held_iff h.sound.linked c).mp hc).2⟩
  · intro path
    have hpasses : r.evict.passes path = if path = q then 0 else r.passes path := by
      show (if r.order.getLast? = some path then 0 else r.passes path) = _
      rw [hsplit, getLast?_concat]
      by_cases hpath : path = q
      · rw [if_pos hpath, if_pos (congrArg some hpath.symm)]
      · rw [if_neg hpath, if_neg fun hbad => hpath (Option.some.inj hbad).symm]
    rw [hrel.freqAt h.sound hq, hpasses]
    split
    · rfl
    · exact h.freq path

end

variable {count : ℕ}

section

variable (h : Refines capacity max_trie_depth t r)
include h

theorem release (hcount : count ≤ r.order.length) : ∃ t', Trie.release count t = .ok t' ∧
      Refines capacity max_trie_depth t' (Recency.evict^[count] r) ∧
      t'.free_node_count = t.free_node_count + count := by
  induction count generalizing t r with
  | zero => exact ⟨t, rfl, h, rfl⟩
  | succ count ih =>
    have hne : r.order ≠ [] := by
      rintro hnil
      rw [hnil] at hcount
      exact absurd hcount (by simp)
    obtain ⟨t₁, hlast, h₁, hfree₁⟩ := h.release_last hne
    have hlen : count ≤ r.evict.order.length := by
      show count ≤ r.order.dropLast.length
      rw [length_dropLast]
      omega
    obtain ⟨t', hrest, h', hfree⟩ := ih h₁ hlen
    refine ⟨t', ?_, h', by omega⟩
    unfold Trie.release
    rw [hlast]
    exact hrest

theorem release_undefined (hcount : r.order.length < count) :
    Trie.release count t = .error .undefined := by
  induction count generalizing t r with
  | zero => exact absurd hcount (Nat.not_lt_zero _)
  | succ count ih =>
    unfold Trie.release
    by_cases hne : r.order = []
    · have hheld : t.held = [] := by
        have hlen := h.length_eq
        rw [hne] at hlen
        exact length_eq_zero_iff.mp hlen.symm
      rw [Trie.release_last_empty hheld]
      rfl
    · obtain ⟨t₁, hlast, h₁, -⟩ := h.release_last hne
      rw [hlast]
      apply ih h₁
      show r.order.dropLast.length < count
      have hpos := length_pos_iff.mpr hne
      rw [length_dropLast]
      omega

theorem squeeze (hcount : count ≤ r.order.length) : ∃ t', t.squeeze count = .ok t' ∧
      Refines capacity max_trie_depth t' (Recency.evict^[count] r) ∧
      t'.free_node_count = t.free_node_count + count := by
  unfold Trie.squeeze
  have hall := h.count_eq
  have hle : size_t (t.free_node_count + count) ≤ capacity :=
    (size_t_le _).trans (by omega)
  rw [h.sound.linked.pool, h.capacity_eq, if_pos hle]
  exact h.release hcount

/-- **Room is made** for a window, and it passes. -/
theorem insert_at {w : List Token} (hfit : w.length < capacity) : ∃ t', t.insert_at w = .ok t' ∧
      Refines capacity max_trie_depth t' (r.insert_at capacity w) := by
  have hall := h.count_eq
  have hroom : capacity - 1 - r.order.length = t.free_node_count := by omega
  unfold Trie.insert_at Recency.insert_at
  rw [hroom]
  by_cases hlt : t.free_node_count < w.length
  · rw [if_pos hlt]
    obtain ⟨t₁, heq, h₁, hfree⟩ := h.squeeze
      (show w.length - t.free_node_count ≤ r.order.length by omega)
    rw [heq]
    exact h₁.window (by omega)
  · rw [if_neg hlt, Nat.sub_eq_zero_of_le (Nat.le_of_not_lt hlt)]
    exact h.window (Nat.le_of_not_lt hlt)

omit h in
/-- The later windows are no longer than the first. -/
theorem length_take_tail_le (n : ℕ) (token : Token) (rest : List Token) :
    (rest.take n).length ≤ ((token :: rest).take n).length := by
  rw [length_take, length_take, length_cons]
  omega

theorem insert {tokens : List Token} (hfit : (tokens.take max_trie_depth).length < capacity) :
    ∃ t', Trie.insert tokens t = .ok t' ∧ Refines capacity max_trie_depth t'
        (r.insert_all capacity (windows max_trie_depth tokens)) := by
  induction tokens generalizing t r with
  | nil => exact ⟨t, rfl, h⟩
  | cons token rest ih =>
    obtain ⟨t₁, heq, h₁⟩ := h.insert_at hfit
    obtain ⟨t', hrest, h'⟩ := ih h₁ (lt_of_le_of_lt (length_take_tail_le _ _ _) hfit)
    rw [← h.depth_eq] at heq
    refine ⟨t', ?_, h'⟩
    unfold Trie.insert
    rw [heq]
    exact hrest

end

end Refines

/-! ## 3. The root alone -/

theorem Trie.start_spec {s : Trie} (hcap : 0 < s.capacity)
    (hpool : s.node_pool = List.range s.capacity) (hcount : s.free_node_count = s.capacity)
    (hlru : s.global_lru = .empty) :
    ∃ t root, s.getNode = .ok (t, root) ∧ { t with root := root }.Sound ∧ t.held = [] ∧
      SameFrame { s with root := root } { t with root := root } ∧
      (∀ id, (t.nodes id).version = (s.nodes id).version) ∧ (t.nodes root).freq = 0 ∧
      ∀ k, t.child root k = none := by
  obtain ⟨n, hn⟩ := Nat.exists_eq_succ_of_ne_zero hcap.ne'
  have hnode : s.node_pool[n]? = some n := by
    rw [hpool, hn, getElem?_range (Nat.lt_succ_self n)]
  have hget := getNode_eq (hcount.trans hn) hnode
  have hheld : s.held = [] := by
    unfold held
    rw [hlru, CellList.values_empty]
  have hroot : ({ s.put n { TrieNode.new with version := (s.nodes n).version } with
      free_node_count := n } : Trie).nodes n = { TrieNode.new with
        version := (s.nodes n).version } := Function.update_self _ _ _
  refine ⟨_, n, hget, ⟨?_, ?_⟩, hheld, ⟨rfl, rfl, rfl, rfl⟩, ?_, by rw [hroot]; rfl, ?_⟩
  · have hchild : ∀ p k c, p = n → ({ s.put n { TrieNode.new with version :=
        (s.nodes n).version } with free_node_count := n } : Trie).child p k = some c → False := by
      rintro p k c rfl hc
      unfold child at hc
      rw [hroot] at hc
      exact absurd hc (by rw [show TrieNode.new.child = OrderedDict.empty from rfl]; simp)
    have hlive : ∀ p, p = n ∨ p ∈ s.held → p = n := by
      intro p hp
      rw [hheld] at hp
      exact hp.resolve_right not_mem_nil
    refine ⟨?_, ?_, ?_, ?_, ?_, ?_, ?_, ?_, ?_⟩
    · show s.node_pool.length = s.capacity
      rw [hpool, length_range]
    · show n ≤ s.capacity
      omega
    · show ((s.node_pool.take n) ++ n :: s.held).Perm (List.range s.capacity)
      rw [hheld, hpool, hn, take_range, Nat.min_eq_left (Nat.le_succ n), range_succ]
    · intro p k c hp hc
      exact (hchild p k c (hlive p hp) hc).elim
    · intro c hc
      exact absurd (show c ∈ s.held from hc) (by rw [hheld]; exact not_mem_nil)
    · intro c hc
      exact absurd (show c ∈ s.held from hc) (by rw [hheld]; exact not_mem_nil)
    · intro c hc
      exact absurd (show c ∈ s.held from hc) (by rw [hheld]; exact not_mem_nil)
    · intro p hp
      obtain rfl := hlive p hp
      rw [hroot]
      refine ⟨nodup_nil, fun c => ⟨fun hbad => absurd hbad not_mem_nil, ?_⟩⟩
      rintro ⟨k, hk⟩
      exact (hchild p k c rfl hk).elim
    · intro p hp
      obtain rfl := hlive p hp
      rw [hroot]
      refine ⟨List.Pairwise.nil, fun c => ⟨fun hbad => absurd hbad not_mem_nil, ?_⟩⟩
      rintro ⟨k, hk⟩
      exact (hchild p k c rfl hk).elim
  · intro l₁ c l₂ hsplit
    have hnil : s.held = l₁ ++ c :: l₂ := hsplit
    rw [hheld] at hnil
    exact absurd hnil.symm (by simp)
  · intro id
    show (Function.update s.nodes n _ id).version = _
    by_cases hid : id = n
    · rw [hid, Function.update_self]
    · rw [Function.update_of_ne hid]
  · intro k
    unfold child
    rw [hroot]
    exact OrderedDict.get?_empty k

variable {t : Trie}

variable {capacity max_trie_depth : ℕ}

theorem Refines.start (s : Trie) (hcap : 0 < capacity) (hcapacity : s.capacity = capacity)
    (hdepth : s.max_trie_depth = max_trie_depth) (hpool : s.node_pool = List.range capacity)
    (hcount : s.free_node_count = capacity) (hlru : s.global_lru = .empty) :
    ∃ t root, s.getNode = .ok (t, root) ∧
      Refines capacity max_trie_depth { t with root := root } .empty := by
  subst hcapacity
  obtain ⟨t, root, hget, hsound, hheld, hframe, -, hfreq, hchild⟩ :=
    Trie.start_spec hcap hpool hcount hlru
  refine ⟨t, root, hget, hframe.capacity, hframe.max_trie_depth.trans hdepth, hsound, ?_, ?_⟩
  · show List.Forall₂ _ [] t.held
    rw [hheld]
    exact List.Forall₂.nil
  · intro path
    show _ = int32 0
    cases path with
    | nil => exact (Trie.freqAt_of_find rfl).trans hfreq
    | cons k path =>
      apply Trie.freqAt_of_none
      show Option.bind (t.child root k) _ = none
      rw [hchild k, Option.bind_none]

theorem Refines.new (hcap : 0 < capacity) : ∃ t, Trie.new capacity max_trie_depth = .ok t ∧
    Refines capacity max_trie_depth t .empty := by
  obtain ⟨t, root, hget, href⟩ := Refines.start {
    nodes := fun _ => TrieNode.new
    capacity := capacity
    max_trie_depth := max_trie_depth
    node_pool := List.range capacity
    free_node_count := capacity
    global_lru := .empty
    root := 0
    trie_epoch := 1 } hcap rfl rfl rfl rfl rfl
  refine ⟨_, ?_, href⟩
  unfold Trie.new
  dsimp only
  rw [hget]
  rfl

/-! ## 4. Runs -/

/-- A caller's step. The error of `squeeze` comes before anything is written, and the caller goes
on. -/
def Trie.step (t : Trie) : Op → Except Fault Trie
  | .insert tokens => Trie.insert tokens t
  | .squeeze count =>
    match t.squeeze count with
    | .error .insufficient_node_size => .ok t
    | result => result
  | .reset => t.reset

/-- A run of a new trie. -/
def run (capacity max_trie_depth : ℕ) (ops : List Op) : Except Fault Trie := do
  let t ← Trie.new capacity max_trie_depth
  ops.foldlM Trie.step t

theorem run_snoc (capacity max_trie_depth : ℕ) (ops : List Op) (op : Op) :
    run capacity max_trie_depth (ops ++ [op])
      = (run capacity max_trie_depth ops).bind fun t => t.step op := by
  unfold run
  cases Trie.new capacity max_trie_depth with
  | error e => rfl
  | ok t =>
    show List.foldlM Trie.step t (ops ++ [op]) = (List.foldlM Trie.step t ops).bind _
    rw [foldlM_append]
    cases List.foldlM Trie.step t ops with
    | error e => rfl
    | ok t' =>
      show (Trie.step t' op).bind pure = Trie.step t' op
      cases Trie.step t' op <;> rfl

theorem recency_run_snoc (capacity max_trie_depth : ℕ) (ops : List Op) (op : Op) :
    Recency.run capacity max_trie_depth (ops ++ [op])
      = (Recency.run capacity max_trie_depth ops).step capacity max_trie_depth op := by
  unfold Recency.run
  rw [foldl_append]
  rfl

/-- **What `squeeze` is asked for** is there, or the sum in its guard, which wraps around at 64 bits,
is above the capacity. -/
def Covered (capacity : ℕ) (r : Recency) (count : ℕ) : Prop :=
  count ≤ r.order.length ∨ capacity < size_t (capacity - 1 - r.order.length + count)

instance (capacity : ℕ) (r : Recency) (count : ℕ) : Decidable (Covered capacity r count) :=
  inferInstanceAs (Decidable (_ ∨ _))

/-- No step gets past the guard of `squeeze` with more than there is below the root. -/
def NoOverask (capacity max_trie_depth : ℕ) (ops : List Op) : Prop :=
  ∀ before count after, ops = before ++ Op.squeeze count :: after →
    Covered capacity (Recency.run capacity max_trie_depth before) count

theorem noOverask_snoc {ops : List Op} {op : Op} :
    NoOverask capacity max_trie_depth (ops ++ [op]) ↔ NoOverask capacity max_trie_depth ops ∧
      ∀ count, op = .squeeze count →
        Covered capacity (Recency.run capacity max_trie_depth ops) count := by
  constructor
  · intro h
    refine ⟨fun before count after heq => ?_, fun count heq => ?_⟩
    · apply h before count (after ++ [op])
      rw [heq, append_assoc, cons_append]
    · exact h ops count [] (by rw [heq])
  · rintro ⟨hops, hop⟩ before count after heq
    rcases eq_nil_or_concat' after with rfl | ⟨after, last, rfl⟩
    · obtain ⟨rfl, hlast⟩ := append_inj' heq rfl
      exact hop count (head_eq_of_cons_eq hlast)
    · rw [← cons_append, ← append_assoc] at heq
      obtain ⟨hinit, -⟩ := append_inj' heq rfl
      exact hops before count after hinit

variable {r : Recency}

/-- **A step** is the model's, or it takes the back of an empty list. -/
theorem Refines.step (h : Refines capacity max_trie_depth t r) (hcap : 0 < capacity) {op : Op}
    (hfit : ∀ tokens, op = .insert tokens → (tokens.take max_trie_depth).length < capacity) :
    (∃ count, op = .squeeze count ∧ ¬ Covered capacity r count ∧ t.step op = .error .undefined) ∨
    (∀ count, op = .squeeze count → Covered capacity r count) ∧ ∃ t', t.step op = .ok t' ∧
      Refines capacity max_trie_depth t' (r.step capacity max_trie_depth op) := by
  cases op with
  | insert tokens => exact .inr ⟨fun _ hbad => absurd hbad (by simp), h.insert (hfit tokens rfl)⟩
  | squeeze count =>
    have hcases : ∀ c, Op.squeeze count = .squeeze c → c = count := fun _ heq =>
      (Op.squeeze.inj heq).symm
    have hfree : t.free_node_count = capacity - 1 - r.order.length := by
      have hall := h.count_eq
      omega
    unfold Trie.step Recency.step
    dsimp only
    by_cases hle : count ≤ r.order.length
    · obtain ⟨t', heq, h', -⟩ := h.squeeze hle
      rw [heq, if_pos hle]
      exact .inr ⟨fun c hc => hcases c hc ▸ .inl hle, t', rfl, h'⟩
    · unfold Trie.squeeze
      rw [h.sound.linked.pool, h.capacity_eq, hfree, if_neg hle]
      by_cases hover : capacity < size_t (capacity - 1 - r.order.length + count)
      · rw [if_neg (Nat.not_le.mpr hover)]
        exact .inr ⟨fun c hc => hcases c hc ▸ .inr hover, t, rfl, h⟩
      · rw [if_pos (Nat.le_of_not_lt hover), h.release_undefined (Nat.lt_of_not_le hle)]
        exact .inl ⟨count, rfl, not_or.mpr ⟨hle, hover⟩, rfl⟩
  | reset =>
    refine .inr ⟨fun _ hbad => absurd hbad (by simp), ?_⟩
    have hcapacity := h.capacity_eq
    obtain ⟨t', root, hget, href⟩ := Refines.start
      { t with
        trie_epoch := t.trie_epoch + 1
        global_lru := .empty
        node_pool := List.range t.capacity
        free_node_count := t.capacity }
      hcap hcapacity h.depth_eq (congrArg List.range hcapacity) hcapacity rfl
    refine ⟨_, ?_, href⟩
    show Trie.reset t = _
    unfold Trie.reset
    rw [hget]
    rfl

/-- **A run** refines the model's until a step gets past the guard with too many. -/
theorem run_spec (hdepth : max_trie_depth < capacity) (ops : List Op) :
    (NoOverask capacity max_trie_depth ops ∧ ∃ t, run capacity max_trie_depth ops = .ok t ∧
      Refines capacity max_trie_depth t (Recency.run capacity max_trie_depth ops)) ∨
    (¬ NoOverask capacity max_trie_depth ops ∧
      run capacity max_trie_depth ops = .error .undefined) := by
  induction ops using List.reverseRecOn with
  | nil =>
    left
    refine ⟨fun before count after heq => absurd heq (by simp), ?_⟩
    obtain ⟨t, hnew, href⟩ := Refines.new (Nat.zero_lt_of_lt hdepth)
    refine ⟨t, ?_, href⟩
    unfold run
    rw [hnew]
    rfl
  | append_singleton ops op ih =>
    rw [run_snoc, recency_run_snoc, noOverask_snoc]
    rcases ih with ⟨hno, t, hrun, href⟩ | ⟨hover, hrun⟩
    · rw [hrun]
      have hstep := @Refines.step _ _ _ _ href (Nat.zero_lt_of_lt hdepth) op
        fun _ _ => lt_of_le_of_lt (length_take_le _ _) hdepth
      rcases hstep with ⟨count, heq, hcount, hstep⟩ | ⟨hcovered, hstep⟩
      · right
        exact ⟨fun hboth => hcount (hboth.2 _ heq), hstep⟩
      · left
        exact ⟨⟨hno, hcovered⟩, hstep⟩
    · right
      rw [hrun]
      exact ⟨fun hboth => hover hboth.1, rfl⟩

/-! ## 5. What the trie promises -/

/-- A node at the end of a path from the root. -/
def Trie.Reachable (t : Trie) (id : NodeId) : Prop := ∃ path, t.find path = some id

/-- **The trie is intact**: the pool is partitioned, the collections of each node agree, the global
list holds every node below the root with parents first, what `squeeze` releases is a leaf, and each
frequency is the number of windows along its path. -/
structure Intact (t : Trie) (r : Recency) : Prop where
  free_nodup : t.free.Nodup
  pool : ∀ id, id < t.capacity ↔ id ∈ t.free ∨ t.Reachable id
  free_not_reachable : ∀ id ∈ t.free, ¬ t.Reachable id
  children : ∀ p, t.Reachable p →
    (t.nodes p).lru.values.Nodup ∧ (t.nodes p).sorted_children.Pairwise (Before t.nodes) ∧
      ∀ c, (c ∈ (t.nodes p).lru.values ↔ ∃ k, t.child p k = some c) ∧
        (c ∈ (t.nodes p).sorted_children ↔ ∃ k, t.child p k = some c)
  global_nodup : t.global_lru.values.Nodup
  global : ∀ id, id ∈ t.global_lru.values ↔ t.Reachable id ∧ id ≠ t.root
  parent_first : ∀ p k c, t.Reachable p → t.child p k = some c →
    ∃ l₁ l₂, t.global_lru.values = l₁ ++ c :: l₂ ∧ (p = t.root ∨ p ∈ l₁)
  last_is_leaf : ∀ last, t.global_lru.back? = some last → ∀ k, t.child last k = none
  no_child_error : ∀ count, t.squeeze count ≠ .error .still_has_child_nodes
  freq : ∀ path c, path ≠ [] → t.find path = some c → (t.nodes c).freq = r.passes path

/-- Everything promised after a run: it ends without an error, the trie is intact, and where the last
step was an insert, its last windows are found in full as long as together they fit. -/
def Holds (capacity max_trie_depth : ℕ) (ops : List Op) : Prop :=
  ∃ t, run capacity max_trie_depth ops = .ok t ∧
    Intact t (Recency.run capacity max_trie_depth ops) ∧
    ∀ before tokens, ops = before ++ [.insert tokens] →
      ∀ ws last, windows max_trie_depth tokens = ws ++ last →
        (last.map List.length).sum ≤ capacity - 1 →
        ∀ w ∈ last, ∀ path, Along w path → ∃ c, t.find path = some c

/-- The two exceptions left out: no step gets past the guard of `squeeze` with more than there is
below the root, and along no known path have 2 ^ 31 windows gone. -/
def Careful (capacity max_trie_depth : ℕ) (ops : List Op) : Prop :=
  NoOverask capacity max_trie_depth ops ∧
    ∀ path ∈ (Recency.run capacity max_trie_depth ops).order,
      (Recency.run capacity max_trie_depth ops).passes path < 2 ^ 31

theorem reachable_iff (h : t.Sound) (id : NodeId) : t.Reachable id ↔ t.Live id := by
  constructor
  · rintro ⟨path, hpath⟩
    exact h.live_of_find hpath
  · rintro (rfl | hheld)
    · exact ⟨[], rfl⟩
    · exact h.tree.exists_path hheld

section

variable (h : Refines capacity max_trie_depth t r)
include h

theorem Refines.no_child_error (count : ℕ) : t.squeeze count ≠ .error .still_has_child_nodes := by
  intro hbad
  by_cases hle : count ≤ r.order.length
  · obtain ⟨t', heq, -⟩ := h.squeeze hle
    rw [heq] at hbad
    exact absurd hbad (by simp)
  · unfold Trie.squeeze at hbad
    split at hbad
    · rw [h.release_undefined (Nat.lt_of_not_le hle)] at hbad
      exact absurd hbad (by simp)
    · exact absurd hbad (by simp)

theorem Refines.freq_eq {path : List Token} {c : NodeId} (hc : t.find path = some c) :
    (t.nodes c).freq = r.passes path ↔ r.passes path < 2 ^ 31 := by
  rw [← Trie.freqAt_of_find hc, h.freq, int32_eq_iff]

theorem Refines.intact (hpasses : ∀ path ∈ r.order, r.passes path < 2 ^ 31) : Intact t r := by
  have hlink := h.sound.linked
  have hreach := reachable_iff h.sound
  refine ⟨?_, fun id => ?_, fun id hid hbad => ?_, fun p hp => ?_, hlink.held_nodup, fun id => ?_,
    fun p k c hp hc => ?_, fun last hlast => ?_, h.no_child_error, fun path c hne hc => ?_⟩
  · exact (nodup_append.mp hlink.nodup).1
  · rw [hreach, ← mem_range, ← hlink.partition.mem_iff, mem_append, mem_cons]
    exact Iff.rfl
  · exact hlink.free_not_live hid ((hreach id).mp hbad)
  · obtain ⟨hnodup, hmem⟩ := hlink.recency p ((hreach p).mp hp)
    obtain ⟨hpair, hmem'⟩ := hlink.sorted p ((hreach p).mp hp)
    exact ⟨hnodup, hpair, fun c => ⟨hmem c, hmem' c⟩⟩
  · rw [hreach]
    constructor
    · intro hid
      refine ⟨Or.inr hid, ?_⟩
      rintro rfl
      exact hlink.root_not_held hid
    · rintro ⟨hlive, hne⟩
      exact hlive.resolve_left hne
  · obtain ⟨hheld, hparent, -⟩ := hlink.down p k c ((hreach p).mp hp) hc
    obtain ⟨l₁, l₂, hsplit⟩ := append_of_mem hheld
    refine ⟨l₁, l₂, hsplit, ?_⟩
    rw [← hparent]
    exact h.sound.ordered l₁ c l₂ hsplit
  · have hsplit : t.held = t.held.dropLast ++ [last] := (dropLast_append_getLast? last hlast).symm
    exact h.sound.last_is_leaf hsplit
  · exact (h.freq_eq hc).mpr (hpasses path ((h.mem_order_iff path).mpr ⟨hne, c, hc⟩))

end

theorem Holds.passes_lt {ops : List Op} (h : Holds capacity max_trie_depth ops)
    (hdepth : max_trie_depth < capacity) : ∀ path ∈ (Recency.run capacity max_trie_depth ops).order,
      (Recency.run capacity max_trie_depth ops).passes path < 2 ^ 31 := by
  obtain ⟨t, hrun, hintact, -⟩ := h
  intro path hpath
  rcases run_spec hdepth ops with ⟨-, t', hrun', href⟩ | ⟨-, hrun'⟩
  · cases hrun.symm.trans hrun'
    obtain ⟨hne, c, hc⟩ := (href.mem_order_iff path).mp hpath
    exact (href.freq_eq hc).mp (hintact.freq path c hne hc)
  · rw [hrun] at hrun'
    exact absurd hrun' (by simp)

/-- **What the trie promises holds after a run exactly where the run is careful.** -/
theorem holds_iff (capacity max_trie_depth : ℕ) (hdepth : max_trie_depth < capacity)
    (ops : List Op) : Holds capacity max_trie_depth ops ↔ Careful capacity max_trie_depth ops := by
  rcases run_spec hdepth ops with ⟨hno, t, hrun, href⟩ | ⟨hover, hrun⟩
  · constructor
    · intro h
      exact ⟨hno, h.passes_lt hdepth⟩
    · rintro ⟨-, hpasses⟩
      refine ⟨t, hrun, href.intact hpasses, ?_⟩
      rintro before tokens rfl ws last hwindows hfit w hw path hpath
      apply fun hmem => ((href.mem_order_iff path).mp hmem).2
      rw [recency_run_snoc]
      unfold Recency.step
      dsimp only
      rw [hwindows]
      exact Recency.mem_insert_all _ ws last hfit hw hpath
  · constructor
    · rintro ⟨t', hrun', -⟩
      rw [hrun] at hrun'
      exact absurd hrun' (by simp)
    · rintro ⟨hno, -⟩
      exact absurd hno hover

/-- A run with an eviction in the middle of an insert, a release and a reset. -/
theorem holds_small : Holds 4 2 [.insert [7, 8, 7], .squeeze 1, .reset, .insert [5]] := by
  apply (holds_iff 4 2 (by decide) _).mpr
  refine ⟨?_, by decide⟩
  have hnone : NoOverask 4 2 ([] ++ [Op.insert [7, 8, 7]]) :=
    noOverask_snoc.mpr ⟨fun before count after heq => absurd heq (by simp),
      fun count h => absurd h (by simp)⟩
  have hsqueeze := noOverask_snoc.mpr ⟨hnone, fun count (h : Op.squeeze 1 = .squeeze count) =>
    Op.squeeze.inj h ▸ by decide⟩
  have hreset := noOverask_snoc.mpr ⟨hsqueeze, fun count (h : Op.reset = .squeeze count) =>
    absurd h (by simp)⟩
  exact noOverask_snoc.mpr ⟨hreset, fun count (h : Op.insert [5] = .squeeze count) =>
    absurd h (by simp)⟩

theorem run_replicate (n : ℕ) :
    (Recency.run 4 2 (List.replicate (n + 1) (.insert [7]))).order = [[7]] ∧
      (Recency.run 4 2 (List.replicate (n + 1) (.insert [7]))).passes [7] = n + 1 := by
  have hstep : ∀ r : Recency, r.order.length ≤ 1 →
      (r.step 4 2 (.insert [7])).order = [7] :: r.order.filter (fun p => decide (¬ Along [7] p)) ∧
      (r.step 4 2 (.insert [7])).passes [7] = r.passes [7] + 1 := by
    intro r hr
    have hnone : [7].length - (4 - 1 - r.order.length) = 0 := by
      show 1 - (4 - 1 - r.order.length) = 0
      omega
    have heq : r.step 4 2 (.insert [7]) = (Recency.evict^[[7].length - (4 - 1 - r.order.length)] r).window [7] := rfl
    rw [heq, hnone]
    exact ⟨rfl, rfl⟩
  induction n with
  | zero => exact ⟨by decide, by decide⟩
  | succ n ih =>
    obtain ⟨horder, hpasses⟩ := ih
    rw [replicate_succ', recency_run_snoc]
    obtain ⟨horder', hpasses'⟩ := hstep _ (by rw [horder]; exact Nat.le_refl 1)
    rw [horder', hpasses', horder, hpasses]
    exact ⟨by decide, rfl⟩

/-- **Runs that break the promises**: a new trie is asked for one node, and there is none but the
root; it is asked for so many that the sum in the guard wraps around; and 2 ^ 31 windows go along one
path. -/
theorem overasked_or_overflown : ¬ Holds 3 2 [.squeeze 1] ∧ ¬ Holds 3 2 [.squeeze (2 ^ 64 - 1)] ∧
    ¬ Holds 4 2 (List.replicate (2 ^ 31) (.insert [7])) := by
  have hover : ∀ count, ¬ Covered 3 (Recency.run 3 2 []) count → ¬ Holds 3 2 [.squeeze count] := by
    rintro count hcount ⟨t, hrun, -⟩
    rcases run_spec (show 2 < 3 by decide) [.squeeze count] with ⟨hno, -⟩ | ⟨-, herror⟩
    · exact hcount (hno [] count [] rfl)
    · rw [herror] at hrun
      exact absurd hrun (by simp)
  refine ⟨hover 1 (by decide), hover (2 ^ 64 - 1) (by decide), ?_⟩
  · intro h
    have hlt := h.passes_lt (by decide) [7]
    have hsucc : (2 : ℕ) ^ 31 = (2 ^ 31 - 1) + 1 := by decide
    rw [hsucc] at hlt
    obtain ⟨horder, hpasses⟩ := run_replicate (2 ^ 31 - 1)
    rw [horder, hpasses] at hlt
    exact absurd (hlt mem_cons_self) (by decide)

end LightningH3.NgramTrie
