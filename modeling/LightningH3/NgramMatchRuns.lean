/-
Requests and the trie they match in, in any order of steps.
-/
import LightningH3.NgramMatch
import LightningH3.NgramTrieRuns

set_option autoImplicit false

namespace LightningH3.NgramTrie

/-! ## 1. What becomes of a reference -/

/-- **What is seen of a later trie**: within an epoch, versions only grow, and where a node's version
stays its path leads to it as before. -/
structure After (t t' : Trie) : Prop where
  sound : t'.Sound
  capacity : t'.capacity = t.capacity
  depth : t'.max_trie_depth = t.max_trie_depth
  epoch_le : t.trie_epoch ≤ t'.trie_epoch
  version_le : t'.trie_epoch = t.trie_epoch → ∀ id, (t.nodes id).version ≤ (t'.nodes id).version
  find : t'.trie_epoch = t.trie_epoch → ∀ path id, t.find path = some id →
    (t'.nodes id).version = (t.nodes id).version → t'.find path = some id

namespace After

variable {t : Trie}

theorem refl (h : t.Sound) : After t t :=
  ⟨h, rfl, rfl, Nat.le_refl _, fun _ _ => Nat.le_refl _, fun _ _ _ hfind _ => hfind⟩

theorem trans {t' t'' : Trie} (h : After t t') (h' : After t' t'') : After t t'' := by
  have hsame : t''.trie_epoch = t.trie_epoch →
      t'.trie_epoch = t.trie_epoch ∧ t''.trie_epoch = t'.trie_epoch := by
    intro heq
    have hle := h.epoch_le
    have hle' := h'.epoch_le
    omega
  refine ⟨h'.sound, h'.capacity.trans h.capacity, h'.depth.trans h.depth,
    h.epoch_le.trans h'.epoch_le, fun heq id => ?_, fun heq path id hfind hversion => ?_⟩
  · obtain ⟨h₁, h₂⟩ := hsame heq
    exact (h.version_le h₁ id).trans (h'.version_le h₂ id)
  · obtain ⟨h₁, h₂⟩ := hsame heq
    have hle := h.version_le h₁ id
    have hle' := h'.version_le h₂ id
    exact h'.find h₂ path id (h.find h₁ path id hfind (by omega)) (by omega)

theorem stateOk {t' : Trie} (h : After t t') {state : MatchState} {context : List Token}
    (hok : t.StateOk state context) : t'.StateOk state context := by
  have hsame : state.trie_epoch = t'.trie_epoch →
      state.trie_epoch = t.trie_epoch ∧ t'.trie_epoch = t.trie_epoch := by
    intro heq
    have hle := hok.epoch_le
    have hle' := h.epoch_le
    omega
  refine ⟨hok.processed, hok.epoch_le.trans h.epoch_le, fun heq => ?_, hok.empty,
    fun heq i ref node href hptr => ?_⟩
  · rw [h.depth]
    exact hok.length (hsame heq).1
  · obtain ⟨hstate, htrie⟩ := hsame heq
    obtain ⟨hle, hfind⟩ := hok.points hstate i ref node href hptr
    have hgrow := h.version_le htrie node
    exact ⟨hle.trans hgrow, fun hversion => h.find htrie _ node (hfind (by omega)) (by omega)⟩

end After

namespace Trie

variable {t t' : Trie}

theorem Released.after {last : NodeId} (h : Released t last t') (hsound : t.Sound) :
    After t t' := by
  refine ⟨h.sound hsound, h.frame.capacity, h.frame.max_trie_depth, Nat.le_of_eq h.frame.epoch.symm, fun _ id => ?_,
    fun _ path id hfind hversion => ?_⟩
  · by_cases hid : id = last
    · rw [hid, h.version_last]
      exact Nat.le_succ _
    · rw [(h.records hid).2.2.2.2.2]
  · refine (h.find_iff hsound).mpr ⟨hfind, ?_⟩
    rintro rfl
    rw [h.version_last] at hversion
    omega

theorem Grown.after {on : List Token → Prop} (h : Grown t t' on) : After t t' :=
  ⟨h.sound, h.frame.capacity, h.frame.max_trie_depth, Nat.le_of_eq h.frame.epoch.symm,
    fun _ id => Nat.le_of_eq (h.version id).symm, fun _ path id hfind _ => h.grows path id hfind⟩

theorem after_release_last (h : t.Sound) (heq : t.release_last = .ok t') :
    After t t' ∧ t'.free_node_count = t.free_node_count + 1 := by
  by_cases hne : t.held = []
  · rw [release_last_empty hne] at heq
    exact absurd heq (by simp)
  · obtain ⟨t₁, last, hok, hrel⟩ := release_last_spec h hne
    cases hok.symm.trans heq
    exact ⟨hrel.after h, hrel.count⟩

theorem after_release (count : ℕ) {t t' : Trie} : t.Sound → release count t = .ok t' →
    After t t' ∧ t'.free_node_count = t.free_node_count + count := by
  induction count generalizing t t' with
  | zero =>
    intro h heq
    cases heq
    exact ⟨After.refl h, rfl⟩
  | succ count ih =>
    intro h heq
    unfold release at heq
    cases hlast : t.release_last with
    | error e =>
      rw [hlast] at heq
      exact absurd heq (by simp [bind, Except.bind])
    | ok t₁ =>
      rw [hlast] at heq
      obtain ⟨hafter, hfree⟩ := after_release_last h hlast
      obtain ⟨hafter', hfree'⟩ := ih hafter.sound heq
      exact ⟨hafter.trans hafter', by omega⟩

theorem after_squeeze {count : ℕ} (h : t.Sound) (heq : t.squeeze count = .ok t') :
    After t t' ∧ t'.free_node_count = t.free_node_count + count := by
  unfold squeeze at heq
  split at heq
  · exact after_release count h heq
  · exact absurd heq (by simp)

theorem after_insert_at {window : List Token} (h : t.Sound) (heq : t.insert_at window = .ok t') :
    After t t' := by
  have hwindow : ∀ {s : Trie}, s.Sound → window.length ≤ s.free_node_count →
      s.insert_window window = .ok t' → After s t' := by
    intro s hs hfree hok
    obtain ⟨t₁, path, hok', hgrown, -⟩ := insert_window_spec hs hfree
    cases hok'.symm.trans hok
    exact hgrown.after
  unfold insert_at at heq
  split at heq
  · next hlt =>
    cases hsqueeze : t.squeeze (window.length - t.free_node_count) with
    | error e =>
      rw [hsqueeze] at heq
      exact absurd heq (by simp [bind, Except.bind])
    | ok t₁ =>
      rw [hsqueeze] at heq
      obtain ⟨hafter, hfree⟩ := after_squeeze h hsqueeze
      exact hafter.trans (hwindow hafter.sound (by omega) heq)
  · next hle => exact hwindow h (Nat.le_of_not_lt hle) heq

theorem after_insert (tokens : List Token) {t t' : Trie} : t.Sound →
    Trie.insert tokens t = .ok t' → After t t' := by
  induction tokens generalizing t t' with
  | nil =>
    intro h heq
    cases heq
    exact After.refl h
  | cons token rest ih =>
    intro h heq
    unfold Trie.insert at heq
    cases hat : t.insert_at ((token :: rest).take t.max_trie_depth) with
    | error e =>
      rw [hat] at heq
      exact absurd heq (by simp [bind, Except.bind])
    | ok t₁ =>
      rw [hat] at heq
      have hafter := after_insert_at h hat
      exact hafter.trans (ih hafter.sound heq)

theorem after_reset (h : t.Sound) (heq : t.reset = .ok t') : After t t' := by
  have hcap : 0 < t.capacity := Nat.zero_lt_of_lt (h.linked.lt_capacity_of_live (Or.inl rfl))
  obtain ⟨t₁, root, hget, hsound, -, hframe, -⟩ := start_spec (s := { t with
    trie_epoch := t.trie_epoch + 1
    global_lru := .empty
    node_pool := List.range t.capacity
    free_node_count := t.capacity }) hcap rfl rfl rfl
  have hok : t.reset = .ok { t₁ with root := root } := by
    unfold reset
    rw [hget]
    rfl
  cases hok.symm.trans heq
  have hepoch : t₁.trie_epoch = t.trie_epoch + 1 := hframe.epoch
  refine ⟨hsound, hframe.capacity, hframe.max_trie_depth, ?_, fun hsame => ?_, fun hsame => ?_⟩
  · show t.trie_epoch ≤ t₁.trie_epoch
    omega
  · have hsame : t₁.trie_epoch = t.trie_epoch := hsame
    omega
  · have hsame : t₁.trie_epoch = t.trie_epoch := hsame
    omega

theorem after_step {op : Op} (h : t.Sound) (heq : t.step op = .ok t') : After t t' := by
  cases op with
  | insert tokens => exact after_insert tokens h heq
  | squeeze count =>
    unfold step at heq
    dsimp only at heq
    split at heq
    · cases heq
      exact After.refl h
    · exact (after_squeeze h heq).1
  | reset => exact after_reset h heq

end Trie

/-! ## 2. Requests -/

/-- A trie, the match states of its requests, and what each request's context is by now. -/
structure System where
  trie : Trie
  states : ℕ → MatchState
  contexts : ℕ → List Token

/-- What is done: a step on the trie, or a call of `match` for a request whose context has grown by the
tokens `appended`, with the last `len` tokens or more where fewer would not do. -/
inductive Action
  | op (op : Op)
  | match_call (req : ℕ) (appended : List Token) (len : ℕ)

namespace System

/-- The context of a request after the appended tokens. -/
def context (s : System) (req : ℕ) (appended : List Token) : List Token :=
  s.contexts req ++ appended

/-- The tail that is passed: at least `min(total_len, max_trie_depth)` tokens. -/
def tail (s : System) (req : ℕ) (appended : List Token) (len : ℕ) : List Token :=
  (s.context req appended).rtake
    (max len (min (s.context req appended).length s.trie.max_trie_depth))

/-- A step. The error of a refused `insert` or `squeeze` comes before anything is written, and the
caller goes on. -/
def step (s : System) : Action → Except Fault System
  | .op op =>
    match s.trie.step op with
    | .ok trie => .ok { s with trie := trie }
    | .error .insufficient_node_size => .ok s
    | .error fault => .error fault
  | .match_call req appended len =>
    let result := s.trie.match_ (s.tail req appended len) (s.states req)
      (s.context req appended).length
    .ok { s with
      states := Function.update s.states req result.2
      contexts := Function.update s.contexts req (s.context req appended) }

/-- A run of a new trie, with no request known. -/
def run (capacity max_trie_depth : ℕ) (actions : List Action) : Except Fault System := do
  let trie ← Trie.new capacity max_trie_depth
  actions.foldlM step { trie := trie, states := fun _ => {}, contexts := fun _ => [] }

/-- Every request's state is good for its context. -/
structure Good (s : System) : Prop where
  sound : s.trie.Sound
  state : ∀ req, s.trie.StateOk (s.states req) (s.contexts req)

variable {s : System}

theorem Good.after (h : s.Good) {trie : Trie} (hafter : After s.trie trie) :
    Good { s with trie := trie } :=
  ⟨hafter.sound, fun req => hafter.stateOk (h.state req)⟩

theorem Good.step {s' : System} {action : Action} (h : s.Good) (heq : s.step action = .ok s') :
    s'.Good := by
  cases action with
  | op op =>
    unfold System.step at heq
    dsimp only at heq
    split at heq
    · next trie hstep =>
      cases heq
      exact h.after (Trie.after_step h.sound hstep)
    · cases heq
      exact h
    · exact absurd heq (by simp)
  | match_call req appended len =>
    cases heq
    obtain ⟨state', hmatch, hok, -⟩ := Trie.match_spec (h.state req) appended
      (Nat.le_max_right len (min (s.context req appended).length s.trie.max_trie_depth))
    refine ⟨h.sound, fun other => ?_⟩
    dsimp only
    by_cases hreq : other = req
    · subst hreq
      rw [Function.update_self, Function.update_self]
      unfold tail context
      unfold context at hmatch
      rw [hmatch]
      exact hok
    · rw [Function.update_of_ne hreq, Function.update_of_ne hreq]
      exact h.state other

/-- **In every reachable state** the states of all requests are good. -/
theorem good_of_run {capacity max_trie_depth : ℕ} {actions : List Action}
    (heq : run capacity max_trie_depth actions = .ok s) : s.Good := by
  have hsteps (actions : List Action) {s s' : System} : s.Good →
      actions.foldlM System.step s = .ok s' → s'.Good := by
    induction actions generalizing s s' with
    | nil =>
      intro h heq
      cases heq
      exact h
    | cons action rest ih =>
      intro h heq
      rw [List.foldlM_cons] at heq
      cases hstep : s.step action with
      | error fault =>
        rw [hstep] at heq
        exact absurd heq (by simp [bind, Except.bind])
      | ok s₁ =>
        rw [hstep] at heq
        exact ih (h.step hstep) heq
  unfold run at heq
  cases hnew : Trie.new capacity max_trie_depth with
  | error fault =>
    rw [hnew] at heq
    exact absurd heq (by simp [bind, Except.bind])
  | ok trie =>
    rw [hnew] at heq
    refine hsteps actions ⟨?_, fun req => ?_⟩ heq
    · -- without a node for the root there is no trie
      have hcap : 0 < capacity := by
        apply Nat.pos_of_ne_zero
        rintro rfl
        exact absurd hnew (by unfold Trie.new Trie.getNode; simp)
      obtain ⟨t, root, hget, hsound, -⟩ := Trie.start_spec (s := {
        nodes := fun _ => TrieNode.new
        capacity := capacity
        max_trie_depth := max_trie_depth
        node_pool := List.range capacity
        free_node_count := capacity
        global_lru := .empty
        root := 0
        trie_epoch := 1 }) hcap rfl rfl rfl
      unfold Trie.new at hnew
      dsimp only at hnew
      rw [hget] at hnew
      cases hnew
      exact hsound
    · refine ⟨rfl, Nat.zero_le _, fun _ => ?_, fun ref href => ?_, fun _ i ref node href => ?_⟩
      · exact (Nat.zero_min _).symm
      · exact absurd href List.not_mem_nil
      · exact absurd href (by simp)

/-! ## 3. Incremental matching -/

/-- Every call of `match` in the run returns what rebuilding its state from the same tail would, each
node at the end of the last tokens of the context, and no expandable suffix left out. -/
def Matches (capacity max_trie_depth : ℕ) (actions : List Action) : Prop :=
  ∀ before req appended len after, actions = before ++ .match_call req appended len :: after →
    ∀ s, run capacity max_trie_depth before = .ok s →
      s.trie.Exact (s.states req) (s.context req appended) (s.tail req appended len)

/-- No call of the run follows an empty anchor to a suffix that is expandable by now. -/
def KeepsUp (capacity max_trie_depth : ℕ) (actions : List Action) : Prop :=
  ∀ before req appended len after, actions = before ++ .match_call req appended len :: after →
    ∀ s, run capacity max_trie_depth before = .ok s →
      s.trie.Fresh (s.states req) (s.context req appended) (s.tail req appended len)
        appended.length

/-- **Incremental matching is matching from scratch exactly where no call follows an empty anchor to a
suffix that has become expandable.** -/
theorem matches_iff (capacity max_trie_depth : ℕ) (actions : List Action) :
    Matches capacity max_trie_depth actions ↔ KeepsUp capacity max_trie_depth actions := by
  have hcall : ∀ {before : List Action} {s : System},
      run capacity max_trie_depth before = .ok s → ∀ req appended len,
      (s.trie.Exact (s.states req) (s.context req appended) (s.tail req appended len) ↔
        s.trie.Fresh (s.states req) (s.context req appended) (s.tail req appended len)
          appended.length) := by
    intro before s hrun req appended len
    exact Trie.exact_iff ((good_of_run hrun).state req) appended (Nat.le_max_right _ _)
  constructor
  · intro h before req appended len after heq s hrun
    exact (hcall hrun req appended len).mp (h before req appended len after heq s hrun)
  · intro h before req appended len after heq s hrun
    exact (hcall hrun req appended len).mpr (h before req appended len after heq s hrun)

/-- **A suffix is missed**: a request matches `[1, 2]` in an empty trie, `[1, 2, 3]` is inserted, and
the next call of the request finds nothing, where a call from scratch finds `[1, 2]` and `[2]`. -/
theorem misses_new_suffix : ¬ Matches 8 3
    [.match_call 0 [1, 2] 0, .op (.insert [1, 2, 3]), .match_call 0 [] 0] := by
  intro h
  have hrun : ∃ s, run 8 3 [.match_call 0 [1, 2] 0, .op (.insert [1, 2, 3])] = .ok s ∧
      (s.trie.match_ (s.tail 0 [] 0) (s.states 0) (s.context 0 []).length).1 = [] ∧
      s.trie.getExpandableAnchors_
        (s.trie.rebuildMatchState_ (s.tail 0 [] 0) (s.context 0 []).length) = [(5, 2), (3, 1)] :=
    ⟨_, rfl, rfl, rfl⟩
  obtain ⟨s, hs, hmatch, hscratch⟩ := hrun
  have hexact := (h [.match_call 0 [1, 2] 0, .op (.insert [1, 2, 3])] 0 [] 0 [] rfl s hs).1
  rw [hmatch, hscratch] at hexact
  exact absurd hexact (by simp)

end System

end LightningH3.NgramTrie
