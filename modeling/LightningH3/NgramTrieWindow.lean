/-
A window is inserted: it is walked from the root, and its nodes move to the front.

Paths are the names that outlive the steps. A step along a path finds everything it found before,
adds at most the path it takes, and counts one more window there and nowhere else (`Grown`); steps
along different paths compose, and so does the walk. The walk leaves the order of the global list
intact. The moves to the front break it while they run: after the last one the path stands first, in
order, and what is behind it kept its order.
-/
import LightningH3.NgramTrieGrow
import LightningH3.NgramTrieRecency

set_option autoImplicit false

namespace LightningH3.NgramTrie

open List

theorem int32_one : int32 1 = 1 := by decide

namespace Trie

/-! ## 1. What a path finds -/

/-- The frequency at the end of a path; none where the path leads nowhere. -/
def freqAt (t : Trie) (path : List Token) : ℤ :=
  match t.find path with
  | some c => (t.nodes c).freq
  | none => 0

variable {t : Trie} {path : List Token}

theorem freqAt_of_find {c : NodeId} (h : t.find path = some c) :
    t.freqAt path = (t.nodes c).freq := by
  unfold freqAt
  rw [h]

theorem freqAt_of_none (h : t.find path = none) : t.freqAt path = 0 := by
  unfold freqAt
  rw [h]

namespace Sound

variable {t : Trie}

variable {c : NodeId}

theorem live_of_find (h : t.Sound) {path : List Token} (hc : t.find path = some c) : t.Live c :=
  (h.tree.found hc).imp And.right And.right

theorem held_of_find (h : t.Sound) {path : List Token} (hc : t.find path = some c) (hne : path ≠ []) :
    c ∈ t.held :=
  h.tree.live_of_found hc hne

theorem find_inj (h : t.Sound) {a b : List Token} (ha : t.find a = some c) (hb : t.find b = some c) :
    a = b :=
  h.tree.find_inj ha hb

end Sound

theorem find_snoc (t : Trie) (path : List Token) (token : Token) :
    t.find (path ++ [token]) = (t.find path).bind fun c => t.child c token :=
  PointerTree.find_snoc _ _ _

/-! ## 2. One token -/

/-- **One step for the paths `on`**: what is found stays, the paths `on` are found and count one
window more, and nothing else is new or counts more. -/
structure Grown (t t' : Trie) (on : List Token → Prop) : Prop where
  frame : SameFrame t t'
  sound : t'.Sound
  version : ∀ id, (t'.nodes id).version = (t.nodes id).version
  grows : ∀ path c, t.find path = some c → t'.find path = some c
  back : ∀ path c, t'.find path = some c → t.find path = some c ∨ on path
  reach : ∀ path, on path → ∃ c, t'.find path = some c
  freq_on : ∀ path, on path → t'.freqAt path = int32 (t.freqAt path + 1)
  freq_off : ∀ path, ¬ on path → t'.freqAt path = t.freqAt path

variable {t' : Trie}

theorem Grown.congr {on on' : List Token → Prop} (h : Grown t t' on)
    (hiff : ∀ path, on path ↔ on' path) : Grown t t' on' := by
  have heq : on = on' := funext fun path => propext (hiff path)
  exact heq ▸ h

theorem Grown.trans {t'' : Trie} {a b : List Token → Prop} (h : Grown t t' a) (h' : Grown t' t'' b)
    (hdisj : ∀ path, a path → ¬ b path) : Grown t t'' fun path => a path ∨ b path where
  frame := h.frame.trans h'.frame
  sound := h'.sound
  version id := (h'.version id).trans (h.version id)
  grows path c hc := h'.grows path c (h.grows path c hc)
  back path c hc := by
    rcases h'.back path c hc with hc | hb
    · exact (h.back path c hc).imp id Or.inl
    · exact Or.inr (Or.inr hb)
  reach path hon := by
    rcases hon with ha | hb
    · obtain ⟨c, hc⟩ := h.reach path ha
      exact ⟨c, h'.grows path c hc⟩
    · exact h'.reach path hb
  freq_on path hon := by
    rcases hon with ha | hb
    · rw [h'.freq_off path (hdisj path ha), h.freq_on path ha]
    · rw [h'.freq_on path hb, h.freq_off path fun ha => hdisj path ha hb]
  freq_off path hoff := by
    rw [h'.freq_off path fun hb => hoff (Or.inr hb), h.freq_off path fun ha => hoff (Or.inl ha)]

theorem Grown.refl (h : t.Sound) : Grown t t fun _ => False where
  frame := SameFrame.refl t
  sound := h
  version _ := rfl
  grows _ _ hc := hc
  back _ _ hc := Or.inl hc
  reach _ hon := hon.elim
  freq_on _ hon := hon.elim
  freq_off _ _ := rfl

theorem freqAt_off (hgrows : ∀ c, t.find path = some c → t'.find path = some c)
    (hback : ∀ c, t'.find path = some c → t.find path = some c)
    (hfreq : ∀ c, t.find path = some c → (t'.nodes c).freq = (t.nodes c).freq) :
    t'.freqAt path = t.freqAt path := by
  cases hc : t.find path with
  | some c =>
    rw [freqAt_of_find hc, freqAt_of_find (hgrows c hc), hfreq c hc]
  | none =>
    have hnone : t'.find path = none := by
      cases hc' : t'.find path with
      | none => rfl
      | some c =>
        rw [hback c hc'] at hc
        exact absurd hc (by simp)
    rw [freqAt_of_none hc, freqAt_of_none hnone]

variable {cursor node : NodeId} {token : Token} {q : List Token}

theorem Created.grown (h : Created t cursor token node t') (hsound : t.Sound)
    (hq : t.find q = some cursor) (hfree : t.child cursor token = none) :
    Grown t t' (· = q ++ [token]) := by
  have hnew : ∀ {id}, t.Live id → id ≠ node := by
    rintro id hid rfl
    exact hsound.linked.free_not_live h.mem_free hid
  have hfind : ∀ {path : List Token} {c : NodeId}, t'.find path = some c ↔
      t.find path = some c ∨ (c = node ∧ ∃ q', path = q' ++ [token] ∧ t.find q' = some cursor) := by
    intro path c
    unfold find
    rw [h.frame.root]
    exact hsound.tree.find_add (fun id hid => hnew hid) h.child_node hfree
      fun id l hid => h.child_eq hid l
  have hat : t'.find (q ++ [token]) = some node := hfind.mpr (Or.inr ⟨rfl, q, rfl, hq⟩)
  have hnone : t.find (q ++ [token]) = none := by
    rw [find_snoc, hq, Option.bind_some, hfree]
  have hback : ∀ path c, t'.find path = some c → t.find path = some c ∨ path = q ++ [token] := by
    intro path c hc
    rcases hfind.mp hc with hc | ⟨-, q', rfl, hq'⟩
    · exact Or.inl hc
    · exact Or.inr (by rw [hsound.find_inj hq' hq])
  refine ⟨h.frame, h.sound hsound (hsound.live_of_find hq) hfree, h.version,
    fun path c hc => hfind.mpr (Or.inl hc), hback, ?_, ?_, ?_⟩
  · rintro path rfl
    exact ⟨node, hat⟩
  · rintro path rfl
    rw [freqAt_of_find hat, freqAt_of_none hnone, h.at_node, Int.zero_add, int32_one]
  · intro path hoff
    refine freqAt_off (fun c hc => hfind.mpr (Or.inl hc)) (fun c hc => ?_) fun c hc => ?_
    · exact (hback path c hc).resolve_right hoff
    · exact (h.records (hnew (hsound.live_of_find hc))).1

theorem Touched.grown (h : Touched t cursor node t') (hsound : t.Sound)
    (hq : t.find q = some cursor) (hchild : t.child cursor token = some node) :
    Grown t t' (· = q ++ [token]) := by
  have hcursor := hsound.live_of_find hq
  have hne := hsound.child_ne hcursor hchild
  have hat : t.find (q ++ [token]) = some node := by
    rw [find_snoc, hq, Option.bind_some, hchild]
  have hfind : t'.find = t.find := by
    funext path
    unfold find
    rw [h.child hne, h.frame.root]
  refine ⟨h.frame, h.sound hsound hcursor hchild, fun id => (h.records hne id).2.2.2.2.2, ?_, ?_, ?_,
    ?_, ?_⟩
  · intro path c hc
    rw [hfind]
    exact hc
  · intro path c hc
    rw [hfind] at hc
    exact Or.inl hc
  · rintro path rfl
    exact ⟨node, by rw [hfind, hat]⟩
  · rintro path rfl
    rw [freqAt_of_find hat, freqAt_of_find (by rw [hfind, hat]), h.at_node]
  · intro path hoff
    refine freqAt_off (fun c hc => by rw [hfind, hc]) (fun c hc => by rw [← hfind, hc])
      fun c hc => h.freq ?_
    rintro rfl
    exact hoff (hsound.find_inj hc hat)

/-! ## 3. The walk -/

/-- The nodes at the ends of the paths that a window goes along, below the path `q`. -/
inductive Trail (t : Trie) : List Token → List Token → List NodeId → Prop
  | nil (q : List Token) : Trail t q [] []
  | cons {q : List Token} {token : Token} {window : List Token} {c : NodeId} {nodes : List NodeId}
      (found : t.find (q ++ [token]) = some c) (rest : Trail t (q ++ [token]) window nodes) :
      Trail t q (token :: window) (c :: nodes)

namespace Trail

variable {t : Trie} {q window : List Token} {nodes : List NodeId}

section

variable (h : Trail t q window nodes)
include h

theorem mem_iff (c : NodeId) :
    c ∈ nodes ↔ ∃ u, u ≠ [] ∧ u <+: window ∧ t.find (q ++ u) = some c := by
  induction h with
  | nil q =>
    constructor
    · intro hc
      exact absurd hc not_mem_nil
    · rintro ⟨u, hne, hu, -⟩
      exact absurd (prefix_nil.mp hu) hne
  | @cons q token window d nodes found rest ih =>
    rw [mem_cons, ih]
    constructor
    · rintro (rfl | ⟨u, -, hu, hc⟩)
      · exact ⟨[token], cons_ne_nil _ _, ⟨window, rfl⟩, found⟩
      · refine ⟨token :: u, cons_ne_nil _ _, ?_, ?_⟩
        · obtain ⟨tail, rfl⟩ := hu
          exact ⟨tail, rfl⟩
        · rw [← hc, append_assoc]
          rfl
    · rintro ⟨u, hne, hu, hc⟩
      obtain ⟨tail, htail⟩ := hu
      cases u with
      | nil => exact absurd rfl hne
      | cons k u =>
        obtain ⟨rfl, rfl⟩ := List.cons.inj htail
        cases u with
        | nil =>
          left
          rw [found] at hc
          exact (Option.some.inj hc).symm
        | cons l u =>
          right
          refine ⟨l :: u, cons_ne_nil _ _, ⟨tail, rfl⟩, ?_⟩
          rw [← hc, append_assoc]
          rfl

theorem nodup (hsound : t.Sound) : nodes.Nodup := by
  induction h with
  | nil _ => exact nodup_nil
  | @cons q token window c nodes found rest ih =>
    refine nodup_cons.mpr ⟨fun hbad => ?_, ih⟩
    obtain ⟨u, hne, -, hu⟩ := (rest.mem_iff c).mp hbad
    have heq := hsound.find_inj hu found
    exact hne (append_right_eq_self.mp heq)

theorem mem_held (hsound : t.Sound) {c : NodeId} (hc : c ∈ nodes) : c ∈ t.held := by
  obtain ⟨u, hne, -, hu⟩ := (h.mem_iff c).mp hc
  exact hsound.held_of_find hu fun hnil => hne (append_eq_nil_iff.mp hnil).2

theorem parent (hsound : t.Sound) {p : NodeId} (hp : t.find q = some p) {l₁ l₂ : List NodeId}
    {c : NodeId} (hsplit : nodes = l₁ ++ c :: l₂) :
    (t.nodes c).parent = p ∨ (t.nodes c).parent ∈ l₁ := by
  induction h generalizing p l₁ with
  | nil q => exact absurd hsplit (by simp)
  | @cons q token _ d nodes found _ ih =>
    cases l₁ with
    | nil =>
      obtain ⟨rfl, -⟩ := List.cons.inj hsplit
      have hup := hsound.tree.found_snoc found
      left
      exact Option.some.inj (hup.symm.trans hp)
    | cons d' l₁ =>
      obtain ⟨rfl, hrest⟩ := List.cons.inj hsplit
      right
      rcases ih found hrest with heq | hmem
      · rw [heq]
        exact mem_cons_self
      · exact mem_cons_of_mem _ hmem

end

end Trail

/-- The paths that a window goes along below the path `q`. -/
def Through (q window path : List Token) : Prop := ∃ u, u ≠ [] ∧ u <+: window ∧ path = q ++ u

variable {window : List Token}

theorem through_cons : (path = q ++ [token] ∨ Through (q ++ [token]) window path) ↔
      Through q (token :: window) path := by
  constructor
  · rintro (rfl | ⟨u, -, ⟨tail, rfl⟩, rfl⟩)
    · exact ⟨[token], cons_ne_nil _ _, ⟨window, rfl⟩, rfl⟩
    · exact ⟨token :: u, cons_ne_nil _ _, ⟨tail, rfl⟩, by rw [append_assoc]; rfl⟩
  · rintro ⟨u, hne, ⟨tail, htail⟩, rfl⟩
    cases u with
    | nil => exact absurd rfl hne
    | cons k u =>
      obtain ⟨rfl, rfl⟩ := List.cons.inj htail
      cases u with
      | nil => exact Or.inl rfl
      | cons l u =>
        right
        exact ⟨l :: u, cons_ne_nil _ _, ⟨tail, rfl⟩, by rw [append_assoc]; rfl⟩

theorem walk_none (rest : List Token) (acc : List NodeId) (hchild : t.child cursor token = none)
    (heq : t.create_child cursor token = .ok (t', node)) :
    walk (token :: rest) t cursor acc = walk rest t' node (acc ++ [node]) := by
  rw [walk, hchild]
  rw [heq]
  rfl

theorem walk_some (rest : List Token) (acc : List NodeId)
    (hchild : t.child cursor token = some node) : walk (token :: rest) t cursor acc
      = walk rest (t.touch_child cursor node) node (acc ++ [node]) := by
  rw [walk, hchild]

/-- **The walk** along a window for which there are enough free nodes. -/
theorem walk_spec (window : List Token) {t : Trie} {cursor : NodeId} {q : List Token}
    (acc : List NodeId) : t.Sound → t.find q = some cursor → window.length ≤ t.free_node_count →
    ∃ t' path, walk window t cursor acc = .ok (t', acc ++ path) ∧ Trail t' q window path ∧
      Grown t t' (Through q window) ∧ t.held <+: t'.held := by
  induction window generalizing t cursor q acc with
  | nil =>
    intro hsound _ _
    refine ⟨t, [], by rw [append_nil]; rfl, Trail.nil q, ?_, ⟨[], append_nil _⟩⟩
    refine (Grown.refl hsound).congr fun path => ⟨False.elim, ?_⟩
    rintro ⟨u, hne, hu, -⟩
    exact hne (prefix_nil.mp hu)
  | cons token window ih =>
    intro hsound hq hfree
    have hlive := hsound.live_of_find hq
    rw [length_cons] at hfree
    -- either branch is a step for one path, which takes at most one free node
    have hstep : ∃ t' node, walk (token :: window) t cursor acc
          = walk window t' node (acc ++ [node]) ∧ t'.find (q ++ [token]) = some node ∧
        window.length ≤ t'.free_node_count ∧ Grown t t' (· = q ++ [token]) ∧
        t.held <+: t'.held := by
      cases hchild : t.child cursor token with
      | none =>
        obtain ⟨t', node, heq, hcreated⟩ :=
          create_child_spec token hsound.linked hlive (by omega)
        have hcount := hcreated.count
        have hgrown := hcreated.grown hsound hq hchild
        refine ⟨t', node, walk_none window acc hchild heq, ?_, by omega, hgrown,
          ⟨_, hcreated.held.symm⟩⟩
        rw [find_snoc, hgrown.grows q cursor hq, Option.bind_some,
          hcreated.child_eq fun hbad => hsound.linked.free_not_live hcreated.mem_free
            (hbad ▸ hlive), if_pos ⟨rfl, rfl⟩]
      | some node =>
        have htouched := touch_child_spec (t := t) (hsound.child_ne hlive hchild)
        have hgrown := htouched.grown hsound hq hchild
        refine ⟨_, node, walk_some window acc hchild, ?_, by rw [htouched.count]; omega, hgrown,
          by rw [htouched.held]⟩
        apply hgrown.grows
        rw [find_snoc, hq, Option.bind_some, hchild]
    obtain ⟨t', node, heq, hat, hfree', hgrown, hheld⟩ := hstep
    obtain ⟨t'', path, hwalk, htrail, hgrown', hheld'⟩ :=
      ih (acc ++ [node]) hgrown.sound hat hfree'
    refine ⟨t'', node :: path, ?_, Trail.cons (hgrown'.grows _ _ hat) htrail, ?_,
      hheld.trans hheld'⟩
    · rw [heq, hwalk, append_assoc]
      rfl
    · refine (hgrown.trans hgrown' ?_).congr fun path => through_cons
      rintro path rfl ⟨u, hne, -, hu⟩
      exact hne (append_right_eq_self.mp hu.symm)

/-! ## 4. The moves to the front -/

/-- What a move to the front leaves alone. -/
structure Refreshed (t t' : Trie) : Prop where
  frame : SameFrame t t'
  nodes : t'.nodes = t.nodes
  pool : t'.node_pool = t.node_pool
  count : t'.free_node_count = t.free_node_count
  holds : ∀ pos c, t'.global_lru.Holds pos c ↔ t.global_lru.Holds pos c
  held : t'.held.Perm t.held

namespace Refreshed

variable {t t' t'' : Trie}

theorem refl (t : Trie) : Refreshed t t :=
  ⟨SameFrame.refl t, rfl, rfl, rfl, fun _ _ => Iff.rfl, List.Perm.refl _⟩

section

variable (h : Refreshed t t')
include h

theorem trans (h' : Refreshed t' t'') : Refreshed t t'' :=
  ⟨h.frame.trans h'.frame, h'.nodes.trans h.nodes, h'.pool.trans h.pool, h'.count.trans h.count,
    fun pos c => (h'.holds pos c).trans (h.holds pos c), h'.held.trans h.held⟩

theorem child : t'.child = t.child := by
  funext id k
  unfold Trie.child
  rw [h.nodes]

theorem live_iff (id : NodeId) : t'.Live id ↔ t.Live id := by
  unfold Live
  rw [h.frame.root, h.held.mem_iff]

theorem find : t'.find = t.find := by
  funext path
  unfold Trie.find
  rw [h.child, h.frame.root]

theorem linked (hlink : t.Linked) : t'.Linked := by
  have hfree : t'.free = t.free := by
    unfold free
    rw [h.pool, h.count]
  refine ⟨?_, ?_, ?_, ?_, ?_, ?_, ?_, ?_, ?_⟩
  · rw [h.pool, h.frame.capacity]
    exact hlink.pool
  · rw [h.count, h.frame.capacity]
    exact hlink.count
  · rw [hfree, h.frame.root, h.frame.capacity]
    exact ((h.held.cons _).append_left _).trans hlink.partition
  · intro p k c hp hc
    rw [h.child] at hc
    rw [h.nodes, h.held.mem_iff]
    exact hlink.down p k c ((h.live_iff p).mp hp) hc
  · intro c hc
    rw [h.nodes, h.child, h.live_iff]
    exact hlink.up c (h.held.mem_iff.mp hc)
  · intro c hc
    rw [h.nodes, h.holds]
    exact hlink.global_pos c (h.held.mem_iff.mp hc)
  · intro c hc
    rw [h.nodes]
    exact hlink.parent_pos c (h.held.mem_iff.mp hc)
  · intro p hp
    rw [h.nodes, h.child]
    exact hlink.recency p ((h.live_iff p).mp hp)
  · intro p hp
    rw [h.nodes, h.child]
    exact hlink.sorted p ((h.live_iff p).mp hp)

end

end Refreshed

theorem refresh_spec (h : t.Linked) {c : NodeId} (hc : c ∈ t.held) : Refreshed t (t.refresh c) ∧
      (t.refresh c).held = c :: t.held.filter fun d => decide (d ≠ c) := by
  have hpos := h.global_pos c hc
  have hheld : (t.refresh c).held = c :: t.held.filter fun d => decide (d ≠ c) :=
    CellList.values_splice_front hpos h.held_nodup
  refine ⟨⟨⟨rfl, rfl, rfl, rfl⟩, rfl, rfl, rfl,
    fun pos d => CellList.holds_splice_front_iff hpos, ?_⟩, hheld⟩
  rw [hheld]
  have hnot : c ∉ t.held.filter fun d => decide (d ≠ c) := by
    rw [mem_filter, decide_eq_true_eq]
    exact fun hbad => hbad.2 rfl
  have hnodup := nodup_cons.mpr ⟨hnot, h.held_nodup.filter fun d => decide (d ≠ c)⟩
  refine (perm_ext_iff_of_nodup hnodup h.held_nodup).mpr fun d => ?_
  rw [mem_cons, mem_filter, decide_eq_true_eq]
  constructor
  · rintro (rfl | ⟨hd, -⟩)
    · exact hc
    · exact hd
  · intro hd
    by_cases hdc : d = c
    · exact Or.inl hdc
    · exact Or.inr ⟨hd, hdc⟩

theorem refresh_path {path : List NodeId} {t : Trie} : t.Linked → path.Nodup →
    (∀ c ∈ path, c ∈ t.held) → Refreshed t (path.reverse.foldl refresh t) ∧
      (path.reverse.foldl refresh t).held = path ++ t.held.filter fun c => decide (c ∉ path) := by
  induction path generalizing t with
  | nil =>
    intro _ _ _
    refine ⟨Refreshed.refl t, ?_⟩
    show t.held = _
    rw [nil_append, filter_eq_self.mpr]
    intro c _
    exact decide_eq_true not_mem_nil
  | cons c path ih =>
    intro h hnodup hmem
    obtain ⟨hnot, hrest⟩ := nodup_cons.mp hnodup
    obtain ⟨hframe, hheld⟩ := ih h hrest fun d hd => hmem d (mem_cons_of_mem _ hd)
    rw [reverse_cons, foldl_append]
    show Refreshed t (refresh (path.reverse.foldl refresh t) c) ∧
      (refresh (path.reverse.foldl refresh t) c).held = _
    have hc := hframe.held.mem_iff.mpr (hmem c mem_cons_self)
    obtain ⟨hframe', hheld'⟩ := refresh_spec (hframe.linked h) hc
    refine ⟨hframe.trans hframe', ?_⟩
    rw [hheld', hheld, filter_append, filter_filter]
    congr 2
    · rw [filter_eq_self]
      intro d hd
      apply decide_eq_true
      rintro rfl
      exact hnot hd
    · apply filter_congr
      intro d _
      rw [← Bool.decide_and, decide_eq_decide, mem_cons, not_or]

theorem Trail.refreshed {nodes : List NodeId} (h : Trail t q window nodes) (h' : Refreshed t t') :
    Trail t' q window nodes := by
  induction h with
  | nil q => exact Trail.nil q
  | cons found _ ih => exact Trail.cons (by rw [h'.find]; exact found) ih

/-- **A window puts the order back**: each node of the path stands behind its parent. -/
theorem ordered_of_front {path : List NodeId} (h : t.Sound) (htrail : Trail t [] window path)
    (hframe : Refreshed t t') (hheld : t'.held = path ++ t.held.filter fun c => decide (c ∉ path)) :
    t'.Ordered := by
  have hcase : ∀ (l₁ : List NodeId) (c : NodeId) (l₂ : List NodeId), t'.held = l₁ ++ c :: l₂ →
      (∃ m, path = l₁ ++ c :: m) ∨ (c ∉ path ∧ ∃ m, l₁ = path ++ m ∧
        t.held.filter (fun c => decide (c ∉ path)) = m ++ c :: l₂) := by
    intro l₁ c l₂ hsplit
    rw [hheld] at hsplit
    rcases append_eq_append_iff.mp hsplit with ⟨m, rfl, hm⟩ | ⟨m, hm, hrest⟩
    · right
      refine ⟨?_, m, rfl, hm⟩
      have hc : c ∈ t.held.filter fun c => decide (c ∉ path) := by
        rw [hm]
        exact mem_append_right _ mem_cons_self
      exact of_decide_eq_true (mem_filter.mp hc).2
    · cases m with
      | nil =>
        right
        rw [append_nil] at hm
        rw [nil_append] at hrest
        have hc : c ∈ t.held.filter fun c => decide (c ∉ path) := by
          rw [← hrest]
          exact mem_cons_self
        exact ⟨of_decide_eq_true (mem_filter.mp hc).2, [], by rw [hm, append_nil],
          hrest.symm⟩
      | cons d m =>
        obtain ⟨rfl, -⟩ := List.cons.inj hrest
        exact Or.inl ⟨m, hm⟩
  intro l₁ c l₂ hsplit
  rw [hframe.nodes, hframe.frame.root]
  rcases hcase l₁ c l₂ hsplit with ⟨m, hm⟩ | ⟨hc, m, rfl, hm⟩
  · exact htrail.parent h rfl hm
  · have hcheld : c ∈ t.held := by
      apply mem_of_mem_filter
      rw [hm]
      exact mem_append_right _ mem_cons_self
    obtain ⟨k₁, k₂, hk⟩ := append_of_mem hcheld
    rcases h.ordered k₁ c k₂ hk with hroot | hmem
    · exact Or.inl hroot
    · right
      by_cases hp : (t.nodes c).parent ∈ path
      · exact mem_append_left _ hp
      · -- the parent stood before the child, and both are filtered in the same order
        apply mem_append_right
        have hcons : (c :: k₂).filter (fun d => decide (d ∉ path))
            = c :: k₂.filter fun d => decide (d ∉ path) :=
          filter_cons_of_pos (p := fun d => decide (d ∉ path)) (decide_eq_true hc)
        have hnodup := h.linked.held_nodup.filter fun d => decide (d ∉ path)
        rw [hk, filter_append, hcons] at hm hnodup
        obtain ⟨-, hafter, hdisj⟩ := nodup_append.mp hnodup
        have hbefore : c ∉ k₁.filter fun d => decide (d ∉ path) := fun hbad =>
          hdisj c hbad c mem_cons_self rfl
        obtain ⟨heq, -⟩ := (append_cons_inj_of_notMem hbefore (nodup_cons.mp hafter).1).mp hm
        rw [← heq]
        exact mem_filter.mpr ⟨hmem, decide_eq_true hp⟩

theorem Grown.refreshed {t'' : Trie} {on : List Token → Prop} (h : Grown t t' on)
    (h' : Refreshed t' t'') (hsound : t''.Sound) : Grown t t'' on := by
  have hfreq : t''.freqAt = t'.freqAt := by
    funext path
    unfold freqAt
    rw [h'.find, h'.nodes]
  refine ⟨h.frame.trans h'.frame, hsound, fun id => ?_, fun path c hc => ?_, fun path c hc => ?_,
    fun path hon => ?_, fun path hon => ?_, fun path hon => ?_⟩
  · rw [h'.nodes]
    exact h.version id
  · rw [h'.find]
    exact h.grows path c hc
  · rw [h'.find] at hc
    exact h.back path c hc
  · rw [h'.find]
    exact h.reach path hon
  · rw [hfreq]
    exact h.freq_on path hon
  · rw [hfreq]
    exact h.freq_off path hon

theorem Trail.spelled {nodes : List NodeId} (h : Trail t q window nodes) :
    List.Forall₂ (fun path c => t.find (q ++ path) = some c) (paths window) nodes := by
  induction h with
  | nil q => exact List.Forall₂.nil
  | @cons q token window c nodes found rest ih =>
    have hpaths : paths (token :: window) = [token] :: (paths window).map (token :: ·) := by
      unfold paths
      rw [inits_cons, tail_cons]
      cases window with
      | nil => rfl
      | cons next window =>
        rw [inits_cons, map_cons, tail_cons]
    rw [hpaths]
    refine List.Forall₂.cons found (forall₂_map_left_iff.mpr ?_)
    refine ih.imp fun path d hd => ?_
    rw [← hd, append_assoc]
    rfl

/-- **A window is inserted** where there are enough free nodes: its paths are found, with one window
more, and stand in front; the others kept their order behind them. -/
theorem insert_window_spec (h : t.Sound) (hfree : window.length ≤ t.free_node_count) :
    ∃ t' path, t.insert_window window = .ok t' ∧ Grown t t' (Along window) ∧
      Trail t' [] window path ∧ t'.held = path ++ t.held.filter fun c => decide (c ∉ path) := by
  obtain ⟨t', path, hwalk, htrail, hgrown, new, hnew⟩ :=
    walk_spec window [] h (show t.find [] = some t.root from rfl) hfree
  have hthrough : ∀ p, Through [] window p ↔ Along window p := by
    intro p
    constructor
    · rintro ⟨u, hne, hu, rfl⟩
      exact ⟨hne, hu⟩
    · rintro ⟨hne, hp⟩
      exact ⟨p, hne, hp, rfl⟩
  have hsound := hgrown.sound
  obtain ⟨hframe, hheld⟩ := refresh_path hsound.linked (htrail.nodup hsound)
    fun c hc => htrail.mem_held hsound hc
  have hfinal : (path.reverse.foldl refresh t').Sound :=
    ⟨hframe.linked hsound.linked, ordered_of_front hsound htrail hframe hheld⟩
  refine ⟨path.reverse.foldl refresh t', path, ?_,
    (hgrown.refreshed hframe hfinal).congr hthrough, ?_, ?_⟩
  · unfold insert_window
    rw [hwalk]
    rfl
  · exact htrail.refreshed hframe
  · -- what the walk appended is on the path
    rw [hheld, ← hnew, filter_append]
    have hnil : new.filter (fun c => decide (c ∉ path)) = [] := by
      apply filter_eq_nil_iff.mpr
      intro c hc
      rw [decide_eq_true_eq, not_not]
      have hheld' : c ∈ t'.held := by
        rw [← hnew]
        exact mem_append_right _ hc
      obtain ⟨p, hp⟩ := hsound.tree.exists_path hheld'
      rcases hgrown.back p c hp with hold | ⟨u, hne, hu, hpu⟩
      · exfalso
        have hnodup := hsound.linked.held_nodup
        rw [← hnew] at hnodup
        refine disjoint_of_nodup_append hnodup (h.held_of_find hold ?_) hc
        rintro rfl
        cases hp
        exact hsound.linked.root_not_held hheld'
      · rw [hpu] at hp
        exact (htrail.mem_iff c).mpr ⟨u, hne, hu, hp⟩
    rw [hnil, append_nil]

end Trie

end LightningH3.NgramTrie
