/-
The shape of one shard of the hash tree, and the three moves every operation is made of.

`Linked` is the list of cross-method invariants the source states above `TreeState` (parent and
child pointers round-trip, the reverse index lists exactly the nodes of a hash), together with two
it does not state: a parent is older than its children, and each node sits at a place that is
allowed for its hash. Where a hash determines its chain the place is the one below the block before
it, which leaves one node for each hash (`Linked.node_unique`).
-/
import LightningH3.KvHashTree
import LightningH3.Lib.Chains

set_option autoImplicit false

namespace LightningH3.KvIndex

open List OrderedDict

theorem TreeState.get?_put (st : TreeState) (id : NodeId) (n : Node) (j : NodeId) :
    (st.put id n).nodes.get? j = if j = id then some n else st.nodes.get? j :=
  get?_set _ _ _ _

theorem TreeState.nodes_new {id : NodeId} {n : Node} (hn : TreeState.new.nodes.get? id = some n) :
    id = ROOT_ID ∧ n = Node.sentinel := by
  unfold TreeState.new at hn
  rw [get?_set] at hn
  split at hn
  · next hid => exact ⟨hid, (Option.some.inj hn).symm⟩
  · cases hn

/-- What a node stands for: nothing at the root, its block elsewhere. -/
def spot (id : NodeId) (n : Node) : Option BlockHash :=
  if id = ROOT_ID then none else some n.block_hash

@[simp] theorem spot_root (n : Node) : spot ROOT_ID n = none := if_pos rfl

variable {id : NodeId}

theorem spot_of_ne (h : id ≠ ROOT_ID) (n : Node) : spot id n = some n.block_hash :=
  if_neg h

variable {n : Node}

theorem spot_congr {m : Node} (h : n.block_hash = m.block_hash) : spot id n = spot id m := by
  unfold spot
  rw [h]

/-- The pointers of a shard and its reverse index agree, a parent is older than its children, and
`below` holds between what a parent stands for and the hash of a child. -/
structure Linked (below : Option BlockHash → BlockHash → Prop) (st : TreeState) : Prop where
  root : ∃ n, st.nodes.get? ROOT_ID = some n
  fresh : ∀ id n, st.nodes.get? id = some n → id < st.next_id
  up : ∀ id n, id ≠ ROOT_ID → st.nodes.get? id = some n →
    ∃ p np, n.parent = some p ∧ p < id ∧ st.nodes.get? p = some np ∧
      np.children.get? n.block_hash = some id ∧ below (spot p np) n.block_hash
  down : ∀ id n h c, st.nodes.get? id = some n → n.children.get? h = some c →
    c ≠ ROOT_ID ∧ ∃ nc, st.nodes.get? c = some nc ∧ nc.block_hash = h ∧ nc.parent = some id
  index : ∀ h id, id ∈ st.ids h ↔
    id ≠ ROOT_ID ∧ ∃ n, st.nodes.get? id = some n ∧ n.block_hash = h
  index_nodup : ∀ h, (st.ids h).Nodup

namespace Linked

variable {C : Chains BlockHash} {st : TreeState}

section

variable (hl : Linked C.Below st)
include hl

/-- **At most one node stands at each place of a chain.** The induction is on the length of the
chain: two nodes of one hash have one parent, and a parent has one slot for the hash. -/
theorem spot_unique : ∀ (len : ℕ) (a b : NodeId) (na nb : Node), st.nodes.get? a = some na →
      st.nodes.get? b = some nb → spot a na = spot b nb →
      (C.path_to (spot a na)).length = len → a = b := by
  intro len
  induction len using Nat.strongRecOn with
  | ind len ih =>
    intro a b na nb ha hb hspot hlen
    by_cases hra : a = ROOT_ID
    · by_cases hrb : b = ROOT_ID
      · rw [hra, hrb]
      · rw [hra, spot_of_ne hrb] at hspot
        exact absurd hspot (by simp)
    · by_cases hrb : b = ROOT_ID
      · rw [hrb, spot_of_ne hra] at hspot
        exact absurd hspot (by simp)
      · have hhash : na.block_hash = nb.block_hash := by
          rw [spot_of_ne hra, spot_of_ne hrb] at hspot
          exact Option.some.inj hspot
        obtain ⟨p, np, -, -, hp, hpa, hbelow⟩ := hl.up a na hra ha
        obtain ⟨q, nq, -, -, hq, hqb, hbelow'⟩ := hl.up b nb hrb hb
        have hparent : spot p np = spot q nq := by
          rw [← hhash] at hbelow'
          exact C.parent_unique hbelow hbelow'
        have hshort : (C.path_to (spot p np)).length < len := by
          rw [spot_of_ne hra, C.path_to_some, hbelow, length_append, length_singleton] at hlen
          omega
        have hpq : p = q := ih _ hshort p q np nq hp hq hparent rfl
        subst hpq
        rw [hp] at hq
        cases hq
        rw [hhash, hqb] at hpa
        exact (Option.some.inj hpa).symm

/-- **A block hash has at most one node in a shard.** -/
theorem node_unique {a b : NodeId} {na nb : Node} (hra : a ≠ ROOT_ID) (hrb : b ≠ ROOT_ID)
    (ha : st.nodes.get? a = some na) (hb : st.nodes.get? b = some nb)
    (h : na.block_hash = nb.block_hash) : a = b := by
  refine hl.spot_unique _ a b na nb ha hb ?_ rfl
  rw [spot_of_ne hra, spot_of_ne hrb, h]

theorem child_eq {id p : NodeId} {n np : Node} (hid : id ≠ ROOT_ID) (hn : st.nodes.get? id = some n)
    (hp : st.nodes.get? p = some np)
    (hpath : C.path n.block_hash = C.path_to (spot p np) ++ [n.block_hash]) :
    np.children.get? n.block_hash = some id := by
  obtain ⟨q, nq, -, -, hq, hchild, hbelow⟩ := hl.up id n hid hn
  have hspot : spot q nq = spot p np := C.parent_unique hbelow hpath
  have hqp : q = p := hl.spot_unique _ q p nq np hq hp hspot rfl
  subst hqp
  rw [hq] at hp
  cases hp
  exact hchild

theorem ids_eq_singleton {id : NodeId} {n : Node} (hid : id ≠ ROOT_ID)
    (hn : st.nodes.get? id = some n) : st.ids n.block_hash = [id] := by
  have hmem : id ∈ st.ids n.block_hash := (hl.index _ _).mpr ⟨hid, n, hn, rfl⟩
  have honly : ∀ j ∈ st.ids n.block_hash, j = id := by
    intro j hj
    obtain ⟨hjr, m, hm, hmh⟩ := (hl.index _ _).mp hj
    exact hl.node_unique hjr hid hm hn hmh
  have hnodup : (st.ids n.block_hash).Nodup := hl.index_nodup _
  cases hids : st.ids n.block_hash with
  | nil =>
    rw [hids] at hmem
    exact absurd hmem not_mem_nil
  | cons a rest =>
    rw [hids] at honly hnodup
    have ha : a = id := honly a mem_cons_self
    cases rest with
    | nil => rw [ha]
    | cons b rest' =>
      have hb : b = id := honly b (mem_cons_of_mem _ mem_cons_self)
      rw [ha, hb] at hnodup
      exact absurd mem_cons_self (nodup_cons.mp hnodup).1

end

theorem ids_eq_nil {below : Option BlockHash → BlockHash → Prop} (hl : Linked below st) {h : BlockHash}
    (hno : ∀ id n, id ≠ ROOT_ID → st.nodes.get? id = some n → n.block_hash ≠ h) :
    st.ids h = [] := by
  apply eq_nil_iff_forall_not_mem.mpr
  intro id hid
  obtain ⟨hr, n, hn, hh⟩ := (hl.index _ _).mp hid
  exact hno id n hr hn hh

theorem new (below : Option BlockHash → BlockHash → Prop) : Linked below TreeState.new := by
  constructor
  · exact ⟨Node.sentinel, rfl⟩
  · intro id n hn
    rw [(TreeState.nodes_new hn).1]
    exact Nat.one_pos
  · intro id n hid hn
    exact absurd (TreeState.nodes_new hn).1 hid
  · intro id n h c hn hc
    obtain ⟨-, rfl⟩ := TreeState.nodes_new hn
    cases hc
  · intro h id
    constructor
    · intro hid
      exact absurd hid not_mem_nil
    · rintro ⟨hid, n, hn, -⟩
      exact absurd (TreeState.nodes_new hn).1 hid
  · intro h
    exact nodup_nil

end Linked

/-! ## The carriers of a node change -/

/-- `st'` has the nodes of `st`, linked the same way; only carriers may differ. -/
structure SameLinks (st st' : TreeState) : Prop where
  nodes : ∀ id n', st'.nodes.get? id = some n' → ∃ n, st.nodes.get? id = some n ∧
    n'.block_hash = n.block_hash ∧ n'.parent = n.parent ∧ n'.children = n.children
  kept : ∀ id n, st.nodes.get? id = some n → ∃ n', st'.nodes.get? id = some n' ∧
    n'.block_hash = n.block_hash ∧ n'.parent = n.parent ∧ n'.children = n.children
  by_hash : st'.by_hash = st.by_hash
  next_id : st'.next_id = st.next_id

theorem SameLinks.refl (st : TreeState) : SameLinks st st :=
  ⟨fun _ n hn => ⟨n, hn, rfl, rfl, rfl⟩, fun _ n hn => ⟨n, hn, rfl, rfl, rfl⟩, rfl, rfl⟩

variable {st st' : TreeState}

theorem SameLinks.trans {st'' : TreeState} (h : SameLinks st st') (h' : SameLinks st' st'') :
    SameLinks st st'' := by
  constructor
  · intro id n'' hn''
    obtain ⟨n', hn', hhash', hparent', hchildren'⟩ := h'.nodes id n'' hn''
    obtain ⟨n, hn, hhash, hparent, hchildren⟩ := h.nodes id n' hn'
    exact ⟨n, hn, hhash'.trans hhash, hparent'.trans hparent, hchildren'.trans hchildren⟩
  · intro id n hn
    obtain ⟨n', hn', hhash, hparent, hchildren⟩ := h.kept id n hn
    obtain ⟨n'', hn'', hhash', hparent', hchildren'⟩ := h'.kept id n' hn'
    exact ⟨n'', hn'', hhash'.trans hhash, hparent'.trans hparent, hchildren'.trans hchildren⟩
  · exact h'.by_hash.trans h.by_hash
  · exact h'.next_id.trans h.next_id

theorem SameLinks.ids (hs : SameLinks st st') (h : BlockHash) : st'.ids h = st.ids h := by
  unfold TreeState.ids
  rw [hs.by_hash]

theorem SameLinks.put (hn : st.nodes.get? id = some n) (ws : OrderedDict KvWorkerId Tiers) :
    SameLinks st (st.put id { n with workers := ws }) := by
  have hget := st.get?_put id { n with workers := ws }
  constructor
  · intro j n' hj
    rw [hget] at hj
    split at hj
    · next hji =>
      cases hj
      exact ⟨n, by rw [hji]; exact hn, rfl, rfl, rfl⟩
    · exact ⟨n', hj, rfl, rfl, rfl⟩
  · intro j m hj
    rw [hget]
    split
    · next hji =>
      rw [hji, hn] at hj
      cases hj
      exact ⟨_, rfl, rfl, rfl, rfl⟩
    · exact ⟨m, hj, rfl, rfl, rfl⟩
  · rfl
  · rfl

variable {below : Option BlockHash → BlockHash → Prop}

theorem Linked.of_same_links (hl : Linked below st) (hs : SameLinks st st') : Linked below st' := by
  constructor
  · obtain ⟨n, hn⟩ := hl.root
    obtain ⟨n', hn', -⟩ := hs.kept _ n hn
    exact ⟨n', hn'⟩
  · intro id n' hn'
    obtain ⟨n, hn, -⟩ := hs.nodes id n' hn'
    rw [hs.next_id]
    exact hl.fresh id n hn
  · intro id n' hid hn'
    obtain ⟨n, hn, hhash, hparent, -⟩ := hs.nodes id n' hn'
    obtain ⟨p, np, hnp, hlt, hp, hchild, hbelow⟩ := hl.up id n hid hn
    obtain ⟨np', hp', hphash, -, hpchildren⟩ := hs.kept p np hp
    refine ⟨p, np', ?_, hlt, hp', ?_, ?_⟩
    · rw [hparent, hnp]
    · rw [hpchildren, hhash, hchild]
    · rw [hhash, spot_congr hphash]
      exact hbelow
  · intro id n' h c hn' hc
    obtain ⟨n, hn, -, -, hchildren⟩ := hs.nodes id n' hn'
    rw [hchildren] at hc
    obtain ⟨hroot, nc, hnc, hch, hcp⟩ := hl.down id n h c hn hc
    obtain ⟨nc', hnc', hhash, hparent, -⟩ := hs.kept c nc hnc
    exact ⟨hroot, nc', hnc', by rw [hhash, hch], by rw [hparent, hcp]⟩
  · intro h id
    rw [hs.ids, hl.index]
    constructor
    · rintro ⟨hid, n, hn, hh⟩
      obtain ⟨n', hn', hhash, -⟩ := hs.kept id n hn
      exact ⟨hid, n', hn', by rw [hhash, hh]⟩
    · rintro ⟨hid, n', hn', hh⟩
      obtain ⟨n, hn, hhash, -⟩ := hs.nodes id n' hn'
      exact ⟨hid, n, hn, by rw [← hhash, hh]⟩
  · intro h
    rw [hs.ids]
    exact hl.index_nodup h

/-! ## A child appears -/

/-- The reverse index has no empty entry. -/
def NoEmptyEntry (st : TreeState) : Prop := ∀ h l, st.by_hash.get? h = some l → l ≠ []

/-- `st'` is `st` with one more node: a child of `p` for the hash `h`, held by nobody. -/
structure Grown (st st' : TreeState) (p : NodeId) (np : Node) (h : BlockHash)
    (breadcrumb : Option BlockHash) : Prop where
  nodes : ∀ j, st'.nodes.get? j =
    if j = p then some { np with children := np.children.set h st.next_id }
    else if j = st.next_id then some (Node.new_child h breadcrumb p)
    else st.nodes.get? j
  ids : ∀ h', st'.ids h' = if h' = h then st.ids h ++ [st.next_id] else st.ids h'
  next_id : st'.next_id = st.next_id + 1
  entries : NoEmptyEntry st → NoEmptyEntry st'

variable {p : NodeId} {np : Node}

theorem Linked.create_child (hl : Linked below st) (hp : st.nodes.get? p = some np) (h : BlockHash)
    (breadcrumb : Option BlockHash) :
    ∃ st', st.create_child p h breadcrumb = (st', some st.next_id) ∧
      Grown st st' p np h breadcrumb := by
  have hne : p ≠ st.next_id := Nat.ne_of_lt (hl.fresh p np hp)
  have hnew : st.next_id ∉ st.ids h := by
    intro hmem
    obtain ⟨-, n, hn, -⟩ := (hl.index _ _).mp hmem
    exact absurd (hl.fresh _ n hn) (Nat.lt_irrefl _)
  have hget : (st.nodes.set st.next_id (Node.new_child h breadcrumb p)).get? p = some np := by
    rw [get?_set, if_neg hne, hp]
  unfold TreeState.create_child
  simp only [hget]
  refine ⟨_, rfl, ?_, ?_, rfl, ?_⟩
  · intro j
    simp only [get?_set]
  · intro h'
    unfold TreeState.ids at hnew ⊢
    simp only [get?_set, if_neg hnew]
    by_cases hh : h' = h
    · rw [if_pos hh, if_pos hh]
      rfl
    · rw [if_neg hh, if_neg hh]
  · intro hentries h' l hl'
    simp only [get?_set, if_neg hnew] at hl'
    by_cases hh : h' = h
    · rw [if_pos hh] at hl'
      cases hl'
      exact append_ne_nil_of_right_ne_nil _ (cons_ne_nil _ _)
    · rw [if_neg hh] at hl'
      exact hentries h' l hl'

namespace Grown

variable {st st' : TreeState} {p : NodeId} {np : Node} {h : BlockHash}
  {breadcrumb : Option BlockHash}

section

variable (hg : Grown st st' p np h breadcrumb)
include hg

theorem kept (hp : st.nodes.get? p = some np) (hslot : np.children.get? h = none) {j : NodeId}
    {m : Node} (hm : st.nodes.get? j = some m) (hj : j ≠ st.next_id) :
    ∃ m', st'.nodes.get? j = some m' ∧ m'.block_hash = m.block_hash ∧ m'.parent = m.parent ∧
      ∀ k c, m.children.get? k = some c → m'.children.get? k = some c := by
  rw [hg.nodes]
  by_cases hjp : j = p
  · rw [if_pos hjp]
    rw [hjp, hp] at hm
    cases hm
    refine ⟨_, rfl, rfl, rfl, ?_⟩
    intro k c hk
    have hkh : k ≠ h := by
      rintro rfl
      rw [hslot] at hk
      cases hk
    rw [get?_set, if_neg hkh]
    exact hk
  · rw [if_neg hjp, if_neg hj]
    exact ⟨m, hm, rfl, rfl, fun k c hk => hk⟩

theorem cases_node (hp : st.nodes.get? p = some np) {j : NodeId} {m' : Node}
    (hm : st'.nodes.get? j = some m') :
    (∃ m, st.nodes.get? j = some m ∧ m'.block_hash = m.block_hash ∧ m'.parent = m.parent ∧
      m'.workers = m.workers ∧ ∀ k c, m'.children.get? k = some c →
        m.children.get? k = some c ∨ (j = p ∧ k = h ∧ c = st.next_id)) ∨
    (j = st.next_id ∧ m' = Node.new_child h breadcrumb p) := by
  rw [hg.nodes] at hm
  by_cases hjp : j = p
  · rw [if_pos hjp] at hm
    cases hm
    refine Or.inl ⟨np, by rw [hjp]; exact hp, rfl, rfl, rfl, ?_⟩
    intro k c hk
    replace hk : (np.children.set h st.next_id).get? k = some c := hk
    rw [get?_set] at hk
    by_cases hkh : k = h
    · rw [if_pos hkh] at hk
      exact Or.inr ⟨hjp, hkh, (Option.some.inj hk).symm⟩
    · rw [if_neg hkh] at hk
      exact Or.inl hk
  · rw [if_neg hjp] at hm
    by_cases hj : j = st.next_id
    · rw [if_pos hj] at hm
      exact Or.inr ⟨hj, (Option.some.inj hm).symm⟩
    · rw [if_neg hj] at hm
      exact Or.inl ⟨m', hm, rfl, rfl, rfl, fun k c hk => Or.inl hk⟩

theorem child (hne : p ≠ st.next_id) :
    st'.nodes.get? st.next_id = some (Node.new_child h breadcrumb p) := by
  rw [hg.nodes, if_neg (Ne.symm hne), if_pos rfl]

end

end Grown

variable {h : BlockHash}

theorem Linked.grown_child (hl : Linked below st) {breadcrumb : Option BlockHash}
    (hp : st.nodes.get? p = some np) (hg : Grown st st' p np h breadcrumb) :
    st.next_id ≠ ROOT_ID ∧ st'.nodes.get? st.next_id = some (Node.new_child h breadcrumb p) := by
  obtain ⟨n, hn⟩ := hl.root
  exact ⟨Ne.symm (Nat.ne_of_lt (hl.fresh _ n hn)), hg.child (Nat.ne_of_lt (hl.fresh p np hp))⟩

/-- **A child below the block before it on its chain keeps the shard linked.** -/
theorem Linked.grown (hl : Linked below st) {breadcrumb : Option BlockHash}
    (hp : st.nodes.get? p = some np) (hslot : np.children.get? h = none)
    (hbelow : below (spot p np) h) (hg : Grown st st' p np h breadcrumb) : Linked below st' := by
  have hold : ∀ j m, st.nodes.get? j = some m → j ≠ st.next_id :=
    fun j m hm => Nat.ne_of_lt (hl.fresh j m hm)
  obtain ⟨hnext, hchild⟩ := hl.grown_child hp hg
  constructor
  · obtain ⟨n, hn⟩ := hl.root
    obtain ⟨n', hn', -⟩ := hg.kept hp hslot hn (hold _ n hn)
    exact ⟨n', hn'⟩
  · intro id n' hn'
    rw [hg.next_id]
    rcases hg.cases_node hp hn' with ⟨n, hn, -⟩ | ⟨rfl, -⟩
    · exact Nat.lt_succ_of_lt (hl.fresh id n hn)
    · exact Nat.lt_succ_self _
  · intro id n' hid hn'
    rcases hg.cases_node hp hn' with ⟨n, hn, hhash, hparent, -⟩ | ⟨rfl, rfl⟩
    · obtain ⟨q, nq, hnq, hlt, hq, hchild, hbelow⟩ := hl.up id n hid hn
      obtain ⟨nq', hq', hqhash, -, hkeep⟩ := hg.kept hp hslot hq (hold q nq hq)
      refine ⟨q, nq', by rw [hparent, hnq], hlt, hq', ?_, ?_⟩
      · rw [hhash]
        exact hkeep _ _ hchild
      · rw [hhash, spot_congr hqhash]
        exact hbelow
    · refine ⟨p, { np with children := np.children.set h st.next_id }, rfl, hl.fresh p np hp,
        ?_, ?_, ?_⟩
      · rw [hg.nodes, if_pos rfl]
      · show (np.children.set h st.next_id).get? h = some st.next_id
        rw [get?_set, if_pos rfl]
      · exact hbelow
  · intro id n' k c hn' hc
    rcases hg.cases_node hp hn' with ⟨n, hn, -, -, -, hchildren⟩ | ⟨rfl, rfl⟩
    · rcases hchildren k c hc with hc | ⟨rfl, rfl, rfl⟩
      · obtain ⟨hroot, nc, hnc, hch, hcp⟩ := hl.down id n k c hn hc
        obtain ⟨nc', hnc', hhash, hparent, -⟩ := hg.kept hp hslot hnc (hold c nc hnc)
        exact ⟨hroot, nc', hnc', by rw [hhash, hch], by rw [hparent, hcp]⟩
      · exact ⟨hnext, _, hchild, rfl, rfl⟩
    · cases hc
  · intro k id
    have hmem : id ∈ st'.ids k ↔ id ∈ st.ids k ∨ (k = h ∧ id = st.next_id) := by
      rw [hg.ids]
      by_cases hk : k = h
      · rw [if_pos hk, hk, mem_append, mem_singleton]
        simp only [true_and]
      · rw [if_neg hk]
        simp only [hk, false_and, or_false]
    rw [hmem, hl.index]
    constructor
    · rintro (⟨hid, n, hn, hh⟩ | ⟨rfl, rfl⟩)
      · obtain ⟨n', hn', hhash, -⟩ := hg.kept hp hslot hn (hold id n hn)
        exact ⟨hid, n', hn', by rw [hhash, hh]⟩
      · exact ⟨hnext, _, hchild, rfl⟩
    · rintro ⟨hid, n', hn', hh⟩
      rcases hg.cases_node hp hn' with ⟨n, hn, hhash, -⟩ | ⟨rfl, rfl⟩
      · exact Or.inl ⟨hid, n, hn, by rw [← hhash, hh]⟩
      · exact Or.inr ⟨hh.symm, rfl⟩
  · intro k
    rw [hg.ids]
    by_cases hk : k = h
    · rw [if_pos hk]
      apply nodup_append.mpr
      refine ⟨hl.index_nodup h, nodup_singleton _, ?_⟩
      intro a ha b hb
      obtain rfl := mem_singleton.mp hb
      obtain ⟨-, n, hn, -⟩ := (hl.index _ _).mp ha
      exact hold a n hn
    · rw [if_neg hk]
      exact hl.index_nodup k

/-! ## An empty leaf goes -/

/-- `st'` is `st` without the node `cursor`, which hung below `p` under the hash `h`. -/
structure Dropped (st st' : TreeState) (cursor p : NodeId) (np : Node) (h : BlockHash) :
    Prop where
  nodes : ∀ j, st'.nodes.get? j =
    if j = cursor then none
    else if j = p then some { np with children := np.children.erase h }
    else st.nodes.get? j
  ids : ∀ h', st'.ids h' = if h' = h then (st.ids h).filter (· ≠ cursor) else st.ids h'
  next_id : st'.next_id = st.next_id
  entries : NoEmptyEntry st → NoEmptyEntry st'

variable {cursor : NodeId}

theorem detach_dropped (hp : st.nodes.get? p = some np) :
    Dropped st (st.detach cursor p h) cursor p np h := by
  unfold TreeState.detach
  simp only [hp]
  refine ⟨?_, ?_, rfl, ?_⟩
  · intro j
    simp only [get?_erase, get?_set]
  · intro h'
    unfold TreeState.ids
    cases hset : st.by_hash.get? h with
    | none =>
      by_cases hh : h' = h
      · rw [hh]
        simp only [hset]
        rfl
      · rw [if_neg hh]
    | some set =>
      by_cases hempty : (set.filter (· ≠ cursor)).isEmpty = true
      · simp only [if_pos hempty, get?_erase]
        by_cases hh : h' = h
        · rw [if_pos hh, if_pos hh]
          exact (List.isEmpty_iff.mp hempty).symm
        · rw [if_neg hh, if_neg hh]
      · simp only [if_neg hempty, get?_set]
        by_cases hh : h' = h
        · rw [if_pos hh, if_pos hh]
          rfl
        · rw [if_neg hh, if_neg hh]
  · intro hentries h' l hl
    cases hset : st.by_hash.get? h with
    | none =>
      simp only [hset] at hl
      exact hentries h' l hl
    | some set =>
      simp only [hset] at hl
      by_cases hempty : (set.filter (· ≠ cursor)).isEmpty = true
      · rw [if_pos hempty] at hl
        obtain ⟨-, hl⟩ := get?_erase_eq_some.mp hl
        exact hentries h' l hl
      · rw [if_neg hempty] at hl
        rcases get?_set_eq_some.mp hl with ⟨rfl, rfl⟩ | ⟨-, hl⟩
        · intro hnil
          exact hempty (List.isEmpty_iff.mpr hnil)
        · exact hentries h' l hl

theorem Dropped.node_of (hd : Dropped st st' cursor p np h) (hp : st.nodes.get? p = some np)
    {j : NodeId} {m' : Node} (hm : st'.nodes.get? j = some m') :
    j ≠ cursor ∧ ∃ m, st.nodes.get? j = some m ∧ m'.block_hash = m.block_hash ∧
      m'.parent = m.parent ∧ m'.workers = m.workers ∧ ∀ k c, m'.children.get? k = some c ↔
        m.children.get? k = some c ∧ ¬ (j = p ∧ k = h) := by
  rw [hd.nodes] at hm
  by_cases hj : j = cursor
  · rw [if_pos hj] at hm
    cases hm
  · rw [if_neg hj] at hm
    refine ⟨hj, ?_⟩
    by_cases hjp : j = p
    · rw [if_pos hjp] at hm
      cases hm
      refine ⟨np, by rw [hjp]; exact hp, rfl, rfl, rfl, ?_⟩
      intro k c
      rw [get?_erase]
      by_cases hk : k = h
      · simp [hk, hjp]
      · simp [hk]
    · rw [if_neg hjp] at hm
      refine ⟨m', hm, rfl, rfl, rfl, ?_⟩
      intro k c
      simp [hjp]

theorem Dropped.kept (hd : Dropped st st' cursor p np h) {j : NodeId} {m : Node}
    (hm : st.nodes.get? j = some m) (hj : j ≠ cursor) : ∃ m', st'.nodes.get? j = some m' := by
  rw [hd.nodes, if_neg hj]
  by_cases hjp : j = p
  · rw [if_pos hjp]
    exact ⟨_, rfl⟩
  · rw [if_neg hjp]
    exact ⟨m, hm⟩

/-- **A childless node can go.** -/
theorem Linked.dropped (hl : Linked below st) (hroot : cursor ≠ ROOT_ID)
    (hn : st.nodes.get? cursor = some n) (hleaf : ∀ k, n.children.get? k = none)
    (hparent : n.parent = some p) (hp : st.nodes.get? p = some np)
    (hd : Dropped st st' cursor p np n.block_hash) : Linked below st' := by
  obtain ⟨q, nq, hnq, -, hq, hchild, -⟩ := hl.up cursor n hroot hn
  obtain rfl : p = q := Option.some.inj (hparent.symm.trans hnq)
  obtain rfl : np = nq := Option.some.inj (hp.symm.trans hq)
  have hnotcursor : ∀ j m k c, st.nodes.get? j = some m → m.children.get? k = some c →
      j ≠ cursor := by
    rintro j m k c hm hc rfl
    rw [hn] at hm
    cases hm
    rw [hleaf k] at hc
    cases hc
  constructor
  · obtain ⟨m, hm⟩ := hl.root
    exact hd.kept hm (Ne.symm hroot)
  · intro id m' hm'
    obtain ⟨-, m, hm, -⟩ := hd.node_of hp hm'
    rw [hd.next_id]
    exact hl.fresh id m hm
  · intro id m' hid hm'
    obtain ⟨hne, m, hm, hhash, hmparent, -⟩ := hd.node_of hp hm'
    obtain ⟨r, nr, hnr, hlt, hr, hmchild, hbelow⟩ := hl.up id m hid hm
    have hrne : r ≠ cursor := hnotcursor r nr _ _ hr hmchild
    obtain ⟨nr', hr'⟩ := hd.kept hr hrne
    obtain ⟨-, nr₂, hr₂, hrhash, -, -, hrchildren⟩ := hd.node_of hp hr'
    obtain rfl : nr = nr₂ := Option.some.inj (hr.symm.trans hr₂)
    refine ⟨r, nr', by rw [hmparent, hnr], hlt, hr', ?_, ?_⟩
    · rw [hhash, hrchildren]
      refine ⟨hmchild, ?_⟩
      rintro ⟨hrp, hk⟩
      rw [hrp, hp] at hr
      have hsame : np = nr := Option.some.inj hr
      rw [hk, ← hsame, hchild] at hmchild
      exact hne (Option.some.inj hmchild).symm
    · rw [hhash, spot_congr hrhash]
      exact hbelow
  · intro id m' k c hm' hc
    obtain ⟨hne, m, hm, -, -, -, hchildren⟩ := hd.node_of hp hm'
    obtain ⟨hmc, hnot⟩ := (hchildren k c).mp hc
    obtain ⟨hcroot, nc, hnc, hch, hcp⟩ := hl.down id m k c hm hmc
    have hcne : c ≠ cursor := by
      rintro rfl
      rw [hn] at hnc
      cases hnc
      apply hnot
      exact ⟨Option.some.inj (hcp.symm.trans hparent), hch.symm⟩
    obtain ⟨nc', hnc'⟩ := hd.kept hnc hcne
    obtain ⟨-, nc₂, hnc₂, hhash, hcparent, -⟩ := hd.node_of hp hnc'
    obtain rfl : nc = nc₂ := Option.some.inj (hnc.symm.trans hnc₂)
    exact ⟨hcroot, nc', hnc', by rw [hhash, hch], by rw [hcparent, hcp]⟩
  · intro k id
    have hmem : id ∈ st'.ids k ↔ id ∈ st.ids k ∧ ¬ (k = n.block_hash ∧ id = cursor) := by
      rw [hd.ids]
      by_cases hk : k = n.block_hash
      · rw [if_pos hk, hk]
        simp
      · simp [hk]
    rw [hmem, hl.index]
    constructor
    · rintro ⟨⟨hid, m, hm, hh⟩, hnot⟩
      have hne : id ≠ cursor := by
        rintro rfl
        rw [hn] at hm
        cases hm
        exact hnot ⟨hh.symm, rfl⟩
      obtain ⟨m', hm'⟩ := hd.kept hm hne
      obtain ⟨-, m₂, hm₂, hhash, -⟩ := hd.node_of hp hm'
      obtain rfl : m = m₂ := Option.some.inj (hm.symm.trans hm₂)
      exact ⟨hid, m', hm', by rw [hhash, hh]⟩
    · rintro ⟨hid, m', hm', hh⟩
      obtain ⟨hne, m, hm, hhash, -⟩ := hd.node_of hp hm'
      exact ⟨⟨hid, m, hm, by rw [← hhash, hh]⟩, fun hbad => hne hbad.2⟩
  · intro k
    rw [hd.ids]
    by_cases hk : k = n.block_hash
    · rw [if_pos hk]
      exact (hl.index_nodup _).filter _
    · rw [if_neg hk]
      exact hl.index_nodup k

/-! ## The loop of `prune_cascade` -/

/-- What every detaching of a spent node keeps, the loop keeps. -/
theorem prune_loop_induct {P : TreeState → Prop}
    (hstep : ∀ (st : TreeState) (cursor p : NodeId) (n : Node), P st → cursor ≠ ROOT_ID →
      st.nodes.get? cursor = some n → n.is_spent = true → n.parent = some p →
      P (st.detach cursor p n.block_hash)) : ∀ (fuel : ℕ) (st : TreeState) (cursor : NodeId), P st →
      P (TreeState.prune_loop fuel st cursor) := by
  intro fuel
  induction fuel with
  | zero => exact fun _ _ hP => hP
  | succ fuel ih =>
    intro st cursor hP
    unfold TreeState.prune_loop
    split
    · exact hP
    · next hroot =>
      cases hn : st.nodes.get? cursor with
      | none => exact hP
      | some n =>
        dsimp only
        cases hparent : n.parent with
        | none => exact hP
        | some p =>
          dsimp only
          split
          · next hspent =>
            have hP' := hstep st cursor p n hP hroot hn hspent hparent
            split
            · exact ih _ p hP'
            · exact hP'
          · exact hP

end LightningH3.KvIndex
