/-
A shard read as a forest: what stands at the end of each path of block hashes.

Node ids are the arena's own business. `lookup` forgets them: it follows child pointers along a path
and reports the entry there, its hash, the parent hash it recorded and its carriers. Two trees with
the same `lookup` are the same tree up to ids.

`store` is what storing a chain does to a forest, and `lookup_insert_loop` shows that the loop of
`insert` does that.
-/
import LightningH3.KvHashTreeEvict

set_option autoImplicit false

namespace LightningH3.KvIndex

open Function Option

/-! ## 1. Paths -/

/-- A node without its links. -/
structure Entry where
  block_hash : BlockHash
  parent_block_hash : Option BlockHash
  workers : OrderedDict KvWorkerId Tiers

def Node.entry (n : Node) : Entry := ⟨n.block_hash, n.parent_block_hash, n.workers⟩

/-- What stands at each path. -/
abbrev Forest := List BlockHash → Option Entry

variable {h : BlockHash}

namespace TreeState

/-- The child pointer of a node for a hash. -/
def child (st : TreeState) (id : NodeId) (h : BlockHash) : Option NodeId :=
  (st.nodes.get? id).bind fun n => n.children.get? h

/-- The node at the end of a path from `id`. -/
def find (st : TreeState) : NodeId → List BlockHash → Option NodeId
  | id, [] => some id
  | id, h :: rest => (st.child id h).bind fun c => find st c rest

/-- The forest of a shard. -/
def lookup (st : TreeState) : Forest := fun path =>
  ((st.find ROOT_ID path).bind st.nodes.get?).map Node.entry

theorem find_append (st : TreeState) (a b : List BlockHash) (id : NodeId) :
    st.find id (a ++ b) = (st.find id a).bind fun c => st.find c b := by
  induction a generalizing b id with
  | nil => rfl
  | cons h a ih =>
    show (st.child id h).bind (fun c => st.find c (a ++ b))
      = ((st.child id h).bind fun c => st.find c a).bind fun c => st.find c b
    rw [bind_assoc]
    congr 1
    funext c
    exact ih b c

theorem find_snoc (st : TreeState) (id : NodeId) (path : List BlockHash) (h : BlockHash) :
    st.find id (path ++ [h]) = (st.find id path).bind fun c => st.child c h := by
  rw [find_append]
  congr 1
  funext c
  unfold find
  cases st.child c h with
  | none => rfl
  | some d => rfl

theorem find_congr {st st' : TreeState} (h : ∀ id k, st'.child id k = st.child id k) :
    ∀ (path : List BlockHash) (id : NodeId), st'.find id path = st.find id path := by
  intro path
  induction path with
  | nil =>
    intro id
    rfl
  | cons k path ih =>
    intro id
    unfold find
    rw [h]
    congr 1
    funext c
    exact ih c

theorem child_eq_some {st : TreeState} {id c : NodeId} (hc : st.child id h = some c) :
    ∃ n, st.nodes.get? id = some n ∧ n.children.get? h = some c :=
  bind_eq_some_iff.mp hc

end TreeState

variable {id : NodeId}

namespace Linked

variable {below : Option BlockHash → BlockHash → Prop} {st : TreeState}

variable {c : NodeId}

theorem child_iff (hl : Linked below st) : st.child id h = some c ↔
      c ≠ ROOT_ID ∧ ∃ nc, st.nodes.get? c = some nc ∧ nc.block_hash = h ∧ nc.parent = some id := by
  constructor
  · intro hc
    obtain ⟨n, hn, hslot⟩ := TreeState.child_eq_some hc
    exact hl.down id n h c hn hslot
  · rintro ⟨hroot, nc, hnc, hhash, hparent⟩
    obtain ⟨p, np, hp, -, hnp, hslot, -⟩ := hl.up c nc hroot hnc
    rw [hparent] at hp
    cases hp
    unfold TreeState.child
    rw [hnp, bind_some, ← hhash, hslot]

theorem child_ne_root (hl : Linked below st)
    (hc : st.child id h = some c) : c ≠ ROOT_ID := (hl.child_iff.mp hc).1

variable {path : List BlockHash}

theorem find_mem (hl : Linked below st) (h : st.find ROOT_ID path = some c) :
    ∃ n, st.nodes.get? c = some n := by
  rcases List.eq_nil_or_concat' path with rfl | ⟨q, k, rfl⟩
  · cases h
    exact hl.root
  · rw [TreeState.find_snoc] at h
    obtain ⟨p, -, hpc⟩ := bind_eq_some_iff.mp h
    obtain ⟨-, nc, hnc, -⟩ := hl.child_iff.mp hpc
    exact ⟨nc, hnc⟩

theorem find_ne_root (hl : Linked below st) (h : st.find ROOT_ID path = some c) (hne : path ≠ []) :
    c ≠ ROOT_ID := by
  rcases List.eq_nil_or_concat' path with rfl | ⟨q, k, rfl⟩
  · exact absurd rfl hne
  · rw [TreeState.find_snoc] at h
    obtain ⟨p, -, hpc⟩ := bind_eq_some_iff.mp h
    exact hl.child_ne_root hpc

/-- **A node is at the end of one path only.** -/
theorem find_inj (hl : Linked below st) : ∀ (a b : List BlockHash) (c : NodeId),
    st.find ROOT_ID a = some c → st.find ROOT_ID b = some c → a = b := by
  intro a
  induction a using List.reverseRecOn with
  | nil =>
    intro b c ha hb
    cases ha
    by_contra hne
    exact hl.find_ne_root hb (Ne.symm hne) rfl
  | append_singleton a k ih =>
    intro b c ha hb
    rcases List.eq_nil_or_concat' b with rfl | ⟨b, l, rfl⟩
    · cases hb
      exact absurd rfl (hl.find_ne_root ha (by simp))
    · rw [TreeState.find_snoc] at ha hb
      obtain ⟨p, hp, hpc⟩ := bind_eq_some_iff.mp ha
      obtain ⟨q, hq, hqc⟩ := bind_eq_some_iff.mp hb
      obtain ⟨-, nc, hnc, hhash, hparent⟩ := hl.child_iff.mp hpc
      obtain ⟨-, nc', hnc', hhash', hparent'⟩ := hl.child_iff.mp hqc
      rw [hnc] at hnc'
      cases hnc'
      rw [hparent] at hparent'
      cases hparent'
      rw [ih b p hp hq, ← hhash, ← hhash']

/-- **Every node is at the end of a path.** -/
theorem exists_path (hl : Linked below st) : ∀ (id : NodeId) (n : Node),
    st.nodes.get? id = some n → ∃ path, st.find ROOT_ID path = some id := by
  intro id
  induction id using Nat.strongRecOn with
  | ind id ih =>
    intro n hn
    by_cases hid : id = ROOT_ID
    · exact ⟨[], by rw [hid]; rfl⟩
    · obtain ⟨p, np, hparent, hlt, hp, -, -⟩ := hl.up id n hid hn
      obtain ⟨path, hpath⟩ := ih p hlt np hp
      refine ⟨path ++ [n.block_hash], ?_⟩
      rw [TreeState.find_snoc, hpath]
      exact hl.child_iff.mpr ⟨hid, n, hn, rfl, hparent⟩

theorem lookup_of_find {n : Node} (hc : st.find ROOT_ID path = some c)
    (hn : st.nodes.get? c = some n) : st.lookup path = some n.entry := by
  unfold TreeState.lookup
  rw [hc, bind_some, hn]
  rfl

theorem find_of_lookup {e : Entry} (h : st.lookup path = some e) :
    ∃ c n, st.find ROOT_ID path = some c ∧ st.nodes.get? c = some n ∧ n.entry = e := by
  obtain ⟨n, hn, he⟩ := map_eq_some_iff.mp h
  obtain ⟨c, hc, hcn⟩ := bind_eq_some_iff.mp hn
  exact ⟨c, n, hc, hcn, he⟩

theorem lookup_eq_none (hl : Linked below st) :
    st.lookup path = none ↔ st.find ROOT_ID path = none := by
  constructor
  · intro h
    cases hc : st.find ROOT_ID path with
    | none => rfl
    | some c =>
      obtain ⟨n, hn⟩ := hl.find_mem hc
      rw [lookup_of_find hc hn] at h
      cases h
  · intro h
    unfold TreeState.lookup
    rw [h]
    rfl

end Linked

variable {st : TreeState}

theorem lookup_head {ok : BlockHash → Prop} (hl : Linked (rooted ok) st) {first : BlockHash}
    {rest : List BlockHash} {e : Entry} (h : st.lookup (first :: rest) = some e) : ok first := by
  obtain ⟨c, -, hc, -, -⟩ := Linked.find_of_lookup h
  obtain ⟨d, hd, -⟩ := bind_eq_some_iff.mp hc
  obtain ⟨hdroot, nd, hnd, hhash, hparent⟩ := hl.child_iff.mp hd
  obtain ⟨p, np, hp, -, hnp, -, hbelow⟩ := hl.up d nd hdroot hnd
  rw [hparent] at hp
  cases hp
  rw [hhash] at hbelow
  exact hbelow (spot_root np)

/-! ## 2. Storing a chain in a forest -/

/-- The entry at a path once `worker` is marked there: a new one records the parent hash. -/
def marked (worker : KvWorkerId) (tiers : Tiers) (h : BlockHash) (crumb : Option BlockHash) :
    Option Entry → Entry
  | some e => { e with workers := add_tiers e.workers worker tiers }
  | none => ⟨h, crumb, add_tiers .empty worker tiers⟩

/-- `store` at the end of path `at_path`. -/
def store (worker : KvWorkerId) (tiers : Tiers) :
    List BlockHash → Forest → List BlockHash → Option BlockHash → Forest
  | [], F, _, _ => F
  | h :: rest, F, at_path, crumb =>
    store worker tiers rest
      (Function.update F (at_path ++ [h]) (some (marked worker tiers h crumb (F (at_path ++ [h])))))
      (at_path ++ [h]) (some h)

theorem store_congr {worker : KvWorkerId} {tiers : Tiers} {mine : List BlockHash → Prop} :
    ∀ (hashes : List BlockHash) (F G : Forest) (at_path : List BlockHash)
      (crumb : Option BlockHash), (∀ path, mine path → F path = G path) →
      (∀ n, n < hashes.length → mine (at_path ++ hashes.take (n + 1))) →
      (∀ path, mine path → store worker tiers hashes F at_path crumb path
        = store worker tiers hashes G at_path crumb path) ∧
      ∀ path, ¬ mine path → store worker tiers hashes G at_path crumb path = G path := by
  intro hashes
  induction hashes with
  | nil =>
    intro F G at_path crumb hFG _
    exact ⟨hFG, fun _ _ => rfl⟩
  | cons h rest ih =>
    intro F G at_path crumb hFG hmine
    have hhere : mine (at_path ++ [h]) := hmine 0 (Nat.succ_pos _)
    obtain ⟨hin, hout⟩ := ih
      (Function.update F (at_path ++ [h]) (some (marked worker tiers h crumb (F (at_path ++ [h])))))
      (Function.update G (at_path ++ [h]) (some (marked worker tiers h crumb (G (at_path ++ [h])))))
      (at_path ++ [h]) (some h)
      (by
        intro path hpath
        by_cases heq : path = at_path ++ [h]
        · rw [heq, update_self, update_self, hFG _ hhere]
        · rw [update_of_ne heq, update_of_ne heq]
          exact hFG path hpath)
      (by
        intro n hn
        have hstep := hmine (n + 1) (Nat.succ_lt_succ hn)
        rw [List.append_assoc]
        exact hstep)
    refine ⟨hin, ?_⟩
    intro path hpath
    refine (hout path hpath).trans ?_
    apply update_of_ne
    rintro rfl
    exact hpath hhere

/-! ## 3. The loop of `insert` stores the chain -/

theorem child_put {n : Node} (hn : st.nodes.get? id = some n)
    (ws : OrderedDict KvWorkerId Tiers) (j : NodeId) (k : BlockHash) :
    (st.put id { n with workers := ws }).child j k = st.child j k := by
  have hget : (st.put id { n with workers := ws }).nodes.get? j
      = if j = id then some { n with workers := ws } else st.nodes.get? j :=
    OrderedDict.get?_set _ _ _ _
  unfold TreeState.child
  rw [hget]
  by_cases hj : j = id
  · rw [if_pos hj, hj, hn]
    rfl
  · rw [if_neg hj]

variable {below : Option BlockHash → BlockHash → Prop}

theorem lookup_put (hl : Linked below st)
    {path : List BlockHash} {n : Node} (hid : st.find ROOT_ID path = some id)
    (hn : st.nodes.get? id = some n) (ws : OrderedDict KvWorkerId Tiers) :
    (st.put id { n with workers := ws }).lookup
      = Function.update st.lookup path (some { n.entry with workers := ws }) := by
  have hfind : ∀ p, (st.put id { n with workers := ws }).find ROOT_ID p = st.find ROOT_ID p :=
    fun p => TreeState.find_congr (child_put hn ws) p ROOT_ID
  have hget := st.get?_put id { n with workers := ws }
  funext p
  by_cases hp : p = path
  · rw [hp, update_self]
    exact Linked.lookup_of_find ((hfind path).trans hid) ((hget id).trans (if_pos rfl))
  · rw [update_of_ne hp]
    unfold TreeState.lookup
    rw [hfind]
    cases hc : st.find ROOT_ID p with
    | none => rfl
    | some c =>
      have hne : c ≠ id := by
        rintro rfl
        exact hp (hl.find_inj p path c hc hid)
      rw [bind_some, bind_some, hget, if_neg hne]

/-- **A new child changes the forest at its own path only.** -/
theorem lookup_grown {st' : TreeState}
    (hl : Linked below st) (hl' : Linked below st') {path : List BlockHash} {p : NodeId} {np : Node}
    {breadcrumb : Option BlockHash} (hpath : st.find ROOT_ID path = some p)
    (hp : st.nodes.get? p = some np) (hslot : np.children.get? h = none)
    (hg : Grown st st' p np h breadcrumb) : st'.find ROOT_ID (path ++ [h]) = some st.next_id ∧
      st'.lookup = Function.update st.lookup (path ++ [h]) (some ⟨h, breadcrumb, .empty⟩) := by
  have hold : ∀ j m, st.nodes.get? j = some m → j ≠ st.next_id :=
    fun j m hm => Nat.ne_of_lt (hl.fresh j m hm)
  have hpne : p ≠ st.next_id := hold p np hp
  -- old paths still lead where they led
  have hmono (q : List BlockHash) (id c : NodeId) : st.find id q = some c →
      st'.find id q = some c := by
    induction q generalizing id c with
    | nil =>
      intro hc
      exact hc
    | cons k q ih =>
      intro hc
      obtain ⟨d, hd, hrest⟩ := bind_eq_some_iff.mp hc
      obtain ⟨n, hn, hnd⟩ := TreeState.child_eq_some hd
      obtain ⟨n', hn', -, -, hkeep⟩ := hg.kept hp hslot hn (hold id n hn)
      refine bind_eq_some_iff.mpr ⟨d, ?_, ih d c hrest⟩
      exact bind_eq_some_iff.mpr ⟨n', hn', hkeep k d hnd⟩
  have hhere : st'.find ROOT_ID (path ++ [h]) = some st.next_id := by
    rw [TreeState.find_snoc, hmono path ROOT_ID p hpath, bind_some]
    unfold TreeState.child
    rw [hg.nodes, if_pos rfl, bind_some, OrderedDict.get?_set, if_pos rfl]
  -- and no other path leads anywhere new
  have hfind : ∀ q, q ≠ path ++ [h] → st'.find ROOT_ID q = st.find ROOT_ID q := by
    intro q hq
    cases hc : st.find ROOT_ID q with
    | some c => exact hmono q ROOT_ID c hc
    | none =>
      cases hc' : st'.find ROOT_ID q with
      | none => rfl
      | some c =>
        exfalso
        by_cases hcn : c = st.next_id
        · rw [hcn] at hc'
          exact hq (hl'.find_inj q _ _ hc' hhere)
        · obtain ⟨nc, hnc⟩ := hl'.find_mem hc'
          have hmem : ∃ m, st.nodes.get? c = some m := by
            rcases hg.cases_node hp hnc with ⟨m, hm, -⟩ | ⟨hbad, -⟩
            · exact ⟨m, hm⟩
            · exact absurd hbad hcn
          obtain ⟨m, hm⟩ := hmem
          obtain ⟨q', hq'⟩ := hl.exists_path c m hm
          have heq := hl'.find_inj q q' c hc' (hmono q' ROOT_ID c hq')
          rw [heq, hq'] at hc
          cases hc
  refine ⟨hhere, ?_⟩
  funext q
  by_cases hq : q = path ++ [h]
  · rw [hq, update_self]
    exact Linked.lookup_of_find hhere (hg.child hpne)
  · rw [update_of_ne hq]
    unfold TreeState.lookup
    rw [hfind q hq]
    cases hc : st.find ROOT_ID q with
    | none => rfl
    | some c =>
      obtain ⟨nc, hnc⟩ := hl.find_mem hc
      rw [bind_some, bind_some, hg.nodes, hnc]
      by_cases hcp : c = p
      · rw [if_pos hcp]
        rw [hcp, hp] at hnc
        cases hnc
        rfl
      · rw [if_neg hcp, if_neg (hold c nc hnc)]

/-- **The loop of `insert` stores the chain below the path it starts from.** -/
theorem lookup_insert_loop {ok : BlockHash → Prop} {worker : KvWorkerId} {tiers : Tiers} :
    ∀ (hashes : List BlockHash) (st : TreeState) (path : List BlockHash) (current : NodeId)
      (crumb : Option BlockHash), Linked (rooted ok) st → st.find ROOT_ID path = some current →
      (path = [] → ∀ h, hashes.head? = some h → ok h) →
      (TreeState.insert_loop worker tiers hashes st current crumb).lookup
        = store worker tiers hashes st.lookup path crumb := by
  intro hashes
  induction hashes with
  | nil =>
    intro st path current crumb _ _ _
    rfl
  | cons h rest ih =>
    intro st path current crumb hl hpath hok
    obtain ⟨np, hnp⟩ := hl.find_mem hpath
    -- Marking the node of `h`, and on with the rest.
    have hgo : ∀ (st' : TreeState) (id : NodeId) (n : Node), Linked (rooted ok) st' →
        st'.find ROOT_ID (path ++ [h]) = some id → st'.nodes.get? id = some n →
        Function.update st'.lookup (path ++ [h])
            (some { n.entry with workers := add_tiers n.workers worker tiers })
          = Function.update st.lookup (path ++ [h])
            (some (marked worker tiers h crumb (st.lookup (path ++ [h])))) →
        (TreeState.insert_loop worker tiers rest
          (st'.put id { n with workers := add_tiers n.workers worker tiers }) id (some h)).lookup
          = store worker tiers (h :: rest) st.lookup path crumb := by
      intro st' id n hl' hid hn hsame
      have hput := lookup_put hl' hid hn (add_tiers n.workers worker tiers)
      have hfind : (st'.put id { n with workers := add_tiers n.workers worker tiers }).find
          ROOT_ID (path ++ [h]) = some id := by
        rw [TreeState.find_congr (child_put hn _)]
        exact hid
      rw [ih _ (path ++ [h]) id (some h) (hl'.of_same_links (SameLinks.put hn _)) hfind
        (fun hbad => absurd hbad (by simp)), hput, hsame]
      rfl
    unfold TreeState.insert_loop
    cases hslot : np.children.get? h with
    | some id =>
      obtain ⟨-, n, hn, -, -⟩ := hl.down current np h id hnp hslot
      have hfind : st.find ROOT_ID (path ++ [h]) = some id := by
        rw [TreeState.find_snoc, hpath, bind_some]
        unfold TreeState.child
        rw [hnp, bind_some, hslot]
      simp only [hnp, bind_some, hslot, hn]
      apply hgo st id n hl hfind hn
      rw [Linked.lookup_of_find hfind hn]
      rfl
    | none =>
      obtain ⟨st', hcreate, hg⟩ := hl.create_child hnp h crumb
      have hbelow : rooted ok (spot current np) h := by
        intro hnone
        have hroot : current = ROOT_ID := by
          by_contra hne
          rw [spot_of_ne hne] at hnone
          cases hnone
        have hnil : path = [] := by
          by_contra hne
          exact hl.find_ne_root hpath hne hroot
        exact hok hnil h rfl
      have hl' : Linked (rooted ok) st' := hl.grown hnp hslot hbelow hg
      obtain ⟨hfind, hlookup⟩ := lookup_grown hl hl' hpath hnp hslot hg
      obtain ⟨-, hn⟩ := hl.grown_child hnp hg
      have hnone : st.lookup (path ++ [h]) = none := by
        rw [hl.lookup_eq_none, TreeState.find_snoc, hpath, bind_some]
        unfold TreeState.child
        rw [hnp, bind_some, hslot]
      simp only [hnp, bind_some, hslot, hcreate, hn]
      apply hgo st' st.next_id _ hl' hfind hn
      rw [hlookup, update_idem, hnone]
      rfl

end LightningH3.KvIndex
