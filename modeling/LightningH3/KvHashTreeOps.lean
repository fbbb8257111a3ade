/-
What each operation on one shard of the hash tree does to the holdings it indexes.

`Holdings` is the abstract state: for each worker and each block hash the tiers on which the worker
holds the block. `Indexes C s H st` says that shard `s` is linked, holds only blocks of its own
chains, and agrees with `H` on every block that belongs to it. A store, a removal and a clear
each revise the holdings of one worker at some hashes, and the walk of `prefix_depths` counts the
leading blocks that are held.
-/
import LightningH3.KvHashTreeShape

set_option autoImplicit false

namespace LightningH3.KvIndex

open List OrderedDict

/-! ## Tiers as sets of bits -/

namespace Tiers

theorem is_empty_iff {t : Tiers} : t.is_empty = true ↔ t = none_held := by
  cases t
  simp [is_empty, none_held]

@[simp] theorem none_union (t : Tiers) : none_held.union t = t := by
  cases t
  simp [union, none_held]

@[simp] theorem union_none (t : Tiers) : t.union none_held = t := by
  cases t
  simp [union, none_held]

@[simp] theorem difference_none (t : Tiers) : t.difference none_held = t := by
  obtain ⟨bits⟩ := t
  have hall : bits &&& ~~~0#8 = bits := BitVec.and_allOnes
  exact congrArg mk hall

@[simp] theorem none_difference (t : Tiers) : none_held.difference t = none_held := by
  simp [difference, none_held]

theorem union_union (a t : Tiers) : (a.union t).union t = a.union t := by
  cases a
  cases t
  simp [union, BitVec.or_assoc]

theorem difference_difference (a t : Tiers) : (a.difference t).difference t = a.difference t := by
  cases a
  cases t
  simp [difference, BitVec.and_assoc]

theorem union_ne_none {a t : Tiers} (h : t ≠ none_held) : a.union t ≠ none_held := by
  obtain ⟨a⟩ := a
  obtain ⟨t⟩ := t
  intro hu
  apply h
  simp only [union, none_held, mk.injEq] at hu ⊢
  have hor : a = 0#8 ∧ t = 0#8 := by simpa using hu
  exact hor.2

end Tiers

/-! ## Holdings -/

/-- For each worker and block hash, the tiers on which the worker holds the block. -/
abbrev Holdings := KvWorkerId → BlockHash → Tiers

/-- The holdings of one worker revised at the listed hashes. -/
def revise (H : Holdings) (worker : KvWorkerId) (hashes : List BlockHash) (f : Tiers → Tiers) :
    Holdings :=
  fun w h => if w = worker ∧ h ∈ hashes then f (H w h) else H w h

theorem revise_nil (H : Holdings) (worker : KvWorkerId) (f : Tiers → Tiers) :
    revise H worker [] f = H := by
  funext w h
  simp [revise]

variable {f : Tiers → Tiers}

theorem revise_eq_self (H : Holdings) (worker : KvWorkerId) (hashes : List BlockHash)
    (hf : ∀ t, f t = t) : revise H worker hashes f = H := by
  funext w h
  unfold revise
  rw [hf, ite_self]

theorem revise_cons (H : Holdings) (worker : KvWorkerId) (a : BlockHash) (hashes : List BlockHash)
    (hf : ∀ t, f (f t) = f t) :
    revise (revise H worker [a] f) worker hashes f = revise H worker (a :: hashes) f := by
  funext w h
  unfold revise
  by_cases hw : w = worker
  · by_cases ha : h = a
    · by_cases hm : h ∈ hashes
      · simp [hw, ha, hf]
      · simp [hw, ha, hf]
    · simp [ha]
  · simp [hw]

variable {H : Holdings} {worker : KvWorkerId} {hashes : List BlockHash}

theorem revise_at_congr {hashes' : List BlockHash} {a : BlockHash}
    (h : f (H worker a) = H worker a ∨ (a ∈ hashes ↔ a ∈ hashes')) (w : KvWorkerId) :
    revise H worker hashes f w a = revise H worker hashes' f w a := by
  unfold revise
  by_cases hw : w = worker
  · subst hw
    rcases h with hfix | hiff
    · simp [hfix]
    · simp [hiff]
  · simp [hw]

theorem revise_singleton_eq {a : BlockHash} (h : f (H worker a) = H worker a) :
    revise H worker [a] f = H := by
  funext w b
  have hcongr : revise H worker [a] f w b = revise H worker [] f w b := by
    apply revise_at_congr
    by_cases hb : b = a
    · rw [hb]
      exact Or.inl h
    · exact Or.inr (by simp [hb])
  rw [hcongr, revise_nil]

/-! ## The carriers of one node -/

/-- A carrier entry with no tier never exists. -/
def Filled (carriers : OrderedDict KvWorkerId Tiers) : Prop :=
  ∀ w t, carriers.get? w = some t → t ≠ Tiers.none_held

theorem filled_empty : Filled OrderedDict.empty := by
  intro w t h
  cases h

theorem Filled.get?_isSome_iff {carriers : OrderedDict KvWorkerId Tiers} (hf : Filled carriers)
    (w : KvWorkerId) :
    (carriers.get? w).isSome = true ↔ (carriers.get? w).getD Tiers.none_held ≠ Tiers.none_held := by
  cases h : carriers.get? w with
  | none => simp
  | some t => simpa using hf w t h

/-- How an update of one node's carriers shows in the tiers: the worker's are mapped by `f`. -/
structure Carried (f : Tiers → Tiers) (worker : KvWorkerId)
    (carriers carriers' : OrderedDict KvWorkerId Tiers) : Prop where
  tiers : ∀ w, (carriers'.get? w).getD Tiers.none_held =
    if w = worker then f ((carriers.get? w).getD Tiers.none_held)
    else (carriers.get? w).getD Tiers.none_held
  filled : Filled carriers → Filled carriers'

variable {tiers : Tiers}

section

variable (carriers : OrderedDict KvWorkerId Tiers)
include carriers

theorem add_tiers_carried (worker : KvWorkerId) (ht : tiers ≠ Tiers.none_held) :
    Carried (fun t => t.union tiers) worker carriers (add_tiers carriers worker tiers) := by
  unfold add_tiers
  constructor
  · intro w
    cases h : carriers.get? worker with
    | none =>
      simp only [get?_set]
      by_cases hw : w = worker
      · rw [hw, h]
        simp
      · rw [if_neg hw, if_neg hw]
    | some held =>
      simp only [get?_set]
      by_cases hw : w = worker
      · rw [if_pos hw, if_pos hw, hw, h]
        rfl
      · rw [if_neg hw, if_neg hw]
  · intro hf w t hget
    cases h : carriers.get? worker with
    | none =>
      simp only [h, get?_set] at hget
      by_cases hw : w = worker
      · rw [if_pos hw] at hget
        cases hget
        exact ht
      · rw [if_neg hw] at hget
        exact hf w t hget
    | some held =>
      simp only [h, get?_set] at hget
      by_cases hw : w = worker
      · rw [if_pos hw] at hget
        cases hget
        exact Tiers.union_ne_none ht
      · rw [if_neg hw] at hget
        exact hf w t hget

theorem release_tiers_carried (worker : KvWorkerId) (tiers : Tiers) :
    Carried (fun t => t.difference tiers) worker carriers
      (release_tiers carriers worker tiers) := by
  unfold release_tiers
  constructor
  · intro w
    cases h : carriers.get? worker with
    | none =>
      by_cases hw : w = worker
      · simp [hw, h]
      · simp [hw]
    | some held =>
      by_cases hempty : (held.difference tiers).is_empty = true
      · simp only [if_pos hempty, get?_erase]
        by_cases hw : w = worker
        · rw [if_pos hw, if_pos hw, hw, h]
          exact (Tiers.is_empty_iff.mp hempty).symm
        · rw [if_neg hw, if_neg hw]
      · simp only [if_neg hempty, get?_set]
        by_cases hw : w = worker
        · rw [if_pos hw, if_pos hw, hw, h]
          rfl
        · rw [if_neg hw, if_neg hw]
  · intro hf w t hget
    cases h : carriers.get? worker with
    | none =>
      simp only [h] at hget
      exact hf w t hget
    | some held =>
      simp only [h] at hget
      by_cases hempty : (held.difference tiers).is_empty = true
      · rw [if_pos hempty] at hget
        obtain ⟨-, hget⟩ := get?_erase_eq_some.mp hget
        exact hf w t hget
      · rw [if_neg hempty] at hget
        rcases get?_set_eq_some.mp hget with ⟨rfl, rfl⟩ | ⟨-, hget⟩
        · intro hnone
          exact hempty (Tiers.is_empty_iff.mpr hnone)
        · exact hf w t hget

theorem erase_carried (worker : KvWorkerId) :
    Carried (fun _ => Tiers.none_held) worker carriers (carriers.erase worker) := by
  constructor
  · intro w
    rw [get?_erase]
    by_cases hw : w = worker
    · rw [if_pos hw, if_pos hw]
      rfl
    · rw [if_neg hw, if_neg hw]
  · intro hf w t hget
    obtain ⟨-, hget⟩ := get?_erase_eq_some.mp hget
    exact hf w t hget

end

/-! ## A shard indexes the holdings -/

/-- Shard `s` holds blocks of its own chains only, and for those it shows exactly `H`. -/
structure Indexes (C : Chains BlockHash) (s : Fin N_SHARDS) (H : Holdings) (st : TreeState) :
    Prop where
  linked : Linked C.Below st
  home : ∀ id n, id ≠ ROOT_ID → st.nodes.get? id = some n →
    shard_of (C.head n.block_hash) = s
  tiers : ∀ id n, id ≠ ROOT_ID → st.nodes.get? id = some n →
    ∀ w, n.tiers_of w = H w n.block_hash
  filled : ∀ id n, st.nodes.get? id = some n → Filled n.workers
  present : ∀ w h, shard_of (C.head h) = s → H w h ≠ Tiers.none_held →
    ∃ id n, id ≠ ROOT_ID ∧ st.nodes.get? id = some n ∧ n.block_hash = h

variable {h : BlockHash}

namespace Indexes

variable {C : Chains BlockHash} {s : Fin N_SHARDS} {H : Holdings} {st : TreeState}

theorem new (C : Chains BlockHash) (s : Fin N_SHARDS) :
    Indexes C s (fun _ _ => Tiers.none_held) TreeState.new := by
  constructor
  · exact Linked.new C.Below
  · intro id n hid hn
    exact absurd (TreeState.nodes_new hn).1 hid
  · intro id n hid hn
    exact absurd (TreeState.nodes_new hn).1 hid
  · intro id n hn
    obtain ⟨-, rfl⟩ := TreeState.nodes_new hn
    exact filled_empty
  · intro _ h _ hne
    exact absurd rfl hne

section

variable (hi : Indexes C s H st)
include hi

theorem congr_home {H' : Holdings}
    (h : ∀ w a, shard_of (C.head a) = s → H' w a = H w a) : Indexes C s H' st := by
  constructor
  · exact hi.linked
  · exact hi.home
  · intro id n hid hn w
    rw [h w _ (hi.home id n hid hn)]
    exact hi.tiers id n hid hn w
  · exact hi.filled
  · intro w a ha hne
    rw [h w a ha] at hne
    exact hi.present w a ha hne

variable {n : Node}

theorem on_node_iff {id : NodeId} (hid : id ≠ ROOT_ID)
    (hn : st.nodes.get? id = some n) (w : KvWorkerId) :
    (n.workers.get? w).isSome = true ↔ H w n.block_hash ≠ Tiers.none_held := by
  rw [(hi.filled id n hn).get?_isSome_iff w, ← hi.tiers id n hid hn w]
  rfl

theorem none_of_absent
    (hhome : shard_of (C.head h) = s)
    (hno : ∀ id n, id ≠ ROOT_ID → st.nodes.get? id = some n → n.block_hash ≠ h)
    (w : KvWorkerId) : H w h = Tiers.none_held := by
  by_contra hne
  obtain ⟨id, n, hid, hn, hh⟩ := hi.present w h hhome hne
  exact hno id n hid hn hh

/-! ## The three moves -/

/-- **Updating one worker's entry at a node revises its holdings at the node's hash.** -/
theorem put {id : NodeId} (hid : id ≠ ROOT_ID)
    (hn : st.nodes.get? id = some n) {f : Tiers → Tiers} {worker : KvWorkerId}
    {ws : OrderedDict KvWorkerId Tiers} (hc : Carried f worker n.workers ws) :
    Indexes C s (revise H worker [n.block_hash] f) (st.put id { n with workers := ws }) := by
  have hs : SameLinks st (st.put id { n with workers := ws }) := SameLinks.put hn ws
  have hget := st.get?_put id { n with workers := ws }
  constructor
  · exact hi.linked.of_same_links hs
  · intro j m' hj hm'
    obtain ⟨m, hm, hhash, -⟩ := hs.nodes j m' hm'
    rw [hhash]
    exact hi.home j m hj hm
  · intro j m hj hm w
    rw [hget] at hm
    by_cases hji : j = id
    · rw [if_pos hji] at hm
      cases hm
      show (ws.get? w).getD Tiers.none_held = revise H worker [n.block_hash] f w n.block_hash
      rw [hc.tiers w]
      have hold : (n.workers.get? w).getD Tiers.none_held = H w n.block_hash :=
        hi.tiers id n hid hn w
      rw [hold]
      unfold revise
      simp
    · rw [if_neg hji] at hm
      have hne : m.block_hash ≠ n.block_hash := by
        intro hh
        exact hji (hi.linked.node_unique hj hid hm hn hh)
      rw [hi.tiers j m hj hm w]
      unfold revise
      simp [hne]
  · intro j m hm
    rw [hget] at hm
    by_cases hji : j = id
    · rw [if_pos hji] at hm
      cases hm
      exact hc.filled (hi.filled id n hn)
    · rw [if_neg hji] at hm
      exact hi.filled j m hm
  · intro w h hhome hne
    by_cases hh : h = n.block_hash
    · obtain ⟨n', hn', hhash, -⟩ := hs.kept id n hn
      exact ⟨id, n', hid, hn', by rw [hhash, hh]⟩
    · have hold : H w h ≠ Tiers.none_held := by
        unfold revise at hne
        simpa [hh] using hne
      obtain ⟨j, m, hj, hm, hmh⟩ := hi.present w h hhome hold
      obtain ⟨m', hm', hhash, -⟩ := hs.kept j m hm
      exact ⟨j, m', hj, hm', by rw [hhash, hmh]⟩

theorem grown {st' : TreeState} {p : NodeId} {np : Node}
    {breadcrumb : Option BlockHash} (hp : st.nodes.get? p = some np)
    (hslot : np.children.get? h = none) (hpath : C.path h = C.path_to (spot p np) ++ [h])
    (hhome : shard_of (C.head h) = s) (hg : Grown st st' p np h breadcrumb) :
    Indexes C s H st' := by
  have hold : ∀ j m, st.nodes.get? j = some m → j ≠ st.next_id :=
    fun j m hm => Nat.ne_of_lt (hi.linked.fresh j m hm)
  -- A node of the hash would sit in the slot that is empty.
  have habsent : ∀ id n, id ≠ ROOT_ID → st.nodes.get? id = some n → n.block_hash ≠ h := by
    rintro id n hid hn rfl
    rw [hi.linked.child_eq hid hn hp hpath] at hslot
    cases hslot
  constructor
  · exact hi.linked.grown hp hslot hpath hg
  · intro id n' hid hn'
    rcases hg.cases_node hp hn' with ⟨n, hn, hhash, -⟩ | ⟨-, rfl⟩
    · rw [hhash]
      exact hi.home id n hid hn
    · exact hhome
  · intro id n' hid hn' w
    rcases hg.cases_node hp hn' with ⟨n, hn, hhash, -, hworkers, -⟩ | ⟨-, rfl⟩
    · rw [hhash, ← hi.tiers id n hid hn w]
      unfold Node.tiers_of
      rw [hworkers]
    · exact (hi.none_of_absent hhome habsent w).symm
  · intro id n' hn'
    rcases hg.cases_node hp hn' with ⟨n, hn, -, -, hworkers, -⟩ | ⟨-, rfl⟩
    · rw [hworkers]
      exact hi.filled id n hn
    · exact filled_empty
  · intro w a ha hne
    obtain ⟨id, n, hid, hn, hh⟩ := hi.present w a ha hne
    obtain ⟨n', hn', hhash, -⟩ := hg.kept hp hslot hn (hold id n hn)
    exact ⟨id, n', hid, hn', by rw [hhash, hh]⟩

theorem dropped {st' : TreeState} {cursor p : NodeId} {np : Node}
    (hroot : cursor ≠ ROOT_ID) (hn : st.nodes.get? cursor = some n) (hspent : n.is_spent = true)
    (hparent : n.parent = some p) (hp : st.nodes.get? p = some np)
    (hd : Dropped st st' cursor p np n.block_hash) : Indexes C s H st' := by
  have hempty : n.workers.items = [] ∧ n.children.items = [] := by
    unfold Node.is_spent at hspent
    simpa using hspent
  have hleaf : ∀ k, n.children.get? k = none := by
    intro k
    unfold OrderedDict.get?
    rw [hempty.2]
    rfl
  have hnobody : ∀ w, H w n.block_hash = Tiers.none_held := by
    intro w
    rw [← hi.tiers cursor n hroot hn w]
    unfold Node.tiers_of OrderedDict.get?
    rw [hempty.1]
    rfl
  constructor
  · exact hi.linked.dropped hroot hn hleaf hparent hp hd
  · intro id m' hid hm'
    obtain ⟨-, m, hm, hhash, -⟩ := hd.node_of hp hm'
    rw [hhash]
    exact hi.home id m hid hm
  · intro id m' hid hm' w
    obtain ⟨-, m, hm, hhash, -, hworkers, -⟩ := hd.node_of hp hm'
    rw [hhash, ← hi.tiers id m hid hm w]
    unfold Node.tiers_of
    rw [hworkers]
  · intro id m' hm'
    obtain ⟨-, m, hm, -, -, hworkers, -⟩ := hd.node_of hp hm'
    rw [hworkers]
    exact hi.filled id m hm
  · intro w a ha hne
    obtain ⟨id, m, hid, hm, hh⟩ := hi.present w a ha hne
    have hidne : id ≠ cursor := by
      rintro rfl
      rw [hn] at hm
      cases hm
      rw [← hh] at hne
      exact hne (hnobody w)
    obtain ⟨m', hm'⟩ := hd.kept hm hidne
    obtain ⟨-, m₂, hm₂, hhash, -⟩ := hd.node_of hp hm'
    obtain rfl : m = m₂ := Option.some.inj (hm.symm.trans hm₂)
    exact ⟨id, m', hid, hm', by rw [hhash, hh]⟩

end

end Indexes

/-! ## Pruning -/

/-- Every node of `st'` is a node of `st` under the same hash. -/
def Shrinks (st st' : TreeState) : Prop :=
  ∀ id n', st'.nodes.get? id = some n' →
    ∃ n, st.nodes.get? id = some n ∧ n'.block_hash = n.block_hash

theorem Shrinks.refl (st : TreeState) : Shrinks st st := fun _ n' hn' => ⟨n', hn', rfl⟩

variable {st : TreeState}

theorem Shrinks.trans {st' st'' : TreeState} (h : Shrinks st st') (h' : Shrinks st' st'') :
    Shrinks st st'' := by
  intro id n'' hn''
  obtain ⟨n', hn', hhash'⟩ := h' id n'' hn''
  obtain ⟨n, hn, hhash⟩ := h id n' hn'
  exact ⟨n, hn, hhash'.trans hhash⟩

variable {id : NodeId} {n : Node}

theorem Shrinks.put (hn : st.nodes.get? id = some n) (ws : OrderedDict KvWorkerId Tiers) :
    Shrinks st (st.put id { n with workers := ws }) := by
  intro j m' hm'
  obtain ⟨m, hm, hhash, -⟩ := (SameLinks.put hn ws).nodes j m' hm'
  exact ⟨m, hm, hhash⟩

variable {C : Chains BlockHash} {s : Fin N_SHARDS}

/-- **Pruning changes nothing of what a shard shows**, wherever it starts and however far it
gets. -/
theorem Indexes.prune_cascade (hi : Indexes C s H st) (start : NodeId) :
    Indexes C s H (st.prune_cascade start) ∧ Shrinks st (st.prune_cascade start) := by
  apply prune_loop_induct (P := fun st' => Indexes C s H st' ∧ Shrinks st st')
  · rintro st' cursor p n ⟨hi', hs⟩ hroot hn hspent hparent
    obtain ⟨p', np, hp', -, hp, -, -⟩ := hi'.linked.up cursor n hroot hn
    cases hparent.symm.trans hp'
    have hd : Dropped st' (st'.detach cursor p n.block_hash) cursor p np n.block_hash :=
      detach_dropped hp
    refine ⟨hi'.dropped hroot hn hspent hparent hp hd, hs.trans ?_⟩
    intro j m' hm'
    obtain ⟨-, m, hm, hhash, -⟩ := hd.node_of hp hm'
    exact ⟨m, hm, hhash⟩
  · exact ⟨hi, Shrinks.refl st⟩

theorem size_detach_lt {cursor p : NodeId} (h : BlockHash) (hn : st.nodes.get? cursor = some n) :
    (st.detach cursor p h).nodes.size < st.nodes.size := by
  have hperm : ∀ d : OrderedDict NodeId Node, (∃ m, d.get? cursor = some m) →
      (d.erase cursor).size < d.size := by
    rintro d ⟨m, hm⟩
    have hlen := (items_perm_cons_erase hm).length_eq
    unfold OrderedDict.size
    rw [hlen, length_cons]
    omega
  unfold TreeState.detach
  cases hp : st.nodes.get? p with
  | none => exact hperm st.nodes ⟨n, hn⟩
  | some np =>
    set np' : Node := { np with children := np.children.erase h }
    have hsize : (st.nodes.set p np').size = st.nodes.size := by
      have hset := (items_set_perm_of_get? (w := np') hp).length_eq
      have hold := (items_perm_cons_erase hp).length_eq
      unfold OrderedDict.size
      rw [hset, hold, length_cons, length_cons]
    rw [← hsize]
    apply hperm
    rw [get?_set]
    by_cases hcp : cursor = p
    · exact ⟨np', if_pos hcp⟩
    · exact ⟨n, by rw [if_neg hcp, hn]⟩

/-! ## Storing a chain -/

theorem Indexes.mark (hi : Indexes C s H st) (hid : id ≠ ROOT_ID)
    (hn : st.nodes.get? id = some n) (hh : n.block_hash = h) (worker : KvWorkerId)
    (ht : tiers ≠ Tiers.none_held) : Indexes C s (revise H worker [h] fun t => t.union tiers)
      (st.put id { n with workers := add_tiers n.workers worker tiers }) := by
  rw [← hh]
  exact hi.put hid hn (add_tiers_carried n.workers worker ht)

/-- **The loop of `insert` adds the tiers at every hash it walks**, from a node whose chain the
hashes continue. The induction is on the hashes left; each turn finds the child or creates it,
and then stands on it. -/
theorem Indexes.insert_loop (ht : tiers ≠ Tiers.none_held) :
    ∀ (rest : List BlockHash) (H : Holdings) (st : TreeState) (current : NodeId) (np : Node)
      (prev_hash : Option BlockHash), Indexes C s H st → st.nodes.get? current = some np →
      Determined C.path (C.path_to (spot current np) ++ rest) →
      (∀ a ∈ rest, shard_of (C.head a) = s) →
      Indexes C s (revise H worker rest fun t => t.union tiers)
        (TreeState.insert_loop worker tiers rest st current prev_hash) := by
  intro rest
  induction rest with
  | nil =>
    intro H st current np prev_hash hi _ _ _
    rw [revise_nil]
    exact hi
  | cons h rest ih =>
    intro H st current np prev_hash hi hcur hdet hhome
    have hbelow : C.path h = C.path_to (spot current np) ++ [h] := C.below_of_determined hdet
    have hnext : Determined C.path (C.path_to (some h) ++ rest) := C.determined_step hdet
    have hhomes : ∀ a ∈ rest, shard_of (C.head a) = s :=
      fun a ha => hhome a (mem_cons_of_mem _ ha)
    -- Either way the loop goes on at the node of `h`, once it is marked.
    have hgo : ∀ (st' : TreeState) (id : NodeId) (n : Node), Indexes C s H st' →
        id ≠ ROOT_ID → st'.nodes.get? id = some n → n.block_hash = h →
        Indexes C s (revise H worker (h :: rest) fun t => t.union tiers)
          (TreeState.insert_loop worker tiers rest
            (st'.put id { n with workers := add_tiers n.workers worker tiers }) id (some h)) := by
      intro st' id n hi' hid hn hh
      rw [← revise_cons H worker h rest fun t => Tiers.union_union t tiers]
      apply ih _ _ id { n with workers := add_tiers n.workers worker tiers } (some h)
        (hi'.mark hid hn hh worker ht)
      · exact (get?_set _ _ _ _).trans (if_pos rfl)
      · rw [spot_of_ne hid]
        rw [hh]
        exact hnext
      · exact hhomes
    unfold TreeState.insert_loop
    cases hslot : np.children.get? h with
    | some id =>
      obtain ⟨hid, n, hn, hh, -⟩ := hi.linked.down current np h id hcur hslot
      simp only [hcur, Option.bind_some, hslot, hn]
      exact hgo st id n hi hid hn hh
    | none =>
      obtain ⟨st', hcreate, hg⟩ := hi.linked.create_child hcur h prev_hash
      have hi' : Indexes C s H st' :=
        hi.grown hcur hslot hbelow (hhome h mem_cons_self) hg
      obtain ⟨hid, hn⟩ := hi.linked.grown_child hcur hg
      simp only [hcur, Option.bind_some, hslot, hcreate, hn]
      exact hgo st' st.next_id _ hi' hid hn rfl

theorem get?_by_hash_of_ids {a : NodeId} {rest : List NodeId}
    (hids : st.ids h = a :: rest) : st.by_hash.get? h = some (a :: rest) := by
  unfold TreeState.ids at hids
  cases hb : st.by_hash.get? h with
  | none =>
    rw [hb] at hids
    cases hids
  | some l =>
    rw [hb] at hids
    exact congrArg some hids

theorem Linked.resolve_parent_of_node (hl : Linked C.Below st) (hid : id ≠ ROOT_ID)
    (hn : st.nodes.get? id = some n) (worker : KvWorkerId) :
    st.resolve_parent worker (some n.block_hash) = id := by
  have hb : st.by_hash.get? n.block_hash = some [id] :=
    get?_by_hash_of_ids (hl.ids_eq_singleton hid hn)
  unfold TreeState.resolve_parent
  simp only [hb]

theorem no_skip (hne : hashes ≠ []) (ht : tiers ≠ Tiers.none_held) :
    (hashes.isEmpty || tiers.is_empty) = false := by
  rw [Bool.or_eq_false_iff]
  exact ⟨isEmpty_eq_false_iff.mpr hne, Bool.eq_false_iff.mpr fun h => ht (Tiers.is_empty_iff.mp h)⟩

theorem Indexes.insert_root (hi : Indexes C s H st) {link : ParentLink} (hlink : link.attach = none)
    (hne : hashes ≠ []) (ht : tiers ≠ Tiers.none_held)
    (hdet : Determined C.path (C.path_to none ++ hashes))
    (hhome : ∀ a ∈ hashes, shard_of (C.head a) = s) :
    Indexes C s (revise H worker hashes fun t => t.union tiers)
      (st.insert worker link hashes tiers) := by
  obtain ⟨root, hroot⟩ := hi.linked.root
  unfold TreeState.insert
  rw [no_skip hne ht, hlink]
  apply Indexes.insert_loop ht hashes H st ROOT_ID root link.breadcrumb hi hroot
  · exact hdet
  · exact hhome

theorem Indexes.insert_below (hi : Indexes C s H st) {link : ParentLink} (hid : id ≠ ROOT_ID)
    (hn : st.nodes.get? id = some n) (hlink : link.attach = some n.block_hash) (hne : hashes ≠ [])
    (ht : tiers ≠ Tiers.none_held)
    (hdet : Determined C.path (C.path_to (some n.block_hash) ++ hashes))
    (hhome : ∀ a ∈ hashes, shard_of (C.head a) = s) :
    Indexes C s (revise H worker hashes fun t => t.union tiers)
      (st.insert worker link hashes tiers) := by
  unfold TreeState.insert
  rw [no_skip hne ht, hlink, hi.linked.resolve_parent_of_node hid hn worker]
  apply Indexes.insert_loop ht hashes H st id n link.breadcrumb hi hn
  · rw [spot_of_ne hid]
    exact hdet
  · exact hhome

/-! ## Removing blocks -/

/-- The hash a node id stands for. -/
def hash_at (st : TreeState) (id : NodeId) : BlockHash :=
  ((st.nodes.get? id).map Node.block_hash).getD ROOT_HASH_SENTINEL

variable {st₀ : TreeState}

theorem Indexes.remove_one (hl : Linked C.Below st₀) (hs : Shrinks st₀ st) (hi : Indexes C s H st)
    (worker : KvWorkerId) (tiers : Tiers) {n₀ : Node} (hid : id ≠ ROOT_ID)
    (hn₀ : st₀.nodes.get? id = some n₀) (hhome : shard_of (C.head n₀.block_hash) = s) :
    Indexes C s (revise H worker [n₀.block_hash] fun t => t.difference tiers)
        (TreeState.remove_one worker tiers st id) ∧
      Shrinks st₀ (TreeState.remove_one worker tiers st id) := by
  unfold TreeState.remove_one
  cases hn : st.nodes.get? id with
  | none =>
    refine ⟨?_, hs⟩
    have habsent : ∀ j m, j ≠ ROOT_ID → st.nodes.get? j = some m →
        m.block_hash ≠ n₀.block_hash := by
      intro j m hj hm hmh
      obtain ⟨m₀, hm₀, hhash⟩ := hs j m hm
      have hjid : j = id := hl.node_unique hj hid hm₀ hn₀ (hhash.symm.trans hmh)
      rw [hjid, hn] at hm
      cases hm
    have hsame : revise H worker [n₀.block_hash] (fun t => t.difference tiers) = H := by
      apply revise_singleton_eq
      rw [hi.none_of_absent hhome habsent worker]
      exact Tiers.none_difference tiers
    rw [hsame]
    exact hi
  | some n =>
    obtain ⟨m₀, hm₀, hhash⟩ := hs id n hn
    rw [hn₀] at hm₀
    cases hm₀
    rw [← hhash]
    have hput := hi.put hid hn (release_tiers_carried n.workers worker tiers)
    have hsput := hs.trans (Shrinks.put hn (release_tiers n.workers worker tiers))
    dsimp only
    split
    · obtain ⟨hprune, hsprune⟩ := hput.prune_cascade id
      exact ⟨hprune, hsput.trans hsprune⟩
    · exact ⟨hput, hsput⟩

theorem Indexes.remove_loop (hl : Linked C.Below st₀) (worker : KvWorkerId) (tiers : Tiers) :
    ∀ (targets : List NodeId) (H : Holdings) (st : TreeState),
      (∀ id ∈ targets, id ≠ ROOT_ID ∧ ∃ n₀, st₀.nodes.get? id = some n₀ ∧
        shard_of (C.head n₀.block_hash) = s) → Shrinks st₀ st → Indexes C s H st →
      Indexes C s (revise H worker (targets.map (hash_at st₀)) fun t => t.difference tiers)
        (targets.foldl (TreeState.remove_one worker tiers) st) := by
  intro targets
  induction targets with
  | nil =>
    intro H st _ _ hi
    rw [map_nil, revise_nil]
    exact hi
  | cons id targets ih =>
    intro H st htargets hs hi
    obtain ⟨hid, n₀, hn₀, hhome⟩ := htargets id mem_cons_self
    obtain ⟨hone, hsone⟩ := hi.remove_one hl hs worker tiers hid hn₀ hhome
    have hhash : hash_at st₀ id = n₀.block_hash := by
      unfold hash_at
      rw [hn₀]
      rfl
    rw [map_cons, ← revise_cons _ _ _ _ (fun t => Tiers.difference_difference t tiers), hhash]
    exact ih _ _ (fun j hj => htargets j (mem_cons_of_mem _ hj)) hsone hone

/-- **A removal deletes the tiers at the listed hashes.** -/
theorem Indexes.remove (hi : Indexes C s H st) (worker : KvWorkerId) (hashes : List BlockHash)
    (tiers : Tiers) : Indexes C s (revise H worker hashes fun t => t.difference tiers)
      (st.remove worker hashes tiers) := by
  have htargets : ∀ id ∈ hashes.flatMap st.ids, id ≠ ROOT_ID ∧
      ∃ n₀, st.nodes.get? id = some n₀ ∧ n₀.block_hash ∈ hashes := by
    intro id hmem
    obtain ⟨h, hh, hid⟩ := mem_flatMap.mp hmem
    obtain ⟨hroot, n, hn, hnh⟩ := (hi.linked.index h id).mp hid
    exact ⟨hroot, n, hn, by rw [hnh]; exact hh⟩
  have hloop := Indexes.remove_loop hi.linked worker tiers (hashes.flatMap st.ids) H st
    (fun id hmem => by
      obtain ⟨hroot, n, hn, -⟩ := htargets id hmem
      exact ⟨hroot, n, hn, hi.home id n hroot hn⟩)
    (Shrinks.refl st) hi
  have hhash : ∀ id n, st.nodes.get? id = some n → hash_at st id = n.block_hash := by
    intro id n hn
    unfold hash_at
    rw [hn]
    rfl
  -- A hash of this shard without a target is held by nobody.
  apply hloop.congr_home
  intro w h hhome
  apply revise_at_congr
  by_cases hlisted : h ∈ (hashes.flatMap st.ids).map (hash_at st)
  · obtain ⟨id, hid, rfl⟩ := mem_map.mp hlisted
    obtain ⟨-, n, hn, hnh⟩ := htargets id hid
    rw [hhash id n hn] at hlisted ⊢
    exact Or.inr (iff_of_true hnh hlisted)
  · by_cases hh : h ∈ hashes
    · have hnone : H worker h = Tiers.none_held := by
        apply hi.none_of_absent hhome
        rintro id n hid hn rfl
        apply hlisted
        refine mem_map.mpr ⟨id, ?_, hhash id n hn⟩
        exact mem_flatMap.mpr ⟨_, hh, (hi.linked.index _ _).mpr ⟨hid, n, hn, rfl⟩⟩
      rw [hnone]
      exact Or.inl (Tiers.none_difference tiers)
    · exact Or.inr (iff_of_false hh hlisted)

/-! ## Clearing a worker -/

theorem Indexes.clear_one {acc : TreeState × List NodeId} (hi : Indexes C s H acc.1)
    (worker : KvWorkerId) (hid : id ≠ ROOT_ID) (hn : acc.1.nodes.get? id = some n) :
    Indexes C s (revise H worker [n.block_hash] fun _ => Tiers.none_held)
        (TreeState.clear_one worker acc id).1 ∧
      SameLinks acc.1 (TreeState.clear_one worker acc id).1 := by
  have hput := hi.put hid hn (erase_carried n.workers worker)
  have hsput := SameLinks.put hn (n.workers.erase worker)
  unfold TreeState.clear_one
  simp only [hn]
  cases hw : n.workers.get? worker with
  | some t => exact ⟨hput, hsput⟩
  | none =>
    have hnone : H worker n.block_hash = Tiers.none_held := by
      rw [← hi.tiers id n hid hn worker]
      unfold Node.tiers_of
      rw [hw]
      rfl
    rw [revise_singleton_eq hnone.symm]
    exact ⟨hi, SameLinks.refl acc.1⟩

theorem Indexes.clear_loop (worker : KvWorkerId) :
    ∀ (targets : List NodeId) (H : Holdings) (acc : TreeState × List NodeId),
      (∀ id ∈ targets, id ≠ ROOT_ID ∧ ∃ n₀, st₀.nodes.get? id = some n₀) →
      SameLinks st₀ acc.1 → Indexes C s H acc.1 →
      Indexes C s (revise H worker (targets.map (hash_at st₀)) fun _ => Tiers.none_held)
        (targets.foldl (TreeState.clear_one worker) acc).1 := by
  intro targets
  induction targets with
  | nil =>
    intro H acc _ _ hi
    rw [map_nil, revise_nil]
    exact hi
  | cons id targets ih =>
    intro H acc htargets hs hi
    obtain ⟨hid, n₀, hn₀⟩ := htargets id mem_cons_self
    obtain ⟨n, hn, hhash, -⟩ := hs.kept id n₀ hn₀
    obtain ⟨hone, hsone⟩ := hi.clear_one worker hid hn
    have hat : hash_at st₀ id = n.block_hash := by
      unfold hash_at
      rw [hn₀, hhash]
      rfl
    rw [map_cons, ← revise_cons H worker _ _ (f := fun _ => Tiers.none_held) (fun _ => rfl), hat]
    exact ih _ _ (fun j hj => htargets j (mem_cons_of_mem _ hj)) (hs.trans hsone) hone

theorem Indexes.prune_all (candidates : List NodeId) (hi : Indexes C s H st) :
    Indexes C s H (candidates.foldl TreeState.prune_one st) := by
  refine foldlRecOn _ _ hi (fun st hi id _ => ?_)
  unfold TreeState.prune_one
  split
  · exact (hi.prune_cascade id).1
  · exact hi

/-- The holdings without those of one worker. -/
def cleared (H : Holdings) (worker : KvWorkerId) : Holdings :=
  fun w h => if w = worker then Tiers.none_held else H w h

/-- **A clear empties the worker.** -/
theorem Indexes.clear_worker (hi : Indexes C s H st) (worker : KvWorkerId) :
    Indexes C s (cleared H worker) (st.clear_worker worker) := by
  have htargets : ∀ id ∈ st.nodes.keys.filter (· ≠ ROOT_ID),
      id ≠ ROOT_ID ∧ ∃ n, st.nodes.get? id = some n := by
    intro id hmem
    obtain ⟨hkey, hroot⟩ := mem_filter.mp hmem
    exact ⟨of_decide_eq_true hroot, mem_keys_iff.mp hkey⟩
  have hloop := Indexes.clear_loop worker (st.nodes.keys.filter (· ≠ ROOT_ID)) H (st, [])
    htargets (SameLinks.refl st) hi
  apply Indexes.prune_all
  -- Every block of this shard that somebody holds has its node among the targets.
  apply hloop.congr_home
  intro w h hhome
  unfold cleared revise
  by_cases hw : w = worker
  · rw [if_pos hw]
    by_cases hlisted : h ∈ (st.nodes.keys.filter (· ≠ ROOT_ID)).map (hash_at st)
    · rw [if_pos ⟨hw, hlisted⟩]
    · rw [if_neg (fun hbad => hlisted hbad.2)]
      symm
      apply hi.none_of_absent hhome
      rintro id n hid hn rfl
      apply hlisted
      refine mem_map.mpr ⟨id, ?_, ?_⟩
      · refine mem_filter.mpr ⟨mem_keys_iff.mpr ⟨n, hn⟩, ?_⟩
        exact decide_eq_true hid
      · unfold hash_at
        rw [hn]
        rfl
  · rw [if_neg hw, if_neg (fun hbad => hw hbad.1)]

end LightningH3.KvIndex
