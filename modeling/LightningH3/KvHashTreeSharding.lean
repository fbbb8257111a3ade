/-
The sharded hash tree beside one unsharded `TreeState`, and how they come to resolve parents alike.

`Together` runs both side by side. A hash set has no order, so where several candidates of a parent
are owned by the worker either side may take any of them (`Resolves`); the two are asked to make the
same choice there, and only there. Everywhere else the parent is resolved twice, over all shards and
again inside the one chosen, and the two must come out at the same place by themselves
(`Mirror.resolved`).
-/
import LightningH3.KvHashTreeTrim

set_option autoImplicit false

namespace LightningH3.KvIndex

open List

/-! ## 1. Matching a prefix -/

/-- `MatchResult`. -/
structure MatchResult where
  matched_blocks : ℕ
  tiers : OrderedDict KvWorkerId Tiers

namespace TreeState

/-- The descent of `match_prefix` from `current` after `matched` blocks. -/
def match_walk (st : TreeState) : List BlockHash → NodeId → ℕ → NodeId × ℕ
  | [], current, matched => (current, matched)
  | h :: rest, current, matched =>
    match (st.nodes.get? current).bind fun n => n.children.get? h with
    | some child_id => match_walk st rest child_id (matched + 1)
    | none => (current, matched)

/-- What `match_prefix` reports from a given start: nothing matched reports no carrier. -/
def match_from (st : TreeState) (start : NodeId) (block_hashes : List BlockHash) : MatchResult :=
  let walked := st.match_walk block_hashes start 0
  ⟨walked.2,
    if 0 < walked.2 then ((st.nodes.get? walked.1).map Node.workers).getD .empty else .empty⟩

/-- `TreeState::match_prefix`. -/
def match_prefix (st : TreeState) (parent_hash : Option BlockHash)
    (block_hashes : List BlockHash) : MatchResult :=
  if block_hashes.isEmpty then ⟨0, .empty⟩
  else st.match_from (st.match_start parent_hash) block_hashes

/-- `insert` from a given start. -/
def insert_at (st : TreeState) (start : NodeId) (worker : KvWorkerId)
    (breadcrumb : Option BlockHash) (block_hashes : List BlockHash) (tiers : Tiers) : TreeState :=
  if block_hashes.isEmpty || tiers.is_empty then st
  else insert_loop worker tiers block_hashes st start breadcrumb

/-- The worker is on this node. -/
def owns (st : TreeState) (worker : KvWorkerId) (id : NodeId) : Prop :=
  ∃ n, st.nodes.get? id = some n ∧ (n.workers.get? worker).isSome = true

/-- What `resolve_parent` may answer, whatever the order of the candidates: the single one, else any
one the worker is on, else the root. -/
def Resolves (st : TreeState) (worker : KvWorkerId) (parent_hash : Option BlockHash)
    (start : NodeId) : Prop :=
  match parent_hash with
  | none => start = ROOT_ID
  | some p =>
    (st.ids p = [] ∧ start = ROOT_ID) ∨ st.ids p = [start] ∨
      (1 < (st.ids p).length ∧ ((start ∈ st.ids p ∧ st.owns worker start) ∨
          ((∀ c ∈ st.ids p, ¬ st.owns worker c) ∧ start = ROOT_ID)))

theorem owns_iff {st : TreeState} {worker : KvWorkerId} {id : NodeId} :
    ((st.nodes.get? id).any fun n => (n.workers.get? worker).isSome) = true
      ↔ st.owns worker id := by
  unfold owns
  cases st.nodes.get? id with
  | none => simp
  | some n => simp

theorem resolves_resolve_parent (st : TreeState) (worker : KvWorkerId)
    (parent_hash : Option BlockHash) :
    st.Resolves worker parent_hash (st.resolve_parent worker parent_hash) := by
  unfold Resolves resolve_parent
  cases parent_hash with
  | none => rfl
  | some p =>
    dsimp only
    cases hb : st.by_hash.get? p with
    | none =>
      refine Or.inl ⟨?_, rfl⟩
      unfold ids
      rw [hb]
      rfl
    | some candidates =>
      have hids : st.ids p = candidates := by
        unfold ids
        rw [hb]
        rfl
      rw [hids]
      cases candidates with
      | nil => exact Or.inl ⟨rfl, rfl⟩
      | cons a rest =>
        cases rest with
        | nil => exact Or.inr (Or.inl rfl)
        | cons b rest =>
          refine Or.inr (Or.inr ⟨by simp, ?_⟩)
          dsimp only
          cases hfind : (a :: b :: rest).find? fun cand =>
              (st.nodes.get? cand).any fun n => (n.workers.get? worker).isSome with
          | none =>
            refine Or.inr ⟨?_, rfl⟩
            intro c hc howns
            have hno := find?_eq_none.mp hfind c hc
            exact hno (owns_iff.mpr howns)
          | some c =>
            have hyes := find?_some hfind
            exact Or.inl ⟨mem_of_find?_eq_some hfind, owns_iff.mp hyes⟩

end TreeState

namespace HashTree

/-- `descend_match_shard`, with `descend_routed`. -/
def descend_match_shard {α : Type} (tree : HashTree) (parent_hash : Option BlockHash)
    (first : BlockHash) (descend : TreeState → Option BlockHash → α) : α :=
  let routed := tree.route_match parent_hash first
  match routed.2 with
  | some p =>
    if ((tree.shards routed.1).ids p).length = 1 then descend (tree.shards routed.1) (some p)
    else descend (tree.shards (shard_of first)) none
  | none => descend (tree.shards (shard_of first)) none

/-- `HashTree::match_prefix`. -/
def match_prefix (tree : HashTree) (parent_hash : Option BlockHash)
    (block_hashes : List BlockHash) : MatchResult :=
  match block_hashes with
  | [] => ⟨0, .empty⟩
  | first :: _ =>
    tree.descend_match_shard parent_hash first fun st parent =>
      st.match_prefix parent block_hashes

end HashTree

/-! ## 2. The two side by side -/

/-- Where the worker owns several candidates of the parent, the two take the same one. -/
def SameChoice (st : TreeState) (worker : KvWorkerId) (parent_hash : Option BlockHash)
    (u : NodeId) (shard : TreeState) (v : NodeId) : Prop :=
  ∀ p, parent_hash = some p →
    (∃ a b, a ∈ st.ids p ∧ b ∈ st.ids p ∧ a ≠ b ∧ st.owns worker a ∧ st.owns worker b) →
    ∃ path, st.find ROOT_ID path = some u ∧ shard.find ROOT_ID path = some v

/-- The sharded tree and one unsharded shard, given the same calls. -/
inductive Together : HashTree → TreeState → Prop where
  | new : Together HashTree.new TreeState.new
  | insert_tiered {tree : HashTree} {st : TreeState} (h : Together tree st) (worker : KvWorkerId)
      (parent_hash : Option BlockHash) (first : BlockHash) (rest : List BlockHash) (tiers : Tiers)
      (idx : Fin N_SHARDS) (link : ParentLink) (v u : NodeId)
      (hroute : tree.route_insert worker parent_hash first = (idx, link))
      (hv : (tree.shards idx).Resolves worker link.attach v)
      (hu : st.Resolves worker parent_hash u)
      (hsame : SameChoice st worker parent_hash u (tree.shards idx) v) :
      Together
        (tree.put idx ((tree.shards idx).insert_at v worker link.breadcrumb (first :: rest) tiers))
        (st.insert_at u worker parent_hash (first :: rest) tiers)
  | remove_tiered {tree : HashTree} {st : TreeState} (h : Together tree st) (worker : KvWorkerId)
      (hashes : List BlockHash) (tiers : Tiers) :
      Together (tree.remove_tiered worker hashes tiers) (st.remove worker hashes tiers)
  | clear_worker {tree : HashTree} {st : TreeState} (h : Together tree st)
      (worker : KvWorkerId) : Together (tree.clear_worker worker) (st.clear_worker worker)

/-- **The sharded tree mirrors the unsharded one**: both are sound, and a path leads to the same
entry in the one and in the shard of its first hash. -/
structure Mirror (tree : HashTree) (st : TreeState) : Prop where
  shards : TreeSound tree
  sound : Sound (fun _ => True) (fun _ => False) st
  same : ∀ first rest, (tree.shards (shard_of first)).lookup (first :: rest)
    = st.lookup (first :: rest)

theorem Mirror.new : Mirror HashTree.new TreeState.new where
  shards := TreeSound.new
  sound := Sound.new _
  same first rest := by
    rfl

/-! ## 3. Nodes at the same path -/

/-- A node of a shard and one of the unsharded tree stand at the same path. -/
def Mates (tree : HashTree) (st : TreeState) (s : Fin N_SHARDS) (v u : NodeId) : Prop :=
  ∃ first rest, shard_of first = s ∧ (tree.shards s).find ROOT_ID (first :: rest) = some v ∧
    st.find ROOT_ID (first :: rest) = some u

namespace Mirror

variable {tree : HashTree} {st : TreeState}

variable {s : Fin N_SHARDS} {v u : NodeId}

section

variable (hm : Mirror tree st)
include hm

theorem entry_eq {n m : Node} (h : Mates tree st s v u) (hn : (tree.shards s).nodes.get? v = some n)
    (hm' : st.nodes.get? u = some m) : n.entry = m.entry := by
  obtain ⟨first, rest, rfl, hv, hu⟩ := h
  have hsame := hm.same first rest
  rw [Linked.lookup_of_find hv hn, Linked.lookup_of_find hu hm'] at hsame
  exact Option.some.inj hsame

theorem mate_of_shard {n : Node} (hv : v ≠ ROOT_ID) (hn : (tree.shards s).nodes.get? v = some n) :
    ∃ u m, u ≠ ROOT_ID ∧ st.nodes.get? u = some m ∧ Mates tree st s v u ∧ n.entry = m.entry := by
  obtain ⟨path, hpath⟩ := (hm.shards s).linked.exists_path v n hn
  cases path with
  | nil => exact absurd (Option.some.inj hpath).symm hv
  | cons first rest =>
    have hlook := Linked.lookup_of_find hpath hn
    have hs : shard_of first = s := lookup_head (hm.shards s).linked hlook
    have hsame := hm.same first rest
    rw [hs, hlook] at hsame
    obtain ⟨u, m, hu, hmu, hentry⟩ := Linked.find_of_lookup hsame.symm
    exact ⟨u, m, hm.sound.linked.find_ne_root hu (by simp), hmu, ⟨first, rest, hs, hpath, hu⟩,
      hentry.symm⟩

theorem mate_of_node {m : Node} (hu : u ≠ ROOT_ID) (hmu : st.nodes.get? u = some m) :
    ∃ s v n, v ≠ ROOT_ID ∧ (tree.shards s).nodes.get? v = some n ∧ Mates tree st s v u ∧
      n.entry = m.entry := by
  obtain ⟨path, hpath⟩ := hm.sound.linked.exists_path u m hmu
  cases path with
  | nil => exact absurd (Option.some.inj hpath).symm hu
  | cons first rest =>
    have hlook := Linked.lookup_of_find hpath hmu
    have hsame := hm.same first rest
    rw [hlook] at hsame
    obtain ⟨v, n, hv, hn, hentry⟩ := Linked.find_of_lookup hsame
    exact ⟨shard_of first, v, n, (hm.shards _).linked.find_ne_root hv (by simp), hn,
      ⟨first, rest, rfl, hv, hpath⟩, hentry⟩

theorem mates_left {s' : Fin N_SHARDS} {v' : NodeId} (h : Mates tree st s v u)
    (h' : Mates tree st s' v' u) : s = s' ∧ v = v' := by
  obtain ⟨first, rest, rfl, hv, hu⟩ := h
  obtain ⟨first', rest', rfl, hv', hu'⟩ := h'
  have hpath := hm.sound.linked.find_inj _ _ u hu hu'
  obtain ⟨rfl, rfl⟩ := List.cons.inj hpath
  rw [hv] at hv'
  exact ⟨rfl, Option.some.inj hv'⟩

theorem mates_right {u' : NodeId} (h : Mates tree st s v u) (h' : Mates tree st s v u') :
    u = u' := by
  obtain ⟨first, rest, rfl, hv, hu⟩ := h
  obtain ⟨first', rest', -, hv', hu'⟩ := h'
  have hpath := (hm.shards _).linked.find_inj _ _ v hv hv'
  obtain ⟨rfl, rfl⟩ := List.cons.inj hpath
  rw [hu] at hu'
  exact Option.some.inj hu'

theorem mate_of_candidate {p : BlockHash} (hv : v ∈ (tree.shards s).ids p) :
    ∃ u, u ∈ st.ids p ∧ Mates tree st s v u := by
  obtain ⟨hroot, n, hn, hhash⟩ := ((hm.shards s).linked.index p v).mp hv
  obtain ⟨u, m, huroot, hmu, hmates, hentry⟩ := hm.mate_of_shard hroot hn
  refine ⟨u, (hm.sound.linked.index p u).mpr ⟨huroot, m, hmu, ?_⟩, hmates⟩
  have hblock := congrArg Entry.block_hash hentry
  exact hblock.symm.trans hhash

theorem candidate_of_mate {p : BlockHash} (hu : u ∈ st.ids p) :
    ∃ s v, v ∈ (tree.shards s).ids p ∧ Mates tree st s v u := by
  obtain ⟨hroot, m, hmu, hhash⟩ := (hm.sound.linked.index p u).mp hu
  obtain ⟨s, v, n, hvroot, hn, hmates, hentry⟩ := hm.mate_of_node hroot hmu
  refine ⟨s, v, ((hm.shards s).linked.index p v).mpr ⟨hvroot, n, hn, ?_⟩, hmates⟩
  have hblock := congrArg Entry.block_hash hentry
  exact hblock.trans hhash

theorem owns_iff_of_mates (h : Mates tree st s v u) (worker : KvWorkerId) :
    (tree.shards s).owns worker v ↔ st.owns worker u := by
  have hmates := h
  obtain ⟨first, rest, rfl, hv, hu⟩ := h
  obtain ⟨n, hn⟩ := (hm.shards _).linked.find_mem hv
  obtain ⟨m, hmu⟩ := hm.sound.linked.find_mem hu
  have hworkers := congrArg Entry.workers (hm.entry_eq hmates hn hmu)
  replace hworkers : n.workers = m.workers := hworkers
  constructor
  · rintro ⟨n', hn', hown⟩
    rw [hn] at hn'
    cases hn'
    exact ⟨m, hmu, by rw [← hworkers]; exact hown⟩
  · rintro ⟨m', hm', hown⟩
    rw [hmu] at hm'
    cases hm'
    exact ⟨n, hn, by rw [hworkers]; exact hown⟩

/-- **A hash has as many candidates over all shards as in the unsharded tree.** -/
theorem carriers_eq (p : BlockHash) : carriers tree p = (st.ids p).length := by
  -- all candidates, each with its shard
  let all : Finset (Fin N_SHARDS × NodeId) :=
    Finset.univ.sigma (fun s => ((tree.shards s).ids p).toFinset) |>.map
      (Equiv.sigmaEquivProd (Fin N_SHARDS) NodeId).toEmbedding
  have hmem : ∀ s v, (s, v) ∈ all ↔ v ∈ (tree.shards s).ids p := by
    intro s v
    simp [all]
  have hcard : all.card = carriers tree p := by
    rw [Finset.card_map, Finset.card_sigma]
    unfold carriers HashTree.indices
    rw [← Fin.sum_univ_def]
    apply Finset.sum_congr rfl
    intro s _
    exact toFinset_card_of_nodup ((hm.shards s).linked.index_nodup p)
  have hlen : (st.ids p).toFinset.card = (st.ids p).length :=
    toFinset_card_of_nodup (hm.sound.linked.index_nodup p)
  rw [← hcard, ← hlen]
  have hmate : ∀ a ∈ all, ∃ u, u ∈ st.ids p ∧ Mates tree st a.1 a.2 u := by
    rintro ⟨s, v⟩ ha
    exact hm.mate_of_candidate ((hmem s v).mp ha)
  choose! mate hmateof using hmate
  apply Finset.card_bij (fun a _ => mate a)
  · intro a ha
    exact mem_toFinset.mpr (hmateof a ha).1
  · rintro ⟨s, v⟩ ha ⟨s', v'⟩ ha' heq
    have h := (hmateof _ ha).2
    have h' := (hmateof _ ha').2
    rw [← heq] at h'
    obtain ⟨rfl, rfl⟩ := hm.mates_left h h'
    rfl
  · intro u hu
    obtain ⟨s, v, hv, hmates⟩ := hm.candidate_of_mate (mem_toFinset.mp hu)
    have ha := (hmem s v).mpr hv
    exact ⟨(s, v), ha, hm.mates_right (hmateof _ ha).2 hmates⟩

end

end Mirror

/-! ## 4. The parent is resolved at the same place -/

section Answers

variable {st : TreeState} {worker : KvWorkerId} {p : BlockHash} {start : NodeId}

theorem owns_candidate_iff :
    owns_candidate st worker p = true ↔ ∃ c ∈ st.ids p, st.owns worker c := by
  unfold owns_candidate
  rw [any_eq_true]
  apply exists_congr
  intro c
  rw [TreeState.owns_iff]

section

variable (h : st.Resolves worker (some p) start)
include h

theorem Resolves.of_nil (hnil : st.ids p = []) : start = ROOT_ID := by
  rcases h with ⟨-, hroot⟩ | hone | ⟨hlen, -⟩
  · exact hroot
  · rw [hnil] at hone
    cases hone
  · rw [hnil] at hlen
    exact absurd hlen (Nat.not_lt_zero _)

theorem Resolves.of_single (hlen : (st.ids p).length = 1) : st.ids p = [start] := by
  rcases h with ⟨hnil, -⟩ | hone | ⟨hmany, -⟩
  · rw [hnil] at hlen
    cases hlen
  · exact hone
  · rw [hlen] at hmany
    exact absurd hmany (Nat.lt_irrefl 1)

theorem Resolves.of_owned (hown : ∃ c ∈ st.ids p, st.owns worker c) :
    start ∈ st.ids p ∧ st.owns worker start := by
  obtain ⟨c, hc, hcown⟩ := hown
  rcases h with ⟨hnil, -⟩ | hone | ⟨-, htaken | ⟨hnone, -⟩⟩
  · rw [hnil] at hc
    exact absurd hc not_mem_nil
  · rw [hone] at hc
    obtain rfl := mem_singleton.mp hc
    exact ⟨by rw [hone]; exact mem_singleton_self c, hcown⟩
  · exact htaken
  · exact absurd hcown (hnone c hc)

theorem Resolves.of_unowned (hmany : 1 < (st.ids p).length)
    (hnone : ∀ c ∈ st.ids p, ¬ st.owns worker c) : start = ROOT_ID := by
  rcases h with ⟨-, hroot⟩ | hone | ⟨-, ⟨hmem, hown⟩ | ⟨-, hroot⟩⟩
  · exact hroot
  · rw [hone] at hmany
    exact absurd hmany (Nat.lt_irrefl 1)
  · exact absurd hown (hnone start hmem)
  · exact hroot

end

end Answers

namespace Mirror

variable {tree : HashTree} {st : TreeState}

theorem owned_iff (hm : Mirror tree st) (worker : KvWorkerId) (p : BlockHash) :
    (∃ s, ∃ v ∈ (tree.shards s).ids p, (tree.shards s).owns worker v)
      ↔ ∃ u ∈ st.ids p, st.owns worker u := by
  constructor
  · rintro ⟨s, v, hv, hown⟩
    obtain ⟨u, hu, hmates⟩ := hm.mate_of_candidate hv
    exact ⟨u, hu, (hm.owns_iff_of_mates hmates worker).mp hown⟩
  · rintro ⟨u, hu, hown⟩
    obtain ⟨s, v, hv, hmates⟩ := hm.candidate_of_mate hu
    exact ⟨s, v, hv, (hm.owns_iff_of_mates hmates worker).mpr hown⟩

theorem mates_of_path (hm : Mirror tree st) {s : Fin N_SHARDS} {path : List BlockHash}
    {v u : NodeId} (hv : (tree.shards s).find ROOT_ID path = some v)
    (hu : st.find ROOT_ID path = some u) (hroot : v ≠ ROOT_ID) : Mates tree st s v u := by
  cases path with
  | nil => exact absurd (Option.some.inj hv).symm hroot
  | cons first rest =>
    obtain ⟨n, hn⟩ := (hm.shards s).linked.find_mem hv
    exact ⟨first, rest, lookup_head (hm.shards s).linked (Linked.lookup_of_find hv hn), hv, hu⟩

/-- **The parent is resolved at the same place**: both at the root, in the shard of the first hash,
or both at mates. -/
theorem resolved (hm : Mirror tree st) {worker : KvWorkerId} {parent_hash : Option BlockHash}
    {first : BlockHash} {idx : Fin N_SHARDS} {link : ParentLink} {v u : NodeId}
    (hroute : tree.route_insert worker parent_hash first = (idx, link))
    (hv : (tree.shards idx).Resolves worker link.attach v) (hu : st.Resolves worker parent_hash u)
    (hsame : SameChoice st worker parent_hash u (tree.shards idx) v) :
    link.breadcrumb = parent_hash ∧
      ((shard_of first = idx ∧ v = ROOT_ID ∧ u = ROOT_ID) ∨ Mates tree st idx v u) := by
  cases parent_hash with
  | none =>
    cases hroute
    exact ⟨rfl, Or.inl ⟨rfl, hv, hu⟩⟩
  | some p =>
    have hcount := hm.carriers_eq p
    rcases route_insert_cases tree worker p first with
      ⟨hzero, hr⟩ | ⟨i, hone, hne, hr⟩ | ⟨i, -, hown, hr⟩ | ⟨hmany, hnone, hr⟩
    · -- nobody carries the parent
      cases hr.symm.trans hroute
      have hnil : (tree.shards (shard_of first)).ids p = [] := by
        apply eq_nil_of_length_eq_zero
        exact Nat.le_zero.mp (hzero ▸ length_ids_le_carriers tree p _)
      have hnil' : st.ids p = [] :=
        eq_nil_of_length_eq_zero (hcount.symm.trans hzero)
      exact ⟨rfl, Or.inl ⟨rfl, Resolves.of_nil hv hnil, Resolves.of_nil hu hnil'⟩⟩
    · -- one node does, in one shard
      obtain ⟨rfl, rfl⟩ := Prod.mk.inj (hr.symm.trans hroute)
      have hlen := length_ids_of_one hone hne
      have hsingle := Resolves.of_single hv hlen
      have hsingle' := Resolves.of_single hu (hcount.symm.trans hone)
      have hmem : v ∈ (tree.shards i).ids p := by
        rw [hsingle]
        exact mem_singleton_self v
      obtain ⟨u', hu', hmates⟩ := hm.mate_of_candidate hmem
      rw [hsingle'] at hu'
      obtain rfl := mem_singleton.mp hu'
      exact ⟨rfl, Or.inr hmates⟩
    · -- several do, and the worker owns one in the shard that was chosen
      obtain ⟨rfl, rfl⟩ := Prod.mk.inj (hr.symm.trans hroute)
      have howned := owns_candidate_iff.mp hown
      obtain ⟨hvmem, hvown⟩ := Resolves.of_owned hv howned
      obtain ⟨humem, huown⟩ := Resolves.of_owned hu ((hm.owned_iff worker p).mp ⟨i, howned⟩)
      obtain ⟨u', hu', hmates⟩ := hm.mate_of_candidate hvmem
      refine ⟨rfl, Or.inr ?_⟩
      by_cases heq : u = u'
      · rw [heq]
        exact hmates
      · -- two owned candidates: here the two were to take the same one
        obtain ⟨path, hpu, hpv⟩ := hsame p rfl
          ⟨u, u', humem, hu', heq, huown, (hm.owns_iff_of_mates hmates worker).mp hvown⟩
        have hroot := (((hm.shards i).linked.index p v).mp hvmem).1
        exact hm.mates_of_path hpv hpu hroot
    · -- several do and the worker owns none
      cases hr.symm.trans hroute
      refine ⟨rfl, Or.inl ⟨rfl, hv, ?_⟩⟩
      apply Resolves.of_unowned hu (hcount ▸ hmany)
      intro c hc hown
      obtain ⟨s, w, hw, hwown⟩ := (hm.owned_iff worker p).mpr ⟨c, hc, hown⟩
      have hyes := owns_candidate_iff.mpr ⟨w, hw, hwown⟩
      rw [hnone s] at hyes
      cases hyes

end Mirror

end LightningH3.KvIndex
