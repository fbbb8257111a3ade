/-
`sgl-router/src/state/kv_events/index.rs`: the events of the workers and the pump that applies
them to the hash tree.

`apply_event` is the body of the pump's inner loop. `replay` is what the index is for, in its own
terms: the events of one worker, read as sets of tiers for each hash. `Admissible` is what the
engines promise about a run: a store continues the chain of a parent its worker still holds. Under
it the tree and the replay agree after every run (`tree_indexes_run`), in any interleaving of the
workers' streams.

Which messages the pump lets through to the tree is in `KvIndexRemoval`. Load messages, the event
tally and the warnings about gaps are left out.
-/
import LightningH3.KvHashTreeAnswers
import Mathlib.Data.List.Induction

set_option autoImplicit false

namespace LightningH3.KvIndex

open List

/-! ## Events -/

/-- `wire::BlockStored`, without the fields the index does not read. -/
structure BlockStored where
  block_hashes : List BlockHash
  parent_block_hash : Option BlockHash
  medium : Option String

/-- `wire::BlockRemoved`. -/
structure BlockRemoved where
  block_hashes : List BlockHash
  medium : Option String

/-- `wire::KvCacheEvent`. -/
inductive KvCacheEvent where
  | BlockStored (b : BlockStored)
  | BlockRemoved (b : BlockRemoved)
  | AllBlocksCleared

/-- The inner loop of `pump_loop`: one event of one worker reaches the tree. -/
def apply_event (tree : HashTree) (ev : KvWorkerId × KvCacheEvent) : HashTree :=
  match ev.2 with
  | .BlockStored b =>
    tree.insert_tiered ev.1 b.parent_block_hash b.block_hashes (Tiers.for_store b.medium)
  | .BlockRemoved b => tree.remove_tiered ev.1 b.block_hashes (Tiers.for_remove b.medium)
  | .AllBlocksCleared => tree.clear_worker ev.1

/-- The tree after a stream of events, from an empty index. -/
def index_of (events : List (KvWorkerId × KvCacheEvent)) : HashTree :=
  events.foldl apply_event HashTree.new

/-! ## Replaying the events of one worker -/

theorem block_hash_lawful : LawfulBEq BlockHash := inferInstance

attribute [local instance] block_hash_lawful

/-- What one event of a worker does to the tiers on which it holds each hash: a store adds, a
removal deletes, a clear empties. -/
def replay_event (held : BlockHash → Tiers) : KvCacheEvent → BlockHash → Tiers
  | .BlockStored b, h =>
    if h ∈ b.block_hashes then (held h).union (Tiers.for_store b.medium) else held h
  | .BlockRemoved b, h =>
    if h ∈ b.block_hashes then (held h).difference (Tiers.for_remove b.medium) else held h
  | .AllBlocksCleared, _ => Tiers.none_held

/-- The events of one worker, in the order of the stream. -/
def own_events (events : List (KvWorkerId × KvCacheEvent)) (worker : KvWorkerId) :
    List KvCacheEvent :=
  (events.filter fun ev => ev.1 = worker).map Prod.snd

/-- The tiers on which a worker holds each hash after its own events. -/
def replay (events : List (KvWorkerId × KvCacheEvent)) : Holdings :=
  fun worker => (own_events events worker).foldl replay_event fun _ => Tiers.none_held

/-- Every store names as parent the hash before its first one on the chain, and its worker still
holds that parent. -/
def Admissible (C : Chains BlockHash) (events : List (KvWorkerId × KvCacheEvent)) : Prop :=
  ∀ earlier worker b later, events = earlier ++ (worker, .BlockStored b) :: later →
    b.block_hashes ≠ [] →
    Determined C.path (C.path_to b.parent_block_hash ++ b.block_hashes) ∧
      ∀ p, b.parent_block_hash = some p → replay earlier worker p ≠ Tiers.none_held

section

variable (events : List (KvWorkerId × KvCacheEvent))
include events

theorem replay_concat (ev : KvWorkerId × KvCacheEvent) (w : KvWorkerId) :
    replay (events ++ [ev]) w =
      if w = ev.1 then replay_event (replay events w) ev.2 else replay events w := by
  unfold replay own_events
  rw [filter_append, map_append, foldl_append]
  by_cases hw : w = ev.1
  · rw [if_pos hw, filter_cons_of_pos (by simp [hw])]
    rfl
  · rw [if_neg hw, filter_cons_of_neg (by simpa using Ne.symm hw)]
    rfl

theorem replay_stored (worker : KvWorkerId) (b : BlockStored) :
    replay (events ++ [(worker, .BlockStored b)]) =
      revise (replay events) worker b.block_hashes fun t => t.union (Tiers.for_store b.medium) := by
  funext w h
  rw [replay_concat]
  unfold revise
  by_cases hw : w = worker
  · simp only [hw, true_and]
    rfl
  · simp only [hw, if_false, false_and]

theorem replay_removed (worker : KvWorkerId) (b : BlockRemoved) :
    replay (events ++ [(worker, .BlockRemoved b)]) = revise (replay events) worker b.block_hashes
        fun t => t.difference (Tiers.for_remove b.medium) := by
  funext w h
  rw [replay_concat]
  unfold revise
  by_cases hw : w = worker
  · simp only [hw, true_and]
    rfl
  · simp only [hw, if_false, false_and]

theorem replay_cleared (worker : KvWorkerId) :
    replay (events ++ [(worker, .AllBlocksCleared)]) = cleared (replay events) worker := by
  funext w h
  rw [replay_concat]
  unfold cleared
  by_cases hw : w = worker
  · rw [if_pos hw, if_pos hw]
    rfl
  · rw [if_neg hw, if_neg hw]

end

variable {C : Chains BlockHash} {events : List (KvWorkerId × KvCacheEvent)}

theorem Admissible.append_left {later : List (KvWorkerId × KvCacheEvent)}
    (h : Admissible C (events ++ later)) : Admissible C events := by
  intro earlier worker b rest heq
  apply h earlier worker b (rest ++ later)
  rw [heq, append_assoc, cons_append]

theorem admissible_nil (C : Chains BlockHash) : Admissible C [] := by
  intro earlier worker b later heq
  simp at heq

theorem Admissible.concat (h : Admissible C events) (worker : KvWorkerId) {e : KvCacheEvent}
    (hlast : ∀ b, e = .BlockStored b → b.block_hashes ≠ [] →
      Determined C.path (C.path_to b.parent_block_hash ++ b.block_hashes) ∧
        ∀ p, b.parent_block_hash = some p → replay events worker p ≠ Tiers.none_held) :
    Admissible C (events ++ [(worker, e)]) := by
  intro earlier worker' b later heq hne
  rcases eq_nil_or_concat later with rfl | ⟨later', ev, rfl⟩
  · obtain ⟨rfl, hev⟩ := append_singleton_inj.mp heq
    cases hev
    exact hlast b rfl hne
  · rw [concat_eq_append, ← cons_append, ← append_assoc] at heq
    obtain ⟨rfl, -⟩ := append_singleton_inj.mp heq
    exact h earlier worker' b later' rfl hne

/-- **One event keeps the tree in step with the replay.** -/
theorem TreeIndexes.apply_event {tree : HashTree} (ht : TreeIndexes C (replay events) tree)
    {ev : KvWorkerId × KvCacheEvent} (hadm : Admissible C (events ++ [ev])) :
    TreeIndexes C (replay (events ++ [ev])) (apply_event tree ev) := by
  obtain ⟨worker, e⟩ := ev
  cases e with
  | BlockStored b =>
    rw [replay_stored]
    exact ht.insert_tiered worker b.parent_block_hash b.block_hashes _
      (fun hne => (hadm events worker b [] rfl hne).1)
      (fun hne => (hadm events worker b [] rfl hne).2)
  | BlockRemoved b =>
    rw [replay_removed]
    exact ht.remove_tiered worker b.block_hashes _
  | AllBlocksCleared =>
    rw [replay_cleared]
    exact ht.clear_worker worker

/-- **After every run the tree indexes the replayed holdings.** -/
theorem tree_indexes_run (events : List (KvWorkerId × KvCacheEvent)) :
    Admissible C events → TreeIndexes C (replay events) (index_of events) := by
  induction events using List.reverseRecOn with
  | nil =>
    intro _
    exact TreeIndexes.new C
  | append_singleton events ev ih =>
    intro hadm
    unfold index_of
    rw [foldl_append]
    exact (ih hadm.append_left).apply_event hadm

/-- **The index answers exactly what the workers hold**: for any number of workers and any
interleaving of their events, a hash has at most one position, the tiers in the tree are the
replayed ones, and a query for a chain counts for each worker the leading blocks it holds. -/
theorem index_answers_holdings (C : Chains BlockHash)
    (events : List (KvWorkerId × KvCacheEvent)) (hadm : Admissible C events) :
    (∀ h, ((index_of events).positions h).length ≤ 1) ∧
      (∀ w h, (index_of events).tiers_of w h = replay events w h) ∧
      ∀ chain, Determined C.path chain → ∀ w, ((index_of events).prefix_depths none chain).get? w =
          if held_depth (replay events) w chain = 0 then none
          else some (held_depth (replay events) w chain) := by
  have ht : TreeIndexes C (replay events) (index_of events) := tree_indexes_run events hadm
  refine ⟨?_, ?_, ?_⟩
  · intro h
    exact ht.positions_le_one h
  · intro w h
    exact ht.tiers_of_eq w h
  · intro chain hdet w
    exact ht.prefix_depths_eq hdet w

/-! A run of two workers on the chain of the blocks 1, 2 and 3: the first stores two blocks and
loses the first of them, the second stores both, and the first goes on below the hole. -/

/-- The chain of the blocks 1, 2 and 3; every other block is a chain of its own. -/
def three_blocks : Chains BlockHash where
  path h := if h = 3#64 then [1#64, 2#64, 3#64] else if h = 2#64 then [1#64, 2#64] else [h]
  ends h := by
    by_cases h3 : h = 3#64
    · exact ⟨[1#64, 2#64], by simp [h3]⟩
    · by_cases h2 : h = 2#64
      · exact ⟨[1#64], by simp [h2]⟩
      · exact ⟨[], by simp [h2, h3]⟩
  closed h := by
    by_cases h3 : h = 3#64
    · subst h3
      decide
    · by_cases h2 : h = 2#64
      · subst h2
        decide
      · simp only [if_neg h2, if_neg h3]
        apply determined_singleton
        rw [if_neg h3, if_neg h2]

def first_worker : KvWorkerId := ⟨"a", 0#32⟩
def second_worker : KvWorkerId := ⟨"b", 0#32⟩

def run_with_a_hole : List (KvWorkerId × KvCacheEvent) :=
  [(first_worker, .BlockStored ⟨[1#64, 2#64], none, none⟩),
    (second_worker, .BlockStored ⟨[1#64, 2#64], none, some "GPU"⟩),
    (first_worker, .BlockRemoved ⟨[1#64], none⟩),
    (first_worker, .BlockStored ⟨[3#64], some 2#64, some "CPU_PINNED"⟩)]

theorem run_with_a_hole_admissible : Admissible three_blocks run_with_a_hole := by
  have h1 := (admissible_nil three_blocks).concat first_worker
    (e := .BlockStored ⟨[1#64, 2#64], none, none⟩) (by
      rintro b ⟨rfl⟩ _
      exact ⟨by decide, by simp⟩)
  have h2 := h1.concat second_worker
    (e := .BlockStored ⟨[1#64, 2#64], none, some "GPU"⟩) (by
      rintro b ⟨rfl⟩ _
      exact ⟨by decide, by simp⟩)
  have h3 := h2.concat first_worker (e := .BlockRemoved ⟨[1#64], none⟩) (by simp)
  refine h3.concat first_worker ?_
  rintro b ⟨rfl⟩ _
  refine ⟨by decide, ?_⟩
  rintro p ⟨rfl⟩
  decide

/-- After that run the first worker is found on the host tier of block 3, but its prefix is
broken at block 1; the second holds two leading blocks. -/
theorem run_with_a_hole_answers : (∀ h, ((index_of run_with_a_hole).positions h).length ≤ 1) ∧
      (index_of run_with_a_hole).tiers_of first_worker 3#64 = Tiers.HOST ∧
      ((index_of run_with_a_hole).prefix_depths none [1#64, 2#64, 3#64]).get? first_worker = none ∧
      ((index_of run_with_a_hole).prefix_depths none [1#64, 2#64, 3#64]).get? second_worker
        = some 2 := by
  obtain ⟨hone, htiers, hdepths⟩ :=
    index_answers_holdings three_blocks run_with_a_hole run_with_a_hole_admissible
  have hchain : Determined three_blocks.path [1#64, 2#64, 3#64] := by decide
  refine ⟨hone, ?_, ?_, ?_⟩
  · rw [htiers]
    decide
  · rw [hdepths _ hchain]
    decide
  · rw [hdepths _ hchain]
    decide

/-! ## The order of arrival -/

variable {C : Chains BlockHash} {events events' : List (KvWorkerId × KvCacheEvent)}

theorem exists_of_own_events {worker : KvWorkerId} {e : KvCacheEvent}
    {front back : List KvCacheEvent} (h : own_events events worker = front ++ e :: back) :
    ∃ earlier later, events = earlier ++ (worker, e) :: later
      ∧ own_events earlier worker = front := by
  obtain ⟨l, l', hl, rfl, hl'⟩ := map_eq_append_iff.mp h
  obtain ⟨ev, rest, rfl, rfl, -⟩ := map_eq_cons_iff.mp hl'
  obtain ⟨first, second, rfl, rfl, hsecond⟩ := filter_eq_append_iff.mp hl
  obtain ⟨between, later, rfl, hbetween, hev, -⟩ := filter_eq_cons_iff.mp hsecond
  obtain ⟨w, e⟩ := ev
  obtain rfl : w = worker := by simpa using hev
  refine ⟨first ++ between, later, (append_assoc _ _ _).symm, ?_⟩
  unfold own_events
  rw [filter_append, filter_eq_nil_iff.mpr hbetween, append_nil]

/-- What the engines promise is a promise of each of them. -/
theorem Admissible.of_own_events (h : Admissible C events)
    (hown : ∀ w, own_events events' w = own_events events w) : Admissible C events' := by
  intro earlier worker b later heq hne
  have hsplit : own_events events worker
      = own_events earlier worker ++ .BlockStored b :: own_events later worker := by
    rw [← hown, heq]
    simp [own_events]
  obtain ⟨earlier', later', rfl, hearlier⟩ := exists_of_own_events hsplit
  obtain ⟨hdet, hheld⟩ := h earlier' worker b later' rfl hne
  refine ⟨hdet, fun p hp => ?_⟩
  have hp' := hheld p hp
  unfold replay at hp' ⊢
  rwa [hearlier] at hp'

/-- **The order of arrival does not matter**: any two interleavings of the same streams are
admissible alike, and then the router answers every query alike. -/
theorem answers_of_interleaving (C : Chains BlockHash)
    (hown : ∀ w, own_events events' w = own_events events w) :
    (Admissible C events' ↔ Admissible C events) ∧ (Admissible C events →
      (∀ w h, (index_of events').tiers_of w h = (index_of events).tiers_of w h) ∧
      ∀ chain, Determined C.path chain → ∀ w, ((index_of events').prefix_depths none chain).get? w
          = ((index_of events).prefix_depths none chain).get? w) := by
  refine ⟨⟨(·.of_own_events fun w => (hown w).symm), (·.of_own_events hown)⟩, fun hadm => ?_⟩
  have ht := tree_indexes_run events hadm
  have ht' := tree_indexes_run events' (hadm.of_own_events hown)
  have hreplay : replay events' = replay events := by
    funext w
    unfold replay
    rw [hown]
  rw [hreplay] at ht'
  refine ⟨fun w h => ?_, fun chain hdet w => ?_⟩
  · rw [ht'.tiers_of_eq, ht.tiers_of_eq]
  · rw [ht'.prefix_depths_eq hdet, ht.prefix_depths_eq hdet]

/-- The run with a hole, with the second worker first. -/
def run_in_turn : List (KvWorkerId × KvCacheEvent) :=
  [(second_worker, .BlockStored ⟨[1#64, 2#64], none, some "GPU"⟩),
    (first_worker, .BlockStored ⟨[1#64, 2#64], none, none⟩),
    (first_worker, .BlockRemoved ⟨[1#64], none⟩),
    (first_worker, .BlockStored ⟨[3#64], some 2#64, some "CPU_PINNED"⟩)]

theorem run_in_turn_answers : (index_of run_in_turn).tiers_of first_worker 3#64
    = (index_of run_with_a_hole).tiers_of first_worker 3#64 := by
  have hown : ∀ w, own_events run_in_turn w = own_events run_with_a_hole w := by
    intro w
    by_cases hf : first_worker = w
    · subst hf
      rfl
    · by_cases hs : second_worker = w
      · subst hs
        rfl
      · simp [own_events, run_in_turn, run_with_a_hole, hf, hs]
  exact ((answers_of_interleaving three_blocks hown).2 run_with_a_hole_admissible).1 _ _

/-! ## Messages -/

/-- `subscriber::WorkerEvent`, a load message without its snapshot. -/
inductive WorkerEvent where
  | Batch (worker : KvWorkerId) (seq : ℤ) (events : List KvCacheEvent)
  | Load (worker : KvWorkerId)
  | PublisherReset (worker : KvWorkerId)

def WorkerEvent.worker : WorkerEvent → KvWorkerId
  | .Batch worker _ _ => worker
  | .Load worker => worker
  | .PublisherReset worker => worker

end LightningH3.KvIndex
