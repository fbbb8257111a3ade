/-
`sgl-router/src/state/kv_events/index.rs`: `add_worker` and `remove_worker` against the pump, step
by step.

The pump tests once whether a worker is attached, compares the sequence number under the cursor
lock, applies the events of a batch one by one and writes the cursor under the lock again. A
removal runs on another task: it takes the worker's entry out, marks its ranks dead, joins the
subscribers and then, holding the cursor lock, clears the tree and the cursor of each rank.
`step` lets these steps fall in any order.

A batch that has passed the test when its rank is cleared goes on to put the rank back
(`removal_leaves_trace`). The other two ways to leave a trace are a batch still in the channel
when its worker is attached again, and a second registration with fewer ranks. Where no step meets
one of the three (`Clean`), a removed worker leaves nothing (`removed_leaves_no_trace`).

Each message carries the number of the subscription it was sent on; no step of the code reads it.
-/
import LightningH3.KvHashTreeCarriers

set_option autoImplicit false

namespace LightningH3.KvIndex

open List Function OrderedDict

/-! ## The steps -/

abbrev DpRank := BitVec 32

/-- A queued message and the subscription of its worker that sent it. -/
structure Message where
  ev : WorkerEvent
  subscription : ℕ

def Message.is_batch (m : Message) : Bool :=
  match m.ev with
  | .Batch _ _ _ => true
  | _ => false

/-- Where `pump_loop` stands: waiting, holding a message it has not looked at, past the test of
the live set, or in the middle of a batch. -/
inductive PumpAt where
  | waiting
  | received (m : Message)
  | passed (m : Message)
  | applying (worker : KvWorkerId) (seq : ℤ) (subscription : ℕ) (rest : List KvCacheEvent)

/-- Where `add_worker` or `remove_worker` stands for one URL. -/
inductive Control where
  | idle
  | adding (ranks : List DpRank)
  | marking (ranks : List DpRank)
  | joining (ranks : List DpRank)
  | clearing (ranks : List DpRank)
  | dropping (rank : DpRank) (rest : List DpRank)

/-- The removal has still to clear this rank from the tree. -/
def Control.uncleared (r : DpRank) : Control → Prop
  | .joining ranks => r ∈ ranks
  | .clearing ranks => r ∈ ranks
  | .dropping _ rest => r ∈ rest
  | _ => False

/-- The removal drops the cursor of this rank next. -/
def Control.dropped (r : DpRank) : Control → Prop
  | .dropping r' _ => r = r'
  | _ => False

/-- A removal that has marked its ranks dead. -/
def Control.detached : Control → Prop
  | .joining _ => True
  | .clearing _ => True
  | .dropping _ _ => True
  | _ => False

/-- The index: what the pump and the two calls share, where each stands, and which URLs are
removed and not added since. -/
structure Index where
  tree : HashTree
  cursors : OrderedDict KvWorkerId ℤ
  live_workers : List KvWorkerId
  workers : String → Option (List DpRank)
  subscribed : KvWorkerId → Bool
  channel : List Message
  pump : PumpAt
  control : String → Control
  cursor_lock : Bool
  subscriptions : KvWorkerId → ℕ
  written : List (KvWorkerId × ℕ × ℤ)
  removed : String → Bool

/-- One step of the pump, of a publisher, or of a call for a URL. -/
inductive Act where
  | publish (ev : WorkerEvent)
  | recv
  | check_live
  | read_cursor
  | apply_next
  | write_cursor
  | add_start (url : String) (ranks : List DpRank)
  | add_finish (url : String)
  | remove_start (url : String)
  | mark_dead (url : String)
  | join_subscribers (url : String)
  | clear_tree (url : String)
  | drop_cursor (url : String)
  | remove_return (url : String)

namespace Index

def init : Index where
  tree := HashTree.new
  cursors := .empty
  live_workers := []
  workers _ := none
  subscribed _ := false
  channel := []
  pump := .waiting
  control _ := .idle
  cursor_lock := false
  subscriptions _ := 0
  written := []
  removed _ := true

/-- What the pump does with a message that has passed the test. -/
def handle (x : Index) (m : Message) : Option Index :=
  match m.ev with
  | .Load _ => some { x with pump := .waiting }
  | .PublisherReset worker =>
    if x.cursor_lock then none
    else some { x with pump := .waiting, cursors := x.cursors.erase worker }
  | .Batch worker seq events =>
    if x.cursor_lock then none
    else
      match x.cursors.get? worker with
      | some prev =>
        if seq ≤ prev then some { x with pump := .waiting }
        else some { x with pump := .applying worker seq m.subscription events }
      | none => some { x with pump := .applying worker seq m.subscription events }

/-- Whether an identity is one of the ranks of a URL. -/
def is_rank_of (url : String) (ranks : List DpRank) (id : KvWorkerId) : Bool :=
  id.url = url ∧ id.dp_rank ∈ ranks

def ids_of (url : String) (ranks : List DpRank) : List KvWorkerId := ranks.map fun r => ⟨url, r⟩

/-- One step; `none` where it is not that step's turn. -/
def step (x : Index) : Act → Option Index
  | .publish ev =>
    if x.subscribed ev.worker then
      some { x with channel := x.channel ++ [⟨ev, x.subscriptions ev.worker⟩] }
    else none
  | .recv =>
    match x.pump, x.channel with
    | .waiting, m :: rest => some { x with pump := .received m, channel := rest }
    | _, _ => none
  | .check_live =>
    match x.pump with
    | .received m =>
      if m.ev.worker ∈ x.live_workers then some { x with pump := .passed m }
      else some { x with pump := .waiting }
    | _ => none
  | .read_cursor =>
    match x.pump with
    | .passed m => x.handle m
    | _ => none
  | .apply_next =>
    match x.pump with
    | .applying worker seq sub (e :: rest) =>
      some { x with
        tree := apply_event x.tree (worker, e)
        pump := .applying worker seq sub rest }
    | _ => none
  | .write_cursor =>
    match x.pump with
    | .applying worker seq sub [] =>
      if x.cursor_lock then none
      else
        some { x with
          cursors := x.cursors.set worker seq
          pump := .waiting
          written := x.written ++ [(worker, sub, seq)] }
    | _ => none
  | .add_start url ranks =>
    match x.control url with
    | .idle =>
      some { x with
        live_workers := x.live_workers ++ ids_of url ranks
        control := Function.update x.control url (.adding ranks)
        removed := Function.update x.removed url false }
    | _ => none
  | .add_finish url =>
    match x.control url with
    | .adding ranks =>
      some { x with
        workers := Function.update x.workers url (some ranks)
        subscribed := fun id => x.subscribed id || is_rank_of url ranks id
        subscriptions := fun id =>
          if is_rank_of url ranks id && !x.subscribed id then x.subscriptions id + 1
          else x.subscriptions id
        control := Function.update x.control url .idle }
    | _ => none
  | .remove_start url =>
    match x.control url with
    | .idle =>
      match x.workers url with
      | none => some { x with removed := Function.update x.removed url true }
      | some ranks =>
        some { x with
          workers := Function.update x.workers url none
          control := Function.update x.control url (.marking ranks) }
    | _ => none
  | .mark_dead url =>
    match x.control url with
    | .marking ranks =>
      some { x with
        live_workers := x.live_workers.filter fun id => !is_rank_of url ranks id
        control := Function.update x.control url (.joining ranks) }
    | _ => none
  | .join_subscribers url =>
    match x.control url with
    | .joining ranks =>
      if x.cursor_lock then none
      else
        some { x with
          subscribed := fun id => x.subscribed id && decide (id.url ≠ url)
          control := Function.update x.control url (.clearing ranks)
          cursor_lock := true }
    | _ => none
  | .clear_tree url =>
    match x.control url with
    | .clearing (r :: rest) =>
      some { x with
        tree := x.tree.clear_worker ⟨url, r⟩
        control := Function.update x.control url (.dropping r rest) }
    | _ => none
  | .drop_cursor url =>
    match x.control url with
    | .dropping r rest =>
      some { x with
        cursors := x.cursors.erase ⟨url, r⟩
        control := Function.update x.control url (.clearing rest) }
    | _ => none
  | .remove_return url =>
    match x.control url with
    | .clearing [] =>
      some { x with
        control := Function.update x.control url .idle
        cursor_lock := false
        removed := Function.update x.removed url true }
    | _ => none

/-- A run whose steps all are as `allowed` says. -/
inductive Run (allowed : Index → Act → Prop) : Index → Prop where
  | init : Run allowed init
  | step {x x' : Index} {act : Act} (h : Run allowed x) (hallowed : allowed x act)
      (hstep : x.step act = some x') : Run allowed x'

/-! ## What a removal promises -/

/-- The index knows nothing of this rank: no carrier in the tree, no cursor. -/
def Untraced (x : Index) (id : KvWorkerId) : Prop :=
  TreeFree id x.tree ∧ x.cursors.get? id = none

/-- Once `remove_worker` has returned and until the URL is added again, none of its ranks leaves a
trace. -/
def RemovedUntraced (x : Index) : Prop :=
  ∀ url, x.removed url = true → ∀ rank, x.Untraced ⟨url, rank⟩

/-- A batch that has passed the test is applied if its sequence number is above those of the
batches of its own subscription: no cursor of an earlier publisher holds it back. -/
def FreshApplied (x : Index) : Prop :=
  ∀ worker seq events sub, x.pump = .passed ⟨.Batch worker seq events, sub⟩ →
    x.cursor_lock = false → (∀ c, (worker, sub, c) ∈ x.written → c < seq) →
    ∃ x', x.step .read_cursor = some x' ∧ x'.pump = .applying worker seq sub events

/-- The worker of the batch the pump is in the middle of, and the subscription it came on. -/
def batch_in_hand (x : Index) : Option (KvWorkerId × ℕ) :=
  match x.pump with
  | .passed ⟨.Batch worker _ _, sub⟩ => some (worker, sub)
  | .applying worker _ sub _ => some (worker, sub)
  | _ => none

/-- The messages the pump has not tested yet. -/
def ahead (x : Index) : List Message :=
  match x.pump with
  | .received m => m :: x.channel
  | _ => x.channel

/-- The batches among them. -/
def untested (x : Index) : List Message := x.ahead.filter Message.is_batch

/-- The steps that leave no trace: no rank is cleared in the middle of a batch of its own, no
batch of a rank is left when it is attached, and a second registration names every rank of the
first. -/
def Clean (x : Index) : Act → Prop
  | .clear_tree url => ∀ r rest sub, x.control url = .clearing (r :: rest) →
      x.batch_in_hand ≠ some (⟨url, r⟩, sub)
  | .add_start url ranks =>
    (∀ r ∈ ranks, (⟨url, r⟩ : KvWorkerId) ∉ x.live_workers →
      ∀ m ∈ x.untested, m.ev.worker ≠ ⟨url, r⟩) ∧
    ∀ id ∈ x.live_workers, id.url = url → id.dp_rank ∈ ranks
  | _ => True

/-! ## The invariant -/

/-- The removal of this rank has not reached the clearing of the tree. -/
def pending (x : Index) (id : KvWorkerId) : Prop :=
  match x.control id.url with
  | .joining ranks => id.dp_rank ∈ ranks
  | .clearing ranks => id.dp_rank ∈ ranks
  | .dropping _ rest => id.dp_rank ∈ rest
  | _ => False

/-- The tree is cleared of this rank and its cursor comes next. -/
def cursor_next (x : Index) (id : KvWorkerId) : Prop :=
  match x.control id.url with
  | .dropping r _ => id.dp_rank = r
  | _ => False

/-- The rank is in the entry of its URL, or in the hands of the call for it. -/
def tracked (x : Index) (id : KvWorkerId) : Prop :=
  match x.control id.url with
  | .idle => ∃ ranks, x.workers id.url = some ranks ∧ id.dp_rank ∈ ranks
  | .adding ranks => id.dp_rank ∈ ranks
  | .marking ranks => id.dp_rank ∈ ranks
  | _ => False

/-- Nothing of this rank is on its way to the tree, and it has no cursor. -/
def Silent (x : Index) (id : KvWorkerId) : Prop :=
  (∀ m ∈ x.untested, m.ev.worker ≠ id) ∧ (∀ sub, x.batch_in_hand ≠ some (id, sub)) ∧
    x.cursors.get? id = none

/-- What holds of one URL in every state of a clean run. -/
structure InvAt (x : Index) (url : String) : Prop where
  tracked : ∀ id ∈ x.live_workers, id.url = url → x.tracked id
  adding : ∀ ranks, x.control url = .adding ranks → ∀ r ∈ ranks,
    (⟨url, r⟩ : KvWorkerId) ∈ x.live_workers
  in_hand : ∀ id sub, id.url = url → x.batch_in_hand = some (id, sub) →
    (id ∈ x.live_workers ∨ x.pending id) ∧ sub = x.subscriptions id
  untraced : ∀ id, id.url = url → id ∉ x.live_workers → ¬ x.pending id →
    TreeFree id x.tree ∧ (¬ x.cursor_next id → x.cursors.get? id = none)
  subscribed : ∀ id, id.url = url → x.subscribed id = true →
    id ∈ x.live_workers ∨ ∃ ranks, x.control url = .joining ranks
  unopened : ∀ id ∈ x.live_workers, id.url = url → x.subscribed id = false →
    (∃ ranks, x.control url = .adding ranks) ∧ x.Silent id
  current : ∀ m ∈ x.untested, m.ev.worker.url = url → m.ev.worker ∈ x.live_workers →
    m.subscription = x.subscriptions m.ev.worker
  logged : ∀ id c, id.url = url → x.cursors.get? id = some c →
    (id, x.subscriptions id, c) ∈ x.written
  listed : ∀ ranks, x.workers url = some ranks →
    (x.control url = .idle ∨ ∃ rs, x.control url = .adding rs) ∧ x.removed url = false
  removed : x.removed url = true →
    x.control url = .idle ∧ ∀ id ∈ x.live_workers, id.url ≠ url

/-- What holds in every state of a clean run. -/
structure Inv (x : Index) : Prop where
  sound : TreeSound x.tree
  every : ∀ url, InvAt x url

namespace Inv

variable {x x' : Index}

theorem init : Inv Index.init where
  sound := TreeSound.new
  every url := by
    constructor
    · intro id h
      exact absurd h not_mem_nil
    · intro ranks h
      cases h
    · intro id sub _ h
      cases h
    · intro id _ _ _
      refine ⟨?_, fun _ => get?_empty id⟩
      intro s j n hn
      obtain ⟨-, rfl⟩ := TreeState.nodes_new hn
      exact get?_empty id
    · intro id _ h
      cases h
    · intro id h
      exact absurd h not_mem_nil
    · intro m h
      exact absurd h not_mem_nil
    · intro id c _ h
      cases h
    · intro ranks h
      cases h
    · intro _
      refine ⟨rfl, fun id h => ?_⟩
      exact absurd h not_mem_nil

/-- **A removed URL leaves no trace**, as far as the invariant goes. -/
theorem removed_untraced (hi : Inv x) : x.RemovedUntraced := by
  intro url hurl rank
  obtain ⟨hidle, hnone⟩ := (hi.every url).removed hurl
  have hdead : (⟨url, rank⟩ : KvWorkerId) ∉ x.live_workers := fun h => hnone _ h rfl
  have hpending : ¬ x.pending ⟨url, rank⟩ := by
    unfold pending
    simp only [hidle]
    exact id
  have hnext : ¬ x.cursor_next ⟨url, rank⟩ := by
    unfold cursor_next
    simp only [hidle]
    exact id
  obtain ⟨hfree, hcursor⟩ := (hi.every url).untraced _ rfl hdead hpending
  exact ⟨hfree, hcursor hnext⟩

/-- **A cursor in the way of a batch was written on the batch's own subscription.** -/
theorem fresh_applied (hi : Inv x) : x.FreshApplied := by
  intro worker seq events sub hpump hlock hlog
  have hhand : x.batch_in_hand = some (worker, sub) := by
    unfold batch_in_hand
    rw [hpump]
  obtain ⟨-, hsub⟩ := (hi.every worker.url).in_hand worker sub rfl hhand
  have hstep : x.step .read_cursor = x.handle ⟨.Batch worker seq events, sub⟩ := by
    show (match x.pump with
      | .passed m => x.handle m
      | _ => none) = _
    rw [hpump]
  rw [hstep]
  unfold handle
  simp only [hlock]
  cases hprev : x.cursors.get? worker with
  | none => exact ⟨_, rfl, rfl⟩
  | some prev =>
    have hmem := (hi.every worker.url).logged worker prev rfl hprev
    rw [← hsub] at hmem
    have hlt : prev < seq := hlog prev hmem
    simp only [if_neg (Int.not_le.mpr hlt)]
    exact ⟨_, rfl, rfl⟩

/-! ### Steps of the pump and of the publishers -/

/-- What a step of the pump or of a publisher can do: the calls' own state stays, messages move on
from the channel, the batch in hand reaches the tree or its cursor, and cursors go. -/
structure PumpStep (x x' : Index) : Prop where
  control : x'.control = x.control
  live : x'.live_workers = x.live_workers
  workers : x'.workers = x.workers
  subscribed : x'.subscribed = x.subscribed
  subscriptions : x'.subscriptions = x.subscriptions
  removed : x'.removed = x.removed
  untested : ∀ m ∈ x'.untested, m ∈ x.untested ∨
    (x.subscribed m.ev.worker = true ∧ m.subscription = x.subscriptions m.ev.worker)
  in_hand : ∀ p, x'.batch_in_hand = some p → x.batch_in_hand = some p ∨
    (p.1 ∈ x.live_workers ∧ ∃ m ∈ x.untested, m.ev.worker = p.1 ∧ m.subscription = p.2)
  tree : x'.tree = x.tree ∨
    ∃ id sub e, x.batch_in_hand = some (id, sub) ∧ x'.tree = apply_event x.tree (id, e)
  cursors : ∀ id, x'.cursors.get? id = none ∨ x'.cursors.get? id = x.cursors.get? id ∨
    ∃ sub c, x.batch_in_hand = some (id, sub) ∧ x'.cursors.get? id = some c ∧
      (id, sub, c) ∈ x'.written
  written : ∀ e ∈ x.written, e ∈ x'.written

theorem PumpStep.pending {x x' : Index} (hs : PumpStep x x') (id : KvWorkerId) :
    x'.pending id ↔ x.pending id := by
  unfold Index.pending
  rw [hs.control]

/-- **A step of the pump keeps the invariant.** The batch in hand belongs to a rank that is
attached or whose removal is still to clear it. -/
theorem of_pump (hi : Inv x) (hs : PumpStep x x') : Inv x' := by
  have hnext : ∀ id, x'.cursor_next id ↔ x.cursor_next id := by
    intro id
    unfold cursor_next
    rw [hs.control]
  refine ⟨?_, fun url => ?_⟩
  · rcases hs.tree with htree | ⟨id, sub, e, -, htree⟩
    · rw [htree]
      exact hi.sound
    · rw [htree]
      exact hi.sound.apply_event (id, e)
  have hat := hi.every url
  constructor
  · intro id hid hurl
    rw [hs.live] at hid
    have htracked := hat.tracked id hid hurl
    unfold Index.tracked at htracked ⊢
    rw [hs.control, hs.workers]
    exact htracked
  · intro ranks hcontrol r hr
    rw [hs.control] at hcontrol
    rw [hs.live]
    exact hat.adding ranks hcontrol r hr
  · intro id sub hurl hhand
    rw [hs.live, hs.pending, hs.subscriptions]
    rcases hs.in_hand _ hhand with hold | ⟨hlive, m, hm, hworker, hsub⟩
    · exact hat.in_hand id sub hurl hold
    · dsimp only at hlive hworker hsub
      refine ⟨Or.inl hlive, ?_⟩
      rw [← hsub, ← hworker]
      apply hat.current m hm
      · rw [hworker]
        exact hurl
      · rw [hworker]
        exact hlive
  · intro id hurl hdead hpending
    rw [hs.live] at hdead
    rw [hs.pending] at hpending
    obtain ⟨hfree, hcursor⟩ := hat.untraced id hurl hdead hpending
    have hother : ∀ id' sub, x.batch_in_hand = some (id', sub) → id' ≠ id := by
      rintro id' sub hhand rfl
      rcases (hat.in_hand id' sub hurl hhand).1 with h | h
      · exact hdead h
      · exact hpending h
    refine ⟨?_, ?_⟩
    · rcases hs.tree with htree | ⟨id', sub, e, hhand, htree⟩
      · rw [htree]
        exact hfree
      · rw [htree]
        exact hfree.apply_event (hother id' sub hhand)
    · intro hno
      rw [hnext] at hno
      rcases hs.cursors id with h | h | ⟨sub, c, hhand, -, -⟩
      · exact h
      · rw [h]
        exact hcursor hno
      · exact absurd rfl (hother id sub hhand)
  · intro id hurl hsub
    rw [hs.subscribed] at hsub
    rw [hs.live, hs.control]
    exact hat.subscribed id hurl hsub
  · intro id hlive hurl hsub
    rw [hs.live] at hlive
    rw [hs.subscribed] at hsub
    rw [hs.control]
    obtain ⟨hadding, huntested, hhand, hcursor⟩ := hat.unopened id hlive hurl hsub
    refine ⟨hadding, ?_, ?_, ?_⟩
    · rintro m hm rfl
      rcases hs.untested m hm with hold | ⟨hopen, -⟩
      · exact huntested m hold rfl
      · rw [hsub] at hopen
        cases hopen
    · intro sub hnew
      rcases hs.in_hand _ hnew with hold | ⟨-, m, hm, hworker, -⟩
      · exact hhand sub hold
      · exact huntested m hm hworker
    · rcases hs.cursors id with h | h | ⟨sub, c, hbusy, -, -⟩
      · exact h
      · rw [h]
        exact hcursor
      · exact absurd hbusy (hhand sub)
  · intro m hm hurl hlive
    rw [hs.live] at hlive
    rw [hs.subscriptions]
    rcases hs.untested m hm with hold | ⟨-, hsub⟩
    · exact hat.current m hold hurl hlive
    · exact hsub
  · intro id c hurl hget
    rw [hs.subscriptions]
    rcases hs.cursors id with h | h | ⟨sub, c', hhand, hnew, hmem⟩
    · rw [h] at hget
      cases hget
    · rw [h] at hget
      exact hs.written _ (hat.logged id c hurl hget)
    · rw [hnew] at hget
      cases hget
      rw [← (hat.in_hand id sub hurl hhand).2]
      exact hmem
  · intro ranks hranks
    rw [hs.workers] at hranks
    rw [hs.control, hs.removed]
    exact hat.listed ranks hranks
  · intro hremoved
    rw [hs.removed] at hremoved
    rw [hs.control, hs.live]
    exact hat.removed hremoved

end Inv

variable {x x' : Index}

theorem Inv.PumpStep.moved {tree : HashTree} {cursors : OrderedDict KvWorkerId ℤ}
    {channel : List Message} {pump : PumpAt} {written : List (KvWorkerId × ℕ × ℤ)}
    (hx : x' = { x with tree, cursors, channel, pump, written })
    (hahead : ∀ m ∈ x'.ahead, m ∈ x.ahead)
    (hhand : ∀ p, x'.batch_in_hand = some p → x.batch_in_hand = some p ∨
      (p.1 ∈ x.live_workers ∧ ∃ m ∈ x.untested, m.ev.worker = p.1 ∧ m.subscription = p.2))
    (htree : x'.tree = x.tree ∨
      ∃ id sub e, x.batch_in_hand = some (id, sub) ∧ x'.tree = apply_event x.tree (id, e))
    (hcursors : ∀ id, x'.cursors.get? id = none ∨ x'.cursors.get? id = x.cursors.get? id ∨
      ∃ sub c, x.batch_in_hand = some (id, sub) ∧ x'.cursors.get? id = some c ∧
        (id, sub, c) ∈ x'.written)
    (hwritten : ∀ e ∈ x.written, e ∈ x'.written) : Inv.PumpStep x x' := by
  subst hx
  refine ⟨rfl, rfl, rfl, rfl, rfl, rfl, ?_, hhand, htree, hcursors, hwritten⟩
  intro m hm
  obtain ⟨hm, hbatch⟩ := mem_filter.mp hm
  exact Or.inl (mem_filter.mpr ⟨hahead m hm, hbatch⟩)

theorem pump_step_handle {m : Message} (hpump : x.pump = .passed m) (h : x.handle m = some x') :
    Inv.PumpStep x x' := by
  have hahead : x.ahead = x.channel := by
    unfold ahead
    rw [hpump]
  -- The pump goes back to waiting, or on with the batch it has in hand.
  have hwait : ∀ cursors : OrderedDict KvWorkerId ℤ,
      (∀ id, cursors.get? id = none ∨ cursors.get? id = x.cursors.get? id) →
      Inv.PumpStep x { x with pump := .waiting, cursors := cursors } := by
    intro cursors hcursors
    refine .moved rfl ?_ ?_ (Or.inl rfl) ?_ fun e he => he
    · intro m' hm'
      rw [hahead]
      exact hm'
    · intro p hp
      cases hp
    · intro id
      rcases hcursors id with hnone | hsame
      · exact Or.inl hnone
      · exact Or.inr (Or.inl hsame)
  have happly : ∀ worker seq events, m.ev = .Batch worker seq events →
      Inv.PumpStep x { x with pump := .applying worker seq m.subscription events } := by
    intro worker seq events hev
    have hhand : x.batch_in_hand = some (worker, m.subscription) := by
      obtain ⟨ev, sub⟩ := m
      obtain rfl : ev = .Batch worker seq events := hev
      unfold batch_in_hand
      rw [hpump]
    refine .moved rfl ?_ ?_ (Or.inl rfl) ?_ fun e he => he
    · intro m' hm'
      rw [hahead]
      exact hm'
    · intro p hp
      rw [hhand]
      exact Or.inl hp
    · intro id
      exact Or.inr (Or.inl rfl)
  unfold handle at h
  cases hev : m.ev with
  | Load worker =>
    simp only [hev] at h
    cases h
    exact hwait x.cursors fun id => Or.inr rfl
  | PublisherReset worker =>
    simp only [hev] at h
    split at h
    · cases h
    · cases h
      apply hwait
      intro id
      rw [get?_erase]
      by_cases hid : id = worker
      · exact Or.inl (if_pos hid)
      · exact Or.inr (if_neg hid)
  | Batch worker seq events =>
    simp only [hev] at h
    split at h
    · cases h
    · split at h
      · split at h
        · cases h
          exact hwait x.cursors fun id => Or.inr rfl
        · cases h
          exact happly worker seq events hev
      · cases h
        exact happly worker seq events hev

theorem pump_step {act : Act} (h : x.step act = some x')
    (hact : act = .recv ∨ act = .check_live ∨ act = .read_cursor ∨ act = .apply_next ∨
      act = .write_cursor ∨ ∃ ev, act = .publish ev) : Inv.PumpStep x x' := by
  have hsame : ∀ id, x.cursors.get? id = none ∨ x.cursors.get? id = x.cursors.get? id ∨
      ∃ sub c, x.batch_in_hand = some (id, sub) ∧ x.cursors.get? id = some c ∧
        (id, sub, c) ∈ x.written :=
    fun id => Or.inr (Or.inl rfl)
  rcases hact with rfl | rfl | rfl | rfl | rfl | ⟨ev, rfl⟩
  · -- `rx.recv()`
    unfold step at h
    dsimp only at h
    split at h
    case h_2 => cases h
    next m rest hpump hchannel =>
    cases h
    refine .moved rfl ?_ ?_ (Or.inl rfl) hsame fun e he => he
    · intro m' hm'
      unfold ahead
      rw [hpump]
      rw [hchannel]
      exact hm'
    · intro p hp
      cases hp
  · -- the test of the live set
    unfold step at h
    dsimp only at h
    split at h
    case h_2 => cases h
    next m hpump =>
    have hahead : x.ahead = m :: x.channel := by
      unfold ahead
      rw [hpump]
    split at h
    · next hlive =>
      cases h
      refine .moved rfl ?_ ?_ (Or.inl rfl) hsame fun e he => he
      · intro m' hm'
        rw [hahead]
        exact mem_cons_of_mem _ hm'
      · rintro ⟨id, sub⟩ hp
        obtain ⟨ev, sub'⟩ := m
        cases ev with
        | Load w => cases hp
        | PublisherReset w => cases hp
        | Batch w q events =>
          obtain ⟨rfl, rfl⟩ := Prod.mk.inj (Option.some.inj hp)
          refine Or.inr ⟨hlive, ⟨.Batch w q events, sub'⟩, ?_, rfl, rfl⟩
          refine mem_filter.mpr ⟨?_, rfl⟩
          rw [hahead]
          exact mem_cons_self
    · cases h
      refine .moved rfl ?_ ?_ (Or.inl rfl) hsame fun e he => he
      · intro m' hm'
        rw [hahead]
        exact mem_cons_of_mem _ hm'
      · intro p hp
        cases hp
  · -- the comparison of the sequence numbers
    unfold step at h
    dsimp only at h
    split at h
    case h_2 => cases h
    next m hpump => exact pump_step_handle hpump h
  · -- one event of the batch
    unfold step at h
    dsimp only at h
    split at h
    case h_2 => cases h
    next w q sub e rest hpump =>
    have hhand : x.batch_in_hand = some (w, sub) := by
      unfold batch_in_hand
      rw [hpump]
    cases h
    refine .moved rfl ?_ ?_ (Or.inr ⟨w, sub, e, hhand, rfl⟩) hsame fun e he => he
    · intro m' hm'
      unfold ahead
      rw [hpump]
      exact hm'
    · intro p hp
      rw [hhand]
      exact Or.inl hp
  · -- the cursor
    unfold step at h
    dsimp only at h
    split at h
    case h_2 => cases h
    next w q sub hpump =>
    have hhand : x.batch_in_hand = some (w, sub) := by
      unfold batch_in_hand
      rw [hpump]
    split at h
    · cases h
    cases h
    refine .moved rfl ?_ ?_ (Or.inl rfl) ?_ ?_
    · intro m' hm'
      unfold ahead
      rw [hpump]
      exact hm'
    · intro p hp
      cases hp
    · intro id
      rw [get?_set]
      by_cases hid : id = w
      · refine Or.inr (Or.inr ⟨sub, q, by rw [hid]; exact hhand, if_pos hid, ?_⟩)
        rw [hid]
        exact mem_concat_self
      · exact Or.inr (Or.inl (if_neg hid))
    · intro e he
      exact mem_append_left _ he
  · -- a publisher queues a message
    unfold step at h
    simp only at h
    split at h
    · next hopen =>
      cases h
      have hahead : ∀ m' ∈ ahead { x with
          channel := x.channel ++ [⟨ev, x.subscriptions ev.worker⟩] },
          m' ∈ x.ahead ∨ m' = ⟨ev, x.subscriptions ev.worker⟩ := by
        intro m' hm'
        unfold ahead at hm' ⊢
        cases hpump : x.pump with
        | received m =>
          rw [hpump] at hm'
          simpa [or_assoc] using hm'
        | waiting => rw [hpump] at hm'; simpa using hm'
        | passed m => rw [hpump] at hm'; simpa using hm'
        | applying w q sub rest => rw [hpump] at hm'; simpa using hm'
      refine ⟨rfl, rfl, rfl, rfl, rfl, rfl, ?_, fun p hp => Or.inl hp, Or.inl rfl, hsame,
        fun e he => he⟩
      intro m' hm'
      obtain ⟨hm', hbatch⟩ := mem_filter.mp hm'
      rcases hahead m' hm' with hold | rfl
      · exact Or.inl (mem_filter.mpr ⟨hold, hbatch⟩)
      · exact Or.inr ⟨hopen, rfl⟩
    · cases h

/-! ### Steps of the calls -/

/-- What a step of a call for one URL leaves alone: the state of the other URLs, the messages and
the batch in hand. -/
structure CallStep (url : String) (x x' : Index) : Prop where
  control : ∀ u, u ≠ url → x'.control u = x.control u
  workers : ∀ u, u ≠ url → x'.workers u = x.workers u
  removed : ∀ u, u ≠ url → x'.removed u = x.removed u
  live : ∀ id, id.url ≠ url → (id ∈ x'.live_workers ↔ id ∈ x.live_workers)
  subscribed : ∀ id, id.url ≠ url → x'.subscribed id = x.subscribed id
  subscriptions : ∀ id, id.url ≠ url → x'.subscriptions id = x.subscriptions id
  cursors : ∀ id, id.url ≠ url → x'.cursors.get? id = x.cursors.get? id
  free : ∀ id, id.url ≠ url → TreeFree id x.tree → TreeFree id x'.tree
  untested : x'.untested = x.untested
  in_hand : x'.batch_in_hand = x.batch_in_hand
  written : x'.written = x.written

section Calls

variable {url : String} {x x' : Index}

variable {id : KvWorkerId}

theorem pending_of_control (h : x'.control id.url = x.control id.url) :
    x'.pending id ↔ x.pending id := by
  unfold pending
  rw [h]

theorem cursor_next_of_control (h : x'.control id.url = x.control id.url) :
    x'.cursor_next id ↔ x.cursor_next id := by
  unfold cursor_next
  rw [h]

variable (url) in
/-- **A call for one URL keeps the invariant of the others.** -/
theorem InvAt.of_call {u : String} (h : InvAt x u) (hs : CallStep url x x') (hne : u ≠ url) :
    InvAt x' u := by
  have hpend : ∀ id : KvWorkerId, id.url = u → (x'.pending id ↔ x.pending id) := by
    rintro id rfl
    exact pending_of_control (hs.control _ hne)
  have hnext : ∀ id : KvWorkerId, id.url = u → (x'.cursor_next id ↔ x.cursor_next id) := by
    rintro id rfl
    exact cursor_next_of_control (hs.control _ hne)
  constructor
  · rintro id hid rfl
    rw [hs.live id hne] at hid
    have htracked := h.tracked id hid rfl
    unfold Index.tracked at htracked ⊢
    rw [hs.control _ hne, hs.workers _ hne]
    exact htracked
  · intro ranks hcontrol r hr
    rw [hs.control _ hne] at hcontrol
    rw [hs.live _ hne]
    exact h.adding ranks hcontrol r hr
  · rintro id sub rfl hhand
    rw [hs.in_hand] at hhand
    rw [hs.live id hne, hpend id rfl, hs.subscriptions id hne]
    exact h.in_hand id sub rfl hhand
  · rintro id rfl hdead hpending
    rw [hs.live id hne] at hdead
    rw [hpend id rfl] at hpending
    rw [hnext id rfl, hs.cursors id hne]
    obtain ⟨hfree, hcursor⟩ := h.untraced id rfl hdead hpending
    exact ⟨hs.free id hne hfree, hcursor⟩
  · rintro id rfl hsub
    rw [hs.subscribed id hne] at hsub
    rw [hs.live id hne, hs.control _ hne]
    exact h.subscribed id rfl hsub
  · rintro id hlive rfl hsub
    rw [hs.live id hne] at hlive
    rw [hs.subscribed id hne] at hsub
    unfold Silent
    rw [hs.control _ hne, hs.untested, hs.in_hand, hs.cursors id hne]
    exact h.unopened id hlive rfl hsub
  · rintro m hm rfl hlive
    rw [hs.untested] at hm
    rw [hs.live _ hne] at hlive
    rw [hs.subscriptions _ hne]
    exact h.current m hm rfl hlive
  · rintro id c rfl hget
    rw [hs.cursors id hne] at hget
    rw [hs.subscriptions id hne, hs.written]
    exact h.logged id c rfl hget
  · intro ranks hranks
    rw [hs.workers u hne] at hranks
    rw [hs.control u hne, hs.removed u hne]
    exact h.listed ranks hranks
  · intro hremoved
    rw [hs.removed u hne] at hremoved
    rw [hs.control u hne]
    obtain ⟨hidle, hnone⟩ := h.removed hremoved
    refine ⟨hidle, ?_⟩
    rintro id hid rfl
    rw [hs.live id hne] at hid
    exact hnone id hid rfl

variable {r : DpRank} {c c' : Control}

theorem pending_iff (h : x.control url = c) : x.pending ⟨url, r⟩ ↔ c.uncleared r := by
  subst h
  rfl

theorem cursor_next_iff (h : x.control url = c) : x.cursor_next ⟨url, r⟩ ↔ c.dropped r := by
  subst h
  rfl

/-- What is known of a rank that is neither attached nor still to be cleared. -/
theorem InvAt.cleared (h : InvAt x url) (hcontrol : x.control url = c)
    (hdead : (⟨url, r⟩ : KvWorkerId) ∉ x.live_workers) (hr : ¬ c.uncleared r) :
    TreeFree ⟨url, r⟩ x.tree ∧ (¬ c.dropped r → x.cursors.get? ⟨url, r⟩ = none) := by
  rw [← pending_iff hcontrol] at hr
  rw [← cursor_next_iff hcontrol]
  exact h.untraced _ rfl hdead hr

theorem InvAt.dead_idle (h : InvAt x url) (hidle : x.control url = .idle)
    (hdead : (⟨url, r⟩ : KvWorkerId) ∉ x.live_workers) :
    TreeFree ⟨url, r⟩ x.tree ∧ (∀ sub, x.batch_in_hand ≠ some (⟨url, r⟩, sub)) ∧
      x.cursors.get? ⟨url, r⟩ = none := by
  obtain ⟨hfree, hcursor⟩ := h.cleared hidle hdead id
  refine ⟨hfree, ?_, hcursor id⟩
  intro sub hhand
  rcases (h.in_hand _ sub rfl hhand).1 with hlive | hpending
  · exact hdead hlive
  · exact (pending_iff hidle).mp hpending

variable {ranks : List DpRank}

theorem mem_ids_of : id ∈ ids_of url ranks ↔ id.url = url ∧ id.dp_rank ∈ ranks := by
  obtain ⟨u, r⟩ := id
  constructor
  · intro h
    obtain ⟨r', hr', heq⟩ := mem_map.mp h
    cases heq
    exact ⟨rfl, hr'⟩
  · rintro ⟨hu, hr⟩
    dsimp only at hu hr
    rw [hu]
    exact mem_map_of_mem hr

theorem is_rank_of_iff : is_rank_of url ranks id = true ↔ id.url = url ∧ id.dp_rank ∈ ranks := by
  unfold is_rank_of
  rw [decide_eq_true_iff]

theorem Inv.add_start (hi : Inv x) (hclean : Clean x (.add_start url ranks))
    (h : x.step (.add_start url ranks) = some x') : Inv x' := by
  obtain ⟨hquiet, hnamed⟩ := hclean
  unfold step at h
  dsimp only at h
  split at h
  case h_2 => cases h
  next hidle =>
  cases h
  have hat := hi.every url
  have hmem : ∀ id, id ∈ x.live_workers ++ ids_of url ranks ↔
      id ∈ x.live_workers ∨ (id.url = url ∧ id.dp_rank ∈ ranks) := by
    intro id
    rw [mem_append, mem_ids_of]
  refine ⟨hi.sound, fun u => ?_⟩
  by_cases hu : u = url
  · subst hu
    have hadding : Function.update x.control u (Control.adding ranks) u = .adding ranks :=
      update_self ..
    constructor
    · -- the ranks attached before are among those named now
      rintro ⟨u', r⟩ hid hurl
      subst hurl
      unfold Index.tracked
      dsimp only
      rw [hadding]
      rcases (hmem _).mp hid with hold | ⟨-, hr⟩
      · exact hnamed _ hold rfl
      · exact hr
    · intro rs hrs r hr
      dsimp only at hrs
      rw [hadding] at hrs
      cases hrs
      exact (hmem _).mpr (Or.inr ⟨rfl, hr⟩)
    · rintro ⟨u', r⟩ sub hurl hhand
      subst hurl
      obtain ⟨-, hsub⟩ := hat.in_hand _ sub rfl hhand
      refine ⟨Or.inl ((hmem _).mpr (Or.inl ?_)), hsub⟩
      by_contra hdead
      exact (hat.dead_idle hidle hdead).2.1 sub hhand
    · rintro ⟨u', r⟩ hurl hdead -
      subst hurl
      have hold : (⟨u', r⟩ : KvWorkerId) ∉ x.live_workers :=
        fun hlive => hdead ((hmem _).mpr (Or.inl hlive))
      obtain ⟨hfree, -, hcursor⟩ := hat.dead_idle hidle hold
      exact ⟨hfree, fun _ => hcursor⟩
    · intro id hurl hsub
      rcases hat.subscribed id hurl hsub with hlive | ⟨rs, hrs⟩
      · exact Or.inl ((hmem _).mpr (Or.inl hlive))
      · rw [hidle] at hrs
        cases hrs
    · rintro ⟨u', r⟩ hid hurl hsub
      subst hurl
      refine ⟨⟨ranks, hadding⟩, ?_⟩
      rcases (hmem _).mp hid with hold | ⟨-, hr⟩
      · exact (hat.unopened _ hold rfl hsub).2
      · by_cases hold : (⟨u', r⟩ : KvWorkerId) ∈ x.live_workers
        · exact (hat.unopened _ hold rfl hsub).2
        · exact ⟨hquiet r hr hold, (hat.dead_idle hidle hold).2⟩
    · intro m hm hurl hlive
      rcases (hmem _).mp hlive with hold | ⟨-, hr⟩
      · exact hat.current m hm hurl hold
      · by_cases hold : m.ev.worker ∈ x.live_workers
        · exact hat.current m hm hurl hold
        · have hid : m.ev.worker = ⟨u, m.ev.worker.dp_rank⟩ := by rw [← hurl]
          rw [hid] at hold
          exact absurd hid (hquiet _ hr hold m hm)
    · intro id c hurl hget
      exact hat.logged id c hurl hget
    · intro rs _
      exact ⟨Or.inr ⟨ranks, hadding⟩, update_self ..⟩
    · intro hremoved
      dsimp only at hremoved
      rw [update_self] at hremoved
      cases hremoved
  · refine (hi.every u).of_call url ⟨?_, fun _ _ => rfl, ?_, ?_, fun _ _ => rfl,
      fun _ _ => rfl, fun _ _ => rfl, fun _ _ hfree => hfree, rfl, rfl, rfl⟩ hu
    · exact fun u' hu' => update_of_ne hu' ..
    · exact fun u' hu' => update_of_ne hu' ..
    · intro id hid
      refine (hmem id).trans ⟨?_, Or.inl⟩
      rintro (hold | ⟨hurl, -⟩)
      · exact hold
      · exact absurd hurl hid

theorem Inv.add_finish (hi : Inv x) (h : x.step (.add_finish url) = some x') : Inv x' := by
  unfold step at h
  dsimp only at h
  split at h
  case h_2 => cases h
  next ranks hcontrol =>
  cases h
  have hat := hi.every url
  have hranks : ∀ id ∈ x.live_workers, id.url = url → id.dp_rank ∈ ranks := by
    intro id hid hurl
    have htracked := hat.tracked id hid hurl
    unfold Index.tracked at htracked
    rw [hurl] at htracked
    simp only [hcontrol] at htracked
    exact htracked
  -- a rank whose number moves on is attached, unopened and silent
  have hopens : ∀ id : KvWorkerId, (is_rank_of url ranks id && !x.subscribed id) = true →
      x.Silent id := by
    rintro ⟨u, r⟩ hopen
    rw [Bool.and_eq_true, is_rank_of_iff, Bool.not_eq_true'] at hopen
    obtain ⟨⟨hurl, hr⟩, hsub⟩ := hopen
    subst hurl
    exact (hat.unopened _ (hat.adding ranks hcontrol r hr) rfl hsub).2
  have hsame : ∀ id : KvWorkerId, ¬ x.Silent id →
      (if (is_rank_of url ranks id && !x.subscribed id) = true then x.subscriptions id + 1
        else x.subscriptions id) = x.subscriptions id := by
    intro id hsilent
    exact if_neg fun hopen => hsilent (hopens id hopen)
  refine ⟨hi.sound, fun u => ?_⟩
  by_cases hu : u = url
  · subst hu
    have hidle : Function.update x.control u Control.idle u = .idle := update_self ..
    have hlisted : Function.update x.workers u (some ranks) u = some ranks :=
      update_self ..
    constructor
    · rintro ⟨u', r⟩ hid hurl
      subst hurl
      unfold Index.tracked
      dsimp only
      rw [hidle]
      exact ⟨ranks, hlisted, hranks _ hid rfl⟩
    · intro rs hrs
      dsimp only at hrs
      rw [hidle] at hrs
      cases hrs
    · rintro ⟨u', r⟩ sub hurl hhand
      subst hurl
      obtain ⟨hplace, hsub⟩ := hat.in_hand _ sub rfl hhand
      refine ⟨Or.inl ?_, ?_⟩
      · rcases hplace with hlive | hpending
        · exact hlive
        · exact absurd ((pending_iff hcontrol).mp hpending) id
      · refine hsub.trans (hsame _ ?_).symm
        exact fun hsilent => hsilent.2.1 sub hhand
    · rintro ⟨u', r⟩ hurl hdead -
      subst hurl
      obtain ⟨hfree, hcursor⟩ := hat.cleared hcontrol hdead id
      exact ⟨hfree, fun _ => hcursor id⟩
    · rintro ⟨u', r⟩ hurl hsub
      subst hurl
      rw [Bool.or_eq_true, is_rank_of_iff] at hsub
      rcases hsub with hold | ⟨-, hr⟩
      · rcases hat.subscribed _ rfl hold with hlive | ⟨rs, hrs⟩
        · exact Or.inl hlive
        · rw [hcontrol] at hrs
          cases hrs
      · exact Or.inl (hat.adding ranks hcontrol r hr)
    · intro id hid hurl hsub
      rw [Bool.or_eq_false_iff] at hsub
      have hrank := is_rank_of_iff.mpr ⟨hurl, hranks id hid hurl⟩
      rw [hrank] at hsub
      cases hsub.2
    · intro m hm hurl hlive
      refine (hat.current m hm hurl hlive).trans (hsame _ ?_).symm
      exact fun hsilent => hsilent.1 m hm rfl
    · intro id c hurl hget
      dsimp only
      rw [hsame id fun hsilent => by rw [hsilent.2.2] at hget; cases hget]
      exact hat.logged id c hurl hget
    · intro rs _
      refine ⟨Or.inl hidle, ?_⟩
      -- the call is not over, so the URL does not count as removed
      cases hremoved : x.removed u with
      | false => rfl
      | true =>
        obtain ⟨hno, -⟩ := hat.removed hremoved
        rw [hcontrol] at hno
        cases hno
    · intro hremoved
      obtain ⟨hno, -⟩ := hat.removed hremoved
      rw [hcontrol] at hno
      cases hno
  · have hother : ∀ id : KvWorkerId, id.url ≠ url → is_rank_of url ranks id = false := by
      intro id hid
      cases hrank : is_rank_of url ranks id with
      | false => rfl
      | true => exact absurd (is_rank_of_iff.mp hrank).1 hid
    refine (hi.every u).of_call url ⟨?_, ?_, fun _ _ => rfl, fun _ _ => Iff.rfl, ?_, ?_,
      fun _ _ => rfl, fun _ _ hfree => hfree, rfl, rfl, rfl⟩ hu
    · exact fun u' hu' => update_of_ne hu' ..
    · exact fun u' hu' => update_of_ne hu' ..
    · intro id hid
      dsimp only
      rw [hother id hid, Bool.or_false]
    · intro id hid
      dsimp only
      rw [hother id hid, Bool.false_and]
      exact if_neg (by decide)

theorem Inv.remove_start (hi : Inv x) (h : x.step (.remove_start url) = some x') : Inv x' := by
  unfold step at h
  dsimp only at h
  split at h
  case h_2 => cases h
  next hidle =>
  have hat := hi.every url
  have htracked : ∀ id ∈ x.live_workers, id.url = url →
      ∃ ranks, x.workers url = some ranks ∧ id.dp_rank ∈ ranks := by
    intro id hid hurl
    have hold := hat.tracked id hid hurl
    unfold Index.tracked at hold
    rw [hurl] at hold
    simp only [hidle] at hold
    exact hold
  split at h
  · next hnone =>
    cases h
    refine ⟨hi.sound, fun u => ?_⟩
    by_cases hu : u = url
    · subst hu
      refine ⟨hat.tracked, hat.adding, hat.in_hand, hat.untraced, hat.subscribed, hat.unopened,
        hat.current, hat.logged, ?_, ?_⟩
      · intro ranks hranks
        rw [hnone] at hranks
        cases hranks
      · intro _
        refine ⟨hidle, ?_⟩
        intro id hid hurl
        obtain ⟨ranks, hranks, -⟩ := htracked id hid hurl
        rw [hnone] at hranks
        cases hranks
    · refine (hi.every u).of_call url ⟨fun _ _ => rfl, fun _ _ => rfl, ?_,
        fun _ _ => Iff.rfl, fun _ _ => rfl, fun _ _ => rfl, fun _ _ => rfl,
        fun _ _ hfree => hfree, rfl, rfl, rfl⟩ hu
      exact fun u' hu' => update_of_ne hu' ..
  · next ranks hranks =>
    cases h
    refine ⟨hi.sound, fun u => ?_⟩
    by_cases hu : u = url
    · subst hu
      have hmarking : Function.update x.control u (Control.marking ranks) u = .marking ranks :=
        update_self ..
      have hgone : Function.update x.workers u none u = none := update_self ..
      constructor
      · rintro ⟨u', r⟩ hid hurl
        subst hurl
        obtain ⟨rs, hrs, hr⟩ := htracked _ hid rfl
        rw [hranks] at hrs
        cases hrs
        unfold Index.tracked
        dsimp only
        rw [hmarking]
        exact hr
      · intro rs hrs
        dsimp only at hrs
        rw [hmarking] at hrs
        cases hrs
      · rintro ⟨u', r⟩ sub hurl hhand
        subst hurl
        obtain ⟨-, hsub⟩ := hat.in_hand _ sub rfl hhand
        refine ⟨Or.inl ?_, hsub⟩
        by_contra hdead
        exact (hat.dead_idle hidle hdead).2.1 sub hhand
      · rintro ⟨u', r⟩ hurl hdead -
        subst hurl
        obtain ⟨hfree, -, hcursor⟩ := hat.dead_idle hidle hdead
        exact ⟨hfree, fun _ => hcursor⟩
      · intro id hurl hsub
        rcases hat.subscribed id hurl hsub with hlive | ⟨rs, hrs⟩
        · exact Or.inl hlive
        · rw [hidle] at hrs
          cases hrs
      · intro id hid hurl hsub
        obtain ⟨⟨rs, hrs⟩, -⟩ := hat.unopened id hid hurl hsub
        rw [hidle] at hrs
        cases hrs
      · exact hat.current
      · exact hat.logged
      · intro rs hrs
        dsimp only at hrs
        rw [hgone] at hrs
        cases hrs
      · intro hremoved
        rw [(hat.listed ranks hranks).2] at hremoved
        cases hremoved
    · refine (hi.every u).of_call url ⟨?_, ?_, fun _ _ => rfl, fun _ _ => Iff.rfl,
        fun _ _ => rfl, fun _ _ => rfl, fun _ _ => rfl, fun _ _ hfree => hfree, rfl, rfl, rfl⟩ hu
      · exact fun u' hu' => update_of_ne hu' ..
      · exact fun u' hu' => update_of_ne hu' ..

theorem InvAt.dead_of_detached (h : InvAt x url) (hcontrol : x.control url = c)
    (hc : c.detached) : ∀ id ∈ x.live_workers, id.url ≠ url := by
  rintro id hid rfl
  have htracked := h.tracked id hid rfl
  unfold Index.tracked at htracked
  rw [hcontrol] at htracked
  cases c with
  | idle => exact hc
  | adding ranks => exact hc
  | marking ranks => exact hc
  | joining ranks => exact htracked
  | clearing ranks => exact htracked
  | dropping r' rest => exact htracked

/-- **A step of a removal keeps the invariant.** No rank of the URL is attached after it; what it
has to show is where the batch in hand stands, and that a rank it is done with is cleared. -/
theorem Inv.removal (hi : Inv x) (hs : CallStep url x x') (hsound : TreeSound x'.tree)
    (hcontrol : x.control url = c) (hcontrol' : x'.control url = c')
    (hc : c.detached ∨ ∃ ranks, c = .marking ranks) (hc' : c'.detached ∨ c' = .idle)
    (hworkers : x'.workers url = x.workers url)
    (hsubscriptions : x'.subscriptions = x.subscriptions)
    (hremoved : c' = .idle ∨ x'.removed url = x.removed url)
    (hdead : ∀ id ∈ x'.live_workers, id.url ≠ url)
    (hhand : ∀ r sub, x.batch_in_hand = some (⟨url, r⟩, sub) → c'.uncleared r)
    (hfree : ∀ r, ¬ c'.uncleared r → TreeFree ⟨url, r⟩ x'.tree ∧
      (¬ c'.dropped r → x'.cursors.get? ⟨url, r⟩ = none))
    (hopen : ∀ id, id.url = url → x'.subscribed id = true → ∃ ranks, c' = .joining ranks)
    (hcursors : ∀ id v, x'.cursors.get? id = some v → x.cursors.get? id = some v) : Inv x' := by
  have hat := hi.every url
  have hbusy : x.control url ≠ .idle ∧ ∀ ranks, x.control url ≠ .adding ranks := by
    rw [hcontrol]
    rcases hc with hc | ⟨ranks, rfl⟩
    · constructor
      · rintro rfl
        exact hc
      · rintro ranks rfl
        exact hc
    · exact ⟨Control.noConfusion, fun _ => Control.noConfusion⟩
  refine ⟨hsound, fun u => ?_⟩
  by_cases hu : u = url
  case neg => exact (hi.every u).of_call url hs hu
  subst hu
  constructor
  · exact fun id hid hurl => absurd hurl (hdead id hid)
  · intro ranks hadding
    rw [hcontrol'] at hadding
    subst hadding
    rcases hc' with hc' | hc'
    · exact absurd hc' id
    · cases hc'
  · rintro ⟨u', r⟩ sub rfl hnow
    rw [hs.in_hand] at hnow
    rw [hsubscriptions]
    exact ⟨Or.inr ((pending_iff hcontrol').mpr (hhand r sub hnow)), (hat.in_hand _ sub rfl hnow).2⟩
  · rintro ⟨u', r⟩ rfl - hpending
    rw [pending_iff hcontrol'] at hpending
    rw [cursor_next_iff hcontrol']
    exact hfree r hpending
  · intro id hurl hsub
    rw [hcontrol']
    exact Or.inr (hopen id hurl hsub)
  · exact fun id hid hurl => absurd hurl (hdead id hid)
  · exact fun m _ hurl hlive => absurd hurl (hdead _ hlive)
  · intro id v hurl hget
    rw [hsubscriptions, hs.written]
    exact hat.logged id v hurl (hcursors id v hget)
  · intro ranks hranks
    rw [hworkers] at hranks
    rcases (hat.listed ranks hranks).1 with hidle | ⟨rs, hrs⟩
    · exact absurd hidle hbusy.1
    · exact absurd hrs (hbusy.2 rs)
  · intro hyes
    refine ⟨?_, hdead⟩
    rcases hremoved with hidle | hremoved
    · exact hcontrol'.trans hidle
    · rw [hremoved] at hyes
      exact absurd (hat.removed hyes).1 hbusy.1

theorem InvAt.hand_of_detached (h : InvAt x url) (hcontrol : x.control url = c) (hc : c.detached)
    {sub : ℕ} (hhand : x.batch_in_hand = some (⟨url, r⟩, sub)) : c.uncleared r := by
  rcases (h.in_hand _ sub rfl hhand).1 with hlive | hpending
  · exact absurd rfl (h.dead_of_detached hcontrol hc _ hlive)
  · exact (pending_iff hcontrol).mp hpending

theorem InvAt.closed_of_detached (h : InvAt x url) (hcontrol : x.control url = c) (hc : c.detached)
    (hnot : ∀ ranks, c ≠ .joining ranks) (id : KvWorkerId) (hurl : id.url = url) :
    x.subscribed id ≠ true := by
  intro hsub
  rcases h.subscribed id hurl hsub with hlive | ⟨ranks, hranks⟩
  · exact h.dead_of_detached hcontrol hc id hlive hurl
  · exact hnot ranks (hcontrol.symm.trans hranks)

theorem Inv.mark_dead (hi : Inv x) (h : x.step (.mark_dead url) = some x') : Inv x' := by
  unfold step at h
  dsimp only at h
  split at h
  case h_2 => cases h
  next ranks hcontrol =>
  cases h
  have hat := hi.every url
  have hranks : ∀ r, (⟨url, r⟩ : KvWorkerId) ∈ x.live_workers → r ∈ ranks := by
    intro r hlive
    have htracked := hat.tracked _ hlive rfl
    unfold Index.tracked at htracked
    simp only [hcontrol] at htracked
    exact htracked
  have hmem : ∀ id, id ∈ (x.live_workers.filter fun id => !is_rank_of url ranks id) ↔
      id ∈ x.live_workers ∧ ¬ (id.url = url ∧ id.dp_rank ∈ ranks) := by
    intro id
    rw [mem_filter, Bool.not_eq_true', ← Bool.not_eq_true, is_rank_of_iff]
  refine hi.removal ⟨?_, fun _ _ => rfl, fun _ _ => rfl, ?_, fun _ _ => rfl, fun _ _ => rfl,
    fun _ _ => rfl, fun _ _ hfree => hfree, rfl, rfl, rfl⟩ hi.sound hcontrol
    (update_self ..) (Or.inr ⟨ranks, rfl⟩) (Or.inl trivial) rfl rfl (Or.inr rfl) ?_ ?_ ?_
    (fun _ _ _ => ⟨ranks, rfl⟩) fun _ _ => id
  · exact fun u' hu' => update_of_ne hu' ..
  · intro id hid
    refine (hmem id).trans ⟨And.left, fun hlive => ⟨hlive, ?_⟩⟩
    exact fun hyes => hid hyes.1
  · rintro ⟨u', r⟩ hid rfl
    obtain ⟨hlive, hno⟩ := (hmem _).mp hid
    exact hno ⟨rfl, hranks r hlive⟩
  · intro r sub hhand
    rcases (hat.in_hand _ sub rfl hhand).1 with hlive | hpending
    · exact hranks r hlive
    · exact absurd ((pending_iff hcontrol).mp hpending) id
  · intro r hr
    obtain ⟨hfree, hcursor⟩ := hat.cleared hcontrol (fun hlive => hr (hranks r hlive)) id
    exact ⟨hfree, fun _ => hcursor id⟩

theorem Inv.join_subscribers (hi : Inv x) (h : x.step (.join_subscribers url) = some x') :
    Inv x' := by
  unfold step at h
  dsimp only at h
  split at h
  case h_2 => cases h
  next ranks hcontrol =>
  split at h
  · cases h
  cases h
  have hat := hi.every url
  have hdead := hat.dead_of_detached hcontrol trivial
  refine hi.removal ⟨?_, fun _ _ => rfl, fun _ _ => rfl, fun _ _ => Iff.rfl, ?_, fun _ _ => rfl,
    fun _ _ => rfl, fun _ _ hfree => hfree, rfl, rfl, rfl⟩ hi.sound hcontrol
    (update_self ..) (Or.inl trivial) (Or.inl trivial) rfl rfl (Or.inr rfl) hdead
    (fun r sub => hat.hand_of_detached hcontrol trivial) ?_ ?_ fun _ _ => id
  · exact fun u' hu' => update_of_ne hu' ..
  · intro id hid
    dsimp only
    rw [decide_eq_true hid, Bool.and_true]
  · intro r hr
    obtain ⟨hfree, hcursor⟩ := hat.cleared hcontrol (fun hlive => hdead _ hlive rfl) hr
    exact ⟨hfree, fun _ => hcursor id⟩
  · intro id hurl hsub
    rw [Bool.and_eq_true, decide_eq_true_iff] at hsub
    exact absurd hurl hsub.2

theorem Inv.clear_tree (hi : Inv x) (hclean : Clean x (.clear_tree url))
    (h : x.step (.clear_tree url) = some x') : Inv x' := by
  unfold step at h
  dsimp only at h
  split at h
  case h_2 => cases h
  next r₀ rest hcontrol =>
  cases h
  have hat := hi.every url
  have hdead := hat.dead_of_detached hcontrol trivial
  refine hi.removal ⟨?_, fun _ _ => rfl, fun _ _ => rfl, fun _ _ => Iff.rfl, fun _ _ => rfl,
    fun _ _ => rfl, fun _ _ => rfl, ?_, rfl, rfl, rfl⟩ (hi.sound.clear_worker _) hcontrol
    (update_self ..) (Or.inl trivial) (Or.inl trivial) rfl rfl (Or.inr rfl) hdead ?_ ?_
    (fun id hurl hsub => absurd hsub
      (hat.closed_of_detached hcontrol trivial (fun _ => Control.noConfusion) id hurl))
    fun _ _ => id
  · exact fun u' hu' => update_of_ne hu' ..
  · intro id hid hfree
    apply hfree.clear_other
    rintro rfl
    exact hid rfl
  · intro r sub hhand
    rcases mem_cons.mp (hat.hand_of_detached hcontrol trivial hhand) with rfl | hr
    · exact absurd hhand (hclean r rest sub hcontrol)
    · exact hr
  · intro r hr
    by_cases heq : r = r₀
    · -- the rank that is cleared: its cursor comes next
      subst heq
      exact ⟨hi.sound.free_clear_worker _, fun hnext => absurd rfl hnext⟩
    · have hbefore : ¬ (Control.clearing (r₀ :: rest)).uncleared r := by
        intro hmem
        rcases mem_cons.mp hmem with h | h
        · exact heq h
        · exact hr h
      obtain ⟨hfree, hcursor⟩ := hat.cleared hcontrol (fun hlive => hdead _ hlive rfl) hbefore
      refine ⟨hfree.clear_other ?_, fun _ => hcursor id⟩
      exact fun hid => heq (congrArg KvWorkerId.dp_rank hid).symm

theorem Inv.drop_cursor (hi : Inv x) (h : x.step (.drop_cursor url) = some x') : Inv x' := by
  unfold step at h
  dsimp only at h
  split at h
  case h_2 => cases h
  next r₀ rest hcontrol =>
  cases h
  have hat := hi.every url
  have hdead := hat.dead_of_detached hcontrol trivial
  refine hi.removal ⟨?_, fun _ _ => rfl, fun _ _ => rfl, fun _ _ => Iff.rfl, fun _ _ => rfl,
    fun _ _ => rfl, ?_, fun _ _ hfree => hfree, rfl, rfl, rfl⟩ hi.sound hcontrol
    (update_self ..) (Or.inl trivial) (Or.inl trivial) rfl rfl (Or.inr rfl) hdead
    (fun r sub => hat.hand_of_detached hcontrol trivial) ?_
    (fun id hurl hsub => absurd hsub
      (hat.closed_of_detached hcontrol trivial (fun _ => Control.noConfusion) id hurl)) ?_
  · exact fun u' hu' => update_of_ne hu' ..
  · intro id hid
    rw [get?_erase]
    apply if_neg
    rintro rfl
    exact hid rfl
  · intro r hr
    obtain ⟨hfree, hcursor⟩ := hat.cleared hcontrol (fun hlive => hdead _ hlive rfl) hr
    refine ⟨hfree, fun _ => ?_⟩
    rw [get?_erase]
    by_cases heq : r = r₀
    · exact if_pos (by rw [heq])
    · rw [if_neg fun hid => heq (congrArg KvWorkerId.dp_rank hid)]
      exact hcursor heq
  · intro id v hget
    rw [get?_erase] at hget
    split at hget
    · cases hget
    · exact hget

theorem Inv.remove_return (hi : Inv x) (h : x.step (.remove_return url) = some x') : Inv x' := by
  unfold step at h
  dsimp only at h
  split at h
  case h_2 => cases h
  next hcontrol =>
  cases h
  have hat := hi.every url
  have hdead := hat.dead_of_detached hcontrol trivial
  refine hi.removal ⟨?_, fun _ _ => rfl, ?_, fun _ _ => Iff.rfl, fun _ _ => rfl, fun _ _ => rfl,
    fun _ _ => rfl, fun _ _ hfree => hfree, rfl, rfl, rfl⟩ hi.sound hcontrol
    (update_self ..) (Or.inl trivial) (Or.inr rfl) rfl rfl (Or.inl rfl) hdead
    (fun r sub hhand => absurd (hat.hand_of_detached hcontrol trivial hhand) not_mem_nil) ?_
    (fun id hurl hsub => absurd hsub
      (hat.closed_of_detached hcontrol trivial (fun _ => Control.noConfusion) id hurl))
    fun _ _ => id
  · exact fun u' hu' => update_of_ne hu' ..
  · exact fun u' hu' => update_of_ne hu' ..
  · intro r _
    obtain ⟨hfree, hcursor⟩ := hat.cleared hcontrol (fun hlive => hdead _ hlive rfl) not_mem_nil
    exact ⟨hfree, fun _ => hcursor id⟩

end Calls

/-! ## Runs -/

/-- **A clean step keeps the invariant.** -/
theorem Inv.step (hi : Inv x) {act : Act} (hclean : Clean x act) (h : x.step act = some x') :
    Inv x' := by
  cases act with
  | publish ev => exact hi.of_pump (pump_step h (by simp))
  | recv => exact hi.of_pump (pump_step h (by simp))
  | check_live => exact hi.of_pump (pump_step h (by simp))
  | read_cursor => exact hi.of_pump (pump_step h (by simp))
  | apply_next => exact hi.of_pump (pump_step h (by simp))
  | write_cursor => exact hi.of_pump (pump_step h (by simp))
  | add_start url ranks => exact hi.add_start hclean h
  | add_finish url => exact hi.add_finish h
  | remove_start url => exact hi.remove_start h
  | mark_dead url => exact hi.mark_dead h
  | join_subscribers url => exact hi.join_subscribers h
  | clear_tree url => exact hi.clear_tree hclean h
  | drop_cursor url => exact hi.drop_cursor h
  | remove_return url => exact hi.remove_return h

theorem Run.inv (h : Run Clean x) : Inv x := by
  induction h with
  | init => exact Inv.init
  | step _ hclean hstep ih => exact ih.step hclean hstep

/-- The steps in a row. -/
def drive : Index → List Act → Option Index
  | x, [] => some x
  | x, act :: acts => (x.step act).bind fun x' => drive x' acts

/-- Each of these steps, where it is taken, is as `allowed` says. -/
def Along (allowed : Index → Act → Prop) : Index → List Act → Prop
  | _, [] => True
  | x, act :: acts => allowed x act ∧ ∀ x', x.step act = some x' → Along allowed x' acts

theorem Along.cons {allowed : Index → Act → Prop} {x y : Index} {act : Act} {acts : List Act}
    (hallowed : allowed x act) (hstep : x.step act = some y) (hrest : Along allowed y acts) :
    Along allowed x (act :: acts) :=
  ⟨hallowed, fun x' h => by
    cases hstep.symm.trans h
    exact hrest⟩

theorem Run.drive {allowed : Index → Act → Prop} : ∀ (acts : List Act) {x x' : Index},
    Run allowed x → Along allowed x acts → x.drive acts = some x' → Run allowed x'
  | [], x, x', h, _, hdrive => by
      cases hdrive
      exact h
  | act :: acts, x, x', h, halong, hdrive => by
      obtain ⟨hallowed, hrest⟩ := halong
      obtain ⟨y, hy, hdrive⟩ := Option.bind_eq_some_iff.mp hdrive
      exact Run.drive acts (h.step hallowed hy) (hrest y hy) hdrive

/-- **A removed worker leaves no trace**, in every state of a run whose steps are clean: its ranks
hold nothing in the tree and no cursor, and the batches of a publisher that starts afresh are
applied. -/
theorem removed_leaves_no_trace (x : Index) (h : Run Clean x) :
    x.RemovedUntraced ∧ x.FreshApplied :=
  ⟨h.inv.removed_untraced, h.inv.fresh_applied⟩

/-- Worker `a` is attached with one rank, its first batch is applied in full, and it is removed. -/
def quiet_removal : List Act :=
  [.add_start "a" [0#32], .add_finish "a",
    .publish (.Batch ⟨"a", 0#32⟩ 1 [.BlockStored ⟨[1#64], none, none⟩]),
    .recv, .check_live, .read_cursor, .apply_next, .write_cursor,
    .remove_start "a", .mark_dead "a", .join_subscribers "a", .clear_tree "a", .drop_cursor "a",
    .remove_return "a"]

/-- The same, but the removal falls between the test of the live set and the cursor. -/
def removal_within_a_batch : List Act :=
  [.add_start "a" [0#32], .add_finish "a",
    .publish (.Batch ⟨"a", 0#32⟩ 1 [.BlockStored ⟨[1#64], none, none⟩]), .recv, .check_live,
    .remove_start "a", .mark_dead "a", .join_subscribers "a", .clear_tree "a", .drop_cursor "a",
    .remove_return "a", .read_cursor, .apply_next, .write_cursor]

theorem quiet_removal_clean : Along Clean init quiet_removal := by
  have hbatch : ∀ x : Index, x.pump = .waiting → ∀ p, x.batch_in_hand ≠ some p := by
    intro x hpump p hp
    unfold batch_in_hand at hp
    rw [hpump] at hp
    cases hp
  refine .cons ⟨fun _ _ _ _ hm => absurd hm not_mem_nil, fun _ hid => absurd hid not_mem_nil⟩ rfl ?_
  refine .cons trivial rfl (.cons trivial rfl (.cons trivial rfl (.cons trivial rfl ?_)))
  refine .cons trivial rfl (.cons trivial rfl (.cons trivial rfl (.cons trivial rfl ?_)))
  refine .cons trivial rfl (.cons trivial rfl (.cons (fun _ _ _ _ => hbatch _ rfl _) rfl ?_))
  exact ⟨trivial, fun _ _ => ⟨trivial, fun _ _ => trivial⟩⟩

/-- That removal ends with nothing of the worker left. -/
theorem quiet_removal_leaves_nothing : ∃ x, init.drive quiet_removal = some x ∧
    x.removed "a" = true ∧ x.RemovedUntraced ∧ x.FreshApplied := by
  have hdrive : ∃ x, init.drive quiet_removal = some x ∧ x.removed "a" = true := ⟨_, rfl, rfl⟩
  obtain ⟨x, hx, hremoved⟩ := hdrive
  have hrun : Run Clean x := Run.drive quiet_removal Run.init quiet_removal_clean hx
  exact ⟨x, hx, hremoved, removed_leaves_no_trace x hrun⟩

/-- **The removal leaves a trace**: the batch goes on after the clearing, its block and its cursor
stay, and a batch with the same number on the next subscription would be skipped. -/
theorem removal_leaves_trace : ¬ ∀ x : Index, Run (fun _ _ => True) x →
    x.RemovedUntraced ∧ x.FreshApplied := by
  intro hall
  have halong : ∀ (acts : List Act) (x : Index), Along (fun _ _ => True) x acts := by
    intro acts
    induction acts with
    | nil => exact fun _ => trivial
    | cons act acts ih => exact fun x => ⟨trivial, fun x' _ => ih x'⟩
  have hdrive : ∃ x, init.drive removal_within_a_batch = some x ∧ x.removed "a" = true ∧
      x.cursors.get? ⟨"a", 0#32⟩ = some 1 := ⟨_, rfl, rfl, rfl⟩
  obtain ⟨x, hx, hremoved, hcursor⟩ := hdrive
  have hrun : Run (fun _ _ => True) x :=
    Run.drive removal_within_a_batch Run.init (halong _ _) hx
  have hnone := ((hall x hrun).1 "a" hremoved 0#32).2
  rw [hcursor] at hnone
  cases hnone

end Index

end LightningH3.KvIndex
