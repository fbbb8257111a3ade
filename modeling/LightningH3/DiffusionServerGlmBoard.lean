/-
The places of a request in the GLM distributed mode, apart from the server.

A board says which requests wait for the external server, which are in its batch, which wait for a
denoiser and which are in the table of denoiser requests, with the worker of each. The moves of the
mode (`submit`, `start`, `finish`, `assign`, `connect`, `disconnect`, `result`, `expire`) each keep
`Placed`: every tracked request stands in one place, and the counter of a worker that has connected
says whether it is free. A move is described by what it does to the lists and by what a look-up
returns afterwards, so a handler only has to be shown to make it.
-/
import LightningH3.DiffusionServerReplies

set_option autoImplicit false

namespace LightningH3.DiffusionServer

open List Option OrderedDict

/-- The lists of requests, each request under its number, and the workers. -/
structure Board where
  ar_queue : List ℕ
  ar_batch : List ℕ
  denoiser_queue : List ℕ
  table : List ℕ
  client : ℕ → RequestId
  worker : ℕ → Option ℕ
  next : ℕ
  available : List Bool
  slots : List ℤ
  tracker : Tracker

namespace Board

/-- All requests. -/
def refs (B : Board) : List ℕ := B.ar_queue ++ (B.ar_batch ++ B.table)

/-- The state of a tracked request. -/
def state_of (B : Board) (r : RequestId) : Option RequestState :=
  (B.tracker.get? r).map RequestRecord.state

/-- A request is assigned to a worker. -/
def Works (B : Board) (ref w : ℕ) : Prop := ref ∈ B.table ∧ B.worker ref = some w

/-- A worker is available and no request is assigned to it. -/
def Free (B : Board) (w : ℕ) : Prop :=
  B.available.getD w false = true ∧ ∀ ref ∈ B.table, B.worker ref ≠ some w

end Board

/-- Every tracked request stands in one place, in the state that belongs to it, and the counter of a
worker that has connected is one when it is free and zero otherwise. A request of the batch may have
left the tracker. -/
structure Placed (B : Board) (connected : List ℕ) : Prop where
  once : (B.refs.map B.client).Nodup
  old : ∀ ref ∈ B.refs, ref < B.next
  covered : ∀ r ∈ B.tracker.keys, ∃ ref ∈ B.refs, B.client ref = r
  idle : ∀ ref ∈ B.ar_queue ++ B.ar_batch, B.worker ref = none
  waiting : ∀ ref ∈ B.ar_queue, B.state_of (B.client ref) = some .encoder_waiting
  running : ∀ ref ∈ B.ar_batch, B.client ref ∈ B.tracker.keys →
    B.state_of (B.client ref) = some .encoder_running
  queued_once : B.denoiser_queue.Nodup
  queued : ∀ ref ∈ B.denoiser_queue, ref ∈ B.table ∧ B.worker ref = none
  stands : ∀ ref ∈ B.table, B.worker ref = none → ref ∈ B.denoiser_queue ∧
    B.state_of (B.client ref) = some .denoising_waiting
  works : ∀ ref ∈ B.table, ∀ w, B.worker ref = some w → B.available.getD w false = true ∧
    ∃ record, B.tracker.get? (B.client ref) = some record ∧ record.state = .denoising_running ∧
      record.instance_at .denoiser = some w
  alone : ∀ ref ∈ B.table, ∀ ref' ∈ B.table, ∀ w, B.worker ref = some w → B.worker ref' = some w →
    ref = ref'
  length : B.available.length = B.slots.length
  known : ∀ w, B.available.getD w false = true → w ∈ connected
  counters : ∀ w ∈ connected, w < B.slots.length →
    (B.Free w → B.slots.getD w 0 = 1) ∧ (¬ B.Free w → B.slots.getD w 0 = 0)

namespace Placed

variable {B : Board} {connected : List ℕ}

/-! ## What the invariant says -/

variable {ref : ℕ}

theorem unique (h : Placed B connected) {ref' : ℕ} (hr : ref ∈ B.refs) (hr' : ref' ∈ B.refs)
    (heq : B.client ref = B.client ref') : ref = ref' :=
  inj_on_of_nodup_map h.once hr hr' heq

theorem mem_table (hr : ref ∈ B.table) : ref ∈ B.refs :=
  mem_append_right _ (mem_append_right _ hr)

theorem mem_batch (hr : ref ∈ B.ar_batch) : ref ∈ B.refs :=
  mem_append_right _ (mem_append_left _ hr)

theorem mem_queue (hr : ref ∈ B.ar_queue) : ref ∈ B.refs :=
  mem_append_left _ hr

theorem refs_nodup (h : Placed B connected) : B.refs.Nodup := h.once.of_map _

theorem apart (h : Placed B connected) : (ref ∈ B.ar_queue → ref ∉ B.ar_batch ∧ ref ∉ B.table) ∧
      (ref ∈ B.ar_batch → ref ∉ B.table) := by
  have hnodup := h.refs_nodup
  unfold Board.refs at hnodup
  rw [nodup_append, nodup_append] at hnodup
  obtain ⟨_, ⟨_, _, hbatch⟩, hqueue⟩ := hnodup
  refine ⟨fun hq => ⟨fun hb => ?_, fun ht => ?_⟩, fun hb ht => hbatch ref hb ref ht rfl⟩
  · exact hqueue ref hq ref (mem_append_left _ hb) rfl
  · exact hqueue ref hq ref (mem_append_right _ ht) rfl

variable {r : RequestId}

theorem tracked_of_state {state : RequestState} (hs : B.state_of r = some state) :
    r ∈ B.tracker.keys := by
  unfold Board.state_of at hs
  rw [map_eq_some_iff] at hs
  obtain ⟨record, hget, _⟩ := hs
  exact mem_keys_iff.mpr ⟨record, hget⟩

section

variable (h : Placed B connected)
include h

theorem tracked_of_queue (hr : ref ∈ B.ar_queue) : B.client ref ∈ B.tracker.keys :=
  tracked_of_state (h.waiting ref hr)

theorem tracked_of_table (hr : ref ∈ B.table) : B.client ref ∈ B.tracker.keys := by
  cases hw : B.worker ref with
  | none => exact tracked_of_state (h.stands ref hr hw).2
  | some w =>
    obtain ⟨_, record, hget, _⟩ := h.works ref hr w hw
    exact mem_keys_iff.mpr ⟨record, hget⟩

theorem of_timeout_role {record : RequestRecord}
    (hget : B.tracker.get? r = some record) (hrole : timeout_role record.state = some .denoiser) :
    ∃ ref ∈ B.table, B.client ref = r ∧ B.worker ref = record.instance_at .denoiser := by
  have hkey : r ∈ B.tracker.keys := mem_keys_iff.mpr ⟨record, hget⟩
  have hstate : B.state_of r = some record.state := by
    unfold Board.state_of
    rw [hget]
    rfl
  obtain ⟨ref, href, hclient⟩ := h.covered r hkey
  unfold Board.refs at href
  rw [mem_append, mem_append] at href
  rcases href with hq | hb | ht
  · have hwaiting := h.waiting ref hq
    rw [hclient, hstate] at hwaiting
    rw [Option.some.inj hwaiting] at hrole
    cases hrole
  · have hrunning := h.running ref hb (hclient ▸ hkey)
    rw [hclient, hstate] at hrunning
    rw [Option.some.inj hrunning] at hrole
    cases hrole
  · cases hw : B.worker ref with
    | none =>
      have hstands := (h.stands ref ht hw).2
      rw [hclient, hstate] at hstands
      rw [Option.some.inj hstands] at hrole
      cases hrole
    | some w =>
      obtain ⟨_, record', hget', _, hinstance⟩ := h.works ref ht w hw
      rw [hclient, hget] at hget'
      cases hget'
      exact ⟨ref, ht, hclient, by rw [hw, hinstance]⟩

/-! ## One request -/

/-- What `Placed` says of a request. -/
structure Standing (B : Board) (ref : ℕ) : Prop where
  idle : ref ∈ B.ar_queue ++ B.ar_batch → B.worker ref = none
  waiting : ref ∈ B.ar_queue → B.state_of (B.client ref) = some .encoder_waiting
  running : ref ∈ B.ar_batch → B.client ref ∈ B.tracker.keys →
    B.state_of (B.client ref) = some .encoder_running
  queued : ref ∈ B.denoiser_queue → ref ∈ B.table ∧ B.worker ref = none
  stands : ref ∈ B.table → B.worker ref = none → ref ∈ B.denoiser_queue ∧
    B.state_of (B.client ref) = some .denoising_waiting
  works : ref ∈ B.table → ∀ w, B.worker ref = some w → B.available.getD w false = true ∧
    ∃ record, B.tracker.get? (B.client ref) = some record ∧ record.state = .denoising_running ∧
      record.instance_at .denoiser = some w

theorem standing (ref : ℕ) : Standing B ref :=
  ⟨h.idle ref, h.waiting ref, h.running ref, h.queued ref, h.stands ref, h.works ref⟩

end

variable {B' : Board}

/-- A move leaves a request where it is. -/
structure Kept (B B' : Board) (ref : ℕ) : Prop where
  queue : ref ∈ B'.ar_queue → ref ∈ B.ar_queue
  batch : ref ∈ B'.ar_batch → ref ∈ B.ar_batch
  waits : ref ∈ B'.denoiser_queue ↔ ref ∈ B.denoiser_queue
  table : ref ∈ B'.table ↔ ref ∈ B.table
  worker : B'.worker ref = B.worker ref
  available : ∀ w, B.Works ref w → B.available.getD w false = true →
    B'.available.getD w false = true

theorem state_of_eq (hget : B'.tracker.get? r = B.tracker.get? r) :
    B'.state_of r = B.state_of r := by
  unfold Board.state_of
  rw [hget]

theorem keys_eq (hget : B'.tracker.get? r = B.tracker.get? r) :
    r ∈ B'.tracker.keys ↔ r ∈ B.tracker.keys := by
  rw [mem_keys_iff, mem_keys_iff, hget]

theorem Standing.kept (h : Standing B ref) (hkept : Kept B B' ref)
    (hclient : B'.client ref = B.client ref) (hget : ref ∈ B'.refs →
      B'.tracker.get? (B.client ref) = B.tracker.get? (B.client ref)) : Standing B' ref where
  idle := by
    intro hin
    rw [hkept.worker]
    apply h.idle
    rcases mem_append.mp hin with hq | hb
    · exact mem_append_left _ (hkept.queue hq)
    · exact mem_append_right _ (hkept.batch hb)
  waiting := by
    intro hin
    rw [hclient, state_of_eq (hget (mem_queue hin))]
    exact h.waiting (hkept.queue hin)
  running := by
    intro hin hkey
    have hsame := hget (mem_batch hin)
    rw [hclient] at hkey ⊢
    rw [state_of_eq hsame]
    exact h.running (hkept.batch hin) ((keys_eq hsame).mp hkey)
  queued := by
    rw [hkept.waits, hkept.table, hkept.worker]
    exact h.queued
  stands := by
    intro hin hw
    rw [hkept.worker] at hw
    rw [hkept.waits, hclient, state_of_eq (hget (mem_table hin))]
    exact h.stands (hkept.table.mp hin) hw
  works := by
    intro hin w hw
    have hsame := hget (mem_table hin)
    rw [hkept.table] at hin
    rw [hkept.worker] at hw
    obtain ⟨havailable, hrecord⟩ := h.works hin w hw
    rw [hclient, hsame]
    exact ⟨hkept.available w ⟨hin, hw⟩ havailable, hrecord⟩

/-! ## The workers -/

/-- The counter of a worker is one when it is free and zero otherwise. -/
def Counted (B : Board) (w : ℕ) : Prop :=
  (B.Free w → B.slots.getD w 0 = 1) ∧ (¬ B.Free w → B.slots.getD w 0 = 0)

/-- What `Placed` says of the workers. -/
structure Manned (B : Board) (connected : List ℕ) : Prop where
  alone : ∀ {ref ref' w : ℕ}, B.Works ref w → B.Works ref' w → ref = ref'
  length : B.available.length = B.slots.length
  known : ∀ w, B.available.getD w false = true → w ∈ connected
  counters : ∀ w ∈ connected, w < B.slots.length → Counted B w

theorem manned (h : Placed B connected) : Manned B connected where
  alone := fun {ref ref' w} hw hw' => h.alone ref hw.1 ref' hw'.1 w hw.2 hw'.2
  length := h.length
  known := h.known
  counters := h.counters

variable {w : ℕ}

theorem free_iff : B.Free w ↔ B.available.getD w false = true ∧ ∀ ref, ¬ B.Works ref w :=
  and_congr_right fun _ =>
    ⟨fun hall ref hw => hall ref hw.1 hw.2, fun hall ref href hw => hall ref ⟨href, hw⟩⟩

theorem Counted.free (hfree : B.Free w) (hone : B.slots.getD w 0 = 1) : Counted B w :=
  ⟨fun _ => hone, fun hbusy => absurd hfree hbusy⟩

theorem Counted.busy (hbusy : ¬ B.Free w) (hzero : B.slots.getD w 0 = 0) : Counted B w :=
  ⟨fun hfree => absurd hfree hbusy, fun _ => hzero⟩

theorem Counted.same (h : Counted B w)
    (havailable : B'.available.getD w false = B.available.getD w false)
    (hworks : ∀ ref, B'.Works ref w ↔ B.Works ref w)
    (hslots : B'.slots.getD w 0 = B.slots.getD w 0) : Counted B' w := by
  have hfree : B'.Free w ↔ B.Free w := by
    rw [free_iff, free_iff, havailable]
    exact and_congr_right fun _ => forall_congr' fun ref => not_congr (hworks ref)
  unfold Counted
  rw [hfree, hslots]
  exact h

theorem Manned.same (h : Manned B connected)
    (hworks : ∀ ref w, B'.Works ref w ↔ B.Works ref w) (havailable : B'.available = B.available)
    (hslots : B'.slots = B.slots) : Manned B' connected where
  alone := fun hw hw' => h.alone ((hworks _ _).mp hw) ((hworks _ _).mp hw')
  length := by
    rw [havailable, hslots]
    exact h.length
  known := by
    rw [havailable]
    exact h.known
  counters := by
    intro w hw hlt
    rw [hslots] at hlt
    exact (h.counters w hw hlt).same (by rw [havailable]) (fun ref => hworks ref w) (by rw [hslots])

theorem works_congr (ht : B'.table = B.table)
    (hworker : ∀ ref ∈ B.table, B'.worker ref = B.worker ref) (ref w : ℕ) :
    B'.Works ref w ↔ B.Works ref w := by
  unfold Board.Works
  rw [ht]
  refine and_congr_right fun href => ?_
  rw [hworker ref href]

/-! ## The moves -/

theorem of_parts (honce : (B.refs.map B.client).Nodup) (hold : ∀ ref ∈ B.refs, ref < B.next)
    (hcovered : ∀ r ∈ B.tracker.keys, ∃ ref ∈ B.refs, B.client ref = r)
    (hnodup : B.denoiser_queue.Nodup) (hstanding : ∀ ref, Standing B ref)
    (hmanned : Manned B connected) : Placed B connected where
  once := honce
  old := hold
  covered := hcovered
  idle := fun ref => (hstanding ref).idle
  waiting := fun ref => (hstanding ref).waiting
  running := fun ref => (hstanding ref).running
  queued_once := hnodup
  queued := fun ref => (hstanding ref).queued
  stands := fun ref => (hstanding ref).stands
  works := fun ref => (hstanding ref).works
  alone := fun _ href _ href' _ hw hw' => hmanned.alone ⟨href, hw⟩ ⟨href', hw'⟩
  length := hmanned.length
  known := hmanned.known
  counters := hmanned.counters

/-- A move that adds no request: some are moved, and one that is taken away is not tracked. -/
theorem rearrange (h : Placed B connected) {connected' : List ℕ} (moved : ℕ → Prop)
    (hmoved : ∀ ref, moved ref → ref ∈ B.refs) (hrefs : B'.refs.Subperm B.refs)
    (hclient : B'.client = B.client) (hnext : B'.next = B.next)
    (hget : ∀ r, (∀ ref, moved ref → B.client ref ≠ r) → B'.tracker.get? r = B.tracker.get? r)
    (hkeys : ∀ ref, moved ref → B.client ref ∈ B'.tracker.keys →
      B.client ref ∈ B.tracker.keys ∧ ref ∈ B'.refs)
    (hstay : ∀ ref ∈ B.refs, ¬ moved ref → ref ∈ B'.refs) (hnodup : B'.denoiser_queue.Nodup)
    (hkept : ∀ ref, ¬ moved ref → Kept B B' ref) (hstanding : ∀ ref, moved ref → Standing B' ref)
    (hmanned : Manned B' connected') : Placed B' connected' := by
  refine of_parts ?_ ?_ ?_ hnodup ?_ hmanned
  · obtain ⟨l, hperm, hsub⟩ := hrefs
    rw [hclient]
    exact (hperm.map _).nodup_iff.mp ((hsub.map _).nodup h.once)
  · intro ref href
    rw [hnext]
    exact h.old ref (hrefs.subset href)
  · intro r hr
    rw [hclient]
    by_cases hin : ∃ ref, moved ref ∧ B.client ref = r
    · obtain ⟨ref, hmove, heq⟩ := hin
      exact ⟨ref, (hkeys ref hmove (heq ▸ hr)).2, heq⟩
    · have hsame := hget r fun ref hmove heq => hin ⟨ref, hmove, heq⟩
      obtain ⟨ref, href, heq⟩ := h.covered r ((keys_eq hsame).mp hr)
      exact ⟨ref, hstay ref href fun hmove => hin ⟨ref, hmove, heq⟩, heq⟩
  · intro ref
    by_cases hmove : moved ref
    · exact hstanding ref hmove
    · refine (h.standing ref).kept (hkept ref hmove) (by rw [hclient]) fun href => hget _ ?_
      intro ref' hmove' heq
      exact hmove (h.unique (hmoved ref' hmove') (hrefs.subset href) heq ▸ hmove')

/-! Each move replaces some fields of the board. -/

theorem submit (h : Placed B connected) {client : ℕ → RequestId} {worker : ℕ → Option ℕ}
    {t : Tracker} (hnew : r ∉ B.tracker.keys) (hbatch : ∀ ref ∈ B.ar_batch, B.client ref ≠ r)
    (hclient : ∀ ref, client ref = if ref = B.next then r else B.client ref)
    (hworker : ∀ ref, worker ref = if ref = B.next then none else B.worker ref)
    (hstate : (t.get? r).map RequestRecord.state = some .encoder_waiting)
    (hget : ∀ r', r' ≠ r → t.get? r' = B.tracker.get? r') : Placed { B with
      ar_queue := B.ar_queue ++ [B.next], client, worker, next := B.next + 1, tracker := t }
      connected := by
  have hclient_next : client B.next = r := by rw [hclient, if_pos rfl]
  have hnew_ref : ∀ {ref}, ref ∈ B.refs → ref ≠ B.next := fun href => Nat.ne_of_lt (h.old _ href)
  have hother : ∀ {ref}, ref ∈ B.refs → B.client ref ≠ r := by
    intro ref href heq
    unfold Board.refs at href
    rw [mem_append, mem_append] at href
    rcases href with hq | hbt | htb
    · exact hnew (heq ▸ h.tracked_of_queue hq)
    · exact hbatch ref hbt heq
    · exact hnew (heq ▸ h.tracked_of_table htb)
  have hrefs : ((B.ar_queue ++ [B.next]) ++ (B.ar_batch ++ B.table)).Perm (B.next :: B.refs) := by
    rw [append_assoc]
    exact perm_middle
  have hmem : ∀ {ref}, ref ∈ (B.ar_queue ++ [B.next]) ++ (B.ar_batch ++ B.table) →
      ref = B.next ∨ ref ∈ B.refs := fun href => mem_cons.mp (hrefs.mem_iff.mp href)
  refine of_parts ?_ ?_ ?_ h.queued_once ?_ (h.manned.same ?_ rfl rfl)
  · apply (hrefs.map client).nodup_iff.mpr
    have hmap : B.refs.map client = B.refs.map B.client :=
      map_congr_left fun ref href => by rw [hclient, if_neg (hnew_ref href)]
    rw [map_cons, hclient_next, hmap, nodup_cons]
    refine ⟨?_, h.once⟩
    intro hin
    obtain ⟨ref, href, heq⟩ := mem_map.mp hin
    exact hother href heq
  · intro ref href
    rcases hmem href with heq | href
    · rw [heq]
      exact Nat.lt_succ_self _
    · exact Nat.lt_succ_of_lt (h.old ref href)
  · intro r' hr'
    by_cases heq : r' = r
    · exact ⟨B.next, hrefs.mem_iff.mpr mem_cons_self, hclient_next.trans heq.symm⟩
    · obtain ⟨ref, href, hc⟩ := h.covered r' ((keys_eq (hget r' heq)).mp hr')
      refine ⟨ref, hrefs.mem_iff.mpr (mem_cons_of_mem _ href), ?_⟩
      dsimp only
      rw [hclient, if_neg (hnew_ref href), hc]
  · intro ref
    by_cases hne : ref = B.next
    · subst hne
      have hout : B.next ∉ B.refs := fun hin => hnew_ref hin rfl
      exact
        { idle := fun _ => (hworker _).trans (if_pos rfl)
          waiting := fun _ => (congrArg _ (congrArg t.get? hclient_next)).trans hstate
          running := fun hin => absurd (mem_batch (B := B) hin) hout
          queued := fun hin => absurd (mem_table (h.queued _ hin).1) hout
          stands := fun hin => absurd (mem_table (B := B) hin) hout
          works := fun hin => absurd (mem_table (B := B) hin) hout }
    · refine (h.standing ref).kept ?_ ((hclient ref).trans (if_neg hne))
        fun href => hget _ (hother ((hmem href).resolve_left hne))
      exact
        { queue := fun hin => (mem_append.mp hin).resolve_right fun hin => hne (mem_singleton.mp hin)
          batch := id
          waits := Iff.rfl
          table := Iff.rfl
          worker := (hworker ref).trans (if_neg hne)
          available := fun _ _ => id }
  · exact works_congr rfl fun ref href => (hworker ref).trans (if_neg (hnew_ref (mem_table href)))

theorem start (h : Placed B connected) {queue batch : List ℕ} {t : Tracker}
    (hnone : B.ar_batch = []) (hperm : (batch ++ queue).Perm B.ar_queue) (hstarted : ∀ ref ∈ batch,
      (t.get? (B.client ref)).map RequestRecord.state = some .encoder_running)
    (hget : ∀ r, (∀ ref ∈ batch, B.client ref ≠ r) → t.get? r = B.tracker.get? r) :
    Placed { B with ar_queue := queue, ar_batch := batch, tracker := t } connected := by
  have hrefs : (queue ++ (batch ++ B.table)).Perm B.refs := by
    unfold Board.refs
    rw [hnone, ← append_assoc]
    exact (perm_append_comm.trans hperm).append_right _
  have hqueue : ∀ {ref}, ref ∈ queue → ref ∈ B.ar_queue :=
    fun href => hperm.mem_iff.mp (mem_append_right _ href)
  have hbatch : ∀ {ref}, ref ∈ batch → ref ∈ B.ar_queue :=
    fun href => hperm.mem_iff.mp (mem_append_left _ href)
  refine h.rearrange (fun ref => ref ∈ batch) (fun ref hin => mem_queue (hbatch hin))
    hrefs.subperm rfl rfl hget (fun ref hin _ => ⟨h.tracked_of_queue (hbatch hin), mem_batch hin⟩)
    (fun ref href _ => hrefs.mem_iff.mpr href) h.queued_once ?_ ?_
    (h.manned.same (works_congr rfl fun _ _ => rfl) rfl rfl)
  · intro ref hout
    exact
      { queue := hqueue
        batch := fun hin => absurd hin hout
        waits := Iff.rfl
        table := Iff.rfl
        worker := rfl
        available := fun _ _ => id }
  · intro ref hin
    have hout : ref ∉ B.table := (h.apart.1 (hbatch hin)).2
    exact
      { idle := fun _ => h.idle ref (mem_append_left _ (hbatch hin))
        waiting := by
          intro hq
          have hsplit := hperm.nodup_iff.mpr (nodup_append.mp h.refs_nodup).1
          exact absurd rfl ((nodup_append.mp hsplit).2.2 ref hin ref hq)
        running := fun _ _ => hstarted ref hin
        queued := h.queued ref
        stands := fun htab => absurd htab hout
        works := fun htab => absurd htab hout }

variable {rest : List ℕ} {t : Tracker}

section

variable (h : Placed B connected)
include h

theorem drop_batch {slots : List ℤ} (hsub : rest.Sublist B.ar_batch) (hslots : slots = B.slots)
    (hgone : ∀ ref ∈ B.ar_batch, ref ∉ rest → B.client ref ∉ t.keys)
    (hget : ∀ r, (∀ ref ∈ B.ar_batch, ref ∉ rest → B.client ref ≠ r) →
      t.get? r = B.tracker.get? r) :
    Placed { B with ar_batch := rest, slots, tracker := t } connected := by
  subst hslots
  have hrefs : (B.ar_queue ++ (rest ++ B.table)).Sublist B.refs :=
    (List.Sublist.refl _).append (hsub.append (List.Sublist.refl _))
  have hout_of : ∀ {ref}, ref ∈ B.ar_batch ∧ ref ∉ rest →
      ref ∉ B.ar_queue ++ (rest ++ B.table) := by
    rintro ref ⟨hin, hout⟩ href
    rw [mem_append, mem_append] at href
    rcases href with hmem | hmem | hmem
    · exact (h.apart.1 hmem).1 hin
    · exact hout hmem
    · exact h.apart.2 hin hmem
  refine h.rearrange (fun ref => ref ∈ B.ar_batch ∧ ref ∉ rest) (fun ref hin => mem_batch hin.1)
    hrefs.subperm rfl rfl (fun r hr => hget r fun ref hin hout => hr ref ⟨hin, hout⟩)
    (fun ref hin hkey => absurd hkey (hgone ref hin.1 hin.2)) ?_ h.queued_once ?_ ?_
    (h.manned.same (works_congr rfl fun _ _ => rfl) rfl rfl)
  · intro ref href hstay
    unfold Board.refs at href ⊢
    rw [mem_append, mem_append] at href
    rw [mem_append, mem_append]
    exact href.imp_right (Or.imp_left fun hin => by_contra fun hout => hstay ⟨hin, hout⟩)
  · intro ref _
    exact
      { queue := id
        batch := fun hin => hsub.subset hin
        waits := Iff.rfl
        table := Iff.rfl
        worker := rfl
        available := fun _ _ => id }
  · intro ref hin
    have hout := hout_of hin
    exact
      { idle := fun _ => h.idle ref (mem_append_right _ hin.1)
        waiting := fun hmem => absurd (mem_append_left _ hmem) hout
        running := fun hmem => absurd (mem_append_right _ (mem_append_left _ hmem)) hout
        queued := h.queued ref
        stands := fun hmem => absurd (mem_append_right _ (mem_append_right _ hmem)) hout
        works := fun hmem => absurd (mem_append_right _ (mem_append_right _ hmem)) hout }

variable {client : ℕ → RequestId} {worker : ℕ → Option ℕ} {table : List ℕ}

theorem finish (hbatch : B.ar_batch = ref :: rest) (ht : table = B.table ++ [ref])
    (hclient : client = B.client) (hworker : worker = B.worker)
    (hkeys : B.client ref ∈ B.tracker.keys)
    (hstate : (t.get? (B.client ref)).map RequestRecord.state = some .denoising_waiting)
    (hget : ∀ r, B.client ref ≠ r → t.get? r = B.tracker.get? r) : Placed { B with
      ar_batch := rest, denoiser_queue := B.denoiser_queue ++ [ref], table, client, worker
      tracker := t } connected := by
  subst ht hclient hworker
  have hin : ref ∈ B.ar_batch := by
    rw [hbatch]
    exact mem_cons_self
  have hrefs : (B.ar_queue ++ (rest ++ (B.table ++ [ref]))).Perm B.refs := by
    unfold Board.refs
    rw [hbatch, ← append_assoc rest]
    exact (perm_append_singleton ref _).append_left _
  have hout_rest : ref ∉ rest := by
    have hnodup := (nodup_append.mp (nodup_append.mp h.refs_nodup).2.1).1
    rw [hbatch, nodup_cons] at hnodup
    exact hnodup.1
  have hnone : B.worker ref = none := h.idle ref (mem_append_right _ hin)
  refine h.rearrange (fun ref' => ref' = ref) (fun ref' heq => heq ▸ mem_batch hin)
    hrefs.subperm rfl rfl (fun r hr => hget r (hr ref rfl))
    (by rintro ref' rfl _; exact ⟨hkeys, mem_table mem_concat_self⟩)
    (fun ref' href' _ => hrefs.mem_iff.mpr href') ?_ ?_ ?_ (h.manned.same ?_ rfl rfl)
  · apply nodup_append.mpr
    refine ⟨h.queued_once, nodup_singleton _, ?_⟩
    intro a ha b hb' heq
    rw [mem_singleton.mp hb'] at heq
    exact h.apart.2 hin (heq ▸ (h.queued a ha).1)
  · intro ref' hne
    exact
      { queue := id
        batch := by
          rw [hbatch]
          exact mem_cons_of_mem _
        waits := by rw [mem_append, mem_singleton, or_iff_left hne]
        table := by rw [mem_append, mem_singleton, or_iff_left hne]
        worker := rfl
        available := fun _ _ => id }
  · rintro ref' rfl
    exact
      { idle := fun _ => hnone
        waiting := fun hmem => absurd hin (h.apart.1 hmem).1
        running := fun hmem => absurd hmem hout_rest
        queued := fun _ => ⟨mem_concat_self, hnone⟩
        stands := fun _ _ => ⟨mem_concat_self, hstate⟩
        works := fun _ w hw => absurd (hnone.symm.trans hw) (some_ne_none w).symm }
  · intro ref' w
    unfold Board.Works
    rw [mem_append, mem_singleton]
    refine ⟨fun hw => ⟨hw.1.resolve_right ?_, hw.2⟩, fun hw => ⟨Or.inl hw.1, hw.2⟩⟩
    rintro rfl
    exact some_ne_none w (hw.2.symm.trans hnone)

variable {available : List Bool} {slots : List ℤ} {w : ℕ}

theorem assign (hqueue : B.denoiser_queue = ref :: rest) (hfree : B.Free w)
    (hclient : client = B.client)
    (hworker : ∀ ref', worker ref' = if ref' = ref then some w else B.worker ref')
    (hlength : slots.length = B.slots.length)
    (hslots : ∀ w', slots.getD w' 0 = if w' = w then B.slots.getD w' 0 - 1
      else B.slots.getD w' 0) (hrecord : ∃ record, t.get? (B.client ref) = some record ∧
      record.state = .denoising_running ∧ record.instance_at .denoiser = some w)
    (hget : ∀ r, B.client ref ≠ r → t.get? r = B.tracker.get? r) :
    Placed { B with denoiser_queue := rest, client, worker, slots, tracker := t } connected := by
  subst hclient
  obtain ⟨hin, hnone⟩ := h.queued ref (by rw [hqueue]; exact mem_cons_self)
  have hbusy : worker ref = some w := by rw [hworker, if_pos rfl]
  have hnodup := h.queued_once
  rw [hqueue, nodup_cons] at hnodup
  have hworks : ∀ ref' w', (ref' ∈ B.table ∧ worker ref' = some w') ↔
      (ref' = ref ∧ w' = w) ∨ B.Works ref' w' := by
    intro ref' w'
    unfold Board.Works
    rw [hworker]
    by_cases hne : ref' = ref
    · rw [if_pos hne, hne, hnone, some_inj, eq_comm]
      exact ⟨fun hw => Or.inl ⟨rfl, hw.2⟩, fun hw => ⟨hin, (hw.resolve_right (by simp)).2⟩⟩
    · rw [if_neg hne, or_iff_right fun hw => hne hw.1]
  have hfree_ref := (free_iff.mp hfree).2
  refine h.rearrange (fun ref' => ref' = ref) (fun ref' heq => heq ▸ mem_table hin)
    (Subperm.refl _) rfl rfl (fun r hr => hget r (hr ref rfl))
    (fun ref' heq _ => heq ▸ ⟨h.tracked_of_table hin, mem_table hin⟩)
    (fun ref' href' _ => href') hnodup.2 ?_ ?_ ?_
  · intro ref' hne
    exact
      { queue := id
        batch := id
        waits := by rw [hqueue, mem_cons, or_iff_right hne]
        table := Iff.rfl
        worker := (hworker ref').trans (if_neg hne)
        available := fun _ _ => id }
  · rintro ref' rfl
    have hout : ref' ∉ B.ar_queue ∧ ref' ∉ B.ar_batch :=
      ⟨fun hmem => (h.apart.1 hmem).2 hin, fun hmem => h.apart.2 hmem hin⟩
    exact
      { idle := fun hmem => ((mem_append.mp hmem).elim hout.1 hout.2).elim
        waiting := fun hmem => absurd hmem hout.1
        running := fun hmem => absurd hmem hout.2
        queued := fun hmem => absurd hmem hnodup.1
        stands := fun _ hw => absurd (hw.symm.trans hbusy) (some_ne_none w).symm
        works := by
          intro _ w' hw
          cases hbusy.symm.trans hw
          exact ⟨hfree.1, hrecord⟩ }
  · refine ⟨?_, h.length.trans hlength.symm, h.known, ?_⟩
    · intro ref₁ ref₂ w' h₁ h₂
      rcases (hworks ref₁ w').mp h₁ with ⟨rfl, rfl⟩ | h₁
      · rcases (hworks ref₂ w').mp h₂ with ⟨rfl, _⟩ | h₂
        · rfl
        · exact absurd h₂ (hfree_ref ref₂)
      · rcases (hworks ref₂ w').mp h₂ with ⟨_, rfl⟩ | h₂
        · exact absurd h₁ (hfree_ref ref₁)
        · exact h.manned.alone h₁ h₂
    · intro w' hw' hlt
      have hold := h.counters w' hw' (hlength ▸ hlt)
      by_cases heq : w' = w
      · subst heq
        refine Counted.busy (fun hfree' => ?_) ?_
        · exact (free_iff.mp hfree').2 ref ((hworks ref w').mpr (Or.inl ⟨rfl, rfl⟩))
        · rw [hslots, if_pos rfl, hold.1 hfree]
          rfl
      · refine Counted.same hold rfl (fun ref' => ?_) ((hslots w').trans (if_neg heq))
        exact (hworks ref' w').trans (or_iff_right fun hw => heq hw.2)

variable (hlength : slots.length = B.slots.length)
  (hlength' : available.length = B.available.length)
include hlength hlength'

theorem connect (w : ℕ) (havailable : ∀ w', available.getD w' false =
      if w' = w ∧ w' < B.slots.length then true else B.available.getD w' false)
    (hslots : ∀ w', w' < B.slots.length → slots.getD w' 0 =
      if w' = w ∧ ∀ ref ∈ B.table, B.worker ref ≠ some w then 1 else B.slots.getD w' 0) :
    Placed { B with available, slots } (w :: connected) := by
  have hmore : ∀ {w'}, B.available.getD w' false = true → available.getD w' false = true := by
    intro w' hw'
    rw [havailable]
    split
    · rfl
    · exact hw'
  refine h.rearrange (fun _ => False) (fun _ hnone => hnone.elim) (Subperm.refl _) rfl rfl
    (fun _ _ => rfl) (fun _ hnone => hnone.elim) (fun ref href _ => href) h.queued_once ?_
    (fun _ hnone => hnone.elim) ⟨h.manned.alone, ?_, ?_, ?_⟩
  · intro ref _
    exact
      { queue := id
        batch := id
        waits := Iff.rfl
        table := Iff.rfl
        worker := rfl
        available := fun _ _ => hmore }
  · exact hlength'.trans (h.length.trans hlength.symm)
  · intro w' hw'
    rw [havailable] at hw'
    by_cases heq : w' = w
    · rw [heq]
      exact mem_cons_self
    · rw [if_neg (fun hboth => heq hboth.1)] at hw'
      exact mem_cons_of_mem _ (h.known w' hw')
  · intro w' hw' hlt
    rw [hlength] at hlt
    by_cases heq : w' = w
    · subst heq
      by_cases hidle : ∀ ref ∈ B.table, B.worker ref ≠ some w'
      · exact Counted.free ⟨(havailable w').trans (if_pos ⟨rfl, hlt⟩), hidle⟩
          ((hslots w' hlt).trans (if_pos ⟨rfl, hidle⟩))
      · -- a request is assigned to the worker, which was available before
        have hassigned : ∃ ref, B.Works ref w' := by
          by_contra hnone
          exact hidle fun ref href hw => hnone ⟨ref, href, hw⟩
        obtain ⟨ref, hw⟩ := hassigned
        have hconnected := h.known w' (h.works ref hw.1 w' hw.2).1
        refine Counted.busy (fun hfree => (free_iff.mp hfree).2 ref hw) ?_
        refine ((hslots w' hlt).trans (if_neg fun hboth => hidle hboth.2)).trans ?_
        exact (h.counters w' hconnected hlt).2 fun hfree => (free_iff.mp hfree).2 ref hw
    · have hold := (mem_cons.mp hw').resolve_left heq
      exact Counted.same (h.counters w' hold hlt)
        ((havailable w').trans (if_neg fun hboth => heq hboth.1)) (fun _ => Iff.rfl)
        ((hslots w' hlt).trans (if_neg fun hboth => heq hboth.1))

theorem disconnect {replayed : List ℕ}
    (hreplayed : ∀ ref, ref ∈ replayed ↔ ref ∈ B.table ∧ B.worker ref = some w)
    (hnodup : replayed.Nodup) (hclient : client = B.client)
    (hworker : ∀ ref, worker ref = if ref ∈ replayed then none else B.worker ref)
    (havailable : ∀ w', available.getD w' false =
      if w' = w then false else B.available.getD w' false)
    (hslots : ∀ w', w' < B.slots.length → slots.getD w' 0 = if w' = w then 0 else B.slots.getD w' 0)
    (hstate : ∀ ref ∈ replayed,
      (t.get? (B.client ref)).map RequestRecord.state = some .denoising_waiting)
    (hget : ∀ r, (∀ ref ∈ replayed, B.client ref ≠ r) → t.get? r = B.tracker.get? r) :
    Placed { B with
      denoiser_queue := replayed ++ B.denoiser_queue, client, worker, available, slots
      tracker := t } connected := by
  subst hclient
  have hworks : ∀ ref w', (ref ∈ B.table ∧ worker ref = some w') ↔ B.Works ref w' ∧ w' ≠ w := by
    intro ref w'
    unfold Board.Works
    rw [hworker]
    by_cases hmem : ref ∈ replayed
    · have hassigned := ((hreplayed ref).mp hmem).2
      rw [if_pos hmem, hassigned, some_inj]
      exact ⟨fun hw => absurd hw.2.symm (some_ne_none w'), fun hw => absurd hw.1.2.symm hw.2⟩
    · rw [if_neg hmem, iff_self_and]
      rintro ⟨href, hw⟩ rfl
      exact hmem ((hreplayed ref).mpr ⟨href, hw⟩)
  have hin : ∀ {ref}, ref ∈ replayed → ref ∈ B.table := fun href => ((hreplayed _).mp href).1
  refine h.rearrange (fun ref => ref ∈ replayed) (fun _ hmem => mem_table (hin hmem))
    (Subperm.refl _) rfl rfl hget
    (fun ref hmem _ => ⟨h.tracked_of_table (hin hmem), mem_table (hin hmem)⟩)
    (fun ref href _ => href) ?_ ?_ ?_ ⟨?_, ?_, ?_, ?_⟩
  · apply nodup_append.mpr
    refine ⟨hnodup, h.queued_once, ?_⟩
    intro a ha b hb' heq
    have hnone := (h.queued b hb').2
    rw [← heq, ((hreplayed a).mp ha).2] at hnone
    cases hnone
  · intro ref hout
    exact
      { queue := id
        batch := id
        waits := by rw [mem_append, or_iff_right hout]
        table := Iff.rfl
        worker := (hworker ref).trans (if_neg hout)
        available := by
          intro w' hw hold
          rw [havailable, if_neg, hold]
          rintro rfl
          exact hout ((hreplayed ref).mpr hw) }
  · intro ref hmem
    have hout : ref ∉ B.ar_queue ∧ ref ∉ B.ar_batch :=
      ⟨fun hmem' => (h.apart.1 hmem').2 (hin hmem), fun hmem' => h.apart.2 hmem' (hin hmem)⟩
    have hnone : worker ref = none := by rw [hworker, if_pos hmem]
    exact
      { idle := fun _ => hnone
        waiting := fun hmem' => absurd hmem' hout.1
        running := fun hmem' => absurd hmem' hout.2
        queued := fun _ => ⟨hin hmem, hnone⟩
        stands := fun _ _ => ⟨mem_append_left _ hmem, hstate ref hmem⟩
        works := fun _ w' hw => absurd (hw.symm.trans hnone) (some_ne_none w') }
  · exact fun h₁ h₂ => h.manned.alone ((hworks _ _).mp h₁).1 ((hworks _ _).mp h₂).1
  · exact hlength'.trans (h.length.trans hlength.symm)
  · intro w' hw'
    rw [havailable] at hw'
    split at hw'
    · cases hw'
    · exact h.known w' hw'
  · intro w' hw' hlt
    rw [hlength] at hlt
    by_cases heq : w' = w
    · refine Counted.busy (fun hfree => ?_) ((hslots w' hlt).trans (if_pos heq))
      cases hfree.1.symm.trans ((havailable w').trans (if_pos heq))
    · exact Counted.same (h.counters w' hw' hlt) ((havailable w').trans (if_neg heq))
        (fun ref => (hworks ref w').trans (and_iff_left heq)) ((hslots w' hlt).trans (if_neg heq))

omit hlength'

theorem result (hassigned : B.worker ref = some w) (ht : B.table.Perm (ref :: table))
    (hslots : ∀ w', w' < B.slots.length → slots.getD w' 0 =
      if w' = w then 1 else B.slots.getD w' 0) (hgone : B.client ref ∉ t.keys)
    (hget : ∀ r, B.client ref ≠ r → t.get? r = B.tracker.get? r) :
    Placed { B with table, slots, tracker := t } connected := by
  have hin : ref ∈ B.table := ht.mem_iff.mpr mem_cons_self
  have hrefs : B.refs.Perm (ref :: (B.ar_queue ++ (B.ar_batch ++ table))) := by
    refine ((ht.append_left _).append_left _).trans ?_
    refine (perm_middle.append_left _).trans ?_
    exact perm_middle
  have hout : ref ∉ B.ar_queue ++ (B.ar_batch ++ table) :=
    (nodup_cons.mp (hrefs.nodup_iff.mp h.refs_nodup)).1
  have hout_table : ref ∉ table :=
    fun hmem => hout (mem_append_right _ (mem_append_right _ hmem))
  have htable : ∀ {ref'}, ref' ∈ table ↔ ref' ∈ B.table ∧ ref' ≠ ref := by
    intro ref'
    rw [ht.mem_iff, mem_cons]
    refine ⟨fun hmem => ⟨Or.inr hmem, ?_⟩, fun hmem => hmem.1.resolve_left hmem.2⟩
    rintro rfl
    exact hout_table hmem
  have hworks : ∀ ref' w', (ref' ∈ table ∧ B.worker ref' = some w') ↔
      B.Works ref' w' ∧ ref' ≠ ref := by
    intro ref' w'
    unfold Board.Works
    rw [htable, and_right_comm]
  refine h.rearrange (fun ref' => ref' = ref) (fun ref' heq => heq ▸ mem_table hin)
    ((sublist_cons_self ref _).subperm.trans hrefs.symm.subperm) rfl rfl
    (fun r hr => hget r (hr ref rfl)) (fun ref' heq hkey => absurd (heq ▸ hkey) hgone)
    (fun ref' href' hne => (mem_cons.mp (hrefs.mem_iff.mp href')).resolve_left hne)
    h.queued_once ?_ ?_ ⟨?_, h.length.trans hlength.symm, h.known, ?_⟩
  · intro ref' hne
    exact
      { queue := id
        batch := id
        waits := Iff.rfl
        table := htable.trans (and_iff_left hne)
        worker := rfl
        available := fun _ _ => id }
  · rintro ref' rfl
    exact
      { idle := fun hmem => absurd ((mem_append.mp hmem).elim mem_queue mem_batch)
          (fun hmem => hout hmem)
        waiting := fun hmem => absurd (mem_append_left _ hmem) hout
        running := fun hmem => absurd (mem_append_right _ (mem_append_left _ hmem)) hout
        queued := fun hmem =>
          absurd ((h.queued ref' hmem).2.symm.trans hassigned) (some_ne_none w).symm
        stands := fun hmem => absurd hmem hout_table
        works := fun hmem => absurd hmem hout_table }
  · exact fun h₁ h₂ => h.manned.alone ((hworks _ _).mp h₁).1 ((hworks _ _).mp h₂).1
  · intro w' hw' hlt
    rw [hlength] at hlt
    by_cases heq : w' = w
    · subst heq
      refine Counted.free (free_iff.mpr ⟨(h.works ref hin w' hassigned).1, ?_⟩)
        ((hslots w' hlt).trans (if_pos rfl))
      intro ref' hw
      obtain ⟨hw, hne⟩ := (hworks ref' w').mp hw
      exact hne (h.manned.alone hw ⟨hin, hassigned⟩)
    · refine Counted.same (h.counters w' hw' hlt) rfl (fun ref' => ?_)
        ((hslots w' hlt).trans (if_neg heq))
      refine (hworks ref' w').trans (and_iff_left_iff_imp.mpr ?_)
      rintro ⟨_, hw⟩ rfl
      exact heq (Option.some.inj (hw.symm.trans hassigned))

theorem expire (gone : List RequestId) {queue denoiser_queue : List ℕ}
    (hq : queue = B.ar_queue.filter fun ref => decide (B.client ref ∉ gone))
    (hd : denoiser_queue = B.denoiser_queue.filter fun ref => decide (B.client ref ∉ gone))
    (ht : table = B.table.filter fun ref => decide (B.client ref ∉ gone))
    (hfreed : ∀ w, w < B.slots.length → (∃ ref ∈ B.table, B.client ref ∈ gone ∧
      B.worker ref = some w) → slots.getD w 0 = 1)
    (hkept : ∀ w, w < B.slots.length → (∀ ref ∈ B.table, B.client ref ∈ gone →
      B.worker ref ≠ some w) → slots.getD w 0 = B.slots.getD w 0)
    (hget : ∀ r, t.get? r = if r ∈ gone then none else B.tracker.get? r) :
    Placed { B with ar_queue := queue, denoiser_queue, table, slots, tracker := t }
      connected := by
  have hmem_of : ∀ {l : List ℕ} {ref}, ref ∈ l.filter (fun ref => decide (B.client ref ∉ gone)) ↔
      ref ∈ l ∧ B.client ref ∉ gone := by
    intro l ref
    rw [mem_filter, decide_eq_true_eq]
  subst hq hd ht
  have hworks : ∀ ref w, (ref ∈ B.table.filter (fun ref => decide (B.client ref ∉ gone)) ∧
      B.worker ref = some w) ↔ B.Works ref w ∧ B.client ref ∉ gone := by
    intro ref w
    unfold Board.Works
    rw [hmem_of, and_right_comm]
  have huntracked : ∀ {r}, r ∈ gone → r ∉ t.keys := by
    intro r hr
    rw [← get?_eq_none_iff, hget, if_pos hr]
  refine h.rearrange (fun ref => ref ∈ B.refs ∧ B.client ref ∈ gone) (fun _ hin => hin.1)
    (filter_sublist.append ((List.Sublist.refl _).append filter_sublist)).subperm rfl rfl ?_
    (fun _ hin hkey => absurd hkey (huntracked hin.2)) ?_ (h.queued_once.filter _) ?_ ?_
    ⟨?_, h.length.trans hlength.symm, h.known, ?_⟩
  · intro r hr
    rw [hget]
    split
    · next hmem =>
      symm
      rw [get?_eq_none_iff]
      intro hkey
      obtain ⟨ref, href, heq⟩ := h.covered r hkey
      exact hr ref ⟨href, heq ▸ hmem⟩ heq
    · rfl
  · intro ref href hout
    have hkeep : B.client ref ∉ gone := fun hmem => hout ⟨href, hmem⟩
    unfold Board.refs at href ⊢
    rw [mem_append, mem_append] at href
    rw [mem_append, mem_append, hmem_of, hmem_of, and_iff_left hkeep, and_iff_left hkeep]
    exact href
  · intro ref hout
    have hkeep : ref ∈ B.refs → B.client ref ∉ gone := fun href hmem => hout ⟨href, hmem⟩
    exact
      { queue := fun hin => (hmem_of.mp hin).1
        batch := id
        waits := hmem_of.trans
          (and_iff_left_iff_imp.mpr fun hin => hkeep (mem_table (h.queued ref hin).1))
        table := hmem_of.trans (and_iff_left_iff_imp.mpr fun hin => hkeep (mem_table hin))
        worker := rfl
        available := fun _ _ => id }
  · rintro ref ⟨_, hmem⟩
    exact
      { idle := fun hin => h.idle ref
          (mem_append.mpr ((mem_append.mp hin).imp_left fun hin => (hmem_of.mp hin).1))
        waiting := fun hin => absurd hmem (hmem_of.mp hin).2
        running := fun _ hkey => absurd hkey (huntracked hmem)
        queued := fun hin => absurd hmem (hmem_of.mp hin).2
        stands := fun hin => absurd hmem (hmem_of.mp hin).2
        works := fun hin => absurd hmem (hmem_of.mp hin).2 }
  · exact fun h₁ h₂ => h.manned.alone ((hworks _ _).mp h₁).1 ((hworks _ _).mp h₂).1
  · intro w hw hlt
    rw [hlength] at hlt
    by_cases hgone : ∃ ref ∈ B.table, B.client ref ∈ gone ∧ B.worker ref = some w
    · obtain ⟨ref, href, hout, hassigned⟩ := hgone
      refine Counted.free (free_iff.mpr ⟨(h.works ref href w hassigned).1, ?_⟩)
        (hfreed w hlt ⟨ref, href, hout, hassigned⟩)
      intro ref' hw'
      obtain ⟨hw', hkeep⟩ := (hworks ref' w).mp hw'
      exact hkeep (h.manned.alone hw' ⟨href, hassigned⟩ ▸ hout)
    · have hnone : ∀ ref ∈ B.table, B.client ref ∈ gone → B.worker ref ≠ some w :=
        fun ref href hout hassigned => hgone ⟨ref, href, hout, hassigned⟩
      refine Counted.same (h.counters w hw hlt) rfl (fun ref => ?_) (hkept w hlt hnone)
      refine (hworks ref w).trans (and_iff_left_iff_imp.mpr ?_)
      exact fun hw' hout => hnone ref hw'.1 hout hw'.2

end

end Placed

end LightningH3.DiffusionServer
