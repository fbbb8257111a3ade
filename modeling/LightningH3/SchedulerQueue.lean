/-
The waiting queue of the diffusion scheduler and what its ranks dispatch
(`multimodal_gen/runtime/managers/scheduler.py`, `get_next_batch_to_run` and the first half of
`event_loop`).

The ranks of a replica receive one broadcast list of requests in every iteration of their event
loops. Each rank stamps them with its own clock and decides by its own clock whether to wait for
more requests, and it admits requests by the rules that match the memory of its own device. Where the
same rules match, two ranks with the same items in their queues decide alike unless the head waits for
a batch that is not full and their clocks lie on both sides of its deadline
(`get_next_batch_agree`); `ranks_agree_iff` is the same for whole runs.

Metrics are left out, and so are the sleeps of an iteration that dispatches nothing.
-/
import LightningH3.BatchAdmission
import Mathlib.Tactic.Linarith

set_option autoImplicit false

namespace LightningH3.Scheduler

open List

/-- What stands in the queue: a request, a group of requests, or a request of another kind. -/
inductive Item
  | req (r : Req)
  | group (rs : List Req)
  | control (tag : String)
  deriving DecidableEq, Repr

/-- An entry of `waiting_queue`: the client, the request and the time stamp. -/
structure Entry where
  identity : Option String
  req : Item
  enqueue_time : ℚ

def Entry.item (e : Entry) : Option String × Item := (e.identity, e.req)

section dispatch

variable (c : ServerArgs)

/-- The scan of `get_next_batch_to_run`: from index `idx` on, the entries that join the batch. -/
def gather (base : Req) : ℕ → List (Option String × Item) → List ℕ × List Req → List ℕ × List Req
  | _, [], acc => acc
  | idx, (_, candidate) :: rest, (indices, reqs) =>
    if c.batching_max_size ≤ (indices.length : ℤ) || batch_is_full c reqs then (indices, reqs)
    else
      match candidate with
      | .req candidate_req =>
        if can_dynamic_batch c base candidate_req && !rejects_candidate c reqs candidate_req then
          gather base (idx + 1) rest (indices ++ [idx], reqs ++ [candidate_req])
        else gather base (idx + 1) rest (indices, reqs)
      | _ => gather base (idx + 1) rest (indices, reqs)

/-- The batch that the head gathers. -/
def compatible (base : Req) (queue : List (Option String × Item)) : List ℕ × List Req :=
  gather c base 1 queue.tail ([0], [base])

/-- Whether the batch may still grow. -/
def can_grow (batch : List ℕ × List Req) : Bool :=
  decide ((batch.1.length : ℤ) < c.batching_max_size) && !batch_is_full c batch.2

/-- The entries at some indices taken out of the queue, the last one first. -/
def take_out (queue : List Entry) : List ℕ → List (Option String × Item) →
    List (Option String × Item) × List Entry
  | [], items => (items, queue)
  | idx :: indices, items =>
    match queue[idx]? with
    | none => take_out queue indices items
    | some e => take_out (queue.eraseIdx idx) indices (e.item :: items)

/-- `get_next_batch_to_run` at time `now`, with the queue that is left. -/
def get_next_batch_to_run (now : ℚ) (queue : List Entry) :
    Option (List (Option String × Item)) × List Entry :=
  match queue with
  | [] => (none, [])
  | head :: rest =>
    if !dynamic_batching_enabled c then (some [head.item], rest)
    else
      match head.req with
      | .req base =>
        if !can_dynamic_batch c base base then (some [head.item], rest)
        else
          let batch := compatible c base ((head :: rest).map Entry.item)
          let oldest_wait_s := now - head.enqueue_time
          if can_grow c batch && decide (oldest_wait_s < c.batching_delay_s) then
            (none, head :: rest)
          else
            let (items, queue) := take_out (head :: rest) batch.1.reverse []
            (some items, queue)
      | _ => (some [head.item], rest)

end dispatch

/-! ## Iterations -/

def get_first_generation_req : Item → Option Req
  | .req r => some r
  | .group (r :: _) => some r
  | _ => none

def Req.copy_as_warmup (r : Req) (warmup_steps : ℤ) : Req :=
  { r with is_warmup := true, num_inference_steps := warmup_steps }

/-- `process_received_reqs_with_req_based_warmup`, with the flag that a warm-up is scheduled. -/
def process_received_reqs (c : ServerArgs) (req_based_warmup_scheduled : Bool)
    (recv_reqs : List (Option String × Item)) : Bool × List (Option String × Item) :=
  if req_based_warmup_scheduled || !c.warmup_mode_request || c.has_warmup_resolutions then
    (req_based_warmup_scheduled, recv_reqs)
  else
    match recv_reqs with
    | [] => (req_based_warmup_scheduled, recv_reqs)
    | (identity, req_or_group) :: _ =>
      match get_first_generation_req req_or_group with
      | none => (req_based_warmup_scheduled, recv_reqs)
      | some req => (true, (identity, .req (req.copy_as_warmup c.warmup_steps)) :: recv_reqs)

/-- What a rank keeps between two iterations. -/
structure Rank where
  waiting_queue : List Entry
  req_based_warmup_scheduled : Bool

/-- The clock of a rank in one iteration: when it stamps new requests, when it looks at the head. -/
structure Clock where
  enqueue : ℚ
  dispatch : ℚ

/-- The first half of an iteration: new requests join the queue. -/
def receive (c : ServerArgs) (clock : Clock) (recv_reqs : List (Option String × Item)) (s : Rank) :
    Rank :=
  let r := process_received_reqs c s.req_based_warmup_scheduled recv_reqs
  ⟨s.waiting_queue ++ r.2.map fun i => ⟨i.1, i.2, clock.enqueue⟩, r.1⟩

/-- An iteration of `event_loop`: what it dispatches and what is left. -/
def iteration (c : ServerArgs) (clock : Clock) (recv_reqs : List (Option String × Item)) (s : Rank) :
    Option (List (Option String × Item)) × Rank :=
  let s := receive c clock recv_reqs s
  let r := get_next_batch_to_run c clock.dispatch s.waiting_queue
  (r.1, { s with waiting_queue := r.2 })

/-- The state of a rank before iteration `n`. -/
def run (c : ServerArgs) (clock : ℕ → Clock) (recv_reqs : ℕ → List (Option String × Item)) :
    ℕ → Rank
  | 0 => ⟨[], false⟩
  | n + 1 => (iteration c (clock n) (recv_reqs n) (run c clock recv_reqs n)).2

/-- What the rank dispatches in iteration `n`. -/
def dispatched (c : ServerArgs) (clock : ℕ → Clock) (recv_reqs : ℕ → List (Option String × Item))
    (n : ℕ) : Option (List (Option String × Item)) :=
  (iteration c (clock n) (recv_reqs n) (run c clock recv_reqs n)).1

/-! ## Agreement -/

section agreement

variable {c : ServerArgs}

/-- The head waits for a batch that is not full. -/
def Undecided (c : ServerArgs) : List (Option String × Item) → Prop
  | (identity, .req base) :: rest => dynamic_batching_enabled c = true ∧
      can_dynamic_batch c base base = true ∧
      can_grow c (compatible c base ((identity, .req base) :: rest)) = true
  | _ => False

/-- The deadline of the head lies after `now`. -/
def Early (c : ServerArgs) (now : ℚ) : List Entry → Prop
  | head :: _ => now - head.enqueue_time < c.batching_delay_s
  | [] => False

theorem map_eraseIdx (idx : ℕ) : ∀ queue : List Entry,
    (queue.eraseIdx idx).map Entry.item = (queue.map Entry.item).eraseIdx idx := by
  induction idx with
  | zero =>
    intro queue
    cases queue with
    | nil => rfl
    | cons e rest => rfl
  | succ idx ih =>
    intro queue
    cases queue with
    | nil => rfl
    | cons e rest =>
      rw [eraseIdx_cons_succ, map_cons, map_cons, eraseIdx_cons_succ, ih]

theorem take_out_agree {indices : List ℕ} : ∀ {queue queue' : List Entry}
    {items : List (Option String × Item)}, queue.map Entry.item = queue'.map Entry.item →
    (take_out queue indices items).1 = (take_out queue' indices items).1 ∧
      (take_out queue indices items).2.map Entry.item
        = (take_out queue' indices items).2.map Entry.item := by
  induction indices with
  | nil => exact fun h => ⟨rfl, h⟩
  | cons idx indices ih =>
    intro queue queue' items h
    have hat : queue[idx]?.map Entry.item = queue'[idx]?.map Entry.item := by
      rw [← getElem?_map, ← getElem?_map, h]
    have herase : (queue.eraseIdx idx).map Entry.item = (queue'.eraseIdx idx).map Entry.item := by
      rw [map_eraseIdx, map_eraseIdx, h]
    unfold take_out
    cases hq : queue[idx]? with
    | none =>
      rw [hq, Option.map_none, eq_comm, Option.map_eq_none_iff] at hat
      rw [hat]
      exact ih h
    | some e =>
      rw [hq, Option.map_some, eq_comm, Option.map_eq_some_iff] at hat
      obtain ⟨e', he', hee⟩ := hat
      rw [he']
      dsimp only
      rw [hee]
      exact ih herase

/-- **One decision.** Ranks with the same items dispatch the same, and keep the same, exactly if no
head waits undecided between the two clocks. -/
theorem get_next_batch_agree {queue queue' : List Entry} {now now' : ℚ}
    (h : queue.map Entry.item = queue'.map Entry.item) :
    ((get_next_batch_to_run c now queue).1 = (get_next_batch_to_run c now' queue').1 ↔
      (Undecided c (queue.map Entry.item) → (Early c now queue ↔ Early c now' queue'))) ∧
    ((get_next_batch_to_run c now queue).1 = (get_next_batch_to_run c now' queue').1 →
      (get_next_batch_to_run c now queue).2.map Entry.item
        = (get_next_batch_to_run c now' queue').2.map Entry.item) := by
  cases queue with
  | nil =>
    cases queue' with
    | nil => exact ⟨iff_of_true rfl fun _ => Iff.rfl, fun _ => rfl⟩
    | cons head' rest' => cases h
  | cons head rest =>
    cases queue' with
    | nil => cases h
    | cons head' rest' =>
      rw [map_cons, map_cons, List.cons.injEq] at h
      obtain ⟨hhead, hrest⟩ := h
      obtain ⟨-, hreq⟩ : head.identity = head'.identity ∧ head.req = head'.req :=
        Prod.mk.inj hhead
      have hmap : (head :: rest).map Entry.item = (head' :: rest').map Entry.item := by
        rw [map_cons, map_cons, hhead, hrest]
      unfold get_next_batch_to_run
      dsimp only
      by_cases hdyn : dynamic_batching_enabled c = true
      · rw [hdyn, Bool.not_true, if_neg Bool.false_ne_true, if_neg Bool.false_ne_true, ← hreq]
        cases hitem : head.req with
        | group rs =>
          rw [hhead]
          refine ⟨iff_of_true rfl ?_, fun _ => hrest⟩
          intro hu
          rw [map_cons, Entry.item, hitem] at hu
          exact hu.elim
        | control tag =>
          rw [hhead]
          refine ⟨iff_of_true rfl ?_, fun _ => hrest⟩
          intro hu
          rw [map_cons, Entry.item, hitem] at hu
          exact hu.elim
        | req base =>
          dsimp only
          by_cases hself : can_dynamic_batch c base base = true
          · rw [hself, Bool.not_true, if_neg Bool.false_ne_true, if_neg Bool.false_ne_true, ← hmap]
            obtain ⟨batch, hbatch⟩ : ∃ batch,
                compatible c base ((head :: rest).map Entry.item) = batch := ⟨_, rfl⟩
            rw [hbatch]
            by_cases hgrow : can_grow c batch = true
            · -- the batch may grow: the clocks decide
              have hu : Undecided c ((head :: rest).map Entry.item) := by
                rw [map_cons, Entry.item, hitem]
                refine ⟨hdyn, hself, ?_⟩
                rw [map_cons, Entry.item, hitem] at hbatch
                rw [hbatch]
                exact hgrow
              rw [hgrow, Bool.true_and, Bool.true_and]
              by_cases he : now - head.enqueue_time < c.batching_delay_s
              · rw [if_pos (decide_eq_true he)]
                by_cases he' : now' - head'.enqueue_time < c.batching_delay_s
                · rw [if_pos (decide_eq_true he')]
                  exact ⟨iff_of_true rfl fun _ => iff_of_true he he', fun _ => hmap⟩
                · rw [if_neg (by rw [decide_eq_true_eq]; exact he')]
                  refine ⟨iff_of_false (Option.some_ne_none _).symm ?_,
                    fun h => absurd h.symm (Option.some_ne_none _)⟩
                  exact fun hall => he' ((hall hu).mp he)
              · rw [if_neg (by rw [decide_eq_true_eq]; exact he)]
                by_cases he' : now' - head'.enqueue_time < c.batching_delay_s
                · rw [if_pos (decide_eq_true he')]
                  refine ⟨iff_of_false (Option.some_ne_none _) ?_,
                    fun h => absurd h (Option.some_ne_none _)⟩
                  exact fun hall => he ((hall hu).mpr he')
                · rw [if_neg (by rw [decide_eq_true_eq]; exact he')]
                  obtain ⟨hitems, hleft⟩ := @take_out_agree batch.1.reverse _ _ [] hmap
                  refine ⟨iff_of_true (congrArg some hitems) fun _ => iff_of_false he he', ?_⟩
                  exact fun _ => hleft
            · rw [Bool.not_eq_true] at hgrow
              rw [hgrow, Bool.false_and, Bool.false_and, if_neg Bool.false_ne_true,
                if_neg Bool.false_ne_true]
              obtain ⟨hitems, hleft⟩ := @take_out_agree batch.1.reverse _ _ [] hmap
              refine ⟨iff_of_true (congrArg some hitems) ?_, fun _ => hleft⟩
              intro hu
              rw [map_cons, Entry.item, hitem] at hu hbatch
              have hgrow' := hu.2.2
              rw [hbatch, hgrow] at hgrow'
              cases hgrow'
          · rw [Bool.not_eq_true] at hself
            rw [hself, hhead]
            refine ⟨iff_of_true rfl ?_, fun _ => hrest⟩
            intro hu
            rw [map_cons, Entry.item, hitem] at hu
            have hself' := hu.2.1
            rw [hself] at hself'
            cases hself'
      · rw [Bool.not_eq_true] at hdyn
        rw [hdyn, hhead]
        refine ⟨iff_of_true rfl ?_, fun _ => hrest⟩
        intro hu
        have hon : dynamic_batching_enabled c = true := by
          unfold Undecided at hu
          split at hu
          · exact hu.1
          · exact hu.elim
        rw [hdyn] at hon
        cases hon

/-- Two ranks whose queues hold the same items and that agree about the warm-up. -/
def Alike (s s' : Rank) : Prop :=
  s.waiting_queue.map Entry.item = s'.waiting_queue.map Entry.item ∧
    s.req_based_warmup_scheduled = s'.req_based_warmup_scheduled

theorem receive_alike {clock clock' : Clock} {recv_reqs : List (Option String × Item)} {s s' : Rank}
    (h : Alike s s') : Alike (receive c clock recv_reqs s) (receive c clock' recv_reqs s') := by
  obtain ⟨hitems, hwarm⟩ := h
  have hstamp : ∀ (stamp : ℚ) (l : List (Option String × Item)),
      (l.map fun i => (⟨i.1, i.2, stamp⟩ : Entry)).map Entry.item = l := by
    intro stamp l
    rw [map_map]
    exact map_id l
  unfold receive
  rw [hwarm]
  refine ⟨?_, rfl⟩
  rw [map_append, map_append, hstamp, hstamp, hitems]

theorem iteration_agree {clock clock' : Clock} {recv_reqs : List (Option String × Item)}
    {s s' : Rank} (h : Alike s s') :
    ((iteration c clock recv_reqs s).1 = (iteration c clock' recv_reqs s').1 ↔
      (Undecided c ((receive c clock recv_reqs s).waiting_queue.map Entry.item) →
        (Early c clock.dispatch (receive c clock recv_reqs s).waiting_queue ↔
          Early c clock'.dispatch (receive c clock' recv_reqs s').waiting_queue))) ∧
    ((iteration c clock recv_reqs s).1 = (iteration c clock' recv_reqs s').1 →
      Alike (iteration c clock recv_reqs s).2 (iteration c clock' recv_reqs s').2) := by
  obtain ⟨hitems, hwarm⟩ := @receive_alike c clock clock' recv_reqs _ _ h
  obtain ⟨hiff, hleft⟩ := get_next_batch_agree hitems
  exact ⟨hiff, fun hsame => ⟨hleft hsame, hwarm⟩⟩

/-- A clock that never goes back. -/
def Clock.Steady (clock : ℕ → Clock) : Prop :=
  ∀ n, (clock n).enqueue ≤ (clock n).dispatch ∧ (clock n).dispatch ≤ (clock (n + 1)).enqueue

/-- The queue of a rank when it looks for a batch in iteration `n`. -/
def queue_at (c : ServerArgs) (clock : ℕ → Clock) (recv_reqs : ℕ → List (Option String × Item))
    (n : ℕ) : List Entry :=
  (receive c (clock n) (recv_reqs n) (run c clock recv_reqs n)).waiting_queue

theorem run_alike {clock clock' : ℕ → Clock} {recv_reqs : ℕ → List (Option String × Item)} :
    ∀ {n : ℕ}, (∀ m < n, dispatched c clock recv_reqs m = dispatched c clock' recv_reqs m) →
      Alike (run c clock recv_reqs n) (run c clock' recv_reqs n) := by
  intro n
  induction n with
  | zero => exact fun _ => ⟨rfl, rfl⟩
  | succ n ih =>
    intro h
    have hsofar := ih fun m hm => h m (Nat.lt_succ_of_lt hm)
    exact (iteration_agree hsofar).2 (h n (Nat.lt_succ_self n))

theorem clocks_agree_iff {ι : Type} (c : ServerArgs) (clock : ι → ℕ → Clock)
    (recv_reqs : ℕ → List (Option String × Item)) :
    (∀ n i j, dispatched c (clock i) recv_reqs n = dispatched c (clock j) recv_reqs n) ↔
      ∀ n i j, Undecided c ((queue_at c (clock i) recv_reqs n).map Entry.item) →
        (Early c (clock i n).dispatch (queue_at c (clock i) recv_reqs n) ↔
          Early c (clock j n).dispatch (queue_at c (clock j) recv_reqs n)) := by
  constructor
  · intro h n i j
    have halike := run_alike fun m (_ : m < n) => h m i j
    exact (iteration_agree halike).1.mp (h n i j)
  · intro h n
    -- strong induction: the ranks are alike as long as they dispatched alike
    induction n using Nat.strong_induction_on with
    | _ n ih =>
      intro i j
      have halike := run_alike fun m (hm : m < n) => ih m hm i j
      exact (iteration_agree halike).1.mpr (h n i j)

/-! ### The memory of a rank -/

/-- **Two devices match the same rules.** -/
def SameRules (c : ServerArgs) (m m' : Option ℚ) : Prop :=
  ∀ rule ∈ c.rules, rule.fits_memory m = rule.fits_memory m'

section memory

variable {m m' : Option ℚ} (h : SameRules c m m')
include h

theorem limit_for_on : limit_for (c.on m) = limit_for (c.on m') := by
  funext r
  have hrules : matching_rules (c.on m) r = matching_rules (c.on m') r :=
    filter_congr fun rule hrule => congrArg _ (h rule hrule)
  unfold limit_for
  rw [hrules]
  rfl

theorem batch_is_full_on : batch_is_full (c.on m) = batch_is_full (c.on m') := by
  funext reqs
  unfold batch_is_full
  rw [limit_for_on h]
  rfl

/-- The scan joins the same entries: it asks the rules only whether the batch is full and whether a
candidate is admitted. -/
theorem gather_on (base : Req) (queue : List (Option String × Item)) : ∀ idx batch,
    gather (c.on m) base idx queue batch = gather (c.on m') base idx queue batch := by
  have hrejects : rejects_candidate (c.on m) = rejects_candidate (c.on m') := by
    funext reqs candidate
    unfold rejects_candidate
    rw [limit_for_on h]
    rfl
  induction queue with
  | nil => exact fun _ _ => rfl
  | cons head rest ih =>
    intro idx batch
    unfold gather
    rw [batch_is_full_on h, hrejects]
    simp only [ih]
    rfl

theorem can_grow_on : can_grow (c.on m) = can_grow (c.on m') := by
  funext batch
  unfold can_grow
  rw [batch_is_full_on h]
  rfl

theorem iteration_on : iteration (c.on m) = iteration (c.on m') := by
  have hnext : get_next_batch_to_run (c.on m) = get_next_batch_to_run (c.on m') := by
    funext now queue
    unfold get_next_batch_to_run compatible
    simp only [gather_on h, can_grow_on h]
    rfl
  funext clock recv_reqs s
  unfold iteration
  rw [hnext]
  rfl

variable (clock : ℕ → Clock) (recv_reqs : ℕ → List (Option String × Item)) (n : ℕ)

theorem run_on : run (c.on m) clock recv_reqs n = run (c.on m') clock recv_reqs n := by
  induction n with
  | zero => rfl
  | succ n ih =>
    unfold run
    rw [ih, iteration_on h]

theorem dispatched_on :
    dispatched (c.on m) clock recv_reqs n = dispatched (c.on m') clock recv_reqs n := by
  unfold dispatched
  rw [run_on h, iteration_on h]

theorem queue_at_on :
    queue_at (c.on m) clock recv_reqs n = queue_at (c.on m') clock recv_reqs n := by
  unfold queue_at
  rw [run_on h]
  rfl

theorem undecided_on : Undecided (c.on m) = Undecided (c.on m') := by
  funext items
  unfold Undecided compatible
  simp only [gather_on h, can_grow_on h]
  rfl

end memory

/-- **All ranks dispatch the same batches** where the same rules match on all of them, in every
iteration, exactly if no head ever waits for a batch that is not full while the clocks of two ranks
lie on both sides of its deadline. -/
theorem ranks_agree_iff {ι : Type} (c : ServerArgs) (device_memory_gb : ι → Option ℚ)
    (hrules : ∀ i j, SameRules c (device_memory_gb i) (device_memory_gb j)) (clock : ι → ℕ → Clock)
    (recv_reqs : ℕ → List (Option String × Item)) :
    (∀ n i j, dispatched (c.on (device_memory_gb i)) (clock i) recv_reqs n
        = dispatched (c.on (device_memory_gb j)) (clock j) recv_reqs n) ↔
      ∀ n i j, Undecided (c.on (device_memory_gb i))
          ((queue_at (c.on (device_memory_gb i)) (clock i) recv_reqs n).map Entry.item) →
        (Early c (clock i n).dispatch (queue_at (c.on (device_memory_gb i)) (clock i) recv_reqs n) ↔
          Early c (clock j n).dispatch
            (queue_at (c.on (device_memory_gb j)) (clock j) recv_reqs n)) := by
  rcases isEmpty_or_nonempty ι with hnone | ⟨⟨k⟩⟩
  · exact iff_of_true (fun _ i => hnone.elim i) fun _ i => hnone.elim i
  · -- each rank decides as if it had the memory of rank `k`
    have hiff := clocks_agree_iff (c.on (device_memory_gb k)) clock recv_reqs
    simp only [fun i => dispatched_on (hrules i k), fun i => queue_at_on (hrules i k),
      fun i => undecided_on (hrules i k)]
    exact hiff

/-! ### Two ranks at the deadline -/

/-- A request that may be batched. -/
def plain_req : Req where
  request_id := "r"
  is_warmup := false
  num_outputs_per_prompt := none
  num_inference_steps := 4
  width := none
  height := none
  realtime_session_id := ""
  has_session := false
  prompt_is_str := true
  image_path := none
  return_file_paths_only := false
  sampling_params := some []
  diffusers_kwargs := none
  profile := false
  profile_all_stages := false
  num_profiled_timesteps := 0
  server_internal_prewarm := false
  return_warmup_result := false

/-- Batches of two, with a delay of one second. -/
def pairs_args : ServerArgs where
  batching_mode_dynamic := true
  batching_max_size := 2
  batching_delay_s := 1
  model_path := "m"
  offload := false
  device_memory_gb := none
  rules := []
  pipeline_config :=
    { supports_dynamic_batching := true
      supports_dynamic_batching_for_request := fun _ => true
      supports_native_grouped_requests := false
      supports_sequential_dit_inference := false
      supports_sequential_multi_output_inference := false
      estimate_request_cost := fun _ => 1 }
  warmup_mode_request := false
  has_warmup_resolutions := false
  warmup_steps := 1

/-- The second rank needs two seconds between its stamps and its look at the head. -/
def skewed_clock (i : Bool) (n : ℕ) : Clock := if i then ⟨2 * n, 2 * n + 2⟩ else ⟨n, n⟩

/-- One request, in the first iteration. -/
def one_arrival (n : ℕ) : List (Option String × Item) :=
  if n = 0 then [(some "client", .req plain_req)] else []

theorem skewed_clock_steady (i : Bool) : Clock.Steady (skewed_clock i) := by
  intro n
  cases i with
  | false => simp [skewed_clock]
  | true =>
    simp only [skewed_clock]
    push_cast
    constructor <;> linarith

/-- No waiting, and one request at a time on a device of 60 GB or more. -/
def capped_args : ServerArgs :=
  { pairs_args with
    batching_delay_s := 0
    rules := [⟨some "m", none, none, some 60, none, none, 1, none⟩] }

/-- Two requests, in the first iteration. -/
def pair_arrivals (n : ℕ) : List (Option String × Item) :=
  if n = 0 then [(some "client", .req plain_req), (some "client", .req plain_req)] else []

/-- **Ranks that disagree**: a slow one enters a forward pass alone, and one with less memory takes
more requests. -/
theorem slow_rank_dispatches_alone :
    (¬ ∀ (c : ServerArgs) (clock : Bool → ℕ → Clock) (recv_reqs : ℕ → List (Option String × Item)),
      (∀ i, Clock.Steady (clock i)) →
        ∀ n i j, dispatched c (clock i) recv_reqs n = dispatched c (clock j) recv_reqs n) ∧
    ¬ ∀ (c : ServerArgs) (device_memory_gb : Bool → Option ℚ) (clock : ℕ → Clock)
      (recv_reqs : ℕ → List (Option String × Item)), Clock.Steady clock → c.batching_delay_s = 0 →
        ∀ n i j, dispatched (c.on (device_memory_gb i)) clock recv_reqs n
          = dispatched (c.on (device_memory_gb j)) clock recv_reqs n := by
  constructor
  · intro h
    have hsame := h pairs_args skewed_clock one_arrival skewed_clock_steady 0 false true
    have hwait : dispatched pairs_args (skewed_clock false) one_arrival 0 = none := by decide +kernel
    have hgo : (dispatched pairs_args (skewed_clock true) one_arrival 0).isSome = true := by
      decide +kernel
    rw [← hsame, hwait] at hgo
    cases hgo
  · intro h
    have hsame := h capped_args (fun i => if i then some 80 else some 40) (skewed_clock false)
      pair_arrivals (skewed_clock_steady false) rfl 0 true false
    revert hsame
    decide +kernel

/-! ### Two ranks past the deadline -/

/-- Batches of two on a device of 60 GB or more. -/
def ruled_args : ServerArgs :=
  { pairs_args with rules := [⟨some "m", none, none, some 60, none, none, 2, none⟩] }

def memory_of (i : Bool) : Option ℚ := if i then some 80 else some 70

/-- Both ranks look at the head after its deadline. -/
def late_clock (i : Bool) (n : ℕ) : Clock := ⟨4 * n, if i then 4 * n + 2 else 4 * n + 3⟩

/-- Two ranks with different memory that match the same rule dispatch alike, the request at
once. -/
theorem late_ranks_agree :
    (∀ n i j, dispatched (ruled_args.on (memory_of i)) (late_clock i) one_arrival n
      = dispatched (ruled_args.on (memory_of j)) (late_clock j) one_arrival n) ∧
    (dispatched (ruled_args.on (memory_of true)) (late_clock true) one_arrival 0).isSome = true := by
  have hrules : ∀ i j, SameRules ruled_args (memory_of i) (memory_of j) := by
    intro i j rule hrule
    obtain rfl := mem_singleton.mp hrule
    cases i <;> cases j <;> decide +kernel
  have hquiet : ∀ (c : ServerArgs) (clock : Clock) (s : Rank),
      (receive c clock [] s).waiting_queue = s.waiting_queue := by
    intro c clock s
    unfold receive process_received_reqs
    split <;> simp
  have hempty : ∀ k n,
      (run (ruled_args.on (memory_of k)) (late_clock k) one_arrival (n + 1)).waiting_queue = [] := by
    intro k n
    induction n with
    | zero => exact length_eq_zero_iff.mp (by cases k <;> decide +kernel)
    | succ n ih =>
      show (get_next_batch_to_run _ _ (receive _ _ [] _).waiting_queue).2 = []
      rw [hquiet, ih]
      rfl
  refine ⟨(ranks_agree_iff ruled_args memory_of hrules late_clock one_arrival).mpr ?_,
    by decide +kernel⟩
  intro n i j hu
  cases n with
  | zero =>
    have hlate : ∀ k, ¬ Early ruled_args (late_clock k 0).dispatch
        (queue_at (ruled_args.on (memory_of k)) (late_clock k) one_arrival 0) := by
      intro k
      cases k
      · show ¬ ((4 * (0 : ℕ) + 3 : ℚ) - 4 * (0 : ℕ) < 1)
        norm_num
      · show ¬ ((4 * (0 : ℕ) + 2 : ℚ) - 4 * (0 : ℕ) < 1)
        norm_num
    exact iff_of_false (hlate i) (hlate j)
  | succ n =>
    have hnone : queue_at (ruled_args.on (memory_of i)) (late_clock i) one_arrival (n + 1) = [] := by
      show (receive _ _ [] _).waiting_queue = []
      rw [hquiet, hempty]
    rw [hnone] at hu
    exact hu.elim

end agreement

end LightningH3.Scheduler
