/-
How the diffusion scheduler runs what it dispatches and answers it
(`multimodal_gen/runtime/managers/scheduler.py`, `_dispatch_items` to `_return_results_sequentially`
and the second half of `event_loop`, with `execute_forward_sequentially` of `gpu_worker.py`).

A worker is given by what it does in one iteration of the event loop: what its calls return or
raise, and what the pipeline yields when it runs the requests of a batch one after the other. Tensors
and lists are lists of entries along their first dimension. Sending succeeds, so a reply is the call
of `_return_item_result` with the item and the output.
-/
import LightningH3.SchedulerQueue

set_option autoImplicit false

namespace LightningH3.Scheduler

/-! ## Output batches -/

/-- A value of an output batch: nothing, entries along a first dimension, or anything else. -/
inductive Value
  | none
  | entries (xs : List String)
  | other (x : String)
  deriving DecidableEq, Repr

structure RequestMetrics where
  request_id : String
  stages : List String
  deriving DecidableEq, Repr

/-- `OutputBatch` -/
structure OutputBatch where
  output : Value
  raw_frame_batches : Value
  raw_frame_content_type : Value
  raw_frame_metadata : Value
  audio : Value
  audio_sample_rate : Option ℤ
  action_pred : Value
  action_mode : Value
  action_domain_id : Value
  action_raw_action_dim : Value
  trajectory_timesteps : Value
  trajectory_latents : Value
  rollout_trajectory_data : Value
  trajectory_decoded : Value
  error : Option String
  output_file_paths : Value
  metrics : Option RequestMetrics
  metrics_list : Option (List (Option RequestMetrics))
  noise_pred : Value
  peak_memory_mb : ℚ
  usage : Value
  deriving DecidableEq

/-- `OutputBatch()` -/
def OutputBatch.empty : OutputBatch where
  output := .none
  raw_frame_batches := .none
  raw_frame_content_type := .other "application/x-raw-rgb"
  raw_frame_metadata := .none
  audio := .none
  audio_sample_rate := none
  action_pred := .none
  action_mode := .none
  action_domain_id := .none
  action_raw_action_dim := .none
  trajectory_timesteps := .none
  trajectory_latents := .none
  rollout_trajectory_data := .none
  trajectory_decoded := .none
  error := none
  output_file_paths := .none
  metrics := none
  metrics_list := none
  noise_pred := .none
  peak_memory_mb := 0
  usage := .none

/-- `OutputBatch(error=..)` -/
def OutputBatch.failed (error : String) : OutputBatch := { OutputBatch.empty with error := some error }

/-- `xs[start:stop]`, with Python's reading of negative bounds. -/
def py_slice {α : Type} (xs : List α) (start stop : ℤ) : List α :=
  let bound := fun i : ℤ => (if i < 0 then max 0 (i + xs.length) else min i xs.length).toNat
  (xs.drop (bound start)).take (bound stop - bound start)

def count_first_dim : Value → Option ℤ
  | .entries xs => some xs.length
  | _ => none

def slice_batched_value (value : Value) (start stop total_items : ℤ) : Value :=
  match value with
  | .entries xs =>
    if (xs.length : ℤ) = total_items then .entries (py_slice xs start stop) else .entries xs
  | v => v

/-- The metrics of request `req_index` in a batch. -/
def split_metrics (output_batch : OutputBatch) (req_index : ℕ) (req : Req) :
    Option RequestMetrics :=
  let metrics :=
    match output_batch.metrics_list.bind fun l => l[req_index]? with
    | some m => m
    | none => output_batch.metrics
  metrics.map fun m => { m with request_id := req.request_id }

/-- What request `req_index` gets of a batch whose entries `start` to `stop` are its own. A field that
is not listed keeps its default. -/
def split_for (output_batch : OutputBatch) (total_items : ℤ) (req_index : ℕ) (req : Req)
    (start stop : ℤ) : OutputBatch :=
  let slice := fun value => slice_batched_value value start stop total_items
  { OutputBatch.empty with
    output := slice output_batch.output
    audio := slice output_batch.audio
    audio_sample_rate := output_batch.audio_sample_rate
    action_pred := slice output_batch.action_pred
    trajectory_timesteps := slice output_batch.trajectory_timesteps
    trajectory_latents := slice output_batch.trajectory_latents
    trajectory_decoded := slice output_batch.trajectory_decoded
    error := output_batch.error
    output_file_paths := slice output_batch.output_file_paths
    metrics := split_metrics output_batch req_index req
    noise_pred := slice output_batch.noise_pred
    peak_memory_mb := output_batch.peak_memory_mb }

/-- The loop of `_split_batched_output`, from request `req_index` and entry `start` on. -/
def split_from (output_batch : OutputBatch) (total_items : ℤ) :
    ℕ → ℤ → List (Req × ℤ) → List OutputBatch
  | _, _, [] => []
  | req_index, start, (req, req_count) :: rest =>
    split_for output_batch total_items req_index req start (start + req_count) ::
      split_from output_batch total_items (req_index + 1) (start + req_count) rest

/-- `_split_batched_output`; the counts of the requests cannot be added when one of them is
missing. -/
def split_batched_output (output_batch : OutputBatch) (reqs : List Req) :
    Except String (Option (List OutputBatch)) :=
  match reqs.mapM Req.num_outputs_per_prompt with
  | none => .error "unsupported operand type(s) for +: 'int' and 'NoneType'"
  | some per_req_counts =>
    let total_items := per_req_counts.sum
    let output_items := count_first_dim output_batch.output
    let output_path_items := count_first_dim output_batch.output_file_paths
    if output_items = none ∧ output_path_items = none then .ok none
    else if ∃ n ∈ output_items, n ≠ total_items then .ok none
    else if ∃ n ∈ output_path_items, n ≠ total_items then .ok none
    else .ok (some (split_from output_batch total_items 0 0 (reqs.zip per_req_counts)))

/-! ## The worker -/

/-- What a call of the worker gets: requests, or one request that stands for several. -/
inductive Batch
  | reqs (rs : List Req)
  | merged (merged_req : Req) (rs : List Req)
  deriving DecidableEq, Repr

/-- What a worker returns: an output batch, or a list of them. -/
inductive Result
  | batch (o : OutputBatch)
  | list (os : List OutputBatch)
  deriving DecidableEq

/-- What the event loop gets: an output batch, a list, or an iterator over the outputs of requests
that run one after the other. -/
inductive Returned
  | batch (o : OutputBatch)
  | list (rs : List Returned)
  | sequential (reqs : List Req)

def Result.returned : Result → Returned
  | .batch o => .batch o
  | .list os => .list (os.map .batch)

/-- What a worker and its pipeline do in one iteration of the event loop.

`prepare i` is raised before the forward function of request `i` of a sequential batch is called,
`finish i` is what happens to its output afterwards. `results` are the outputs that the pipeline
yields for a sequential batch; then it stops or raises. -/
structure Worker where
  is_sleeping : Bool
  accepts_seed : Req → Bool
  handler : String → Option (Except String Result)
  execute_forward : ℕ → Batch → Except String Result
  prepare : ℕ → Option String
  results : List OutputBatch
  results_end : Option String
  merge_expanded_output_batches : List OutputBatch → Except String OutputBatch
  finish : ℕ → OutputBatch → Except String OutputBatch
  close : Option String

section worker

variable (c : ServerArgs) (w : Worker)

/-- The outputs that `execute_forward_sequentially` takes from the pipeline for a request. -/
def sequential_count (req : Req) : ℕ :=
  if c.pipeline_config.supports_sequential_multi_output_inference then req.output_count.toNat else 1

/-- `_collect_sequential_outputs` on what the pipeline still yields, with what is left of it. -/
def collect_sequential_outputs (results : List OutputBatch) (output_count : ℕ) :
    Except String (OutputBatch × List OutputBatch) :=
  if results.length < output_count then
    .error (w.results_end.getD "Grouped pipeline returned fewer outputs than requests.")
  else if output_count = 1 then
    match results with
    | [] => .error (w.results_end.getD "Grouped pipeline returned fewer outputs than requests.")
    | o :: rest => .ok (o, rest)
  else
    (w.merge_expanded_output_batches (results.take output_count)).map fun o =>
      (o, results.drop output_count)

def grouped_error (req : Req) (e : String) : String :=
  "Error executing grouped request " ++ req.request_id ++ ": " ++ e

/-- The end of `_execute_forward_common`: an exception becomes the error of the batch. -/
def finished (i : ℕ) (req : Req) (o : OutputBatch) : OutputBatch :=
  match w.finish i o with
  | .ok o' => o'
  | .error e => { o with error := some (grouped_error req e) }

/-- `execute_forward_sequentially`, from request `i` on: what it yields, and what it raises then. An
exception of the forward function ends it, any other becomes an output. -/
def execute_forward_sequentially : ℕ → List OutputBatch → List Req →
    List OutputBatch × Option String
  | _, _, [] => ([], none)
  | i, results, req :: batch =>
    match w.prepare i with
    | some e =>
      -- the forward function was not called, so the pipeline did not advance
      let r := execute_forward_sequentially (i + 1) results batch
      (.failed (grouped_error req e) :: r.1, r.2)
    | none =>
      match collect_sequential_outputs w results (sequential_count c req) with
      | .error e => ([], some e)
      | .ok (o, results) =>
        let r := execute_forward_sequentially (i + 1) results batch
        (finished w i req o :: r.1, r.2)

/-! ## Dispatch -/

/-- The request that `_try_merge_generation_reqs` makes. -/
def merged_req (base_req : Req) : Req :=
  { base_req with request_id := "dynamic_batch::" ++ base_req.request_id }

/-- `_try_merge_generation_reqs`; the output paths cannot be listed when a count is missing. -/
def try_merge_generation_reqs (reqs : List Req) : Except String (Option Batch) :=
  match reqs with
  | [] => .ok none
  | [req] => .ok (some (.reqs [req]))
  | base_req :: rest =>
    if !rest.all fun req => can_dynamic_batch c base_req req then .ok none
    else if !reqs.all w.accepts_seed then .ok none
    else if base_req.return_file_paths_only &&
        reqs.any fun req => req.num_outputs_per_prompt.isNone then
      .error "'NoneType' object cannot be interpreted as an integer"
    else .ok (some (.merged (merged_req base_req) reqs))

def build_dynamic_batch_error_outputs (reqs : List Req) (error_msg : String) : List OutputBatch :=
  reqs.map fun _ => .failed error_msg

/-- A batch in one call of the worker, whose output is split. A list has no `error`. -/
def execute_and_split (batch : Batch) (reqs : List Req) (failure no_split : String) : Returned :=
  let errors := build_dynamic_batch_error_outputs reqs
  let outputs :=
    match w.execute_forward 0 batch with
    | .error e => errors (failure ++ e)
    | .ok (.list _) => errors (failure ++ "'list' object has no attribute 'error'")
    | .ok (.batch output_batch) =>
      if ∃ e ∈ output_batch.error, e ≠ "" then errors (output_batch.error.getD "")
      else
        match split_batched_output output_batch reqs with
        | .error e => errors (failure ++ e)
        | .ok none => errors no_split
        | .ok (some split_outputs) => split_outputs
  .list (outputs.map .batch)

def execute_generation_grouped (reqs : List Req) : Returned :=
  if c.pipeline_config.supports_sequential_dit_inference then .sequential reqs
  else
    execute_and_split w (.reqs reqs) reqs "Native grouped execution failed: "
      "Native grouped execution failed: could not split output."

/-- `_execute_generation_sequential`, from call `i` of the worker on. -/
def execute_generation_sequential : ℕ → List Req → Except String (List Result)
  | _, [] => .ok []
  | i, req :: reqs =>
    match w.execute_forward i (.reqs [req]) with
    | .error e => .error e
    | .ok r => (execute_generation_sequential (i + 1) reqs).map fun rs => r :: rs

def handle_generation (reqs : List Req) (allow_dynamic_batching : Bool) : Except String Returned :=
  if w.is_sleeping then .error "Server is sleeping. Call resume_memory_occupation first."
  else
    match reqs with
    | [] => .error "list index out of range"
    | req :: rest =>
      if rest.isEmpty && c.pipeline_config.supports_sequential_multi_output_inference &&
          decide (1 < req.output_count) then .ok (.sequential reqs)
      else if rest.isEmpty || !allow_dynamic_batching then
        (w.execute_forward 0 (.reqs reqs)).map Result.returned
      else if c.pipeline_config.supports_native_grouped_requests then
        .ok (execute_generation_grouped c w reqs)
      else
        match try_merge_generation_reqs c w reqs with
        | .error e => .error e
        | .ok none =>
          (execute_generation_sequential w 0 reqs).map fun rs => .list (rs.map Result.returned)
        | .ok (some batch) =>
          .ok (execute_and_split w batch reqs "Dynamic batching failed: "
            "Dynamic batching failed: could not split merged output.")

def dispatch_single_request : Item → Except String Returned
  | .group reqs => handle_generation c w reqs false
  | .req req => handle_generation c w [req] true
  | .control tag =>
    match w.handler tag with
    | none => .ok (.batch (.failed ("Unknown request type: " ++ tag)))
    | some r => r.map Result.returned

def Item.plain : Item → Option Req
  | .req r => some r
  | _ => none

def dispatch_items (items : List (Option String × Item)) : Except String Returned :=
  match items.map Prod.snd with
  | [] => .error "list index out of range"
  | [req] => dispatch_single_request c w req
  | reqs =>
    match reqs.mapM Item.plain with
    | some rs => handle_generation c w rs true
    | none => (reqs.mapM (dispatch_single_request c w)).map .list

end worker

/-! ## Replies -/

/-- A call of `_return_item_result`. -/
structure Reply where
  item : Option String × Item
  output : Returned

/-- What a rank has: the socket of the clients, and metrics. -/
structure Host where
  has_receiver : Bool
  has_metrics : Bool

section replies

variable (c : ServerArgs) (h : Host) (w : Worker)

/-- Whether `_return_item_result` reads an attribute of the output. -/
def reads_output (item : Option String × Item) : Bool :=
  let req := get_first_generation_req item.2
  h.has_metrics || req.any Req.is_warmup || req.any Req.server_internal_prewarm ||
    (h.has_receiver && item.1.isSome)

/-- Whether `_return_item_result` comes back: only an output batch has the attributes. -/
def return_item_result (item : Option String × Item) : Returned → Bool
  | .batch _ => true
  | _ => !reads_output h item

/-- The loop over the results, with whether it comes to its end. -/
def return_results : List ((Option String × Item) × Returned) → List Reply × Bool
  | [] => ([], true)
  | (item, output) :: rest =>
    if return_item_result h item output then
      let r := return_results rest
      (⟨item, output⟩ :: r.1, r.2)
    else ([⟨item, output⟩], false)

/-- The error of `_fetch_next_output` when there is no output. -/
def fetch_error : Option String → String
  | none => "Grouped execution returned fewer outputs than requests while processing sequentially."
  | some e => "Failed to execute grouped requests sequentially: " ++ e

/-- `_return_results_sequentially` on what an iterator yields and raises then. -/
def return_results_sequentially (raised : Option String) :
    List (Option String × Item) → List OutputBatch → List Reply
  | [], _ => []
  | item :: items, o :: outputs =>
    ⟨item, .batch o⟩ :: return_results_sequentially raised items outputs
  | item :: items, [] =>
    (item :: items).map fun i => ⟨i, .batch (.failed (fetch_error raised))⟩

/-- The error for results that do not match the items. -/
def mismatch_error (expected got : ℕ) : String :=
  "Internal scheduler error: expected " ++ toString expected ++ " outputs, got " ++ toString got ++
    "."

/-- The results of a handler that came at once. -/
def return_list (items : List (Option String × Item)) (output_batches : List Returned) :
    List Reply × Bool :=
  if output_batches.length = items.length then return_results h (items.zip output_batches)
  else
    return_results h (items.map fun i =>
      (i, .batch (.failed (mismatch_error items.length output_batches.length))))

/-- The second half of an iteration: the items are executed and answered. The flag says whether the
loop goes on. -/
def serve_items (items : List (Option String × Item)) : List Reply × Bool :=
  let handler_result :=
    match dispatch_items c w items with
    | .ok r => r
    | .error e => .batch (.failed e)
  match handler_result with
  | .sequential reqs =>
    let outputs := execute_forward_sequentially c w 0 w.results reqs
    (return_results_sequentially outputs.2 items outputs.1, w.close.isNone)
  | .list output_batches => return_list h items output_batches
  | .batch o => return_list h items [.batch o]

end replies

/-! ## The event loop -/

/-- What a client sends. -/
inductive Payload
  | one (req : Item)
  | many (reqs : List Item)
  deriving DecidableEq, Repr

def normalize_received_payload (identity : String) : Payload → List (Option String × Item)
  | .one req => [(some identity, req)]
  | .many reqs =>
    match reqs.mapM Item.plain with
    | some [] => []
    | some [r] => [(some identity, .req r)]
    | some rs => [(some identity, .group rs)]
    | none => reqs.map fun req => (some identity, req)

/-- The items of an iteration, with the worker that ran them and the replies. -/
structure Dispatch where
  worker : Worker
  items : List (Option String × Item)
  replies : List Reply

/-- The state of `event_loop`, with all items that joined the queue and what was dispatched. -/
structure EventLoop where
  rank : Rank
  running : Bool
  consecutive_error_count : ℕ
  joined : List (Option String × Item)
  trace : List Dispatch

def EventLoop.init : EventLoop where
  rank := ⟨[], false⟩
  running := true
  consecutive_error_count := 0
  joined := []
  trace := []

/-- What an iteration meets: the clock, what is received (or the exception), and the worker. -/
structure Round where
  clock : Clock
  recv_reqs : Except String (List (String × Payload))
  worker : Worker

def max_consecutive_errors : ℕ := 3

/-- Whether a request to stop is among the items. -/
def shuts_down (items : List (Option String × Item)) : Bool :=
  items.any fun i => decide (i.2 = .control "ShutdownReq")

/-- An iteration of `event_loop`. -/
def event_loop_step (c : ServerArgs) (h : Host) (round : Round) (s : EventLoop) : EventLoop :=
  match round.recv_reqs with
  | .error _ =>
    let count := s.consecutive_error_count + 1
    { s with consecutive_error_count := count, running := decide (count < max_consecutive_errors) }
  | .ok messages =>
    let new_reqs := messages.flatMap fun m => normalize_received_payload m.1 m.2
    let joined := s.joined ++
      (process_received_reqs c s.rank.req_based_warmup_scheduled new_reqs).2
    let r := iteration c round.clock new_reqs s.rank
    let s := { s with rank := r.2, consecutive_error_count := 0, joined := joined }
    match r.1 with
    | none => s
    | some [] => s
    | some items =>
      let replies := serve_items c h round.worker items
      { s with
        running := replies.2 && !shuts_down items
        trace := s.trace ++ [⟨round.worker, items, replies.1⟩] }

/-- The items that an iteration dispatches. -/
def next_items (c : ServerArgs) (round : Round) (s : EventLoop) : List (Option String × Item) :=
  match round.recv_reqs with
  | .error _ => []
  | .ok messages =>
    let new_reqs := messages.flatMap fun m => normalize_received_payload m.1 m.2
    (iteration c round.clock new_reqs s.rank).1.getD []

/-- The runs of the event loop in which the worker meets a condition in every iteration. -/
inductive LoopRun (c : ServerArgs) (h : Host)
    (P : List (Option String × Item) → Worker → Prop) : EventLoop → Prop
  | init : LoopRun c h P EventLoop.init
  | step {s : EventLoop} {round : Round} (hs : LoopRun c h P s) (hrunning : s.running = true)
      (hP : P (next_items c round s) round.worker) : LoopRun c h P (event_loop_step c h round s)

end LightningH3.Scheduler
