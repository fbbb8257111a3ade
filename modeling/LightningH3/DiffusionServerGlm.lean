/-
The GLM distributed mode of the disaggregation server, and the handlers of its event loop
(`multimodal_gen/runtime/disaggregation/orchestrator.py`).

An external server generates the prior tokens of a batch of requests; each request then goes to a
denoiser, which takes one request at a time and returns the decoded output. A request that was
assigned to a denoiser that disconnects is requeued.
-/
import LightningH3.DiffusionServerTransfer

set_option autoImplicit false

namespace LightningH3.DiffusionServer

/-- `max(1, int(req.num_outputs_per_prompt or 1))` -/
def GlmDistributedRequest.output_count (request : GlmDistributedRequest) : ℤ :=
  match request.num_outputs_per_prompt with
  | none => 1
  | some n => if n = 0 then 1 else max 1 n

namespace GlmState

/-- A request written. -/
def write (state : GlmState) (r : ℕ) (request : GlmDistributedRequest) : GlmState :=
  { state with requests := Function.update state.requests r request }

/-- The requests assigned to a worker, in the order of `denoiser_requests`. -/
def assigned (state : GlmState) (worker_idx : ℕ) : List ℕ :=
  state.denoiser_requests.values.filter fun r =>
    decide ((state.requests r).worker_idx = some worker_idx)

end GlmState

/-- The state of the GLM mode replaced. -/
def Server.set_glm (s : Server) (state : GlmState) : Server := { s with glm := some state }

/-! ## The AR batch -/

def batch_max_size (c : Config) : ℤ :=
  if c.batching_mode_dynamic then max 1 c.batching_max_size else 1

/-- The scan for compatible requests: the indices taken and the output slots used. -/
def gather_ar (batch_max_size : ℤ) (requests : ℕ → GlmDistributedRequest)
    (base : GlmDistributedRequest) : ℕ → List ℕ → List ℕ × ℤ → List ℕ × ℤ
  | _, [], acc => acc
  | index, r :: rest, (indices, output_slots) =>
    let candidate := requests r
    if batch_max_size ≤ output_slots then (indices, output_slots)
    else if base.height = candidate.height ∧ base.width = candidate.width ∧
        output_slots + candidate.output_count ≤ batch_max_size then
      gather_ar batch_max_size requests base (index + 1) rest
        (indices ++ [index], output_slots + candidate.output_count)
    else gather_ar batch_max_size requests base (index + 1) rest (indices, output_slots)

/-- The entries of a queue at some indices, and those at the others. -/
def pick (indices : List ℕ) (queue : List ℕ) : List ℕ × List ℕ :=
  let marked := queue.zipIdx.partition fun p => indices.contains p.2
  (marked.1.map Prod.fst, marked.2.map Prod.fst)

/-- The requests of a batch run. -/
def start_ar (s : Server) (request_id : RequestId) : Server :=
  s.transition request_id .encoder_running none none

def dispatch_glm_ar_batch_if_ready (c : Config) (now : ℚ) (s : Server) : Server :=
  match s.glm with
  | none => s
  | some state =>
    match state.active_ar_batch, state.pending_ar_requests with
    | some _, _ => s
    | none, [] => s
    | none, r :: rest =>
      let base := state.requests r
      let (indices, output_slots) :=
        gather_ar (batch_max_size c) state.requests base 1 rest ([0], base.output_count)
      let waited := now - base.enqueue_time
      if output_slots < batch_max_size c ∧ waited < c.batching_delay_s then s
      else
        let (requests, left) := pick indices (r :: rest)
        let ids := requests.map fun r => (state.requests r).client_request_id
        let s := ids.foldl start_ar s
        (s.set_glm { state with pending_ar_requests := left, active_ar_batch := some requests }).act
          (.dispatch_ar ids)

/-- Two transitions in one `try`: the second one only follows the first one. -/
def Server.transition_both (s : Server) (request_id : RequestId) (first second : RequestState)
    (error : Option String) : Server :=
  match s.tracker.transition request_id first none none with
  | none => s
  | some tracker => { s with tracker := tracker }.transition request_id second error none

/-- One request of a completed batch. -/
def finish_ar (group : ℕ) (s : Server) (entry : ℕ × ℕ) : Server :=
  match s.glm with
  | none => s
  | some state =>
    let (r, request_index) := entry
    let request := state.requests r
    if s.tracker.get? request.client_request_id = none then s
    else
      let s := s.transition_both request.client_request_id .encoder_done .denoising_waiting none
      let request_id := RequestId.glm_distributed group request_index
      let state := state.write r { request with request_id := request_id }
      s.set_glm
        { state with
          denoiser_requests := state.denoiser_requests.set request_id r
          pending_denoiser_requests := state.pending_denoiser_requests ++ [r] }

/-- One request of a batch that failed. -/
def fail_ar (error : String) (s : Server) (request_id : RequestId) : Server :=
  s.complete_with_error request_id ("GLM AR error: " ++ error)

/-- `_process_glm_ar_batch_result_if_ready` of a batch that is done, with the error that the future
raises and the reading of the clock. -/
def process_glm_ar_batch_result (error : Option String) (group : ℕ) (s : Server) : Server :=
  match s.glm with
  | none => s
  | some state =>
    match state.active_ar_batch with
    | none => s
    | some requests =>
      let s := s.set_glm { state with active_ar_batch := none }
      match error with
      | some error =>
        (requests.map fun r => (state.requests r).client_request_id).foldl (fail_ar error) s
      | none => requests.zipIdx.foldl (finish_ar group) s

/-! ## The denoisers -/

/-- One round of `_dispatch_glm_denoiser_requests_if_ready`. -/
def dispatch_glm_denoiser_step (s : Server) : Option (Bool × Server) :=
  match s.glm with
  | none => some (false, s)
  | some state =>
    match state.pending_denoiser_requests with
    | [] => some (false, s)
    | r :: rest =>
      let available_slots := (s.free_slots .denoiser).zipWith
        (fun slots available => if available then slots else 0) state.denoiser_worker_available
      match (s.dispatcher .denoiser).select_with_capacity available_slots with
      | none => none
      | some (none, policy) =>
        some (false, s.set_dispatcher .denoiser policy)
      | some (some worker_idx, policy) =>
        let s := s.set_dispatcher .denoiser policy
        let request := state.requests r
        let s := (s.add_slots .denoiser worker_idx (-1)).act
          (.dispatch .denoiser request.client_request_id worker_idx)
        let state :=
          { state with pending_denoiser_requests := rest }.write r
            { request with worker_idx := some worker_idx }
        let s := (s.set_glm state).act
          (.send .denoiser worker_idx (.tensors request.request_id))
        some (true, s.transition request.client_request_id .denoising_running none
          (some (.denoiser, worker_idx)))

def dispatch_glm_denoiser_requests_if_ready (s : Server) : Option Server :=
  match s.glm with
  | none => some s
  | some state => drain dispatch_glm_denoiser_step (state.pending_denoiser_requests.length + 1) s

/-- One request of a worker that disconnected. -/
def replay (s : Server) (r : ℕ) : Server :=
  match s.glm with
  | none => s
  | some state =>
    let request := state.requests r
    (s.set_glm (state.write r { request with worker_idx := none })).transition
      request.client_request_id .denoising_waiting none none

def Server.set_slots (s : Server) (role : Role) (idx : ℕ) (n : ℤ) : Server :=
  { s with free_slots := Function.update s.free_slots role ((s.free_slots role).set idx n) }

/-- A worker that was known is free again. -/
def Server.free_worker (s : Server) (worker_idx : Option ℕ) : Server :=
  match worker_idx with
  | none => s
  | some w => s.set_slots .denoiser w 1

/-- `_handle_glm_denoiser_monitor_event`, a worker disconnected. -/
def handle_glm_denoiser_disconnected (worker_idx : ℕ) (s : Server) : Server :=
  match s.glm with
  | none => s
  | some state =>
    let s := s.set_glm
      { state with
        denoiser_worker_available := state.denoiser_worker_available.set worker_idx false }
    let s := s.set_slots .denoiser worker_idx 0
    let replayed_requests := state.assigned worker_idx
    let s := replayed_requests.foldl replay s
    match s.glm with
    | none => s
    | some state => s.set_glm
        { state with
          pending_denoiser_requests := replayed_requests ++ state.pending_denoiser_requests }

/-- `_handle_glm_denoiser_monitor_event`, a worker connected. -/
def handle_glm_denoiser_connected (worker_idx : ℕ) (s : Server) : Server :=
  match s.glm with
  | none => s
  | some state =>
    let s := s.set_glm
      { state with
        denoiser_worker_available := state.denoiser_worker_available.set worker_idx true }
    if state.assigned worker_idx = [] then s.set_slots .denoiser worker_idx 1 else s

/-- The error of a result: the output must have one entry for each output that is asked for. -/
def result_error (request : GlmDistributedRequest) (frames : ResultFrames) : Option String :=
  match frames.output_size with
  | none => frames.error
  | some output_size =>
    if (output_size : ℤ) ≠ request.output_count then
      some ("GLM distributed output size mismatch: got " ++ toString output_size ++
        ", expected " ++ toString request.output_count)
    else frames.error

def handle_glm_denoiser_result_frames (frames : ResultFrames) (s : Server) : Server :=
  match s.glm, frames.request_id with
  | some state, some denoiser_request_id =>
    match state.denoiser_requests.get? denoiser_request_id with
    | none => s
    | some r =>
      let request := state.requests r
      let s := s.set_glm
        { state with
          denoiser_requests := state.denoiser_requests.erase denoiser_request_id }
      let s := s.free_worker request.worker_idx
      let error := result_error request frames
      let s := s.answer request.client_request_id error
      let final := if (truthy error).isSome then RequestState.failed else RequestState.done
      let s := s.transition_both request.client_request_id .denoising_done final error
      s.remove request.client_request_id
  | _, _ => s

/-! ## The event loop -/

/-- The calls of the event loop. -/
inductive Event
  | client_request (frames : ClientFrames)
  | transfer (role : Role) (msg : TransferMsg)
  | frames (role : Role) (frames : ResultFrames)
  | timeouts
  | drain
  | connected (worker_idx : ℕ)
  | disconnected (worker_idx : ℕ)
  | ar_done (error : Option String) (group : ℕ)
  | ar_dispatch
  | denoiser_dispatch

/-- Frames that are not a transfer message, by `_handle_role_result`. -/
def handle_frames (role : Role) (frames : ResultFrames) (s : Server) : Server :=
  match role, s.glm with
  | .denoiser, some _ => handle_glm_denoiser_result_frames frames s
  | .decoder, _ => handle_decoder_result_frames frames s
  | role, _ => handle_role_error_frames role frames s

/-- One call of the event loop at a time; a call that raises ends the loop. -/
def handle (c : Config) (now : ℚ) (e : Event) (s : Server) : Option Server :=
  match e with
  | .client_request frames => some (handle_client_request now frames s)
  | .transfer role msg => handle_transfer_result c role msg s
  | .frames role frames => some (handle_frames role frames s)
  | .timeouts => some (handle_timeouts c now s)
  | .drain => if s.glm.isNone then drain_all_queues c s else some s
  | .connected worker_idx => some (handle_glm_denoiser_connected worker_idx s)
  | .disconnected worker_idx => some (handle_glm_denoiser_disconnected worker_idx s)
  | .ar_done error group => some (process_glm_ar_batch_result error group s)
  | .ar_dispatch => some (dispatch_glm_ar_batch_if_ready c now s)
  | .denoiser_dispatch => dispatch_glm_denoiser_requests_if_ready s

/-- A run of the server: calls in any order. -/
inductive Reachable (c : Config) : Server → Prop
  | init : Reachable c (Server.init c)
  | step {s s' : Server} {now : ℚ} {e : Event} (hs : Reachable c s)
      (hstep : handle c now e s = some s') : Reachable c s'

/-- A run whose calls all meet a condition. -/
inductive RunOf (c : Config) (P : ℚ → Server → Event → Prop) : Server → Prop
  | init : RunOf c P (Server.init c)
  | step {s s' : Server} {now : ℚ} {e : Event} (hs : RunOf c P s) (he : P now s e)
      (hstep : handle c now e s = some s') : RunOf c P s'

theorem RunOf.reachable {c : Config} {P : ℚ → Server → Event → Prop} {s : Server}
    (h : RunOf c P s) : Reachable c s := by
  induction h with
  | init => exact Reachable.init
  | step _ _ hstep ih => exact ih.step hstep

/-- The calls of a list, one after the other. -/
def serve_all (c : Config) : List (ℚ × Event) → Server → Option Server
  | [], s => some s
  | (now, e) :: calls, s =>
    match handle c now e s with
    | none => none
    | some s' => serve_all c calls s'

theorem RunOf.serve_all {c : Config} {P : ℚ → Server → Event → Prop} (calls : List (ℚ × Event)) :
    ∀ {s s' : Server}, (∀ call ∈ calls, ∀ s, P call.1 s call.2) → RunOf c P s →
      serve_all c calls s = some s' → RunOf c P s' := by
  induction calls with
  | nil =>
    intro s s' _ h hserve
    cases hserve
    exact h
  | cons call calls ih =>
    intro s s' hP h hserve
    unfold DiffusionServer.serve_all at hserve
    cases hstep : handle c call.1 call.2 s with
    | none =>
      rw [hstep] at hserve
      cases hserve
    | some t =>
      rw [hstep] at hserve
      exact ih (fun call' hmem => hP call' (List.mem_cons_of_mem _ hmem))
        (h.step (hP call List.mem_cons_self s) hstep) hserve

end LightningH3.DiffusionServer
