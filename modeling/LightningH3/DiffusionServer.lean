/-
The central router of the disaggregated pipelines
(`multimodal_gen/runtime/disaggregation/orchestrator.py`): its state, and what is common to the
staged mode and the GLM distributed mode.

Objects that the source shares between several containers (the transfer state of a request, a GLM
request) are kept under a number, and the containers hold the number. The lists of free slots, of
peers and of endpoints that the source keeps once for each role are functions of the role. What the
server does to the outside stands in `trace`: the requests it accepts, the messages it sends, the
instances it dispatches a request to and the replies. A handler that raises ends the event loop;
such a handler returns `none`. Sending to a client does not raise. Tensors, serialised
requests and manifests are opaque, and metrics are left out.
-/
import LightningH3.RequestTracker

set_option autoImplicit false

namespace LightningH3.DiffusionServer

/-! ## Data -/

/-- `_EncoderTTAEntry` -/
structure EncoderTTAEntry where
  request_id : RequestId
  client_identity : String
  payload : String

/-- `_TransferRequestState`. A sender that is not known is `none`; a receiver starts as `-1`. -/
structure TransferRequestState where
  sender_session_id : String
  sender_pool_ptr : ℕ
  sender_slot_offset : ℕ
  data_size : ℕ
  manifest : String
  scalar_fields : String
  receiver_session_id : String
  receiver_pool_ptr : ℕ
  receiver_slot_offset : ℕ
  sender_instance : Option ℕ
  receiver_instance : ℤ
  prealloc_slot_id : Option ℕ
  deriving DecidableEq, Repr

/-- `_RoleTTAEntry`; the transfer state is an object of `Server.transfers`. -/
structure RoleTTAEntry where
  request_id : RequestId
  transfer_state : ℕ

/-- An entry of `preallocated_slots`. -/
structure SlotInfo where
  offset : ℕ
  size : ℕ
  slot_id : Option ℕ
  addr : ℕ
  deriving DecidableEq, Repr

/-- What is registered of an instance. -/
structure PeerInfo where
  session_id : String
  pool_ptr : ℕ
  pool_size : ℕ
  work_endpoint : String
  free_preallocated_slots : List SlotInfo

/-- `_GlmDistributedRequest`, with what is read of its request; `request_id` is the id that the
denoiser sees. -/
structure GlmDistributedRequest where
  client_request_id : RequestId
  request_id : RequestId
  num_outputs_per_prompt : Option ℤ
  height : Option ℤ
  width : Option ℤ
  enqueue_time : ℚ
  worker_idx : Option ℕ

/-- `_GlmDistributedModeState`; the requests are objects of `requests`. -/
structure GlmState where
  denoiser_worker_available : List Bool
  pending_ar_requests : List ℕ
  pending_denoiser_requests : List ℕ
  denoiser_requests : OrderedDict RequestId ℕ
  active_ar_batch : Option (List ℕ)
  requests : ℕ → GlmDistributedRequest
  next_request : ℕ

inductive Message
  | work (request_id : RequestId) (payload : String)
  | alloc (request_id : RequestId) (data_size : ℕ) (source_role : Role)
  | push (request_id : RequestId) (dest_session_id : String) (dest_addr transfer_size : ℕ)
  | ready (request_id : RequestId) (manifest : String) (slot_offset : ℕ) (scalar_fields : String)
      (prealloc_slot_id : Option ℕ)
  | tensors (request_id : RequestId)
  deriving DecidableEq, Repr

/-- What the server does to the outside. -/
inductive Action
  | accept (request_id : RequestId) (client_identity : String) (time : ℚ)
  | ignored (client_identity : String)
  | dispatch (role : Role) (request_id : RequestId) (idx : ℕ)
  | dispatch_ar (request_ids : List RequestId)
  | send (role : Role) (idx : ℕ) (message : Message)
  | reply (client_identity : String) (request_id : RequestId) (error : Option String)
  deriving DecidableEq, Repr

/-- The arguments of the server. -/
structure Config where
  endpoints : Role → List String
  capacity : Role → ℕ
  policy : Policy
  timeout_s : ℚ
  timeout_text : String
  glm_distributed_mode_enabled : Bool
  batching_mode_dynamic : Bool
  batching_max_size : ℤ
  batching_delay_s : ℚ

/-- `DiffusionServer` -/
structure Server where
  tracker : Tracker
  pending : OrderedDict RequestId String
  dispatcher : Role → Policy
  free_slots : Role → List ℤ
  encoder_tta : List EncoderTTAEntry
  denoiser_tta : List RoleTTAEntry
  decoder_tta : List RoleTTAEntry
  transfers : ℕ → TransferRequestState
  next_transfer : ℕ
  transfer_state : OrderedDict RequestId ℕ
  peers : Role → OrderedDict ℕ PeerInfo
  glm : Option GlmState
  trace : List Action

/-- A transfer state before it is filled. -/
def blank_transfer : TransferRequestState :=
  ⟨"", 0, 0, 0, "", "", "", 0, 0, none, -1, none⟩

/-- A GLM request before it is filled. -/
def blank_request : GlmDistributedRequest :=
  ⟨.client "", .client "", none, none, none, 0, none⟩

/-- `__init__` -/
def Server.init (c : Config) : Server where
  tracker := OrderedDict.empty
  pending := OrderedDict.empty
  dispatcher := fun _ => c.policy
  free_slots := fun role => (c.endpoints role).map fun _ => (c.capacity role : ℤ)
  encoder_tta := []
  denoiser_tta := []
  decoder_tta := []
  transfers := fun _ => blank_transfer
  next_transfer := 0
  transfer_state := OrderedDict.empty
  peers := fun _ => OrderedDict.empty
  glm :=
    if c.glm_distributed_mode_enabled then
      some
        { denoiser_worker_available := (c.endpoints .denoiser).map fun _ => false
          pending_ar_requests := []
          pending_denoiser_requests := []
          denoiser_requests := OrderedDict.empty
          active_ar_batch := none
          requests := fun _ => blank_request
          next_request := 0 }
    else none
  trace := []

/-! ## The parts of a handler -/

namespace Config

/-- A socket of a role under an index that may be missing. -/
def socket (c : Config) (role : Role) (idx : Option ℕ) : Option ℕ :=
  idx.filter fun i => decide (i < (c.endpoints role).length)

/-- A socket of a role under an index of the source's, `-1` being the last one. -/
def socket_at (c : Config) (role : Role) (idx : ℤ) : Option ℕ :=
  let n : ℤ := (c.endpoints role).length
  if 0 ≤ idx ∧ idx < n then some idx.toNat
  else if -n ≤ idx ∧ idx < 0 then some (n + idx).toNat
  else none

/-- `_encoder_endpoint_to_idx` and its siblings: of two equal endpoints the last one counts. -/
def endpoint_to_idx (c : Config) (role : Role) (work_endpoint : String) : Option ℕ :=
  ((c.endpoints role).zipIdx.reverse.find? fun p => p.1 == work_endpoint).map Prod.snd

end Config

namespace Server

/-- The server does something to the outside. -/
def act (s : Server) (a : Action) : Server := { s with trace := s.trace ++ [a] }

/-- A transition of the tracker whose refusal is swallowed. -/
def transition (s : Server) (request_id : RequestId) (new_state : RequestState)
    (error : Option String) (at_instance : Option (Role × ℕ)) : Server :=
  { s with tracker := s.tracker.move request_id new_state error at_instance }

def remove (s : Server) (request_id : RequestId) : Server :=
  { s with tracker := s.tracker.erase request_id }

/-- The instance of a role that the record of a request names. -/
def instance_of (s : Server) (role : Role) (request_id : RequestId) : Option ℕ :=
  (s.tracker.get? request_id).bind fun record => record.instance_at role

/-- A number added to the counter of an instance. Instances come from the dispatcher, so they have
a counter. -/
def add_slots (s : Server) (role : Role) (idx : ℕ) (n : ℤ) : Server :=
  { s with
    free_slots :=
      Function.update s.free_slots role ((s.free_slots role).modify idx fun free => free + n) }

/-- A slot given back, when the instance is known. -/
def free_slot (s : Server) (role : Role) (idx : Option ℕ) : Server :=
  match idx with
  | none => s
  | some i => s.add_slots role i 1

/-- The reply to the client that waits for a request, if one does. -/
def answer (s : Server) (request_id : RequestId) (error : Option String) : Server :=
  match s.pending.get? request_id with
  | none => s
  | some client_identity =>
    { s with pending := s.pending.erase request_id }.act (.reply client_identity request_id error)

/-- `_transfer_state.pop` -/
def forget_transfer (s : Server) (request_id : RequestId) : Server :=
  { s with transfer_state := s.transfer_state.erase request_id }

/-- The waiting queues without some requests. -/
def leave_queues (s : Server) (request_ids : List RequestId) : Server :=
  { s with
    encoder_tta := s.encoder_tta.filter fun e => decide (e.request_id ∉ request_ids)
    denoiser_tta := s.denoiser_tta.filter fun e => decide (e.request_id ∉ request_ids)
    decoder_tta := s.decoder_tta.filter fun e => decide (e.request_id ∉ request_ids) }

def complete_with_error (s : Server) (request_id : RequestId) (error_msg : String) : Server :=
  ((s.transition request_id .failed (some error_msg) none).answer request_id
    (some error_msg)).remove request_id

end Server

/-- A string that Python takes for true. -/
def truthy (error : Option String) : Option String := error.filter fun e => e != ""

/-- How a request id is printed. -/
instance : ToString RequestId where
  toString
    | .client id => id
    | .ds time => "ds-" ++ toString time
    | .glm_distributed group request =>
      "glm-distributed::" ++ toString group ++ "::request::" ++ toString request

/-! ## Client requests -/

/-- What the server reads of a client's request. -/
structure ClientReq where
  request_id : Option String
  prompt_is_str : Bool
  has_image_path : Bool
  num_outputs_per_prompt : Option ℤ
  height : Option ℤ
  width : Option ℤ

/-- What arrives on the frontend: frames that are too few or cannot be read, something without a
request id, or a request. -/
inductive ClientFrames
  | malformed
  | other (client_identity : String)
  | request (client_identity : String) (payload : String) (req : ClientReq)

/-- The id of a request, made from the clock when the client gives none. -/
def ClientReq.id (req : ClientReq) (now : ℚ) : RequestId :=
  match req.request_id with
  | some id => .client id
  | none => .ds now

/-- The queue that an accepted request joins. -/
def Server.enqueue (s : Server) (request_id : RequestId) (client_identity payload : String)
    (req : ClientReq) (now : ℚ) : Server :=
  match s.glm with
  | some state =>
    if !req.prompt_is_str || req.has_image_path then
      s.complete_with_error request_id
        "GLM distributed mode supports one text prompt without image input"
    else
      { s with
        glm := some
          { state with
            requests := Function.update state.requests state.next_request
              ⟨request_id, request_id, req.num_outputs_per_prompt, req.height, req.width, now,
                none⟩
            next_request := state.next_request + 1
            pending_ar_requests := state.pending_ar_requests ++ [state.next_request] } }
  | none => { s with encoder_tta := s.encoder_tta ++ [⟨request_id, client_identity, payload⟩] }

def handle_client_request (now : ℚ) (frames : ClientFrames) (s : Server) : Server :=
  match frames with
  | .malformed => s
  | .other client_identity => s.act (.ignored client_identity)
  | .request client_identity payload req =>
    let request_id := req.id now
    match s.tracker.submit request_id now with
    | none => s
    | some tracker =>
      let s :=
        { s with tracker := tracker, pending := s.pending.set request_id client_identity }.act
          (.accept request_id client_identity now)
      let s := s.transition request_id .encoder_waiting none none
      s.enqueue request_id client_identity payload req now

/-! ## Frames that are not transfer messages -/

/-- The fields of such frames that are read. -/
structure ResultFrames where
  request_id : Option RequestId
  disagg_error : Option String
  error : Option String
  output_size : Option ℕ

def handle_role_error_frames (role : Role) (frames : ResultFrames) (s : Server) : Server :=
  match frames.request_id.filter fun id => id ≠ .client "", truthy frames.disagg_error with
  | some request_id, some disagg_error =>
    s.complete_with_error request_id (role.value ++ " error: " ++ disagg_error)
  | _, _ => s

/-- The last transition of a request with a result: failed with an error, or done. -/
def Server.settle (s : Server) (request_id : RequestId) (error : Option String) : Server :=
  match truthy error with
  | some error => s.transition request_id .failed (some error) none
  | none => s.transition request_id .done none none

def handle_decoder_result_frames (frames : ResultFrames) (s : Server) : Server :=
  match frames.request_id with
  | none => s
  | some request_id =>
    let s := s.free_slot .decoder (s.instance_of .decoder request_id)
    let s := s.settle request_id frames.error
    if s.pending.get? request_id = none then s.remove request_id
    else ((s.answer request_id frames.error).forget_transfer request_id).remove request_id

/-! ## Timeouts -/

/-- The role whose slot `_free_slot_for_record` gives back. -/
def timeout_role : RequestState → Option Role
  | .encoder_running => some .encoder
  | .encoder_done => some .encoder
  | .denoising_running => some .denoiser
  | .denoising_done => some .denoiser
  | .decoder_running => some .decoder
  | _ => none

def free_slot_for_record (record : RequestRecord) (s : Server) : Server :=
  match timeout_role record.state with
  | none => s
  | some role => s.free_slot role (record.instance_at role)

/-- One timed-out request. -/
def time_out (c : Config) (s : Server) (request_id : RequestId) : Server :=
  let s :=
    match s.tracker.get? request_id with
    | none => s
    | some record => free_slot_for_record record s
  s.complete_with_error request_id
    ("DiffusionServer timeout: request " ++ toString request_id ++ " not completed within " ++
      c.timeout_text ++ "s")

/-- The requests to a denoiser that timed out: each is dropped, and its worker has one free slot. -/
def drop_denoiser_requests (timed_out : List RequestId) :
    List (RequestId × ℕ) → GlmState → List ℤ → GlmState × List ℤ
  | [], state, slots => (state, slots)
  | (denoiser_request_id, r) :: rest, state, slots =>
    let request := state.requests r
    if request.client_request_id ∈ timed_out then
      let state :=
        { state with denoiser_requests := state.denoiser_requests.erase denoiser_request_id }
      match request.worker_idx with
      | none => drop_denoiser_requests timed_out rest state slots
      | some w => drop_denoiser_requests timed_out rest state (slots.set w 1)
    else drop_denoiser_requests timed_out rest state slots

/-- The timed-out requests leave the queues of the GLM mode. -/
def clear_glm (timed_out : List RequestId) (s : Server) : Server :=
  match s.glm with
  | none => s
  | some state =>
    let keep := fun r => decide ((state.requests r).client_request_id ∉ timed_out)
    let state :=
      { state with
        pending_ar_requests := state.pending_ar_requests.filter keep
        pending_denoiser_requests := state.pending_denoiser_requests.filter keep }
    let (state, slots) :=
      drop_denoiser_requests timed_out state.denoiser_requests.items state
        (s.free_slots .denoiser)
    { s with glm := some state, free_slots := Function.update s.free_slots .denoiser slots }

/-- `_handle_timeouts`. The source skips the queues when no request timed out, and then there is
nothing to take out of them. -/
def handle_timeouts (c : Config) (now : ℚ) (s : Server) : Server :=
  let timed_out := s.tracker.find_timed_out c.timeout_s now
  clear_glm timed_out ((timed_out.foldl (time_out c) s).leave_queues timed_out)

end LightningH3.DiffusionServer
