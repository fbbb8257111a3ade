/-
The staged mode of the disaggregation server: the transfer messages and the queues
(`multimodal_gen/runtime/disaggregation/orchestrator.py`).

A request goes from an encoder to a denoiser and on to a decoder. Both hops use the one transfer
state of the request, and the two dispatch functions of the source differ only in the role
(`transfer_dispatch`), and so do the two loops over their queues (`drain_step`).
-/
import LightningH3.DiffusionServer

set_option autoImplicit false

namespace LightningH3.DiffusionServer

/-! ## Messages -/

/-- `TransferRegisterMsg`; a role that is not one of the pool is `none`. -/
structure RegisterMsg where
  role : Option Role
  session_id : String
  pool_ptr : ℕ
  pool_size : ℕ
  work_endpoint : String
  preallocated_slots : List SlotInfo

/-- `TransferStagedMsg` -/
structure StagedMsg where
  request_id : RequestId
  data_size : ℕ
  manifest : String
  session_id : String
  pool_ptr : ℕ
  slot_offset : ℕ
  scalar_fields : String

/-- `TransferAllocatedMsg`, what is read of it. -/
structure AllocatedMsg where
  request_id : RequestId
  session_id : String
  pool_ptr : ℕ
  slot_offset : ℕ

/-- `TransferDoneMsg`, with the fields that a denoiser adds. -/
structure DoneMsg extends StagedMsg where
  error : Option String
  staged_for_decoder : Bool

namespace Role

/-- The role that sends to a role. -/
def sender : Role → Role
  | .encoder => .encoder
  | .denoiser => .encoder
  | .decoder => .denoiser

/-- The state of a request that runs on a role. -/
def running : Role → RequestState
  | .encoder => .encoder_running
  | .denoiser => .denoising_running
  | .decoder => .decoder_running

end Role

namespace Server

/-- The transfer object of a request. -/
def transfer_of (s : Server) (request_id : RequestId) : Option ℕ := s.transfer_state.get? request_id

/-- An object written. -/
def write (s : Server) (ref : ℕ) (p2p : TransferRequestState) : Server :=
  { s with transfers := Function.update s.transfers ref p2p }

/-- What is known of an instance. -/
def set_peer (s : Server) (role : Role) (idx : ℕ) (info : PeerInfo) : Server :=
  { s with peers := Function.update s.peers role ((s.peers role).set idx info) }

/-- A new object becomes the transfer of a request. -/
def new_transfer (s : Server) (request_id : RequestId) (p2p : TransferRequestState) : Server :=
  { s with
    transfers := Function.update s.transfers s.next_transfer p2p
    next_transfer := s.next_transfer + 1
    transfer_state := s.transfer_state.set request_id s.next_transfer }

/-- The queue of a role that waits for transfers; encoders have another one. -/
def tta (s : Server) : Role → List RoleTTAEntry
  | .encoder => []
  | .denoiser => s.denoiser_tta
  | .decoder => s.decoder_tta

/-- The queue of a role replaced. -/
def set_tta (s : Server) (role : Role) (entries : List RoleTTAEntry) : Server :=
  match role with
  | .encoder => s
  | .denoiser => { s with denoiser_tta := entries }
  | .decoder => { s with decoder_tta := entries }

/-- The queue of the encoders replaced. -/
def set_encoder_tta (s : Server) (entries : List EncoderTTAEntry) : Server :=
  { s with encoder_tta := entries }

/-- A policy replaced. -/
def set_dispatcher (s : Server) (role : Role) (policy : Policy) : Server :=
  { s with dispatcher := Function.update s.dispatcher role policy }

/-- The state of a tracked request. -/
def state_of (s : Server) (request_id : RequestId) : Option RequestState :=
  (s.tracker.get? request_id).map RequestRecord.state

end Server

/-! ## Dispatch -/

def dispatch_to_encoder (request_id : RequestId) (payload : String) (encoder_idx : ℕ) (s : Server) :
    Server :=
  let s := (s.add_slots .encoder encoder_idx (-1)).act (.dispatch .encoder request_id encoder_idx)
  let s := s.transition request_id .encoder_running none (some (.encoder, encoder_idx))
  s.act (.send .encoder encoder_idx (.work request_id payload))

/-- `_try_fast_path_push` to an instance of a role. -/
def try_fast_path_push (c : Config) (request_id : RequestId) (ref : ℕ) (role : Role)
    (receiver_idx : ℕ) (s : Server) : Option (Bool × Server) :=
  match (s.peers role).get? receiver_idx with
  | none => some (false, s)
  | some peer =>
    match peer.free_preallocated_slots with
    | [] => some (false, s)
    | slot_info :: rest =>
      let p2p := s.transfers ref
      if slot_info.size < p2p.data_size then some (false, s)
      else
        let s := s.set_peer role receiver_idx { peer with free_preallocated_slots := rest }
        let s := s.write ref
          { p2p with
            receiver_session_id := peer.session_id
            receiver_pool_ptr := peer.pool_ptr
            receiver_slot_offset := slot_info.offset
            prealloc_slot_id := slot_info.slot_id }
        match c.socket role.sender p2p.sender_instance with
        | none => none
        | some idx =>
          some (true, s.act (.send role.sender idx
            (.push request_id peer.session_id slot_info.addr p2p.data_size)))

def send_slow_path_alloc (request_id : RequestId) (ref : ℕ) (role : Role) (receiver_idx : ℕ)
    (s : Server) : Server :=
  s.act (.send role receiver_idx (.alloc request_id (s.transfers ref).data_size role.sender))

/-- `_transfer_dispatch_to_denoiser` and `_transfer_dispatch_to_decoder`, by the role. -/
def transfer_dispatch (c : Config) (role : Role) (request_id : RequestId) (ref : ℕ) (idx : ℕ)
    (s : Server) : Option Server :=
  let s := (s.add_slots role idx (-1)).act (.dispatch role request_id idx)
  let s := s.write ref { s.transfers ref with receiver_instance := (idx : ℤ) }
  let s := s.transition request_id role.running none (some (role, idx))
  match try_fast_path_push c request_id ref role idx s with
  | none => none
  | some (true, s) => some s
  | some (false, s) => some (send_slow_path_alloc request_id ref role idx s)

/-! ## Queues -/

/-- The choice of an instance with a free slot. -/
def Server.select (s : Server) (role : Role) : Option (Option ℕ × Server) :=
  ((s.dispatcher role).select_with_capacity (s.free_slots role)).map fun r =>
    (r.1, s.set_dispatcher role r.2)

/-- A `while` loop over a queue of at most `n` entries: a step says whether the loop goes on. -/
def drain (step : Server → Option (Bool × Server)) : ℕ → Server → Option Server
  | 0, s => some s
  | n + 1, s =>
    match step s with
    | none => none
    | some (false, s) => some s
    | some (true, s) => drain step n s

/-- One round of `_drain_encoder_tta`. -/
def drain_encoder_step (s : Server) : Option (Bool × Server) :=
  match s.encoder_tta with
  | [] => some (false, s)
  | entry :: rest =>
    match s.select .encoder with
    | none => none
    | some (none, s) => some (false, s)
    | some (some idx, s) =>
      some (true, dispatch_to_encoder entry.request_id entry.payload idx (s.set_encoder_tta rest))

/-- One round of `_drain_denoiser_tta` or `_drain_decoder_tta`. -/
def drain_step (c : Config) (role : Role) (s : Server) : Option (Bool × Server) :=
  match s.tta role with
  | [] => some (false, s)
  | entry :: rest =>
    match s.select role with
    | none => none
    | some (none, s) => some (false, s)
    | some (some idx, s) =>
      (transfer_dispatch c role entry.request_id entry.transfer_state idx
        (s.set_tta role rest)).map fun s => (true, s)

def drain_encoder_tta (s : Server) : Option Server :=
  drain drain_encoder_step (s.encoder_tta.length + 1) s

def drain_denoiser_tta (c : Config) (s : Server) : Option Server :=
  drain (drain_step c .denoiser) (s.denoiser_tta.length + 1) s

def drain_decoder_tta (c : Config) (s : Server) : Option Server :=
  drain (drain_step c .decoder) (s.decoder_tta.length + 1) s

def drain_all_queues (c : Config) (s : Server) : Option Server :=
  ((drain_encoder_tta s).bind (drain_denoiser_tta c)).bind (drain_decoder_tta c)

/-! ## Handlers -/

def handle_transfer_register (c : Config) (msg : RegisterMsg) (s : Server) : Server :=
  match msg.role with
  | none => s
  | some role =>
    match c.endpoint_to_idx role msg.work_endpoint with
    | none => s
    | some idx =>
      let s := s.set_peer role idx
        ⟨msg.session_id, msg.pool_ptr, msg.pool_size, msg.work_endpoint, msg.preallocated_slots⟩
      match role, s.glm with
      | .denoiser, some state =>
        { s with
          glm := some
            { state with
              denoiser_worker_available := state.denoiser_worker_available.set idx true } }
      | _, _ => s

/-- The instance of a role that sends: the one that the record names, or the first one when the
request is not tracked. -/
def Server.sender_instance (s : Server) (role : Role) (request_id : RequestId) : Option ℕ :=
  match s.tracker.get? request_id with
  | some record => record.instance_at role
  | none => some 0

/-- The transfer state of a request that is staged. -/
def staged_transfer (msg : StagedMsg) (encoder_idx : Option ℕ) : TransferRequestState :=
  ⟨msg.session_id, msg.pool_ptr, msg.slot_offset, msg.data_size, msg.manifest, msg.scalar_fields,
    "", 0, 0, encoder_idx, -1, none⟩

def handle_transfer_staged (msg : StagedMsg) (s : Server) : Server :=
  let ref := s.next_transfer
  let s := s.new_transfer msg.request_id
    (staged_transfer msg (s.sender_instance .encoder msg.request_id))
  let s := s.transition msg.request_id .encoder_done none none
  let s := s.transition msg.request_id .denoising_waiting none none
  s.set_tta .denoiser (s.denoiser_tta ++ [⟨msg.request_id, ref⟩])

/-- The role that `_handle_transfer_allocated` takes for the sender. -/
def allocated_sender : Option RequestState → Role
  | some .decoder_running => .denoiser
  | some .decoder_waiting => .denoiser
  | _ => .encoder

def handle_transfer_allocated (c : Config) (msg : AllocatedMsg) (s : Server) : Option Server :=
  match s.transfer_of msg.request_id with
  | none => some s
  | some ref =>
    let p2p := s.transfers ref
    let s := s.write ref
      { p2p with
        receiver_session_id := msg.session_id
        receiver_pool_ptr := msg.pool_ptr
        receiver_slot_offset := msg.slot_offset }
    let role := allocated_sender (s.state_of msg.request_id)
    match c.socket role p2p.sender_instance with
    | none => none
    | some idx =>
      some (s.act (.send role idx
        (.push msg.request_id msg.session_id (msg.pool_ptr + msg.slot_offset) p2p.data_size)))

/-- The role whose slot `_handle_transfer_pushed` gives back. -/
def pushed_sender : RequestState → Option Role
  | .denoising_running => some .encoder
  | .denoising_waiting => some .encoder
  | .denoising_done => some .encoder
  | .decoder_running => some .denoiser
  | .decoder_waiting => some .denoiser
  | _ => none

/-- The role that `_handle_transfer_pushed` notifies. -/
def ready_receiver : RequestState → Option Role
  | .denoising_running => some .denoiser
  | .denoising_waiting => some .denoiser
  | .decoder_running => some .decoder
  | .decoder_waiting => some .decoder
  | _ => none

/-- The notification of the receiver. -/
def send_ready (c : Config) (request_id : RequestId) (p2p : TransferRequestState) (s : Server) :
    Option Server :=
  match (s.state_of request_id).bind ready_receiver with
  | none => some s
  | some role =>
    match c.socket_at role p2p.receiver_instance with
    | none => none
    | some idx =>
      some (s.act (.send role idx (.ready request_id p2p.manifest p2p.receiver_slot_offset
        p2p.scalar_fields p2p.prealloc_slot_id)))

def handle_transfer_pushed (c : Config) (request_id : RequestId) (s : Server) : Option Server :=
  match s.transfer_of request_id with
  | none => some s
  | some ref =>
    let s :=
      match (s.state_of request_id).bind pushed_sender with
      | none => s
      | some role => s.free_slot role (s.instance_of role request_id)
    send_ready c request_id (s.transfers ref) s

/-- `_recycle_prealloc_slot` of a transfer object. -/
def recycle_prealloc_slot (ref : ℕ) (role : Role) (s : Server) : Server :=
  let p2p := s.transfers ref
  match p2p.prealloc_slot_id with
  | none => s
  | some slot_id =>
    let s :=
      if p2p.receiver_instance < 0 then s
      else
        match (s.peers role).get? p2p.receiver_instance.toNat with
        | none => s
        | some peer =>
          s.set_peer role p2p.receiver_instance.toNat
            { peer with
              free_preallocated_slots := peer.free_preallocated_slots ++
                [⟨p2p.receiver_slot_offset, p2p.data_size, some slot_id,
                  p2p.receiver_pool_ptr + p2p.receiver_slot_offset⟩] }
    s.write ref { p2p with prealloc_slot_id := none }

/-- `_recycle_prealloc_slot` of the transfer of a request, if it has one. -/
def recycle (request_id : RequestId) (role : Role) (s : Server) : Server :=
  match s.transfer_of request_id with
  | none => s
  | some ref => recycle_prealloc_slot ref role s

def transfer_return_to_client_from_msg (request_id : RequestId) (error : Option String)
    (s : Server) : Server :=
  (s.answer request_id error).remove request_id

/-- The transfer state of a request whose denoiser is done. -/
def restaged_transfer (msg : DoneMsg) (denoiser_idx : Option ℕ) (p2p : TransferRequestState) :
    TransferRequestState :=
  { p2p with
    sender_session_id := msg.session_id
    sender_pool_ptr := msg.pool_ptr
    sender_slot_offset := msg.slot_offset
    data_size := msg.data_size
    manifest := msg.manifest
    scalar_fields := msg.scalar_fields
    sender_instance := denoiser_idx }

/-- The second hop: the denoiser becomes the sender. -/
def stage_for_decoder (msg : DoneMsg) (ref : ℕ) (s : Server) : Server :=
  let s := s.write ref
    (restaged_transfer msg (s.sender_instance .denoiser msg.request_id) (s.transfers ref))
  let s := s.transition msg.request_id .decoder_waiting none none
  s.set_tta .decoder (s.decoder_tta ++ [⟨msg.request_id, ref⟩])

/-- The output of a denoiser waits for a decoder, or the denoiser gives its slot back. -/
def forward (msg : DoneMsg) (denoiser : Option ℕ) (s : Server) : Server :=
  match s.transfer_of msg.request_id, msg.staged_for_decoder with
  | some ref, true => stage_for_decoder msg ref s
  | _, _ => s.free_slot .denoiser denoiser

theorem forward_staged {msg : DoneMsg} {denoiser : Option ℕ} {s : Server} {ref : ℕ}
    (href : s.transfer_of msg.request_id = some ref) (hstaged : msg.staged_for_decoder = true) :
    forward msg denoiser s = stage_for_decoder msg ref s := by
  unfold forward
  rw [href, hstaged]

theorem forward_freed {msg : DoneMsg} {denoiser : Option ℕ} {s : Server}
    (h : ¬ (msg.staged_for_decoder = true ∧ (s.transfer_of msg.request_id).isSome = true)) :
    forward msg denoiser s = s.free_slot .denoiser denoiser := by
  unfold forward
  split
  · next ref href hstaged =>
    exact absurd ⟨hstaged, Option.isSome_iff_exists.mpr ⟨ref, href⟩⟩ h
  · rfl

/-- `_handle_transfer_done` from a denoiser. -/
def denoiser_done (msg : DoneMsg) (s : Server) : Server :=
  let denoiser := s.instance_of .denoiser msg.request_id
  let s := recycle msg.request_id .denoiser s
  match truthy msg.error with
  | some error =>
    (s.free_slot .denoiser denoiser).complete_with_error msg.request_id
      ("Denoiser error: " ++ error)
  | none => forward msg denoiser (s.transition msg.request_id .denoising_done none none)

/-- The end of a request after its decoder. -/
def conclude (msg : DoneMsg) (s : Server) : Server :=
  match truthy msg.error with
  | some error => s.complete_with_error msg.request_id ("Decoder error: " ++ error)
  | none =>
    transfer_return_to_client_from_msg msg.request_id msg.error
      (s.transition msg.request_id .done none none)

/-- A request leaves: its last transition, the reply, and no record of it. -/
abbrev Server.leave (s : Server) (request_id : RequestId) (new_state : RequestState)
    (error error' : Option String) : Server :=
  ((s.transition request_id new_state error none).answer request_id error').remove request_id

theorem conclude_eq (msg : DoneMsg) (s : Server) : ∃ new_state error error', conclude msg s =
    s.leave msg.request_id new_state error error' := by
  unfold conclude
  cases truthy msg.error with
  | some error => exact ⟨_, _, _, rfl⟩
  | none => exact ⟨_, _, _, rfl⟩

/-- `_handle_transfer_done` from a decoder. -/
def decoder_done (msg : DoneMsg) (s : Server) : Server :=
  let s := recycle msg.request_id .decoder s
  let s := s.free_slot .decoder (s.instance_of .decoder msg.request_id)
  (conclude msg s).forget_transfer msg.request_id

def handle_transfer_done (role : Role) (msg : DoneMsg) (s : Server) : Server :=
  match role with
  | .encoder => s
  | .denoiser => denoiser_done msg s
  | .decoder => decoder_done msg s

/-- The transfer messages of an instance; one of another type is dropped. -/
inductive TransferMsg
  | register (msg : RegisterMsg)
  | staged (msg : StagedMsg)
  | allocated (msg : AllocatedMsg)
  | pushed (request_id : RequestId)
  | done (msg : DoneMsg)
  | unknown

def handle_transfer_result (c : Config) (role : Role) (msg : TransferMsg) (s : Server) :
    Option Server :=
  match msg with
  | .register msg => some (handle_transfer_register c msg s)
  | .staged msg => some (handle_transfer_staged msg s)
  | .allocated msg => handle_transfer_allocated c msg s
  | .pushed request_id => handle_transfer_pushed c request_id s
  | .done msg => some (handle_transfer_done role msg s)
  | .unknown => some s

end LightningH3.DiffusionServer
