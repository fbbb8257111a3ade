/-
Conservation of the preallocated receive slots in the staged mode of the disaggregation server.

`free_preallocated_slots` of an instance lists the slots that are free. The ledger records what the
instance registered and which request took which slot: a dispatch on the fast path takes the first
slot of the list (`fast_claim`), and the slot is released when the request is done on the instance
or leaves the tracker. The invariant `Reserved` says that the transfer of the request still knows
the slot that it took.

The free and the taken slots stay those that were registered in every run whose calls give each
slot back as it was (`prealloc_slots_conserved`). The server rebuilds a slot from the transfer, with
the number of bytes sent for the size of the slot (`recycled_slot_shrinks`).
-/
import LightningH3.DiffusionServerResidue

set_option autoImplicit false

namespace LightningH3.DiffusionServer

open List Function Option OrderedDict

/-! ## The ledger -/

/-- A request took a slot of an instance. -/
structure Claim where
  request_id : RequestId
  role : Role
  idx : ℕ
  slot : SlotInfo
  deriving DecidableEq, Repr

/-- The slots that the instances registered and those that are taken. -/
structure SlotLedger where
  registered : Role → ℕ → List SlotInfo
  claims : List Claim

namespace SlotLedger

/-- Nothing is registered. -/
def empty : SlotLedger := ⟨fun _ _ => [], []⟩

/-- The slots of an instance that are taken. -/
def claimed (L : SlotLedger) (role : Role) (idx : ℕ) : List SlotInfo :=
  (L.claims.filter fun k => decide (k.role = role ∧ k.idx = idx)).map Claim.slot

/-- More slots are taken. -/
def claim (L : SlotLedger) (claims : List Claim) : SlotLedger :=
  { L with claims := L.claims ++ claims }

/-- A request gives back what it took. -/
def release (L : SlotLedger) (request_id : RequestId) : SlotLedger :=
  { L with claims := L.claims.filter fun k => decide (k.request_id ≠ request_id) }

def register (L : SlotLedger) (role : Role) (idx : ℕ) (slots : List SlotInfo) : SlotLedger :=
  { L with
    registered := Function.update L.registered role (Function.update (L.registered role) idx slots) }

/-- A request has taken no slot. -/
def Unclaimed (L : SlotLedger) (request_id : RequestId) : Prop :=
  ∀ k ∈ L.claims, k.request_id ≠ request_id

end SlotLedger

/-- The free slots of an instance. -/
def listed (s : Server) (role : Role) (idx : ℕ) : List SlotInfo :=
  match (s.peers role).get? idx with
  | none => []
  | some peer => peer.free_preallocated_slots

/-- The slot that `_try_fast_path_push` takes. -/
def fast_claim (request_id : RequestId) (ref : ℕ) (role : Role) (idx : ℕ) (s : Server) :
    List Claim :=
  match listed s role idx with
  | [] => []
  | slot_info :: _ =>
    if slot_info.size < (s.transfers ref).data_size then []
    else [⟨request_id, role, idx, slot_info⟩]

/-- The slot that a round of `_drain_denoiser_tta` or `_drain_decoder_tta` takes. -/
def round_claims (role : Role) (s : Server) : List Claim :=
  match s.tta role, s.select role with
  | entry :: _, some (some idx, s) => fast_claim entry.request_id entry.transfer_state role idx s
  | _, _ => []

/-- The slots that the rounds of a loop take. -/
def loop_claims (step : Server → Option (Bool × Server)) (claims : Server → List Claim) :
    ℕ → Server → List Claim
  | 0, _ => []
  | n + 1, s =>
    claims s ++
      match step s with
      | some (true, s) => loop_claims step claims n s
      | _ => []

/-- The slots that a drain of one queue takes. -/
def queue_claims (c : Config) (role : Role) (s : Server) : List Claim :=
  loop_claims (drain_step c role) (round_claims role) ((s.tta role).length + 1) s

/-- The slots that a drain of all queues takes. -/
def drain_claims (c : Config) (s : Server) : List Claim :=
  match drain_encoder_tta s with
  | none => []
  | some s₁ =>
    queue_claims c .denoiser s₁ ++
      match drain_denoiser_tta c s₁ with
      | none => []
      | some s₂ => queue_claims c .decoder s₂

/-- The slots that a call takes. -/
def new_claims (c : Config) (e : Event) (s : Server) : List Claim :=
  match e with
  | .drain => drain_claims c s
  | _ => []

/-- Whether a call says that a request is done on the instance whose slot it took. -/
def hop_ends (e : Event) (k : Claim) : Bool :=
  match e with
  | .transfer .denoiser (.done msg) =>
    decide (k.role = .denoiser ∧ k.request_id = msg.request_id)
  | .transfer .decoder (.done msg) => decide (k.role = .decoder ∧ k.request_id = msg.request_id)
  | .frames .decoder frames => decide (k.role = .decoder ∧ frames.request_id = some k.request_id)
  | _ => false

def registered_by (c : Config) (e : Event) (L : SlotLedger) : SlotLedger :=
  match e with
  | .transfer _ (.register msg) =>
    match msg.role.bind fun role =>
        (c.endpoint_to_idx role msg.work_endpoint).map fun idx => (role, idx) with
    | none => L
    | some (role, idx) => L.register role idx msg.preallocated_slots
  | _ => L

/-- The ledger after a call. -/
def slot_step (c : Config) (e : Event) (s s' : Server) (L : SlotLedger) : SlotLedger :=
  { registered_by c e L with
    claims := (L.claims.filter fun k => !(hop_ends e k || ends s s' k.request_id)) ++
      new_claims c e s }

/-! ## Calls that give a slot back as it was -/

/-- A request waits for a denoiser or for a decoder. -/
def Waits (s : Server) (request_id : RequestId) : Prop :=
  request_id ∈ queue_ids s .denoiser ∨ request_id ∈ queue_ids s .decoder

/-- What a request took is a slot of a role, and its bytes fill it. -/
def Fills (s : Server) (L : SlotLedger) (role : Role) (request_id : RequestId) : Prop :=
  ∀ k ∈ L.claims, k.request_id = request_id → k.role = role ∧
    ∀ ref, s.transfer_of request_id = some ref → k.slot.size = (s.transfers ref).data_size

/-- The call gives the slot of a request back as it was. A request that leaves otherwise has no
slot and does not wait for one; a slot is registered with its number and its address in the pool,
while no slot of the instance is taken; and no message overwrites a transfer that has a slot. -/
def GivesBack (c : Config) (now : ℚ) (s : Server) (L : SlotLedger) : Event → Prop
  | .transfer _ (.register msg) =>
    ∀ role idx, msg.role = some role → c.endpoint_to_idx role msg.work_endpoint = some idx →
      L.claimed role idx = [] ∧ ∀ slot ∈ msg.preallocated_slots,
        slot.slot_id.isSome = true ∧ slot.addr = msg.pool_ptr + slot.offset
  | .transfer _ (.staged msg) =>
    msg.request_id ∈ s.tracker.keys ∧ L.Unclaimed msg.request_id ∧ ¬ Waits s msg.request_id
  | .transfer _ (.allocated msg) => L.Unclaimed msg.request_id
  | .transfer .denoiser (.done msg) =>
    Fills s L .denoiser msg.request_id ∧
    ((truthy msg.error).isSome = true → ¬ Waits s msg.request_id) ∧
    ((truthy msg.error).isSome = false → msg.staged_for_decoder = true →
      s.transfer_of msg.request_id ≠ none →
        msg.request_id ∈ s.tracker.keys ∧ ¬ Waits s msg.request_id)
  | .transfer .decoder (.done msg) =>
    Fills s L .decoder msg.request_id ∧ ¬ Waits s msg.request_id
  | .frames .decoder frames =>
    ∀ r, frames.request_id = some r → L.Unclaimed r ∧ ¬ Waits s r
  | .frames _ frames =>
    ∀ r, frames.request_id = some r → (truthy frames.disagg_error).isSome = true →
      L.Unclaimed r ∧ ¬ Waits s r
  | .timeouts => ∀ r ∈ s.tracker.find_timed_out c.timeout_s now, L.Unclaimed r
  | _ => True

/-- A run with its ledger, whose calls all meet a condition. -/
inductive SlotRun (c : Config) (P : ℚ → Server → SlotLedger → Event → Prop) :
    Server → SlotLedger → Prop
  | init : SlotRun c P (Server.init c) SlotLedger.empty
  | step {s s' : Server} {L : SlotLedger} {now : ℚ} {e : Event} (hs : SlotRun c P s L)
      (he : P now s L e) (hstep : handle c now e s = some s') :
      SlotRun c P s' (slot_step c e s s' L)

theorem SlotRun.reachable {c : Config} {P : ℚ → Server → SlotLedger → Event → Prop} {s : Server}
    {L : SlotLedger} (h : SlotRun c P s L) : Reachable c s := by
  induction h with
  | init => exact Reachable.init
  | step _ _ hstep ih => exact ih.step hstep

/-- **The slots of every instance are conserved**: the free ones and the taken ones are those that
it registered, each request has one at most, and all are free when no request is tracked. -/
def SlotsConserved (s : Server) (L : SlotLedger) : Prop :=
  (L.claims.map Claim.request_id).Nodup ∧ ∀ role idx,
    (listed s role idx ++ L.claimed role idx).Perm (L.registered role idx) ∧
    (s.tracker.keys = [] → (listed s role idx).Perm (L.registered role idx))

/-! ## The invariant -/

/-- The transfer of a request knows the slot that the request took. -/
structure Knows (p2p : TransferRequestState) (peer : PeerInfo) (k : Claim) : Prop where
  slot_id : p2p.prealloc_slot_id = k.slot.slot_id
  instance_idx : p2p.receiver_instance = (k.idx : ℤ)
  pool : p2p.receiver_pool_ptr = peer.pool_ptr
  offset : p2p.receiver_slot_offset = k.slot.offset

/-- An entry of a queue has the transfer of its request, which is tracked and has no slot. -/
structure Queued (s : Server) (L : SlotLedger) (entry : RoleTTAEntry) : Prop where
  transfer : s.transfer_of entry.request_id = some entry.transfer_state
  tracked : entry.request_id ∈ s.tracker.keys
  unclaimed : L.Unclaimed entry.request_id

/-- Between two calls. -/
structure Reserved (s : Server) (L : SlotLedger) : Prop where
  conserved : ∀ role idx, (listed s role idx ++ L.claimed role idx).Perm (L.registered role idx)
  placed : ∀ role idx peer, (s.peers role).get? idx = some peer → ∀ slot ∈ L.registered role idx,
    slot.slot_id.isSome = true ∧ slot.addr = peer.pool_ptr + slot.offset
  once : (L.claims.map Claim.request_id).Nodup
  tracked : ∀ k ∈ L.claims, k.request_id ∈ s.tracker.keys
  known : ∀ k ∈ L.claims, ∃ ref peer, s.transfer_of k.request_id = some ref ∧
    (s.peers k.role).get? k.idx = some peer ∧ Knows (s.transfers ref) peer k
  bare : ∀ r ref, s.transfer_of r = some ref → L.Unclaimed r →
    (s.transfers ref).prealloc_slot_id = none
  own : ∀ r r' ref, s.transfer_of r = some ref → s.transfer_of r' = some ref → r = r'
  fresh : ∀ r ref, s.transfer_of r = some ref → ref < s.next_transfer
  queued : ∀ entry ∈ s.denoiser_tta ++ s.decoder_tta, Queued s L entry
  queued_once : ((s.denoiser_tta ++ s.decoder_tta).map RoleTTAEntry.request_id).Nodup

variable {c : Config} {s s' : Server} {L : SlotLedger}

theorem Reserved.slots_kept (h : Reserved s L) : SlotsConserved s L := by
  refine ⟨h.once, fun role idx => ⟨h.conserved role idx, ?_⟩⟩
  intro hkeys
  have hnone : L.claims = [] := by
    apply eq_nil_iff_forall_not_mem.mpr
    intro k hk
    have htracked := h.tracked k hk
    rw [hkeys] at htracked
    exact not_mem_nil htracked
  have hperm := h.conserved role idx
  unfold SlotLedger.claimed at hperm
  rw [hnone, filter_nil, map_nil, append_nil] at hperm
  exact hperm

/-! ## Steps that take and give back no slot -/

/-- The same instances, transfers and queues, and no request leaves the tracker. -/
structure SameSlots (s s' : Server) : Prop where
  peers : s'.peers = s.peers
  transfers : s'.transfers = s.transfers
  next_transfer : s'.next_transfer = s.next_transfer
  transfer_state : s'.transfer_state = s.transfer_state
  denoiser_tta : s'.denoiser_tta = s.denoiser_tta
  decoder_tta : s'.decoder_tta = s.decoder_tta
  tracked : ∀ r, r ∈ s.tracker.keys → r ∈ s'.tracker.keys

variable {p2p : TransferRequestState}

namespace SameSlots

theorem refl (s : Server) : SameSlots s s := ⟨rfl, rfl, rfl, rfl, rfl, rfl, fun _ h => h⟩

theorem trans {s'' : Server} (h : SameSlots s s') (h' : SameSlots s' s'') : SameSlots s s'' :=
  ⟨h'.peers.trans h.peers, h'.transfers.trans h.transfers,
    h'.next_transfer.trans h.next_transfer, h'.transfer_state.trans h.transfer_state,
    h'.denoiser_tta.trans h.denoiser_tta, h'.decoder_tta.trans h.decoder_tta,
    fun r hr => h'.tracked r (h.tracked r hr)⟩

theorem of_eq (hpeers : s'.peers = s.peers) (htransfers : s'.transfers = s.transfers)
    (hnext : s'.next_transfer = s.next_transfer) (hstate : s'.transfer_state = s.transfer_state)
    (hdenoiser : s'.denoiser_tta = s.denoiser_tta) (hdecoder : s'.decoder_tta = s.decoder_tta)
    (htracker : s'.tracker = s.tracker) : SameSlots s s' :=
  ⟨hpeers, htransfers, hnext, hstate, hdenoiser, hdecoder, fun _ hr => by rw [htracker]; exact hr⟩

theorem transition (s : Server) (request_id : RequestId) (new_state : RequestState)
    (error : Option String) (at_instance : Option (Role × ℕ)) :
    SameSlots s (s.transition request_id new_state error at_instance) :=
  ⟨rfl, rfl, rfl, rfl, rfl, rfl, fun _ hr => Tracker.keys_move.mpr hr⟩

theorem act (s : Server) (a : Action) : SameSlots s (s.act a) :=
  of_eq rfl rfl rfl rfl rfl rfl rfl

theorem add_slots (s : Server) (role : Role) (idx : ℕ) (n : ℤ) :
    SameSlots s (s.add_slots role idx n) :=
  of_eq rfl rfl rfl rfl rfl rfl rfl

theorem free_slot (s : Server) (role : Role) (idx : Option ℕ) :
    SameSlots s (s.free_slot role idx) := by
  cases idx with
  | none => exact refl s
  | some i => exact add_slots s role i 1

theorem select {role : Role} {idx : Option ℕ} (h : s.select role = some (idx, s')) :
    SameSlots s s' := by
  unfold Server.select at h
  rw [map_eq_some_iff] at h
  obtain ⟨r, _, hr⟩ := h
  cases hr
  exact of_eq rfl rfl rfl rfl rfl rfl rfl

theorem dispatch_to_encoder (s : Server) (request_id : RequestId) (payload : String) (idx : ℕ) :
    SameSlots s (dispatch_to_encoder request_id payload idx s) := by
  have hslots := (add_slots s .encoder idx (-1)).trans
    (act _ (.dispatch .encoder request_id idx))
  exact (hslots.trans (transition _ request_id .encoder_running none (some (.encoder, idx)))).trans
    (act _ (.send .encoder idx (.work request_id payload)))

theorem drain_encoder_step {b : Bool} (h : drain_encoder_step s = some (b, s')) :
    SameSlots s s' := by
  rcases drain_encoder_step_cases h with rfl | hselect | ⟨entry, rest, idx, t, -, hselect, rfl⟩
  · exact refl _
  · exact select hselect
  · have hpopped : SameSlots t (t.set_encoder_tta rest) :=
      of_eq rfl rfl rfl rfl rfl rfl rfl
    exact ((select hselect).trans hpopped).trans
      (dispatch_to_encoder _ entry.request_id entry.payload idx)

theorem send_ready {request_id : RequestId}
    (h : send_ready c request_id p2p s = some s') : SameSlots s s' := by
  unfold DiffusionServer.send_ready at h
  split at h
  · cases h
    exact refl s
  · split at h
    · cases h
    · cases h
      exact act s _

theorem pushed {request_id : RequestId} (h : handle_transfer_pushed c request_id s = some s') :
    SameSlots s s' := by
  unfold handle_transfer_pushed at h
  split at h
  · cases h
    exact refl s
  · split at h
    · exact send_ready h
    · exact (free_slot s _ _).trans (send_ready h)

theorem listed_eq (h : SameSlots s s') (role : Role) (idx : ℕ) :
    listed s' role idx = listed s role idx := by
  unfold listed
  rw [h.peers]

theorem transfer_of_eq (h : SameSlots s s') (r : RequestId) :
    s'.transfer_of r = s.transfer_of r := by
  unfold Server.transfer_of
  rw [h.transfer_state]

end SameSlots

/-- The instances and the transfers stay: what is left to show is what the queues hold. -/
theorem Reserved.requeue (h : Reserved s L) (hpeers : s'.peers = s.peers)
    (htransfers : s'.transfers = s.transfers) (hnext : s'.next_transfer = s.next_transfer)
    (hstate : s'.transfer_state = s.transfer_state)
    (htracked : ∀ r, r ∈ s.tracker.keys → r ∈ s'.tracker.keys)
    (hqueued : ∀ entry ∈ s'.denoiser_tta ++ s'.decoder_tta, Queued s L entry)
    (honce : ((s'.denoiser_tta ++ s'.decoder_tta).map RoleTTAEntry.request_id).Nodup) :
    Reserved s' L := by
  have htransfer : ∀ r, s'.transfer_of r = s.transfer_of r := by
    intro r
    unfold Server.transfer_of
    rw [hstate]
  constructor
  · intro role idx
    unfold listed
    rw [hpeers]
    exact h.conserved role idx
  · rw [hpeers]
    exact h.placed
  · exact h.once
  · exact fun k hk => htracked _ (h.tracked k hk)
  · intro k hk
    rw [htransfer, hpeers, htransfers]
    exact h.known k hk
  · intro r ref
    rw [htransfer, htransfers]
    exact h.bare r ref
  · intro r r' ref
    rw [htransfer, htransfer]
    exact h.own r r' ref
  · intro r ref
    rw [htransfer, hnext]
    exact h.fresh r ref
  · intro entry hentry
    obtain ⟨hentry', hkept, hunclaimed⟩ := hqueued entry hentry
    exact ⟨(htransfer _).trans hentry', htracked _ hkept, hunclaimed⟩
  · exact honce

theorem Reserved.same (h : Reserved s L) (hsame : SameSlots s s') : Reserved s' L := by
  refine h.requeue hsame.peers hsame.transfers hsame.next_transfer hsame.transfer_state
    hsame.tracked ?_ ?_
  · rw [hsame.denoiser_tta, hsame.decoder_tta]
    exact h.queued
  · rw [hsame.denoiser_tta, hsame.decoder_tta]
    exact h.queued_once

/-! ## Transfers -/

theorem transfer_of_new (s : Server) (request_id r : RequestId) (p2p : TransferRequestState) :
    (s.new_transfer request_id p2p).transfer_of r =
      if r = request_id then some s.next_transfer else s.transfer_of r :=
  get?_set ..

theorem not_waits {entry : RoleTTAEntry} {r : RequestId} (hw : ¬ Waits s r)
    (hentry : entry ∈ s.denoiser_tta ++ s.decoder_tta) : entry.request_id ≠ r := by
  intro heq
  subst heq
  apply hw
  rcases mem_append.mp hentry with hin | hin
  · exact Or.inl (mem_map_of_mem hin)
  · exact Or.inr (mem_map_of_mem hin)

theorem Reserved.write (h : Reserved s L) {r : RequestId} {ref : ℕ}
    (href : s.transfer_of r = some ref) (hfree : L.Unclaimed r)
    (hp2p : p2p.prealloc_slot_id = none) : Reserved (s.write ref p2p) L where
  conserved := h.conserved
  placed := h.placed
  once := h.once
  tracked := h.tracked
  known := by
    intro k hk
    obtain ⟨ref', peer, htransfer, hpeer, hknows⟩ := h.known k hk
    refine ⟨ref', peer, htransfer, hpeer, ?_⟩
    have hne : ref' ≠ ref := by
      intro heq
      rw [heq] at htransfer
      exact hfree k hk (h.own _ _ ref htransfer href)
    unfold Server.write
    dsimp only
    rw [update_of_ne hne]
    exact hknows
  bare := by
    intro r' ref' htransfer hfree'
    unfold Server.write
    dsimp only
    by_cases heq : ref' = ref
    · rw [heq, update_self]
      exact hp2p
    · rw [update_of_ne heq]
      exact h.bare r' ref' htransfer hfree'
  own := h.own
  fresh := h.fresh
  queued := fun entry hentry =>
    ⟨(h.queued entry hentry).transfer, (h.queued entry hentry).tracked,
      (h.queued entry hentry).unclaimed⟩
  queued_once := h.queued_once

theorem Reserved.new_transfer (h : Reserved s L) {r : RequestId}
    (hfree : L.Unclaimed r) (hwaits : ¬ Waits s r) (hp2p : p2p.prealloc_slot_id = none) :
    Reserved (s.new_transfer r p2p) L where
  conserved := h.conserved
  placed := h.placed
  once := h.once
  tracked := h.tracked
  known := by
    intro k hk
    obtain ⟨ref, peer, htransfer, hpeer, hknows⟩ := h.known k hk
    refine ⟨ref, peer, ?_, hpeer, ?_⟩
    · rw [transfer_of_new, if_neg (hfree k hk)]
      exact htransfer
    · have hne : ref ≠ s.next_transfer := Nat.ne_of_lt (h.fresh _ _ htransfer)
      unfold Server.new_transfer
      dsimp only
      rw [update_of_ne hne]
      exact hknows
  bare := by
    intro r' ref htransfer hfree'
    rw [transfer_of_new] at htransfer
    unfold Server.new_transfer
    dsimp only
    by_cases hr : r' = r
    · rw [if_pos hr] at htransfer
      cases htransfer
      rw [update_self]
      exact hp2p
    · rw [if_neg hr] at htransfer
      rw [update_of_ne (Nat.ne_of_lt (h.fresh _ _ htransfer))]
      exact h.bare r' ref htransfer hfree'
  own := by
    intro r₁ r₂ ref h₁ h₂
    rw [transfer_of_new] at h₁ h₂
    by_cases hr₁ : r₁ = r
    · rw [if_pos hr₁] at h₁
      cases h₁
      by_cases hr₂ : r₂ = r
      · rw [hr₁, hr₂]
      · rw [if_neg hr₂] at h₂
        exact absurd rfl (Nat.ne_of_lt (h.fresh _ _ h₂))
    · rw [if_neg hr₁] at h₁
      by_cases hr₂ : r₂ = r
      · rw [if_pos hr₂] at h₂
        cases h₂
        exact absurd rfl (Nat.ne_of_lt (h.fresh _ _ h₁))
      · rw [if_neg hr₂] at h₂
        exact h.own r₁ r₂ ref h₁ h₂
  fresh := by
    intro r' ref htransfer
    rw [transfer_of_new] at htransfer
    by_cases hr : r' = r
    · rw [if_pos hr] at htransfer
      cases htransfer
      exact Nat.lt_succ_self _
    · rw [if_neg hr] at htransfer
      exact Nat.lt_succ_of_lt (h.fresh _ _ htransfer)
  queued := by
    intro entry hentry
    obtain ⟨htransfer, htracked, hunclaimed⟩ := h.queued entry hentry
    refine ⟨?_, htracked, hunclaimed⟩
    rw [transfer_of_new, if_neg (not_waits hwaits hentry)]
    exact htransfer
  queued_once := h.queued_once

theorem Reserved.forget (h : Reserved s L) {r : RequestId} (hfree : L.Unclaimed r)
    (hwaits : ¬ Waits s r) : Reserved (s.forget_transfer r) L := by
  have hold : ∀ {r' ref}, (s.forget_transfer r).transfer_of r' = some ref →
      s.transfer_of r' = some ref := by
    intro r' ref htransfer
    rw [transfer_of_forget] at htransfer
    by_cases hr : r' = r
    · rw [if_pos hr] at htransfer
      cases htransfer
    · rw [if_neg hr] at htransfer
      exact htransfer
  constructor
  · exact h.conserved
  · exact h.placed
  · exact h.once
  · exact h.tracked
  · intro k hk
    obtain ⟨ref, peer, htransfer, hpeer, hknows⟩ := h.known k hk
    refine ⟨ref, peer, ?_, hpeer, hknows⟩
    rw [transfer_of_forget, if_neg (hfree k hk)]
    exact htransfer
  · exact fun r' ref htransfer hfree' => h.bare r' ref (hold htransfer) hfree'
  · exact fun r₁ r₂ ref h₁ h₂ => h.own r₁ r₂ ref (hold h₁) (hold h₂)
  · exact fun r' ref htransfer => h.fresh r' ref (hold htransfer)
  · intro entry hentry
    obtain ⟨htransfer, htracked, hunclaimed⟩ := h.queued entry hentry
    refine ⟨?_, htracked, hunclaimed⟩
    rw [transfer_of_forget, if_neg (not_waits hwaits hentry)]
    exact htransfer
  · exact h.queued_once

theorem Reserved.untrack (h : Reserved s L) {r : RequestId} (hfree : L.Unclaimed r)
    (hwaits : ¬ Waits s r) : Reserved (s.remove r) L where
  conserved := h.conserved
  placed := h.placed
  once := h.once
  tracked := fun k hk => mem_keys_erase.mpr ⟨h.tracked k hk, hfree k hk⟩
  known := h.known
  bare := h.bare
  own := h.own
  fresh := h.fresh
  queued := fun entry hentry =>
    ⟨(h.queued entry hentry).transfer,
      mem_keys_erase.mpr ⟨(h.queued entry hentry).tracked, not_waits hwaits hentry⟩,
      (h.queued entry hentry).unclaimed⟩
  queued_once := h.queued_once

theorem SameSlots.answer (s : Server) (request_id : RequestId) (error : Option String) :
    SameSlots s (s.answer request_id error) := by
  unfold Server.answer
  cases s.pending.get? request_id with
  | none => exact refl s
  | some client_identity => exact of_eq rfl rfl rfl rfl rfl rfl rfl

section

variable (h : Reserved s L)
include h

theorem Reserved.leave {r : RequestId} (new_state : RequestState)
    (error error' : Option String) (hfree : L.Unclaimed r) (hwaits : ¬ Waits s r) :
    Reserved (s.leave r new_state error error') L := by
  have hsame := (SameSlots.transition s r new_state error none).trans (SameSlots.answer _ r error')
  apply (h.same hsame).untrack hfree
  unfold Waits queue_ids
  rw [hsame.denoiser_tta, hsame.decoder_tta]
  exact hwaits

/-! ## Queues -/

theorem Reserved.enqueue {role : Role} {r : RequestId} {ref : ℕ}
    (hqueued : Queued s L ⟨r, ref⟩) (hwaits : ¬ Waits s r) :
    Reserved (s.set_tta role (s.tta role ++ [⟨r, ref⟩])) L := by
  have hnew : ((⟨r, ref⟩ :: (s.denoiser_tta ++ s.decoder_tta)).map
      RoleTTAEntry.request_id).Nodup := by
    rw [map_cons, nodup_cons]
    refine ⟨?_, h.queued_once⟩
    intro hin
    obtain ⟨entry, hentry, heq⟩ := mem_map.mp hin
    exact not_waits hwaits hentry heq
  have hall : ∀ entry ∈ (⟨r, ref⟩ : RoleTTAEntry) :: (s.denoiser_tta ++ s.decoder_tta),
      Queued s L entry := by
    intro entry hentry
    rcases mem_cons.mp hentry with heq | hin
    · rw [heq]
      exact hqueued
    · exact h.queued entry hin
  cases role with
  | encoder => exact h
  | denoiser =>
    have hperm : ((s.denoiser_tta ++ [(⟨r, ref⟩ : RoleTTAEntry)]) ++ s.decoder_tta).Perm
        ((⟨r, ref⟩ : RoleTTAEntry) :: (s.denoiser_tta ++ s.decoder_tta)) := by
      rw [append_assoc]
      exact perm_middle
    refine h.requeue rfl rfl rfl rfl (fun _ => id) ?_ ?_
    · exact fun entry hentry => hall entry (hperm.mem_iff.mp hentry)
    · exact (hperm.map _).nodup_iff.mpr hnew
  | decoder =>
    have hperm : (s.denoiser_tta ++ (s.decoder_tta ++ [(⟨r, ref⟩ : RoleTTAEntry)])).Perm
        ((⟨r, ref⟩ : RoleTTAEntry) :: (s.denoiser_tta ++ s.decoder_tta)) := by
      rw [← append_assoc]
      exact perm_append_singleton _ _
    refine h.requeue rfl rfl rfl rfl (fun _ => id) ?_ ?_
    · exact fun entry hentry => hall entry (hperm.mem_iff.mp hentry)
    · exact (hperm.map _).nodup_iff.mpr hnew

theorem Reserved.pop {role : Role} {entry : RoleTTAEntry}
    {rest : List RoleTTAEntry} (hqueue : s.tta role = entry :: rest) :
    Reserved (s.set_tta role rest) L ∧ Queued s L entry ∧
      ¬ Waits (s.set_tta role rest) entry.request_id := by
  have hperm : (s.denoiser_tta ++ s.decoder_tta).Perm
      (entry :: ((s.set_tta role rest).denoiser_tta ++ (s.set_tta role rest).decoder_tta)) := by
    cases role with
    | encoder => cases hqueue
    | denoiser =>
      have hq : s.denoiser_tta = entry :: rest := hqueue
      rw [hq]
      exact List.Perm.refl _
    | decoder =>
      have hq : s.decoder_tta = entry :: rest := hqueue
      rw [hq]
      exact perm_middle
  have honce := (hperm.map RoleTTAEntry.request_id).nodup_iff.mp h.queued_once
  rw [map_cons, nodup_cons] at honce
  have hall := fun e he => h.queued e (hperm.mem_iff.mpr he)
  refine ⟨?_, hall entry mem_cons_self, ?_⟩
  · have hkept : ∀ e ∈ (s.set_tta role rest).denoiser_tta ++ (s.set_tta role rest).decoder_tta,
        Queued s L e := fun e he => hall e (mem_cons_of_mem _ he)
    cases role with
    | encoder => exact h.requeue rfl rfl rfl rfl (fun _ => id) hkept honce.2
    | denoiser => exact h.requeue rfl rfl rfl rfl (fun _ => id) hkept honce.2
    | decoder => exact h.requeue rfl rfl rfl rfl (fun _ => id) hkept honce.2
  · intro hwaits
    apply honce.1
    rw [map_append, mem_append]
    exact hwaits

theorem Reserved.leave_queues (ids : List RequestId) :
    Reserved (s.leave_queues ids) L ∧ ∀ r ∈ ids, ¬ Waits (s.leave_queues ids) r := by
  have hsub : ((s.leave_queues ids).denoiser_tta ++ (s.leave_queues ids).decoder_tta).Sublist
      (s.denoiser_tta ++ s.decoder_tta) :=
    filter_sublist.append filter_sublist
  constructor
  · refine h.requeue rfl rfl rfl rfl (fun _ => id) ?_ ?_
    · exact fun entry hentry => h.queued entry (hsub.subset hentry)
    · exact (hsub.map _).nodup h.queued_once
  · intro r hr hwaits
    unfold Waits at hwaits
    rw [queue_ids_leave_queues, queue_ids_leave_queues, mem_filter, mem_filter,
      decide_eq_true_eq] at hwaits
    rcases hwaits with ⟨_, hout⟩ | ⟨_, hout⟩
    · exact hout hr
    · exact hout hr

end

/-! ## Slots -/

theorem peer_set_peer (s : Server) (role role' : Role) (idx idx' : ℕ) (info : PeerInfo) :
    ((s.set_peer role idx info).peers role').get? idx' =
      if role' = role ∧ idx' = idx then some info else (s.peers role').get? idx' := by
  unfold Server.set_peer
  dsimp only
  by_cases hrole : role' = role
  · subst hrole
    rw [update_self, get?_set]
    by_cases hidx : idx' = idx
    · rw [if_pos hidx, if_pos ⟨rfl, hidx⟩]
    · rw [if_neg hidx, if_neg (fun h => hidx h.2)]
  · rw [update_of_ne hrole, if_neg (fun h => hrole h.1)]

theorem listed_set_peer (s : Server) (role role' : Role) (idx idx' : ℕ) (info : PeerInfo) :
    listed (s.set_peer role idx info) role' idx' =
      if role' = role ∧ idx' = idx then info.free_preallocated_slots else listed s role' idx' := by
  unfold listed
  rw [peer_set_peer]
  by_cases hhere : role' = role ∧ idx' = idx
  · rw [if_pos hhere, if_pos hhere]
  · rw [if_neg hhere, if_neg hhere]

theorem claimed_claim (L : SlotLedger) (k : Claim) (role : Role) (idx : ℕ) :
    (L.claim [k]).claimed role idx =
      L.claimed role idx ++ if k.role = role ∧ k.idx = idx then [k.slot] else [] := by
  unfold SlotLedger.claim SlotLedger.claimed
  rw [filter_append, map_append]
  by_cases hk : k.role = role ∧ k.idx = idx
  · rw [if_pos hk, filter_cons, if_pos (decide_eq_true hk)]
    rfl
  · rw [if_neg hk, filter_cons, if_neg (fun hd => hk (of_decide_eq_true hd))]
    rfl

theorem claimed_release {k : Claim} (honce : (L.claims.map Claim.request_id).Nodup)
    (hk : k ∈ L.claims) (role : Role) (idx : ℕ) : (L.claimed role idx).Perm
      ((if k.role = role ∧ k.idx = idx then [k.slot] else []) ++
        (L.release k.request_id).claimed role idx) := by
  have hperm := perm_cons_filter Claim.request_id honce hk
  have hclaimed := (hperm.filter fun k => decide (k.role = role ∧ k.idx = idx)).map Claim.slot
  by_cases hhere : k.role = role ∧ k.idx = idx
  · rw [filter_cons, if_pos (decide_eq_true hhere)] at hclaimed
    rw [if_pos hhere]
    exact hclaimed
  · rw [filter_cons, if_neg (fun hd => hhere (of_decide_eq_true hd))] at hclaimed
    rw [if_neg hhere]
    exact hclaimed

theorem release_of_unclaimed {r : RequestId} (h : L.Unclaimed r) : L.release r = L := by
  have hkeep : (L.claims.filter fun k => decide (k.request_id ≠ r)) = L.claims := by
    apply filter_eq_self.mpr
    intro k hk
    exact decide_eq_true (h k hk)
  unfold SlotLedger.release
  rw [hkeep]

theorem unclaimed_release (L : SlotLedger) (r : RequestId) : (L.release r).Unclaimed r := by
  intro k hk
  exact of_decide_eq_true (mem_filter.mp hk).2

theorem unclaimed_of_release {r r' : RequestId} (h : L.Unclaimed r') :
    (L.release r).Unclaimed r' := fun k hk => h k (mem_filter.mp hk).1

/-- **The slots of one instance change**, and with them the transfer of one request. What is left to
show is what is free and taken there, and what that request has; every other request keeps what it
took. -/
theorem Reserved.restock (h : Reserved s L) {r : RequestId} {ref : ℕ} {role : Role} {idx : ℕ}
    {peer info : PeerInfo} {L' : SlotLedger} (hregistered : L'.registered = L.registered)
    (href : s.transfer_of r = some ref) (htracked : r ∈ s.tracker.keys)
    (hpeer : (s.peers role).get? idx = some peer) (hpool : info.pool_ptr = peer.pool_ptr)
    (hhere : (info.free_preallocated_slots ++ L'.claimed role idx).Perm (L.registered role idx))
    (hthere : ∀ role' idx', ¬ (role' = role ∧ idx' = idx) →
      (L'.claimed role' idx').Perm (L.claimed role' idx'))
    (honce : (L'.claims.map Claim.request_id).Nodup)
    (hothers : ∀ k, k.request_id ≠ r → (k ∈ L'.claims ↔ k ∈ L.claims))
    (hown : ∀ k ∈ L'.claims, k.request_id = r → k.role = role ∧ k.idx = idx ∧ Knows p2p info k)
    (hbare : L'.Unclaimed r → p2p.prealloc_slot_id = none)
    (hqueued : ∀ entry ∈ s.denoiser_tta ++ s.decoder_tta, L'.Unclaimed entry.request_id) :
    Reserved ((s.set_peer role idx info).write ref p2p) L' := by
  have hobject : ∀ {ref' r'}, s.transfer_of r' = some ref' → r' ≠ r →
      ((s.set_peer role idx info).write ref p2p).transfers ref' = s.transfers ref' := by
    intro ref' r' hr hne
    apply update_of_ne
    rintro rfl
    exact hne (h.own _ _ _ hr href)
  have hself : ((s.set_peer role idx info).write ref p2p).transfers ref = p2p := update_self _ _ _
  have hpeers : ∀ role' idx', (((s.set_peer role idx info).write ref p2p).peers role').get? idx' =
      if role' = role ∧ idx' = idx then some info else (s.peers role').get? idx' :=
    fun role' idx' => peer_set_peer s role role' idx idx' info
  constructor
  · intro role' idx'
    have hlisted : listed ((s.set_peer role idx info).write ref p2p) role' idx' = _ :=
      listed_set_peer s role role' idx idx' info
    rw [hlisted, hregistered]
    by_cases heq : role' = role ∧ idx' = idx
    · obtain ⟨rfl, rfl⟩ := heq
      rw [if_pos ⟨rfl, rfl⟩]
      exact hhere
    · rw [if_neg heq]
      exact ((hthere role' idx' heq).append_left _).trans (h.conserved role' idx')
  · intro role' idx' peer' hpeer' slot hslot
    rw [hpeers] at hpeer'
    rw [hregistered] at hslot
    by_cases heq : role' = role ∧ idx' = idx
    · obtain ⟨rfl, rfl⟩ := heq
      rw [if_pos ⟨rfl, rfl⟩] at hpeer'
      cases hpeer'
      rw [hpool]
      exact h.placed role' idx' peer hpeer slot hslot
    · rw [if_neg heq] at hpeer'
      exact h.placed role' idx' peer' hpeer' slot hslot
  · exact honce
  · intro k hk
    by_cases hr : k.request_id = r
    · rw [hr]
      exact htracked
    · exact h.tracked k ((hothers k hr).mp hk)
  · intro k hk
    by_cases hr : k.request_id = r
    · obtain ⟨hrole, hidx, hknows⟩ := hown k hk hr
      refine ⟨ref, info, hr ▸ href, (hpeers _ _).trans (if_pos ⟨hrole, hidx⟩), ?_⟩
      rw [hself]
      exact hknows
    · obtain ⟨ref', peer', htransfer, hpeer', hknows⟩ := h.known k ((hothers k hr).mp hk)
      by_cases heq : k.role = role ∧ k.idx = idx
      · refine ⟨ref', info, htransfer, (hpeers _ _).trans (if_pos heq), ?_⟩
        rw [heq.1, heq.2, hpeer] at hpeer'
        cases hpeer'
        rw [hobject htransfer hr]
        exact ⟨hknows.slot_id, hknows.instance_idx, hknows.pool.trans hpool.symm, hknows.offset⟩
      · refine ⟨ref', peer', htransfer, ((hpeers _ _).trans (if_neg heq)).trans hpeer', ?_⟩
        rw [hobject htransfer hr]
        exact hknows
  · intro r' ref' htransfer hfree
    by_cases hr : r' = r
    · subst hr
      cases href.symm.trans htransfer
      rw [hself]
      exact hbare hfree
    · rw [hobject htransfer hr]
      refine h.bare r' ref' htransfer fun k hk heq => hfree k ?_ heq
      exact (hothers k (heq ▸ hr)).mpr hk
  · exact h.own
  · exact h.fresh
  · intro entry hentry
    exact ⟨(h.queued entry hentry).transfer, (h.queued entry hentry).tracked, hqueued entry hentry⟩
  · exact h.queued_once

/-- **A slot taken.** The first free slot of an instance goes to a request that waits no more. -/
theorem Reserved.take (h : Reserved s L) {r : RequestId} {ref : ℕ} {role : Role} {idx : ℕ}
    {peer : PeerInfo} {slot : SlotInfo} {rest : List SlotInfo}
    (hqueued : Queued s L ⟨r, ref⟩) (hwaits : ¬ Waits s r)
    (hpeer : (s.peers role).get? idx = some peer)
    (hslots : peer.free_preallocated_slots = slot :: rest)
    (hknows : Knows p2p peer ⟨r, role, idx, slot⟩) :
    Reserved ((s.set_peer role idx { peer with free_preallocated_slots := rest }).write ref p2p)
      (L.claim [⟨r, role, idx, slot⟩]) := by
  have hmem : ∀ {k : Claim}, k ∈ (L.claim [⟨r, role, idx, slot⟩]).claims ↔
      k ∈ L.claims ∨ k = ⟨r, role, idx, slot⟩ := mem_append.trans (or_congr_right mem_singleton)
  refine h.restock rfl hqueued.transfer hqueued.tracked hpeer rfl ?_ ?_ ?_ ?_ ?_ ?_ ?_
  · have hperm := h.conserved role idx
    unfold listed at hperm
    rw [hpeer] at hperm
    dsimp only at hperm
    rw [hslots] at hperm
    rw [claimed_claim, if_pos ⟨rfl, rfl⟩, ← append_assoc]
    exact (perm_append_singleton slot _).trans hperm
  · intro role' idx' hne
    rw [claimed_claim, if_neg fun heq => hne ⟨heq.1.symm, heq.2.symm⟩, append_nil]
  · unfold SlotLedger.claim
    rw [map_append]
    refine nodup_append.mpr ⟨h.once, nodup_singleton _, ?_⟩
    intro a ha b hb
    obtain ⟨k, hk, hka⟩ := mem_map.mp ha
    rw [mem_singleton.mp hb, ← hka]
    exact hqueued.unclaimed k hk
  · intro k hne
    rw [hmem]
    exact or_iff_left fun heq => hne (heq ▸ rfl)
  · intro k hk hr
    rcases hmem.mp hk with hk | rfl
    · exact absurd hr (hqueued.unclaimed k hk)
    · exact ⟨rfl, rfl, hknows.slot_id, hknows.instance_idx, hknows.pool, hknows.offset⟩
  · exact fun hfree => absurd rfl (hfree _ (hmem.mpr (Or.inr rfl)))
  · intro entry hentry k hk
    rcases hmem.mp hk with hk | rfl
    · exact (h.queued entry hentry).unclaimed k hk
    · exact (not_waits hwaits hentry).symm

/-- **A slot given back.** The slot that a request took comes last in the list. -/
theorem Reserved.give (h : Reserved s L) {k : Claim} (hk : k ∈ L.claims) {ref : ℕ} {peer : PeerInfo}
    (htransfer : s.transfer_of k.request_id = some ref)
    (hpeer : (s.peers k.role).get? k.idx = some peer) (hp2p : p2p.prealloc_slot_id = none) :
    Reserved ((s.set_peer k.role k.idx
      { peer with free_preallocated_slots := peer.free_preallocated_slots ++ [k.slot] }).write ref
        p2p) (L.release k.request_id) := by
  have hclaimed := claimed_release h.once hk
  refine h.restock rfl htransfer (h.tracked k hk) hpeer rfl ?_ ?_ ?_ ?_ ?_ (fun _ => hp2p) ?_
  · have hperm := h.conserved k.role k.idx
    unfold listed at hperm
    rw [hpeer] at hperm
    have hhere := hclaimed k.role k.idx
    rw [if_pos ⟨rfl, rfl⟩] at hhere
    rw [append_assoc]
    exact (hhere.symm.append_left _).trans hperm
  · intro role idx hne
    have hthere := hclaimed role idx
    rw [if_neg fun heq => hne ⟨heq.1.symm, heq.2.symm⟩] at hthere
    exact hthere.symm
  · exact (filter_sublist.map Claim.request_id).nodup h.once
  · intro k' hne
    exact mem_filter.trans (and_iff_left (decide_eq_true hne))
  · exact fun k' hk' heq => absurd heq (unclaimed_release L k.request_id k' hk')
  · exact fun entry hentry => unclaimed_of_release (h.queued entry hentry).unclaimed

theorem Reserved.recycle (h : Reserved s L) {r : RequestId} {role : Role}
    (hfills : Fills s L role r) : Reserved (recycle r role s) (L.release r) := by
  unfold DiffusionServer.recycle
  by_cases hfree : L.Unclaimed r
  · rw [release_of_unclaimed hfree]
    cases htransfer : s.transfer_of r with
    | none => exact h
    | some ref =>
      unfold recycle_prealloc_slot
      dsimp only
      rw [h.bare r ref htransfer hfree]
      exact h
  · have hsome : ∃ k ∈ L.claims, k.request_id = r := by
      by_contra hnone
      apply hfree
      intro k hk heq
      exact hnone ⟨k, hk, heq⟩
    obtain ⟨k, hk, hr⟩ := hsome
    subst hr
    obtain ⟨hrole, hsize⟩ := hfills k hk rfl
    subst hrole
    obtain ⟨ref, peer, htransfer, hpeer, hknows⟩ := h.known k hk
    have hregistered : k.slot ∈ L.registered k.role k.idx := by
      apply (h.conserved k.role k.idx).mem_iff.mp
      apply mem_append_right
      exact mem_map_of_mem (mem_filter.mpr ⟨hk, decide_eq_true ⟨rfl, rfl⟩⟩)
    obtain ⟨hid, haddr⟩ := h.placed k.role k.idx peer hpeer k.slot hregistered
    obtain ⟨slot_id, hslot_id⟩ := isSome_iff_exists.mp hid
    have hrebuilt : (⟨(s.transfers ref).receiver_slot_offset, (s.transfers ref).data_size,
        some slot_id, (s.transfers ref).receiver_pool_ptr + (s.transfers ref).receiver_slot_offset⟩ :
          SlotInfo) = k.slot := by
      rw [hknows.offset, hknows.pool, ← haddr, ← hsize ref htransfer, ← hslot_id]
    rw [htransfer]
    unfold recycle_prealloc_slot
    dsimp only
    rw [hknows.slot_id, hslot_id]
    dsimp only
    rw [hknows.instance_idx, if_neg (Int.not_lt.mpr (Int.natCast_nonneg _)), Int.toNat_natCast,
      hpeer]
    rw [hrebuilt]
    exact h.give hk htransfer hpeer rfl

/-! ## Drains -/

theorem claim_nil (L : SlotLedger) : L.claim [] = L := by
  unfold SlotLedger.claim
  rw [append_nil]

theorem claim_append (L : SlotLedger) (a b : List Claim) :
    (L.claim a).claim b = L.claim (a ++ b) := by
  unfold SlotLedger.claim
  rw [append_assoc]

theorem Reserved.fast_path (h : Reserved s L) {r : RequestId} {ref : ℕ} {role : Role} {idx : ℕ}
    {b : Bool} (hqueued : Queued s L ⟨r, ref⟩) (hwaits : ¬ Waits s r)
    (hinstance : (s.transfers ref).receiver_instance = (idx : ℤ))
    (hfast : try_fast_path_push c r ref role idx s = some (b, s')) :
    Reserved s' (L.claim (fast_claim r ref role idx s)) := by
  unfold try_fast_path_push at hfast
  unfold fast_claim listed
  cases hpeer : (s.peers role).get? idx with
  | none =>
    rw [hpeer] at hfast
    cases hfast
    rw [claim_nil]
    exact h
  | some peer =>
    rw [hpeer] at hfast
    dsimp only at hfast ⊢
    cases hslots : peer.free_preallocated_slots with
    | nil =>
      rw [hslots] at hfast
      cases hfast
      rw [claim_nil]
      exact h
    | cons slot_info rest =>
      rw [hslots] at hfast
      dsimp only at hfast ⊢
      by_cases hsize : slot_info.size < (s.transfers ref).data_size
      · rw [if_pos hsize] at hfast ⊢
        cases hfast
        rw [claim_nil]
        exact h
      · rw [if_neg hsize] at hfast ⊢
        split at hfast
        · cases hfast
        · cases hfast
          refine Reserved.same ?_ (SameSlots.act _ _)
          exact h.take hqueued hwaits hpeer hslots ⟨rfl, hinstance, rfl, rfl⟩

/-- **A dispatch** takes the slot of the fast path, or none. -/
theorem Reserved.dispatch (h : Reserved s L) {r : RequestId} {ref : ℕ} {role : Role} {idx : ℕ}
    (hqueued : Queued s L ⟨r, ref⟩) (hwaits : ¬ Waits s r)
    (hdispatch : transfer_dispatch c role r ref idx s = some s') :
    Reserved s' (L.claim (fast_claim r ref role idx s)) := by
  unfold transfer_dispatch at hdispatch
  dsimp only at hdispatch
  have hcounted := (SameSlots.add_slots s role idx (-1)).trans
    (SameSlots.act _ (.dispatch role r idx))
  obtain ⟨t, ht⟩ : ∃ t, (s.add_slots role idx (-1)).act (.dispatch role r idx) = t := ⟨_, rfl⟩
  rw [ht] at hcounted hdispatch
  have htransfers : t.transfers = s.transfers := hcounted.transfers
  obtain ⟨p2p, hp2p⟩ : ∃ p2p, p2p = { t.transfers ref with receiver_instance := (idx : ℤ) } :=
    ⟨_, rfl⟩
  rw [← hp2p] at hdispatch
  have hnone : p2p.prealloc_slot_id = none := by
    rw [hp2p, htransfers]
    exact h.bare r ref hqueued.transfer hqueued.unclaimed
  have href : t.transfer_of r = some ref := (hcounted.transfer_of_eq r).trans hqueued.transfer
  have hwritten := (h.same hcounted).write href hqueued.unclaimed hnone
  have hmoved := SameSlots.transition (t.write ref p2p) r role.running none (some (role, idx))
  have hready := hwritten.same hmoved
  obtain ⟨u, hu⟩ : ∃ u, (t.write ref p2p).transition r role.running none (some (role, idx)) = u :=
    ⟨_, rfl⟩
  rw [hu] at hmoved hready hdispatch
  have hobject : u.transfers ref = p2p := by
    rw [hmoved.transfers]
    exact update_self _ _ _
  have hqueued' : Queued u L ⟨r, ref⟩ :=
    ⟨(hmoved.transfer_of_eq r).trans href,
      hmoved.tracked r (hcounted.tracked r hqueued.tracked), hqueued.unclaimed⟩
  have hwaits' : ¬ Waits u r := by
    unfold Waits queue_ids
    rw [hmoved.denoiser_tta, hmoved.decoder_tta]
    unfold Server.write
    rw [hcounted.denoiser_tta, hcounted.decoder_tta]
    exact hwaits
  have hinstance : (u.transfers ref).receiver_instance = (idx : ℤ) := by rw [hobject, hp2p]
  have hsame : fast_claim r ref role idx u = fast_claim r ref role idx s := by
    have hlisted : listed u role idx = listed s role idx :=
      (hmoved.listed_eq role idx).trans (hcounted.listed_eq role idx)
    unfold fast_claim
    rw [hlisted, hobject, hp2p, htransfers]
  rw [← hsame]
  split at hdispatch
  · cases hdispatch
  · next hfast =>
    cases hdispatch
    exact hready.fast_path hqueued' hwaits' hinstance hfast
  · next hslow =>
    cases hdispatch
    exact (hready.fast_path hqueued' hwaits' hinstance hslow).same (SameSlots.act _ _)

theorem fast_claim_set_tta (r : RequestId) (ref : ℕ) (role : Role) (idx : ℕ) (s : Server)
    (entries : List RoleTTAEntry) :
    fast_claim r ref role idx (s.set_tta role entries) = fast_claim r ref role idx s := by
  cases role with
  | encoder => rfl
  | denoiser => rfl
  | decoder => rfl

theorem Reserved.round (h : Reserved s L) {role : Role} {b : Bool}
    (hstep : drain_step c role s = some (b, s')) : Reserved s' (L.claim (round_claims role s)) := by
  unfold drain_step at hstep
  unfold round_claims
  cases hqueue : s.tta role with
  | nil =>
    rw [hqueue] at hstep
    cases hstep
    rw [claim_nil]
    exact h
  | cons entry rest =>
    rw [hqueue] at hstep
    cases hselect : s.select role with
    | none =>
      rw [hselect] at hstep
      cases hstep
    | some selected =>
      rw [hselect] at hstep
      obtain ⟨idx, t⟩ := selected
      have hsame := SameSlots.select hselect
      cases idx with
      | none =>
        cases hstep
        rw [claim_nil]
        exact h.same hsame
      | some idx =>
        rw [map_eq_some_iff] at hstep
        obtain ⟨u, hdispatch, hu⟩ := hstep
        cases hu
        have hqueue' : t.tta role = entry :: rest := by
          rw [← hqueue]
          cases role with
          | encoder => rfl
          | denoiser => exact hsame.denoiser_tta
          | decoder => exact hsame.decoder_tta
        obtain ⟨hpopped, hentry, hwaits⟩ := (h.same hsame).pop hqueue'
        have hentry' : Queued (t.set_tta role rest) L entry := by
          obtain ⟨htransfer, htracked, hfree⟩ := hentry
          cases role with
          | encoder => exact ⟨htransfer, htracked, hfree⟩
          | denoiser => exact ⟨htransfer, htracked, hfree⟩
          | decoder => exact ⟨htransfer, htracked, hfree⟩
        have hdispatched := hpopped.dispatch hentry' hwaits hdispatch
        rw [fast_claim_set_tta] at hdispatched
        exact hdispatched

theorem Reserved.loop {step : Server → Option (Bool × Server)} {claims : Server → List Claim}
    (hstep : ∀ {s s' : Server} {L : SlotLedger} {b : Bool}, Reserved s L → step s = some (b, s') →
      Reserved s' (L.claim (claims s))) (n : ℕ) :
    ∀ {s s' : Server} {L : SlotLedger}, Reserved s L → drain step n s = some s' →
      Reserved s' (L.claim (loop_claims step claims n s)) := by
  induction n with
  | zero =>
    intro s s' L h hdrain
    cases hdrain
    unfold loop_claims
    rw [claim_nil]
    exact h
  | succ n ih =>
    intro s s' L h hdrain
    unfold drain at hdrain
    unfold loop_claims
    cases hround : step s with
    | none =>
      rw [hround] at hdrain
      cases hdrain
    | some result =>
      obtain ⟨b, t⟩ := result
      rw [hround] at hdrain
      have hnext := hstep h hround
      cases b with
      | false =>
        cases hdrain
        rw [append_nil]
        exact hnext
      | true =>
        rw [← claim_append]
        exact ih hnext hdrain

theorem Reserved.drain (h : Reserved s L) (hdrain : drain_all_queues c s = some s') :
    Reserved s' (L.claim (drain_claims c s)) := by
  unfold drain_all_queues at hdrain
  rw [bind_eq_some_iff] at hdrain
  obtain ⟨s₂, h₂, hdecoder⟩ := hdrain
  rw [bind_eq_some_iff] at h₂
  obtain ⟨s₁, hencoder, hdenoiser⟩ := h₂
  have hfirst := h.same (drain_rel SameSlots.refl SameSlots.trans SameSlots.drain_encoder_step _ hencoder)
  have hround : ∀ (role : Role) {s s' : Server} {L : SlotLedger} {b : Bool}, Reserved s L →
      drain_step c role s = some (b, s') → Reserved s' (L.claim (round_claims role s)) :=
    fun _ _ _ _ _ h hstep => h.round hstep
  have hsecond := Reserved.loop (hround .denoiser) _ hfirst hdenoiser
  have hthird := Reserved.loop (hround .decoder) _ hsecond hdecoder
  unfold drain_claims
  rw [hencoder]
  dsimp only
  rw [hdenoiser, ← claim_append]
  exact hthird

/-! ## Handlers -/

theorem ends_of_tracked {r : RequestId} (hr : r ∈ s'.tracker.keys) : ends s s' r = false := by
  obtain ⟨record, hrecord⟩ := mem_keys_iff.mp hr
  unfold ends Server.state_of
  rw [hrecord]
  exact Bool.and_false _

/-- **The ledger after a call** that takes and gives back no slot. -/
theorem Reserved.kept {L' : SlotLedger} (h : Reserved s' L') {e : Event}
    (hclaims : L'.claims = L.claims) (hregistered : registered_by c e L = L')
    (hnew : new_claims c e s = []) (hends : ∀ k ∈ L.claims, hop_ends e k = false) :
    Reserved s' (slot_step c e s s' L) := by
  have hsame : slot_step c e s s' L = L' := by
    unfold slot_step
    have hkeep : (L.claims.filter fun k => !(hop_ends e k || ends s s' k.request_id))
        = L'.claims := by
      rw [hclaims]
      apply filter_eq_self.mpr
      intro k hk
      rw [hends k hk, ends_of_tracked (h.tracked k (hclaims ▸ hk))]
      rfl
    rw [hregistered, hnew, append_nil, hkeep]
  rw [hsame]
  exact h

theorem Reserved.keep (h : Reserved s' L) {e : Event} (hregistered : registered_by c e L = L)
    (hnew : new_claims c e s = []) (hends : ∀ k ∈ L.claims, hop_ends e k = false) :
    Reserved s' (slot_step c e s s' L) :=
  h.kept rfl hregistered hnew hends

theorem Reserved.released {r : RequestId} (h : Reserved s' (L.release r)) {e : Event}
    (hregistered : registered_by c e L = L) (hnew : new_claims c e s = [])
    (hends : ∀ k ∈ L.claims, hop_ends e k = decide (k.request_id = r)) :
    Reserved s' (slot_step c e s s' L) := by
  have hsame : slot_step c e s s' L = L.release r := by
    unfold slot_step SlotLedger.release
    rw [hregistered, hnew, append_nil]
    have hfilter : (L.claims.filter fun k => !(hop_ends e k || ends s s' k.request_id))
        = L.claims.filter fun k => decide (k.request_id ≠ r) := by
      apply filter_congr
      intro k hk
      rw [hends k hk]
      by_cases hr : k.request_id = r
      · rw [decide_eq_true hr, decide_eq_false (not_not_intro hr)]
        rfl
      · have hkept : k ∈ (L.release r).claims := mem_filter.mpr ⟨hk, decide_eq_true hr⟩
        rw [decide_eq_false hr, decide_eq_true hr, ends_of_tracked (h.tracked k hkept)]
        rfl
    rw [hfilter]
  rw [hsame]
  exact h

theorem Fills.ends {r : RequestId} {role : Role} (h : Fills s L role r) (k : Claim)
    (hk : k ∈ L.claims) :
    decide (k.role = role ∧ k.request_id = r) = decide (k.request_id = r) := by
  by_cases hr : k.request_id = r
  · rw [decide_eq_true hr, decide_eq_true ⟨(h k hk hr).1, hr⟩]
  · rw [decide_eq_false hr, decide_eq_false (fun heq => hr heq.2)]

theorem SameSlots.client_request (hglm : s.glm = none) (now : ℚ) (frames : ClientFrames) :
    SameSlots s (handle_client_request now frames s) := by
  unfold handle_client_request
  cases frames with
  | malformed => exact refl s
  | other client_identity => exact act s _
  | request client_identity payload req =>
    dsimp only
    cases hsubmit : s.tracker.submit (req.id now) now with
    | none => exact refl s
    | some tracker =>
      have hkeys : ∀ r, r ∈ s.tracker.keys → r ∈ tracker.keys := by
        unfold Tracker.submit at hsubmit
        split at hsubmit
        · cases hsubmit
        · cases hsubmit
          intro r hr
          exact mem_keys_set.mpr (Or.inr hr)
      rw [hglm]
      exact ⟨rfl, rfl, rfl, rfl, rfl, rfl, fun r hr => Tracker.keys_move.mpr (hkeys r hr)⟩

theorem Reserved.register (h : Reserved s L) {role : Role} {idx : ℕ} {info : PeerInfo}
    (hfree : L.claimed role idx = []) (hslots : ∀ slot ∈ info.free_preallocated_slots,
      slot.slot_id.isSome = true ∧ slot.addr = info.pool_ptr + slot.offset) :
    Reserved (s.set_peer role idx info) (L.register role idx info.free_preallocated_slots) := by
  have hregistered : ∀ role' idx',
      (L.register role idx info.free_preallocated_slots).registered role' idx' =
        if role' = role ∧ idx' = idx then info.free_preallocated_slots
        else L.registered role' idx' := by
    intro role' idx'
    unfold SlotLedger.register
    dsimp only
    by_cases hrole : role' = role
    · subst hrole
      rw [update_self]
      by_cases hidx : idx' = idx
      · rw [hidx, update_self, if_pos ⟨rfl, rfl⟩]
      · rw [update_of_ne hidx, if_neg (fun heq => hidx heq.2)]
    · rw [update_of_ne hrole, if_neg (fun heq => hrole heq.1)]
  constructor
  · intro role' idx'
    rw [hregistered, listed_set_peer]
    by_cases hhere : role' = role ∧ idx' = idx
    · obtain ⟨hrole, hidx⟩ := hhere
      subst hrole hidx
      have hnone : (L.register role' idx' info.free_preallocated_slots).claimed role' idx' = [] :=
        hfree
      rw [if_pos ⟨rfl, rfl⟩, if_pos ⟨rfl, rfl⟩, hnone, append_nil]
    · rw [if_neg hhere, if_neg hhere]
      exact h.conserved role' idx'
  · intro role' idx' peer hpeer slot hslot
    rw [hregistered] at hslot
    rw [peer_set_peer] at hpeer
    by_cases hhere : role' = role ∧ idx' = idx
    · rw [if_pos hhere] at hslot hpeer
      cases hpeer
      exact hslots slot hslot
    · rw [if_neg hhere] at hslot hpeer
      exact h.placed role' idx' peer hpeer slot hslot
  · exact h.once
  · exact h.tracked
  · intro k hk
    obtain ⟨ref, peer, htransfer, hpeer, hknows⟩ := h.known k hk
    refine ⟨ref, peer, htransfer, ?_, hknows⟩
    rw [peer_set_peer, if_neg]
    · exact hpeer
    · intro hhere
      have hin : k.slot ∈ L.claimed role idx :=
        mem_map_of_mem (mem_filter.mpr ⟨hk, decide_eq_true hhere⟩)
      rw [hfree] at hin
      exact not_mem_nil hin
  · exact h.bare
  · exact h.own
  · exact h.fresh
  · exact fun entry hentry => ⟨(h.queued entry hentry).transfer, (h.queued entry hentry).tracked,
      (h.queued entry hentry).unclaimed⟩
  · exact h.queued_once

theorem Reserved.register_msg (h : Reserved s L) (hglm : s.glm = none) {now : ℚ} {from_role : Role}
    {msg : RegisterMsg} (hgives : GivesBack c now s L (.transfer from_role (.register msg))) :
    Reserved (handle_transfer_register c msg s)
      (slot_step c (.transfer from_role (.register msg)) s (handle_transfer_register c msg s) L) := by
  have hends : ∀ k ∈ L.claims, hop_ends (.transfer from_role (.register msg)) k = false := by
    intro k _
    cases from_role <;> rfl
  unfold handle_transfer_register
  cases hrole : msg.role with
  | none =>
    refine h.keep ?_ rfl hends
    unfold registered_by
    dsimp only
    rw [hrole]
    rfl
  | some role =>
    dsimp only
    cases hidx : c.endpoint_to_idx role msg.work_endpoint with
    | none =>
      refine h.keep ?_ rfl hends
      unfold registered_by
      dsimp only
      rw [hrole, bind_some, hidx]
      rfl
    | some idx =>
      obtain ⟨hfree, hslots⟩ := hgives role idx hrole hidx
      have hregistered : registered_by c (.transfer from_role (.register msg)) L
          = L.register role idx msg.preallocated_slots := by
        unfold registered_by
        dsimp only
        rw [hrole, bind_some, hidx]
        rfl
      have hset : Reserved (s.set_peer role idx ⟨msg.session_id, msg.pool_ptr, msg.pool_size,
          msg.work_endpoint, msg.preallocated_slots⟩)
            (L.register role idx msg.preallocated_slots) := h.register hfree hslots
      dsimp only
      split
      · next state hsome =>
        have hsome' : s.glm = some state := hsome
        rw [hglm] at hsome'
        cases hsome'
      · exact hset.kept rfl hregistered rfl hends

theorem Reserved.staged_msg (h : Reserved s L) {msg : StagedMsg}
    (htracked : msg.request_id ∈ s.tracker.keys) (hfree : L.Unclaimed msg.request_id)
    (hwaits : ¬ Waits s msg.request_id) : Reserved (handle_transfer_staged msg s) L := by
  unfold handle_transfer_staged
  obtain ⟨p2p, hp2p⟩ : ∃ p2p, p2p =
      staged_transfer msg (s.sender_instance .encoder msg.request_id) := ⟨_, rfl⟩
  rw [← hp2p]
  have hnone : p2p.prealloc_slot_id = none := by
    rw [hp2p]
    rfl
  have hnew := h.new_transfer hfree hwaits hnone
  have hmoved := (SameSlots.transition (s.new_transfer msg.request_id p2p) msg.request_id
    .encoder_done none none).trans (SameSlots.transition _ msg.request_id .denoising_waiting none
      none)
  refine @Reserved.enqueue _ _ (hnew.same hmoved) .denoiser msg.request_id s.next_transfer ?_ ?_
  · refine ⟨?_, hmoved.tracked _ htracked, hfree⟩
    rw [hmoved.transfer_of_eq, transfer_of_new, if_pos rfl]
  · exact hwaits

theorem Reserved.allocated (h : Reserved s L) {msg : AllocatedMsg}
    (hfree : L.Unclaimed msg.request_id) (hstep : handle_transfer_allocated c msg s = some s') :
    Reserved s' L := by
  unfold handle_transfer_allocated at hstep
  split at hstep
  · cases hstep
    exact h
  · next ref href =>
    dsimp only at hstep
    split at hstep
    · cases hstep
    · cases hstep
      refine Reserved.same ?_ (SameSlots.act _ _)
      exact h.write href hfree (h.bare msg.request_id ref href hfree)

theorem waits_recycle (s : Server) (r r' : RequestId) (role : Role) :
    Waits (recycle r role s) r' ↔ Waits s r' := by
  have hbooks := (Exchange.recycle r role s).books
  unfold Waits
  rw [hbooks.queue_ids_eq, hbooks.queue_ids_eq]

theorem waits_same (hsame : SameSlots s s') (r : RequestId) : Waits s' r ↔ Waits s r := by
  unfold Waits queue_ids
  rw [hsame.denoiser_tta, hsame.decoder_tta]

theorem transfer_of_recycle (s : Server) (r r' : RequestId) (role : Role) :
    (recycle r role s).transfer_of r' = s.transfer_of r' := by
  unfold Server.transfer_of
  rw [(Exchange.recycle r role s).transfer_state]

section

variable (h : Reserved s L)
include h

theorem Reserved.denoiser_done {now : ℚ} {msg : DoneMsg}
    (hgives : GivesBack c now s L (.transfer .denoiser (.done msg))) :
    Reserved (denoiser_done msg s) (L.release msg.request_id) := by
  obtain ⟨hfills, herror, hstaged⟩ := hgives
  have hrecycled := h.recycle hfills
  have hwaits := waits_recycle s msg.request_id msg.request_id .denoiser
  have htransfer := transfer_of_recycle s msg.request_id msg.request_id .denoiser
  have htracker := (Exchange.recycle msg.request_id .denoiser s).books.tracker
  unfold DiffusionServer.denoiser_done
  obtain ⟨t, ht⟩ : ∃ t, DiffusionServer.recycle msg.request_id .denoiser s = t := ⟨_, rfl⟩
  rw [ht] at hrecycled hwaits htransfer htracker ⊢
  have hfree := unclaimed_release L msg.request_id
  cases hcase : truthy msg.error with
  | some error =>
    rw [hcase] at herror
    have hfreed := SameSlots.free_slot t .denoiser (s.instance_of .denoiser msg.request_id)
    apply (hrecycled.same hfreed).leave _ _ _ hfree
    rw [waits_same hfreed, hwaits]
    exact herror rfl
  | none =>
    rw [hcase] at hstaged
    dsimp only
    have hmoved := SameSlots.transition t msg.request_id .denoising_done none none
    obtain ⟨u, hu⟩ : ∃ u, t.transition msg.request_id .denoising_done none none = u := ⟨_, rfl⟩
    rw [hu] at hmoved ⊢
    by_cases hforward : msg.staged_for_decoder = true ∧
        (u.transfer_of msg.request_id).isSome = true
    · obtain ⟨ref, href⟩ := isSome_iff_exists.mp hforward.2
      have htransfer' : s.transfer_of msg.request_id = some ref := by
        rw [← htransfer, ← hmoved.transfer_of_eq]
        exact href
      obtain ⟨htracked, hnot⟩ := hstaged rfl hforward.1 (by
        rw [htransfer']
        exact some_ne_none _)
      rw [forward_staged href hforward.1]
      unfold stage_for_decoder
      obtain ⟨p2p, hp2p⟩ : ∃ p2p, p2p = restaged_transfer msg
          (u.sender_instance .denoiser msg.request_id) (u.transfers ref) := ⟨_, rfl⟩
      rw [← hp2p]
      have hu' := hrecycled.same hmoved
      have hnone : p2p.prealloc_slot_id = none := by
        rw [hp2p]
        exact hu'.bare msg.request_id ref href hfree
      have hwritten := hu'.write href hfree hnone
      have hwaiting := SameSlots.transition (u.write ref p2p) msg.request_id .decoder_waiting none
        none
      refine @Reserved.enqueue _ _ (hwritten.same hwaiting) .decoder msg.request_id ref ?_ ?_
      · refine ⟨(hwaiting.transfer_of_eq _).trans href, ?_, hfree⟩
        apply hwaiting.tracked
        apply hmoved.tracked
        rw [htracker]
        exact htracked
      · rw [waits_same hwaiting]
        have hsame : Waits (u.write ref p2p) msg.request_id ↔ Waits u msg.request_id := Iff.rfl
        rw [hsame, waits_same hmoved, hwaits]
        exact hnot
    · rw [forward_freed hforward]
      exact (hrecycled.same hmoved).same (SameSlots.free_slot _ _ _)

theorem Reserved.decoder_done {msg : DoneMsg}
    (hfills : Fills s L .decoder msg.request_id) (hwaits : ¬ Waits s msg.request_id) :
    Reserved (decoder_done msg s) (L.release msg.request_id) := by
  have hrecycled := h.recycle hfills
  have hnot := (waits_recycle s msg.request_id msg.request_id .decoder).not.mpr hwaits
  unfold DiffusionServer.decoder_done
  dsimp only
  obtain ⟨t, ht⟩ : ∃ t, DiffusionServer.recycle msg.request_id .decoder s = t := ⟨_, rfl⟩
  rw [ht] at hrecycled hnot ⊢
  have hfree := unclaimed_release L msg.request_id
  have hfreed := SameSlots.free_slot t .decoder (t.instance_of .decoder msg.request_id)
  obtain ⟨u, hu⟩ : ∃ u, t.free_slot .decoder (t.instance_of .decoder msg.request_id) = u := ⟨_, rfl⟩
  rw [hu] at hfreed ⊢
  rw [← waits_same hfreed] at hnot
  obtain ⟨new_state, error, error', hconclude⟩ := conclude_eq msg u
  rw [hconclude]
  have hleft := (hrecycled.same hfreed).leave new_state error error' hfree hnot
  apply hleft.forget hfree
  have hsame := (SameSlots.transition u msg.request_id new_state error none).trans
    (SameSlots.answer _ msg.request_id error')
  exact fun hw => hnot ((waits_same hsame _).mp hw)

theorem Reserved.decoder_result_frames {frames : ResultFrames}
    (hgives : ∀ r, frames.request_id = some r → L.Unclaimed r ∧ ¬ Waits s r) :
    Reserved (handle_decoder_result_frames frames s) L := by
  rcases decoder_result_frames_cases frames s with
    ⟨-, heq⟩ | ⟨request_id, new_state, error, _, hid, rfl, hend⟩
  · rw [heq]
    exact h
  · obtain ⟨hfree, hwaits⟩ := hgives request_id hid
    have hfreed := SameSlots.free_slot s .decoder (s.instance_of .decoder request_id)
    have hnot := (waits_same hfreed request_id).not.mpr hwaits
    rcases hend with ⟨-, heq⟩ | ⟨-, heq⟩
    · rw [heq]
      exact (h.same hfreed).leave _ _ _ hfree hnot
    · rw [heq]
      have hsame := (hfreed.trans (SameSlots.transition _ request_id new_state error none)).trans
        (SameSlots.answer _ request_id frames.error)
      have hnot' := (waits_same hsame request_id).not.mpr hwaits
      exact ((h.same hsame).forget hfree hnot').untrack hfree hnot'

theorem Reserved.role_error_frames (role : Role) {frames : ResultFrames}
    (hgives : ∀ r, frames.request_id = some r → (truthy frames.disagg_error).isSome = true →
      L.Unclaimed r ∧ ¬ Waits s r) : Reserved (handle_role_error_frames role frames s) L := by
  unfold handle_role_error_frames
  split
  · next request_id disagg_error hid herror =>
    have hid' := (filter_eq_some_iff.mp hid).1
    obtain ⟨hfree, hwaits⟩ := hgives request_id hid' (by rw [herror]; rfl)
    exact h.leave _ _ _ hfree hwaits
  · exact h

theorem Reserved.time_out (c : Config) {r : RequestId} (hfree : L.Unclaimed r)
    (hwaits : ¬ Waits s r) : Reserved (time_out c s r) L := by
  obtain ⟨role, idx, error, heq, -⟩ := time_out_eq c s r
  have hfreed := SameSlots.free_slot s role idx
  rw [heq]
  exact (h.same hfreed).leave _ _ _ hfree ((waits_same hfreed _).not.mpr hwaits)

end

theorem Reserved.foldl_time_out (c : Config) (timed_out : List RequestId) : ∀ {s : Server},
    Reserved s L → (∀ r ∈ timed_out, L.Unclaimed r ∧ ¬ Waits s r) →
      Reserved (timed_out.foldl (DiffusionServer.time_out c) s) L := by
  induction timed_out with
  | nil => exact fun h _ => h
  | cons r timed_out ih =>
    intro s h hall
    obtain ⟨hfree, hwaits⟩ := hall r mem_cons_self
    apply ih (h.time_out c hfree hwaits)
    intro r' hr'
    obtain ⟨hfree', hwaits'⟩ := hall r' (mem_cons_of_mem _ hr')
    refine ⟨hfree', ?_⟩
    unfold Waits
    rw [queue_ids_time_out, queue_ids_time_out]
    exact hwaits'

theorem Reserved.timeouts (h : Reserved s L) (hglm : s.glm = none) {now : ℚ}
    (hgives : ∀ r ∈ s.tracker.find_timed_out c.timeout_s now, L.Unclaimed r) :
    Reserved (handle_timeouts c now s) L := by
  rw [handle_timeouts_staged c now hglm]
  obtain ⟨hleft, hnot⟩ := h.leave_queues (s.tracker.find_timed_out c.timeout_s now)
  exact hleft.foldl_time_out c _ fun r hr => ⟨hgives r hr, hnot r hr⟩

/-! ## Runs -/

/-- **One call.** A call that gives slots back as they were keeps the invariant. -/
theorem Reserved.step (h : Reserved s L) (hglm : s.glm = none) {now : ℚ} {e : Event}
    (hgives : GivesBack c now s L e) (hstep : handle c now e s = some s') :
    Reserved s' (slot_step c e s s' L) := by
  obtain ⟨hconnected, hdisconnected, hdone, hdispatch, hdenoiser⟩ := glm_handlers_idle (c := c) hglm
  cases e with
  | client_request frames =>
    cases hstep
    exact (h.same (SameSlots.client_request hglm now frames)).keep rfl rfl fun _ _ => rfl
  | transfer role msg =>
    cases msg with
    | register msg =>
      cases hstep
      exact h.register_msg hglm hgives
    | staged msg =>
      cases hstep
      obtain ⟨htracked, hfree, hwaits⟩ := hgives
      refine (h.staged_msg htracked hfree hwaits).keep rfl rfl fun k _ => ?_
      cases role <;> rfl
    | allocated msg =>
      refine (h.allocated hgives hstep).keep rfl rfl fun k _ => ?_
      cases role <;> rfl
    | pushed request_id =>
      refine (h.same (SameSlots.pushed hstep)).keep rfl rfl fun k _ => ?_
      cases role <;> rfl
    | done msg =>
      cases hstep
      cases role with
      | encoder => exact h.keep rfl rfl fun _ _ => rfl
      | denoiser =>
        exact (h.denoiser_done hgives).released rfl rfl fun k hk => hgives.1.ends k hk
      | decoder =>
        exact (h.decoder_done hgives.1 hgives.2).released rfl rfl fun k hk =>
          hgives.1.ends k hk
    | unknown =>
      cases hstep
      refine h.keep rfl rfl fun k _ => ?_
      cases role <;> rfl
  | frames role frames =>
    cases hstep
    unfold handle_frames
    rw [hglm]
    cases role with
    | encoder => exact (h.role_error_frames .encoder hgives).keep rfl rfl fun _ _ => rfl
    | denoiser => exact (h.role_error_frames .denoiser hgives).keep rfl rfl fun _ _ => rfl
    | decoder =>
      refine (h.decoder_result_frames hgives).keep rfl rfl fun k hk => ?_
      apply decide_eq_false
      rintro ⟨_, hid⟩
      exact (hgives k.request_id hid).1 k hk rfl
  | timeouts =>
    cases hstep
    exact (h.timeouts hglm hgives).keep rfl rfl fun _ _ => rfl
  | drain =>
    unfold handle at hstep
    rw [hglm] at hstep
    have hdrained : Reserved s' (L.claim (drain_claims c s)) := h.drain hstep
    have hkeys := (Quiet.drain_all_queues hstep).keys
    have hsame : slot_step c .drain s s' L = L.claim (drain_claims c s) := by
      have hkeep : (L.claims.filter fun k => !(hop_ends .drain k || ends s s' k.request_id))
          = L.claims := by
        apply filter_eq_self.mpr
        intro k hk
        rw [ends_of_tracked ((hkeys _).mpr (h.tracked k hk))]
        rfl
      unfold slot_step SlotLedger.claim
      rw [hkeep]
      rfl
    rw [hsame]
    exact hdrained
  | connected worker_idx =>
    cases hstep
    rw [hconnected]
    exact h.keep rfl rfl fun _ _ => rfl
  | disconnected worker_idx =>
    cases hstep
    rw [hdisconnected]
    exact h.keep rfl rfl fun _ _ => rfl
  | ar_done error group =>
    cases hstep
    rw [hdone]
    exact h.keep rfl rfl fun _ _ => rfl
  | ar_dispatch =>
    cases hstep
    rw [hdispatch]
    exact h.keep rfl rfl fun _ _ => rfl
  | denoiser_dispatch =>
    unfold handle at hstep
    rw [hdenoiser] at hstep
    cases hstep
    exact h.keep rfl rfl fun _ _ => rfl

theorem Reserved.init (c : Config) : Reserved (Server.init c) SlotLedger.empty where
  conserved := fun _ _ => List.Perm.refl []
  placed := fun _ _ _ hpeer => absurd hpeer (some_ne_none _).symm
  once := nodup_nil
  tracked := fun _ hk => absurd hk not_mem_nil
  known := fun _ hk => absurd hk not_mem_nil
  bare := fun _ _ htransfer => absurd htransfer (some_ne_none _).symm
  own := fun _ _ _ htransfer => absurd htransfer (some_ne_none _).symm
  fresh := fun _ _ htransfer => absurd htransfer (some_ne_none _).symm
  queued := fun _ hentry => absurd hentry not_mem_nil
  queued_once := nodup_nil

/-- **The preallocated slots are conserved** in every state of a run of the staged mode whose calls
all give slots back as they were. -/
theorem prealloc_slots_conserved (hmode : c.glm_distributed_mode_enabled = false)
    (h : SlotRun c (GivesBack c) s L) : SlotsConserved s L := by
  have hs : Reserved s L := by
    induction h with
    | init => exact Reserved.init c
    | step hs he hstep ih => exact ih.step (hs.reachable.staged_mode hmode) he hstep
  exact hs.slots_kept

/-- A request of some bytes is sent into the slot of the denoiser, which then gives its result. -/
def recycle_calls (size : ℕ) : List (ℚ × Event) :=
  sent_calls size ++ [(2, .transfer .denoiser (.done
    ⟨⟨.client "a", 16, "manifest", "session", 4096, 256, "fields"⟩, none, true⟩))]

instance (L : SlotLedger) (request_id : RequestId) : Decidable (L.Unclaimed request_id) :=
  inferInstanceAs (Decidable (∀ k ∈ L.claims, k.request_id ≠ request_id))

instance (s : Server) (request_id : RequestId) : Decidable (Waits s request_id) :=
  inferInstanceAs (Decidable (request_id ∈ queue_ids s .denoiser ∨ request_id ∈ queue_ids s .decoder))

instance (s : Server) (L : SlotLedger) (role : Role) (request_id : RequestId) :
    Decidable (Fills s L role request_id) :=
  inferInstanceAs (Decidable (∀ k ∈ L.claims, k.request_id = request_id → k.role = role ∧
    ∀ ref ∈ s.transfer_of request_id, k.slot.size = (s.transfers ref).data_size))

/-- A check of the calls of `recycle_calls` by which they give the slot back. -/
def keeps_slot (s : Server) (L : SlotLedger) : Event → Bool
  | .transfer _ (.register msg) => L.claims.isEmpty && msg.preallocated_slots.all fun slot =>
      slot.slot_id.isSome && decide (slot.addr = msg.pool_ptr + slot.offset)
  | .transfer _ (.staged msg) => decide (msg.request_id ∈ s.tracker.keys ∧
      L.Unclaimed msg.request_id ∧ ¬ Waits s msg.request_id)
  | .transfer .denoiser (.done msg) => decide (Fills s L .denoiser msg.request_id ∧
      msg.request_id ∈ s.tracker.keys ∧ ¬ Waits s msg.request_id)
  | .client_request _ | .drain => true
  | _ => false

theorem gives_back_of_keeps (c : Config) (now : ℚ) (s : Server) (L : SlotLedger) (e : Event)
    (h : keeps_slot s L e = true) : GivesBack c now s L e := by
  unfold keeps_slot at h
  split at h
  · rw [Bool.and_eq_true, List.isEmpty_iff, List.all_eq_true] at h
    intro role idx _ _
    refine ⟨by rw [SlotLedger.claimed, h.1]; rfl, fun slot hslot => ?_⟩
    simpa using h.2 slot hslot
  · obtain ⟨hmem, hclaim, hwaits⟩ := of_decide_eq_true h
    exact ⟨hmem, hclaim, hwaits⟩
  · obtain ⟨hfills, hmem, hwaits⟩ := of_decide_eq_true h
    exact ⟨hfills, fun _ => hwaits, fun _ _ _ => ⟨hmem, hwaits⟩⟩
  · trivial
  · trivial
  · cases h

/-- The slot is taken, filled by the request and free again. -/
theorem filled_slot_conserved : ∃ s L, serve small_config (slot_step small_config) keeps_slot (recycle_calls 64)
      (Server.init small_config) SlotLedger.empty = some (s, L) ∧
    listed s .denoiser 0 = [⟨128, 64, some 0, 4224⟩] ∧ SlotsConserved s L := by
  have hrun : ((serve small_config (slot_step small_config) keeps_slot (recycle_calls 64) (Server.init small_config)
      SlotLedger.empty).map fun r => listed r.1 .denoiser 0)
        = some [⟨128, 64, some 0, 4224⟩] := by decide +kernel
  rw [map_eq_some_iff] at hrun
  obtain ⟨⟨s, L⟩, hserve, hlisted⟩ := hrun
  exact ⟨s, L, hserve, hlisted, prealloc_slots_conserved rfl
    (serve_induct (fun h hok => h.step (gives_back_of_keeps _ _ _ _ _ hok)) _ SlotRun.init hserve)⟩

/-- After a request of 32 bytes the slot is free again, with the size of the bytes that were sent. -/
theorem recycled_slot_shrinks :
    ¬ ∀ (c : Config) (s : Server) (L : SlotLedger), c.glm_distributed_mode_enabled = false →
      SlotRun c (fun _ _ _ _ => True) s L → SlotsConserved s L := by
  intro h
  have hrun : ((serve small_config (slot_step small_config) (fun _ _ _ => true) (recycle_calls 32)
      (Server.init small_config) SlotLedger.empty).map fun r =>
        (listed r.1 .denoiser 0, r.2.claims, r.2.registered .denoiser 0))
          = some ([⟨128, 32, some 0, 4224⟩], [], [⟨128, 64, some 0, 4224⟩]) := by decide +kernel
  rw [map_eq_some_iff] at hrun
  obtain ⟨⟨s, L⟩, hserve, hr⟩ := hrun
  rw [Prod.mk.injEq, Prod.mk.injEq] at hr
  obtain ⟨hlisted, hclaims, hregistered⟩ := hr
  have hperm := ((h small_config s L rfl (serve_induct (fun h _ => h.step trivial) _ SlotRun.init hserve)).2
    .denoiser 0).1
  have hnone : L.claimed .denoiser 0 = [] := by
    unfold SlotLedger.claimed
    rw [hclaims]
    rfl
  rw [hlisted, hregistered, hnone] at hperm
  exact absurd (singleton_perm_singleton.mp hperm) (by decide)

end LightningH3.DiffusionServer
